import Unstack.JavaType

namespace Unstack

/-- Which enum constant each case index of a switch stands for, as held by a synthetic field or method. -/
structure EnumMap where
  owner : JavaType
  member : String
  enumType : JavaType
  cases : List (Int × String)
  deriving DecidableEq, Inhabited

/-- Names by index in ascending order, where a later name replaces an earlier one. -/
def insertName (index : Int) (name : String) : List (Int × String) → List (Int × String)
  | [] => [(index, name)]
  | (i, other) :: rest =>
    if index < i then (index, name) :: (i, other) :: rest
    else if index = i then (index, name) :: rest
    else (i, other) :: insertName index name rest

/-- What is known about the class of a method beyond the method itself. -/
structure ClassFacts where
  /-- The declaring type, if it differs from the one in the method's description. -/
  declaringType : Option JavaType
  /-- The map behind a member of `owner`, for switches on the given enum. -/
  enumMap? (owner : JavaType) (member : String) (enumType : JavaType) : Option (List (Int × String))

namespace ClassFacts

def none : ClassFacts := ⟨.none, fun _ _ _ => .none⟩

/-- The facts of a table, in which the first map that fits counts. -/
def ofTable (declaringType : Option JavaType) (maps : List EnumMap) : ClassFacts where
  declaringType
  enumMap? owner member enumType :=
    (maps.find? fun m => m.owner == owner && m.member == member && m.enumType == enumType).map EnumMap.cases

end ClassFacts

end Unstack
