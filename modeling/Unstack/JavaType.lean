import Unstack.Text.Blank

namespace Unstack

/-- The type of a value. Object types are opaque dotted names; no class hierarchy is consulted. -/
inductive JavaType where
  | void
  | boolean
  | byte
  | char
  | short
  | int
  | long
  | float
  | double
  | object (name : String)
  | array (elem : JavaType)
  /-- The type of the literal `null`. -/
  | null
  | returnAddress
  | unknown
  deriving DecidableEq, Inhabited

namespace JavaType

/-- The object type of a name in either spelling, with dots or with slashes. -/
def ofName (name : List Char) : JavaType :=
  object (String.ofList (name.map fun c => if c = '/' then '.' else c))

def string : JavaType := object "java.lang.String"

def throwable : JavaType := object "java.lang.Throwable"

def anyObject : JavaType := object "java.lang.Object"

def isWide : JavaType → Bool
  | long | double => true
  | _ => false

def isReference : JavaType → Bool
  | object _ | array _ | null => true
  | _ => false

/-- Types that are computed with as `int`. -/
def isIntLike : JavaType → Bool
  | boolean | byte | char | short | int => true
  | _ => false

def isObject (name : String) : JavaType → Bool
  | object n => n == name
  | _ => false

def elem? : JavaType → Option JavaType
  | array elem => some elem
  | _ => none

def slotCount (t : JavaType) : Nat := if t.isWide then 2 else 1

/-- The least type above both, as far as that is known without a class hierarchy. -/
def join (a b : JavaType) : JavaType :=
  if a = b then a
  else if a = unknown || b = unknown then unknown
  else if a = null && b.isReference then b
  else if b = null && a.isReference then a
  else if a.isReference && b.isReference then anyObject
  else if a.isIntLike && b.isIntLike then int
  else unknown

def text : JavaType → String
  | void => "void"
  | boolean => "boolean"
  | byte => "byte"
  | char => "char"
  | short => "short"
  | int => "int"
  | long => "long"
  | float => "float"
  | double => "double"
  | object name => name
  | array elem => elem.text ++ "[]"
  | null => "null"
  | returnAddress => "returnAddress"
  | unknown => "?"

def simpleName : JavaType → String
  | object name => String.ofList (Text.afterLast '$' (Text.afterLast '.' name.toList))
  | array elem => elem.simpleName ++ "[]"
  | t => t.text

/-- The type of an array element in a class file descriptor, which must be used up. -/
def ofDescriptor? : List Char → Option JavaType
  | ['Z'] => some boolean
  | ['B'] => some byte
  | ['C'] => some char
  | ['S'] => some short
  | ['I'] => some int
  | ['J'] => some long
  | ['F'] => some float
  | ['D'] => some double
  | ['V'] => some void
  | '[' :: rest => (ofDescriptor? rest).map array
  | 'L' :: rest => if rest.getLast? = some ';' then some (ofName rest.dropLast) else none
  | _ => none

/-- Reads the run-time name of a class: `java.lang.String`, `[I`, `[Ljava.lang.String;`. -/
def ofClassName? (name : String) : Option JavaType :=
  match name.toList with
  | [] => none
  | '[' :: rest => (ofDescriptor? rest).map array
  | cs => some (ofName cs)

/-- A type name that cannot be read, at the level of array brackets where reading stopped. -/
structure NameError where
  name : String
  deriving DecidableEq

def NameError.message (e : NameError) : String := "invalid type name `" ++ e.name ++ "`"

def ofSimpleText (cs : List Char) : Except NameError JavaType :=
  match String.ofList cs with
  | "void" => .ok void
  | "boolean" => .ok boolean
  | "byte" => .ok byte
  | "char" => .ok char
  | "short" => .ok short
  | "int" => .ok int
  | "long" => .ok long
  | "float" => .ok float
  | "double" => .ok double
  | "null" => .ok null
  | "returnAddress" => .ok returnAddress
  | "?" => .ok unknown
  | name => if cs.isEmpty || cs.any Text.isBlank then .error ⟨name⟩ else .ok (ofName cs)

def beforeBrackets? (cs : List Char) : Option (List Char) :=
  match cs.reverse with
  | ']' :: '[' :: rest => some rest.reverse
  | _ => none

theorem beforeBrackets?_length {cs inner : List Char} (found : beforeBrackets? cs = some inner) :
    inner.length < cs.length := by
  unfold beforeBrackets? at found
  split at found
  · rename_i rest atEnd
    have length : cs.length = rest.length + 2 := by
      rw [← List.length_reverse, atEnd]
      rfl
    cases found
    rw [List.length_reverse]
    omega
  · cases found

theorem trim_length (cs : List Char) : (Text.trim cs).length ≤ cs.length := by
  simp only [Text.trim, List.length_reverse]
  have outer := (List.dropWhile_sublist (l := (cs.dropWhile Text.isBlank).reverse) Text.isBlank).length_le
  have inner := (List.dropWhile_sublist (l := cs) Text.isBlank).length_le
  rw [List.length_reverse] at outer
  omega

/-- Reads a type in source spelling. Blanks are allowed around the name and in front of array brackets. -/
def ofChars (cs : List Char) : Except NameError JavaType :=
  match _found : beforeBrackets? (Text.trim cs) with
  | some inner => (ofChars inner).map array
  | none => ofSimpleText (Text.trim cs)
termination_by cs.length
decreasing_by
  have shorter := beforeBrackets?_length _found
  have trimmed := trim_length cs
  omega

def ofText (s : String) : Except NameError JavaType := ofChars s.toList

end JavaType

end Unstack
