import Unstack.ClassFacts
import Unstack.Interchange.Method
import Unstack.Number.Reader
import Unstack.Options

namespace Unstack

namespace Options

def ofJson? (j : Json) : Option Options := do
  let j ← j.record
    ["max_dataflow_iterations", "max_rewrite_iterations", "string_switch", "enum_switch", "compound_assignments"]
  let standard : Options := {}
  return {
    maxRounds :=
      ← j.defaulted "max_dataflow_iterations" standard.maxRounds Json.nat?
    maxFolds := ← j.defaulted "max_rewrite_iterations" standard.maxFolds Json.nat?
    stringSwitch := ← j.defaulted "string_switch" standard.stringSwitch Json.bool?
    enumSwitch := ← j.defaulted "enum_switch" standard.enumSwitch Json.bool?
    compoundAssignments := ← j.defaulted "compound_assignments" standard.compoundAssignments Json.bool? }

def toJson (o : Options) : Json :=
  .obj [("max_dataflow_iterations", .ofNat o.maxRounds),
    ("max_rewrite_iterations", .ofNat o.maxFolds), ("string_switch", .bool o.stringSwitch),
    ("enum_switch", .bool o.enumSwitch), ("compound_assignments", .bool o.compoundAssignments)]

end Options

namespace EnumMap

/-- A case index in its shortest decimal form. -/
def index? (key : String) : Option Int := do
  let v ← signedDigits? key.toList
  if toString v = key && fitsInt32 v then some v else none

/-- The names of the case indexes; of several names for one index the last counts. -/
def cases? (j : Json) : Option (List (Int × String)) := do
  let entries ← (← j.fields?).mapM fun (key, name) => do return (← index? key, ← name.str?)
  return entries.foldl (fun names (index, name) => insertName index name names) []

def ofJson? (j : Json) : Option EnumMap := do
  let j ← j.record ["owner", "member", "enum", "cases"]
  return {
    owner := ← j.required "owner" JavaType.ofJson?
    member := ← j.required "member" Json.str?
    enumType := ← j.required "enum" JavaType.ofJson?
    cases := ← j.required "cases" cases? }

end EnumMap

namespace ClassFacts

def ofJson? (j : Json) : Option ClassFacts := do
  let j ← j.record ["declaring_type", "enum_maps"]
  return ofTable (← j.optional "declaring_type" JavaType.ofJson?)
    (← j.defaulted "enum_maps" [] (Json.list? EnumMap.ofJson?))

end ClassFacts

structure Fixture where
  facts : ClassFacts
  methods : List MethodInput

def Fixture.ofJson? (j : Json) : Option Fixture := do
  let j ← j.record ["declaring_type", "enum_maps", "methods"]
  return {
    facts := ← ClassFacts.ofJson? j
    methods := ← j.required "methods" (Json.list? MethodInput.ofJson?) }

end Unstack
