import Unstack.Interchange.Instr
import Unstack.Method

namespace Unstack

namespace LocalVar

def ofJson? (j : Json) : Option LocalVar := do
  let j ← j.record ["reg", "name", "ty", "start_pc", "end_pc"]
  return {
    reg := ← j.required "reg" Json.nat?
    name := ← j.required "name" Json.str?
    type := ← j.required "ty" JavaType.ofJson?
    startPc := ← j.required "start_pc" Json.nat?
    endPc := ← j.required "end_pc" Json.nat? }

def toJson (v : LocalVar) : Json :=
  .obj [("reg", .ofNat v.reg), ("name", .str v.name), ("ty", v.type.toJson), ("start_pc", .ofNat v.startPc),
    ("end_pc", .ofNat v.endPc)]

end LocalVar

namespace ExceptionRange

def ofJson? (j : Json) : Option ExceptionRange := do
  let j ← j.record ["start_pc", "end_pc", "handler_pc", "catch_type"]
  return {
    startPc := ← j.required "start_pc" Json.nat?
    endPc := ← j.required "end_pc" Json.nat?
    handlerPc := ← j.required "handler_pc" Json.nat?
    catchType := ← j.optional "catch_type" JavaType.ofJson? }

def toJson (r : ExceptionRange) : Json :=
  .obj [("start_pc", .ofNat r.startPc), ("end_pc", .ofNat r.endPc), ("handler_pc", .ofNat r.handlerPc),
    ("catch_type", .ofOption JavaType.toJson r.catchType)]

end ExceptionRange

namespace MethodInfo

def ofJson? (j : Json) : Option MethodInfo := do
  let j ← j.record ["name", "owner", "regs", "max_stack", "is_static", "params", "ret", "locals"]
  return {
    name := ← j.required "name" Json.str?
    owner := ← j.defaulted "owner" unknownOwner JavaType.ofJson?
    regs := ← j.required "regs" Json.nat?
    maxStack := ← j.defaulted "max_stack" 0 Json.nat?
    isStatic := ← j.defaulted "is_static" false Json.bool?
    params := ← j.defaulted "params" [] (Json.list? JavaType.ofJson?)
    result := ← j.defaulted "ret" .void JavaType.ofJson?
    locals := ← j.defaulted "locals" [] (Json.list? LocalVar.ofJson?) }

def toJson (m : MethodInfo) : Json :=
  .obj [("name", .str m.name), ("owner", m.owner.toJson), ("regs", .ofNat m.regs),
    ("max_stack", .ofNat m.maxStack), ("is_static", .bool m.isStatic),
    ("params", .ofList JavaType.toJson m.params), ("ret", m.result.toJson),
    ("locals", .ofList LocalVar.toJson m.locals)]

end MethodInfo

namespace MethodInput

def ofJson? (j : Json) : Option MethodInput := do
  let j ← j.record ["info", "ops", "exceptions"]
  return {
    info := ← j.required "info" MethodInfo.ofJson?
    ops := ← j.required "ops" (Json.list? Operation.ofJson?)
    exceptions := ← j.defaulted "exceptions" [] (Json.list? ExceptionRange.ofJson?) }

def toJson (m : MethodInput) : Json :=
  .obj [("info", m.info.toJson), ("ops", .ofList Operation.toJson m.ops),
    ("exceptions", .ofList ExceptionRange.toJson m.exceptions)]

end MethodInput

end Unstack
