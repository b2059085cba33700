import Unstack.Decompile
import Unstack.Graph.Dot
import Unstack.Interchange.Fixture

namespace Unstack

inductive Action where
  | decompile
  | graph (dot : Bool)
  | frames
  deriving DecidableEq

/-- A command line: what to do with the methods of which file. -/
structure Command where
  action : Action
  input : String
  method : Option String
  config : Option String

inductive UsageError where
  | missingCommand
  | unknownCommand (name : String)
  | missingInput
  | unexpected (arg : String)
  | missingValue (option : String)
  | repeated (option : String)
  deriving DecidableEq

def UsageError.message : UsageError → String
  | missingCommand => "a command is required: decompile, cfg or frames"
  | unknownCommand name => "unrecognized command '" ++ name ++ "'"
  | missingInput => "the path of the methods is required"
  | unexpected arg => "unexpected argument '" ++ arg ++ "'"
  | missingValue option => "a value is required for '" ++ option ++ "'"
  | repeated option => "'" ++ option ++ "' cannot be used several times"

namespace Command

/-- The arguments of a command line, sorted by what they are for. -/
structure Arguments where
  plain : List String
  method : Option String
  config : Option String
  dot : Bool

def isOption (arg : String) : Bool := arg.startsWith "-" && arg.length > 1

/-- Splits `--name=value`. -/
def inlineValue? (name arg : String) : Option String :=
  let start := (name ++ "=").toList
  if start.isPrefixOf arg.toList then some (String.ofList (arg.toList.drop start.length)) else none

def Arguments.setMethod (a : Arguments) (value : String) : Except UsageError Arguments :=
  if a.method.isSome then .error (.repeated "--method") else .ok { a with method := some value }

def Arguments.setConfig (a : Arguments) (value : String) : Except UsageError Arguments :=
  if a.config.isSome then .error (.repeated "--config") else .ok { a with config := some value }

def sort : Arguments → List String → Except UsageError Arguments
  | a, [] => .ok a
  | a, arg :: rest =>
    if arg = "--dot" then if a.dot then .error (.repeated arg) else sort { a with dot := true } rest
    else if arg = "--method" || arg = "--config" then
      match rest with
      | [] => .error (.missingValue arg)
      | value :: rest =>
        if isOption value then .error (.missingValue arg)
        else do sort (← if arg = "--method" then a.setMethod value else a.setConfig value) rest
    else
      match inlineValue? "--method" arg, inlineValue? "--config" arg with
      | some value, _ => do sort (← a.setMethod value) rest
      | _, some value => do sort (← a.setConfig value) rest
      | none, none =>
        if isOption arg then .error (.unexpected arg) else sort { a with plain := a.plain ++ [arg] } rest

def action? (name : String) (dot : Bool) : Except UsageError Action :=
  match name with
  | "decompile" => if dot then .error (.unexpected "--dot") else .ok .decompile
  | "cfg" => .ok (.graph dot)
  | "frames" => if dot then .error (.unexpected "--dot") else .ok .frames
  | _ => .error (.unknownCommand name)

def ofArgs (args : List String) : Except UsageError Command := do
  let sorted ← sort ⟨[], none, none, false⟩ args
  match sorted.plain with
  | [] => .error .missingCommand
  | name :: inputs =>
    let action ← action? name sorted.dot
    match inputs with
    | [] => .error .missingInput
    | [input] => .ok { action, input, method := sorted.method, config := sorted.config }
    | _ :: extra :: _ => .error (.unexpected extra)

end Command

structure Report where
  out : String
  err : String

namespace Report

def append (a b : Report) : Report := ⟨a.out ++ b.out, a.err ++ b.err⟩

def concat (reports : List Report) : Report := reports.foldl append ⟨"", ""⟩

end Report

namespace Decompiled

def text (d : Decompiled) : Checked String := do
  let body ← match d.graph with
    | some g => g.methodText
    | none => pure ("method " ++ d.name ++ ": no CFG\n")
  return body ++ lines (d.notes.map fun note => "  # " ++ note.text) ++ "\n"

/-- All methods, and how many of them could not be reconstructed completely. -/
def report (results : List Decompiled) : Checked Report := do
  let failed := (results.filter failed).length
  let summary :=
    if failed = 0 then ""
    else toString failed ++ " of " ++ toString results.length ++ " methods had errors\n"
  return ⟨String.join (← results.mapM text), summary⟩

end Decompiled

namespace Action

def view (options : Options) (show? : Graph → Checked String) (input : MethodInput) : Checked Report := do
  match ← input.frames options with
  | .ok g => return ⟨← show? g, ""⟩
  | .error e => return ⟨"", input.info.name ++ ": " ++ e.message ++ "\n"⟩

def run (action : Action) (fixture : Fixture) (method : Option String) (options : Options) :
    Checked Report := do
  let selected := fixture.methods.filter fun m => method.all (· == m.info.name)
  match action with
  | decompile => Decompiled.report (← selected.mapM (·.decompile ⟨fixture.facts, options⟩))
  | graph dot => return .concat (← selected.mapM (view options (if dot then Graph.dot else Graph.listing)))
  | frames => return .concat (← selected.mapM (view options fun g => .ok g.framesText))

end Action

end Unstack
