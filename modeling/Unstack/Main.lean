import Unstack.Command
import Unstack.Json.Reader

namespace Unstack

def load {α : Type} (path : String) (read : Json → Option α) : IO (Except String α) := do
  try
    let content ← IO.FS.readFile path
    match (Json.ofText? content).bind read with
    | some value => return .ok value
    | none => return .error "the file does not hold what it should"
  catch e => return .error (toString e)

def Command.execute (c : Command) : IO UInt32 := do
  let options ← match c.config with
    | some path => load path Options.ofJson?
    | none => pure (.ok {})
  match options, ← load c.input Fixture.ofJson? with
  | .error message, _ =>
    IO.eprintln ("Error: " ++ c.config.getD "" ++ ": " ++ message)
    return 1
  | _, .error message =>
    IO.eprintln ("Error: " ++ c.input ++ ": " ++ message)
    return 1
  | .ok options, .ok fixture =>
    match c.action.run fixture c.method options with
    | .ok report =>
      IO.print report.out
      IO.eprint report.err
      return 0
    | .error _ => return 101

end Unstack

/-- Prints the methods of a file; the exit code is 2 if the command line is wrong. -/
def main (args : List String) : IO UInt32 :=
  match Unstack.Command.ofArgs args with
  | .ok command => command.execute
  | .error e => do
    IO.eprintln ("error: " ++ e.message)
    return 2
