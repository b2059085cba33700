import Unstack.Frame

namespace Unstack

inductive Pass where
  | dataflow
  | conditional
  | shortCircuit
  deriving DecidableEq

def Pass.name : Pass → String
  | dataflow => "dataflow"
  | conditional => "conditional rewrite"
  | shortCircuit => "short-circuit rewrite"

inductive AnalysisError where
  | unresolvedTarget (pc target : Nat)
  | malformedRange (startPc endPc handlerPc : Nat)
  | depthMismatch (pc left right : Nat)
  | frame (pc : Nat) (cause : FrameError)
  | invalidRegister (pc reg : Nat)
  | iterationLimit (pass : Pass) (limit : Nat)
  | emptyMethod
  deriving DecidableEq

namespace AnalysisError

def ofFrame (pc : Nat) : FrameError → AnalysisError
  | .invalidRegister reg => invalidRegister pc reg
  | .depthMismatch left right => depthMismatch pc left right
  | cause => frame pc cause

def message : AnalysisError → String
  | unresolvedTarget pc target => "Unresolved jump target " ++ toString target ++ " at pc " ++ toString pc
  | malformedRange startPc endPc handlerPc =>
    "Malformed exception range [" ++ toString startPc ++ ", " ++ toString endPc ++ ") -> " ++
      toString handlerPc
  | depthMismatch pc left right =>
    "Stack depth mismatch at pc " ++ toString pc ++ ": " ++ toString left ++ " vs " ++ toString right
  | frame pc cause => "Frame error at pc " ++ toString pc ++ ": " ++ cause.message
  | invalidRegister pc reg => "Invalid register r" ++ toString reg ++ " at pc " ++ toString pc
  | iterationLimit pass limit => pass.name ++ " exceeded " ++ toString limit ++ " iterations"
  | emptyMethod => "Method has no operations"

def pc? : AnalysisError → Option Nat
  | unresolvedTarget pc _ | depthMismatch pc _ _ | frame pc _ | invalidRegister pc _ => some pc
  | malformedRange startPc _ _ => some startPc
  | iterationLimit .. | emptyMethod => none

end AnalysisError

inductive Severity where
  /-- A choice was not clear and the usual one was made. -/
  | warning
  | error
  deriving DecidableEq

structure Diagnostic where
  severity : Severity
  pc : Option Nat
  message : String
  deriving DecidableEq

namespace Diagnostic

def error (pc : Option Nat) (message : String) : Diagnostic := ⟨.error, pc, message⟩

def warning (pc : Option Nat) (message : String) : Diagnostic := ⟨.warning, pc, message⟩

def ofError (e : AnalysisError) : Diagnostic := error e.pc? e.message

def isError (d : Diagnostic) : Bool := d.severity == .error

def text (d : Diagnostic) : String :=
  let tag := match d.severity with
    | .warning => "warning"
    | .error => "error"
  match d.pc with
  | some pc => tag ++ " at pc " ++ toString pc ++ ": " ++ d.message
  | none => tag ++ ": " ++ d.message

end Diagnostic

end Unstack
