import ActorScript.Diagnostic.Code
import ActorScript.Source.Span

/-! # Diagnostics

A message about a script: how serious it is, what it says, and the place in the
source it points at.
-/

namespace ActorScript

/-- How serious a message is. An optional error reads as a warning unless checking is strict. -/
inductive Severity where
  | debug | debugLog | warning | optError | error
  deriving DecidableEq, Repr

def Severity.text : Severity → String
  | .debug => "debug"
  | .debugLog => "debug-log"
  | .warning => "warning"
  | .optError => "opt-error"
  | .error => "error"

structure Label where
  span : Span
  remark : String
  deriving DecidableEq, Repr

structure Diagnostic where
  severity : Severity
  code : Option String := none
  message : String
  label : Option Label := none
  notes : List String := []
  suggestion : Option String := none
  deriving DecidableEq, Repr

namespace Diagnostic

def isFatal (d : Diagnostic) (strict : Bool) : Bool :=
  match d.severity with
  | .error => true
  | .optError => strict
  | _ => false

def pointing (severity : Severity) (code : Code) (message : String) (span : Span) : Diagnostic :=
  { severity, code := some code.id, message, label := some ⟨span, "here"⟩ }

end Diagnostic

end ActorScript
