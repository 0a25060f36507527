import ScopedMacros.Error
import ScopedMacros.Event

/-!
# Logs

The warnings and errors of a run, in order.
-/

namespace ScopedMacros

inductive Severity where
  | warning
  | error
  deriving DecidableEq, Repr

structure Diagnostic where
  severity : Severity
  message : Bytes
  location : Option Location
  deriving DecidableEq, Repr

namespace Diagnostic

def ofError (error : Error) : Diagnostic :=
  ⟨.error, error.message, some error.location⟩

/-- The warnings among events. -/
def ofEvents (events : List Event) : List Diagnostic :=
  events.filterMap fun
    | .warning location message => some ⟨.warning, message, some location⟩
    | _ => none

def isError (diagnostic : Diagnostic) : Bool :=
  diagnostic.severity == .error

/-- The diagnostic as it is shown to a user. -/
def describe (diagnostic : Diagnostic) : Bytes :=
  match diagnostic.severity, diagnostic.location with
  | .error, location => errorText diagnostic.message location
  | .warning, none => Bytes.shown (bytes "Warning: " ++ diagnostic.message)
  | .warning, some location =>
      Bytes.shown (location.describe ++ Byte.newline :: bytes "Warning: " ++ diagnostic.message)

end Diagnostic

structure Log where
  diagnostics : List Diagnostic
  deriving DecidableEq, Repr

namespace Log

def empty : Log :=
  ⟨[]⟩

def append (log : Log) (more : List Diagnostic) : Log :=
  ⟨log.diagnostics ++ more⟩

def errors (log : Log) : Nat :=
  log.diagnostics.countP Diagnostic.isError

def warnings (log : Log) : Nat :=
  log.diagnostics.countP (!·.isError)

def hasErrors (log : Log) : Bool :=
  log.diagnostics.any Diagnostic.isError

end Log

end ScopedMacros
