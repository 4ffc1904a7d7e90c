import GameScript.Error

/-!
# Diagnostics

Checking a script never stops at the first problem. Every problem becomes a diagnostic at a place
of the source, in the order in which it was found.
-/
namespace GameScript

structure Span where
  line : Nat := 0
  column : Nat := 0
  length : Nat := 0
deriving DecidableEq, Repr

/-- Line and column, divided by a colon. -/
def Span.text (s : Span) : String := toString s.line ++ ":" ++ toString s.column

inductive Severity where
  | error
  | warning
deriving DecidableEq, Repr

def Severity.text : Severity → String
  | .error => "error"
  | .warning => "warning"

/-- What a diagnostic is about. -/
inductive Cause where
  | declaration (e : DeclarationError)
  | typing (e : TypeError)
  | note (text : String)
deriving DecidableEq, Repr

def Cause.message : Cause → String
  | .declaration e => e.message
  | .typing e => e.message
  | .note text => text

structure Diagnostic where
  severity : Severity
  span : Span
  cause : Cause
deriving DecidableEq, Repr

namespace Diagnostic

def message (d : Diagnostic) : String := d.cause.message

def isError (d : Diagnostic) : Bool := d.severity == .error

/-- One line: place, severity and message. -/
def text (d : Diagnostic) : String :=
  d.span.text ++ ": " ++ d.severity.text ++ ": " ++ d.message

end Diagnostic

def errorAt (span : Span) (cause : Cause) : Diagnostic := ⟨.error, span, cause⟩

/-- Diagnostics in the order in which they were reported. -/
structure Diagnostics where
  items : List Diagnostic := []
deriving DecidableEq, Repr

namespace Diagnostics

def push (ds : Diagnostics) (d : Diagnostic) : Diagnostics := ⟨ds.items ++ [d]⟩

/-- Report everything in `other` after what is there already. -/
def extend (ds other : Diagnostics) : Diagnostics := ⟨ds.items ++ other.items⟩

def errorCount (ds : Diagnostics) : Nat := ds.items.countP Diagnostic.isError

def warningCount (ds : Diagnostics) : Nat := ds.items.countP fun d => !d.isError

def hasErrors (ds : Diagnostics) : Bool := ds.items.any Diagnostic.isError

/-- One line for each diagnostic. -/
def text (ds : Diagnostics) : String :=
  String.join (ds.items.map fun d => d.text ++ "\n")

end Diagnostics
end GameScript
