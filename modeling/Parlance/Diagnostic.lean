/-! # Diagnostics

A diagnostic is a message to the user with a severity, a code and notes. It is
rendered as `error[E100]: message`, in colours on request, with each note on a
line of its own. -/
namespace Parlance

inductive Severity where
  | error
  | warning
  | note
deriving DecidableEq

namespace Severity

def label : Severity → String
  | error => "error"
  | warning => "warning"
  | note => "note"

def ofLabel? (word : String) : Option Severity :=
  [error, warning, note].find? fun s => s.label = word

/-- The colour of a severity: bold red, bold yellow, bold cyan. -/
def color : Severity → String
  | error => "\x1b[1;31m"
  | warning => "\x1b[1;33m"
  | note => "\x1b[1;36m"

end Severity

structure Diagnostic where
  severity : Severity
  code : String
  message : String
  notes : List String := []
deriving DecidableEq

namespace Diagnostic

def bold : String := "\x1b[1m"
def blue : String := "\x1b[1;34m"
def reset : String := "\x1b[0m"

/-- A colour sequence, or nothing when colours are off. -/
def paint (color : Bool) (sequence : String) : String := if color then sequence else ""

def noteLine (color : Bool) (note : String) : String :=
  "  " ++ paint color blue ++ "=" ++ paint color reset ++ " note: " ++ note

def headLine (d : Diagnostic) (color : Bool) : String :=
  paint color d.severity.color ++ d.severity.label ++ "[" ++ d.code ++ "]" ++
    paint color reset ++ paint color bold ++ ": " ++ d.message ++ paint color reset

/-- A diagnostic as text, without a final line end. -/
def render (d : Diagnostic) (color : Bool) : String :=
  "\n".intercalate (d.headLine color :: d.notes.map (noteLine color))

def invalidExpression : Diagnostic :=
  { severity := .error, code := "E100", message := "invalid expression" }

end Diagnostic

/-- A text that is no expression, with what was found wrong. -/
structure InvalidExpression where
  diagnostics : List Diagnostic

/-- The number of diagnostics, then their messages. -/
def InvalidExpression.message (e : InvalidExpression) : String :=
  Nat.repr e.diagnostics.length ++ " error(s): " ++
    "; ".intercalate (e.diagnostics.map Diagnostic.message)

end Parlance
