import AdaptiveParsing.Diagnostic.Code
import AdaptiveParsing.Text.Span
/-!
Syntax errors ready to be shown: a code, a message, the source ranges it points at, and notes.
-/

namespace AdaptiveParsing

/-- How far the parse got after an error. -/
inductive Severity where
  /-- The parser recovered and went on. -/
  | error
  /-- The parse was abandoned. -/
  | fatal
deriving DecidableEq, Inhabited, Repr

def Severity.text : Severity → String
  | error => "error"
  | fatal => "fatal"

/-- A source range to point at. The primary one is the offending token. -/
structure Label where
  span : Span
  message : String
  isPrimary : Bool := true
deriving DecidableEq, Inhabited, Repr

structure Diagnostic where
  code : ErrorCode
  severity : Severity := .error
  message : String := ""
  labels : List Label := []
  notes : List String := []
deriving DecidableEq, Inhabited, Repr

namespace Diagnostic

def isFatal (d : Diagnostic) : Bool := d.severity == .fatal

def addLabel (d : Diagnostic) (l : Label) : Diagnostic := { d with labels := d.labels ++ [l] }

def addNote (d : Diagnostic) (note : String) : Diagnostic := { d with notes := d.notes ++ [note] }

/-- A label on a line of its own: an arrow for a primary one and colons for another. -/
def renderLabel (l : Label) : String :=
  "\n  " ++ (if l.isPrimary then "-->" else ":::") ++ " " ++ toString l.span ++
    (if l.message.isEmpty then "" else " " ++ l.message)

/-- The headline, then a line for each label and each note. -/
def render (d : Diagnostic) : String :=
  d.severity.text ++ "[" ++ d.code.text ++ "]: " ++ d.message ++
    String.join (d.labels.map renderLabel) ++
    String.join (d.notes.map fun note => "\n  = note: " ++ note)

end Diagnostic

end AdaptiveParsing
