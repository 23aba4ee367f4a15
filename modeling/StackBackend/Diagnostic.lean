import StackBackend.Span

/-! What is reported to the user: an error or a warning, where it is, remarks and a hint. -/
namespace StackBackend

inductive Severity where
  | error
  | warning
  deriving DecidableEq, Repr

def Severity.label : Severity → String
  | .error => "error"
  | .warning => "warning"

structure Diagnostic where
  severity : Severity
  message : String
  span : Span
  notes : List String
  help : Option String
  deriving DecidableEq, Repr

namespace Diagnostic

def error (message : String) (span : Span) : Diagnostic := ⟨.error, message, span, [], none⟩

def warning (message : String) (span : Span) : Diagnostic := ⟨.warning, message, span, [], none⟩

/-- An error that no place in a source explains. -/
def plain (message : String) : Diagnostic := error message .nowhere

def withNote (d : Diagnostic) (note : String) : Diagnostic :=
  {d with notes := d.notes ++ [note]}

/-- There is one hint at most: a later one takes the place of an earlier one. -/
def withHelp (d : Diagnostic) (help : String) : Diagnostic :=
  {d with help := some help}

def isError (d : Diagnostic) : Bool := d.severity = .error

/-- The whole diagnostic as text: its headline, a line for each note, and the hint. -/
def text (d : Diagnostic) : String :=
  d.severity.label ++ ": " ++ d.message ++ String.join (d.notes.map ("\n  note: " ++ ·)) ++
    (d.help.map ("\n  help: " ++ ·)).getD ""

end Diagnostic

end StackBackend
