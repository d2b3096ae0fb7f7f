/-
  BlockCompiler.Report.Diagnostic — what the compiler tells the user.

  A diagnostic has a severity, a code, a message, labels that point into source files,
  notes and help texts. The first primary label is where the problem is.
-/
import BlockCompiler.Span

namespace BlockCompiler

inductive Severity where
  | error
  | warning
  | note
  | help
  deriving DecidableEq, Repr

namespace Severity

def all : List Severity := [error, warning, note, help]

def name : Severity → String
  | error => "error"
  | warning => "warning"
  | note => "note"
  | help => "help"

end Severity

inductive LabelStyle where
  /-- The place of the problem. -/
  | primary
  /-- A place that has to do with it. -/
  | secondary
  deriving DecidableEq, Repr

structure Label where
  style : LabelStyle
  file : FileId
  span : Span
  message : String
  deriving DecidableEq, Repr

namespace Label

def primary (file : FileId) (span : Span) (message : String := "") : Label :=
  ⟨.primary, file, span, message⟩

def secondary (file : FileId) (span : Span) (message : String := "") : Label :=
  ⟨.secondary, file, span, message⟩

def isPrimary (l : Label) : Bool := l.style = .primary

end Label

structure Diagnostic where
  severity : Severity
  code : String
  message : String
  labels : List Label := []
  notes : List String := []
  help : List String := []
  deriving DecidableEq, Repr

namespace Diagnostic

def error (code message : String) (labels : List Label) : Diagnostic :=
  { severity := .error, code, message, labels }

def warning (code message : String) (labels : List Label) : Diagnostic :=
  { severity := .warning, code, message, labels }

def withLabel (d : Diagnostic) (l : Label) : Diagnostic := { d with labels := d.labels ++ [l] }

def withNote (d : Diagnostic) (text : String) : Diagnostic := { d with notes := d.notes ++ [text] }

def withHelp (d : Diagnostic) (text : String) : Diagnostic := { d with help := d.help ++ [text] }

def isError (d : Diagnostic) : Bool := d.severity = .error

/-- The first primary label. -/
def primaryLabel? (d : Diagnostic) : Option Label := d.labels.find? Label.isPrimary

/-- The label whose file is shown: the first primary one, else the first of all. -/
def anchor? (d : Diagnostic) : Option Label := d.primaryLabel? <|> d.labels.head?

end Diagnostic

/-! Codes of the diagnostics that checking a program can give. -/
namespace Code

def typeMismatch := "T001"
def unknownType := "T002"
def argumentCount := "T004"
def unknownField := "T005"
def cannotInfer := "T007"
def duplicate := "T008"
def undeclared := "T009"
def notCallable := "T010"
def invalidCast := "T011"
def missingReturn := "T012"
def unreachable := "W001"

end Code

end BlockCompiler
