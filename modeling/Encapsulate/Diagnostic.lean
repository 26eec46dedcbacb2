import Encapsulate.Text.LineTable

/-!
Notes and warnings tied to a place in a file.
-/

namespace Encapsulate

inductive Severity where
  | note
  | warning
deriving DecidableEq, Repr

def Severity.word : Severity → String
  | .note => "note"
  | .warning => "warning"

structure Diagnostic where
  severity : Severity
  file : String
  location : Text.Location
  message : String
deriving DecidableEq, Repr

namespace Diagnostic

def locate (severity : Severity) (file : String) (source : List Char) (offset : Nat)
    (message : String) : Diagnostic :=
  ⟨severity, file, Text.location source offset, message⟩

def isWarning (d : Diagnostic) : Bool :=
  d.severity == .warning

def warningCount (ds : List Diagnostic) : Nat :=
  ds.countP isWarning

def render (d : Diagnostic) : String :=
  d.file ++ ":" ++ toString d.location.line ++ ":" ++ toString d.location.column ++ ": "
    ++ d.severity.word ++ ": " ++ d.message

end Diagnostic

end Encapsulate
