import Encapsulate.Disk.Basic
import Encapsulate.Edit

/-!
Everything that can go wrong with a file, a configuration or a whole run.
-/

namespace Encapsulate

inductive Error where
  | io (path : String) (cause : FileError)
  /-- Text that should be JSON is not. -/
  | malformedJson
  | unreadableConfig (cause : FileError)
  /-- A document is neither a section nor a list of sections. -/
  | notSection (found : String)
  | invalidSection
  | invalidParameters
  | noFileName (path : String)
  | unreadableDatabase (path : String) (cause : FileError)
  | invalidDatabase (path : String)
  | unknownTransform (name : String)
  | splice (cause : SpliceError)
deriving DecidableEq

def Error.message : Error → String
  | .io path cause => "I/O error on " ++ path ++ ": " ++ cause.message
  | .malformedJson => "JSON error"
  | .unreadableConfig cause =>
    "Configuration error: failed to read configuration: " ++ cause.message
  | .notSection found =>
    "Configuration error: expected a section object or an array of sections, found " ++ found
  | .invalidSection => "Configuration error: invalid section"
  | .invalidParameters =>
    "Configuration error: Accessors expects a list of qualified field names or "
      ++ "\x7b\"Fields\": [...], \"Scope\": \"all\"|\"main\"\x7d: "
      ++ "data did not match any variant of untagged enum RawParams"
  | .noFileName path => "Configuration error: " ++ path ++ " has no file name"
  | .unreadableDatabase path cause =>
    "Compilation database error: cannot read " ++ path ++ ": " ++ cause.message
  | .invalidDatabase path => "Compilation database error: " ++ path
  | .unknownTransform name => "Unknown transform: " ++ name
  | .splice cause => "Splice error: " ++ cause.message

end Encapsulate
