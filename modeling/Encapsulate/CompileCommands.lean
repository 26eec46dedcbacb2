import Encapsulate.Error
import Encapsulate.Json.Value

/-!
Compilation databases: the files of a build when a configuration names none. The
database is one JSON list of commands. Only the known fields of a command are
looked at; what is written under other keys need not even have a value.
-/

namespace Encapsulate

open Json

structure CompileCommand where
  directory : String
  file : String
  command : Option String := none
  arguments : Option (List String) := none
deriving DecidableEq, Repr

namespace CompileCommand

/-- The source file, below the command's directory unless it is absolute. -/
def sourcePath (c : CompileCommand) : String :=
  Path.join c.directory c.file

def string? : Document → Option String
  | .string units => decodeString? units
  | _ => none

def strings? : List Document → Option (List String)
  | [] => some []
  | d :: ds => (string? d).bind fun s => (strings? ds).map (s :: ·)

def optionalString? : Option Document → Option (Option String)
  | none | some .null => some none
  | some d => (string? d).map some

def optionalStrings? : Option Document → Option (Option (List String))
  | none | some .null => some none
  | some (.array items) => (strings? items).map some
  | some _ => none

def ofFields? (directory file command arguments : Option Document) : Option CompileCommand := do
  return { directory := ← string? (← directory)
           file := ← string? (← file)
           command := ← optionalString? command
           arguments := ← optionalStrings? arguments }

def keys : List String :=
  ["directory", "file", "command", "arguments"]

def knownMembers? (known : List (String × Document)) :
    List (List Unit16 × Document) → Option (List (String × Document))
  | [] => some known
  | (key, d) :: ms =>
    (decodeString? key).bind fun k =>
      if !keys.contains k then knownMembers? known ms
      else if (known.lookup k).isSome then none
      else knownMembers? (known ++ [(k, d)]) ms

def ofDocument? : Document → Option CompileCommand
  | .object members => do
    let known ← knownMembers? [] members
    ofFields? (known.lookup "directory") (known.lookup "file") (known.lookup "command")
      (known.lookup "arguments")
  | .array items =>
    if items.length ≤ 4 then ofFields? items[0]? items[1]? items[2]? items[3]? else none
  | _ => none

end CompileCommand

/-- The commands of a build in order. -/
structure CompileCommands where
  commands : List CompileCommand

namespace CompileCommands

def commands? : List Document → Option (List CompileCommand)
  | [] => some []
  | d :: ds =>
    (CompileCommand.ofDocument? d).bind fun c => (commands? ds).map (c :: ·)

def ofText? (text : String) : Option CompileCommands :=
  match Document.ofText? text with
  | some (.array items) => (commands? items).map (⟨·⟩)
  | _ => none

/-- The source files, each once. -/
def files (db : CompileCommands) : List String :=
  Path.distinct (db.commands.map CompileCommand.sourcePath)

def fileName : String :=
  "compile_commands.json"

def load (disk : Disk) (dir : String) : Except Error CompileCommands :=
  let path := Path.join dir fileName
  match disk.readText path with
  | .error e => .error (.unreadableDatabase path e)
  | .ok text =>
    match ofText? text with
    | some db => .ok db
    | none => .error (.invalidDatabase path)

end CompileCommands

end Encapsulate
