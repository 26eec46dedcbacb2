import Encapsulate.Disk.Path

/-!
A file system as a value. An entry is found by walking the segments of a path
from the working directory, or from the root for an absolute path; every segment
but the last must name a directory, and so must one that is followed by a slash.
Of the directories above the working directory nothing is known but that they are
there. Names and paths have a greatest length. Operations say why they fail, and
they return the disk in either case, since what was done before a failure stays.
-/

namespace Encapsulate

/-- Why an operation on a file failed. -/
inductive FileError where
  | notFound
  | alreadyExists
  | notDirectory
  | isDirectory
  | nameTooLong
  /-- A path holds the character that ends paths. -/
  | endsEarly
  | notText
deriving DecidableEq, Repr

def FileError.message : FileError → String
  | .notFound => "No such file or directory (os error 2)"
  | .alreadyExists => "File exists (os error 17)"
  | .notDirectory => "Not a directory (os error 20)"
  | .isDirectory => "Is a directory (os error 21)"
  | .nameTooLong => "File name too long (os error 36)"
  | .endsEarly => "file name contained an unexpected NUL byte"
  | .notText => "stream did not contain valid UTF-8"

/-- The names on the way from the working directory to an entry. The first of them
may be `..`, which lead above the working directory, or a single `/`, which leads
to the root. -/
abbrev Location := List String

namespace Location

def base (path : String) : Location :=
  if Path.isAbsolute path then ["/"] else []

/-- The root, the working directory and those above it. -/
def isGiven (loc : Location) : Bool :=
  loc == ["/"] || loc.all (· == "..")

/-- The enclosing directory; that of the root is the root. -/
def up (loc : Location) : Location :=
  if loc == ["/"] then loc
  else if loc.all (· == "..") then loc ++ [".."]
  else loc.dropLast

def path : Location → String
  | "/" :: names => "/" ++ String.intercalate "/" names
  | names => String.intercalate "/" names

end Location

def maxNameBytes : Nat := 255

def maxPathBytes : Nat := 4095

def isTooLongName (name : String) : Bool :=
  maxNameBytes < name.utf8ByteSize

inductive Entry where
  | file (content : ByteArray)
  | directory

instance : DecidableEq Entry
  | .file a, .file b =>
    match a.decEq b with
    | isTrue h => isTrue (congrArg Entry.file h)
    | isFalse h => isFalse fun heq => h (Entry.file.inj heq)
  | .directory, .directory => isTrue rfl
  | .file _, .directory => isFalse nofun
  | .directory, .file _ => isFalse nofun

structure Disk where
  entries : List (Location × Entry) := []

namespace Disk

def get? (disk : Disk) (loc : Location) : Option Entry :=
  if Location.isGiven loc then some .directory else disk.entries.lookup loc

def put (disk : Disk) (loc : Location) (entry : Entry) : Disk :=
  ⟨(loc, entry) :: disk.entries.filter (·.1 != loc)⟩

def walk (disk : Disk) (loc : Location) : List String → Except FileError Location
  | [] => .ok loc
  | s :: rest =>
    match disk.get? loc with
    | some .directory =>
      if Path.isVoid s then walk disk loc rest
      else if s == ".." then walk disk (Location.up loc) rest
      else if isTooLongName s then .error .nameTooLong
      else if (disk.get? (loc ++ [s])).isSome then walk disk (loc ++ [s]) rest
      else .error .notFound
    | some (.file _) => .error .notDirectory
    | none => .error .notFound

def checkPath (path : String) : Except FileError Unit :=
  if path.toList.contains '\x00' then .error .endsEarly
  else if path.isEmpty then .error .notFound
  else if maxPathBytes < path.utf8ByteSize then .error .nameTooLong
  else .ok ()

def resolve (disk : Disk) (path : String) : Except FileError Location :=
  (checkPath path).bind fun _ => disk.walk (Location.base path) (Path.segments path)

def find (disk : Disk) (path : String) : Except FileError Entry :=
  (disk.resolve path).bind fun loc =>
    match disk.get? loc with
    | some entry => .ok entry
    | none => .error .notFound

def isFile (disk : Disk) (path : String) : Bool :=
  match disk.find path with
  | .ok (.file _) => true
  | _ => false

def isDirectory (disk : Disk) (path : String) : Bool :=
  match disk.find path with
  | .ok .directory => true
  | _ => false

def readBytes (disk : Disk) (path : String) : Except FileError ByteArray :=
  (disk.find path).bind fun entry =>
    match entry with
    | .file content => .ok content
    | .directory => .error .isDirectory

def readText (disk : Disk) (path : String) : Except FileError String :=
  (disk.readBytes path).bind fun content =>
    match String.fromUTF8? content with
    | some text => .ok text
    | none => .error .notText

/-- The directory that holds the last of some segments, followed from a location,
and that segment. -/
def slot (disk : Disk) (loc : Location) (segments : List String) :
    Except FileError (Location × String) :=
  (disk.walk loc segments.dropLast).bind fun dir =>
    match disk.get? dir with
    | some .directory => .ok (dir, segments.getLast?.getD "")
    | some (.file _) => .error .notDirectory
    | none => .error .notFound

def write (disk : Disk) (path : String) (content : ByteArray) : Except FileError Disk :=
  (checkPath path).bind fun _ =>
    (disk.slot (Location.base path) (Path.segments path)).bind fun (dir, name) =>
      if Path.isVoid name || name == ".." then .error .isDirectory
      else if isTooLongName name then .error .nameTooLong
      else
        match disk.get? (dir ++ [name]) with
        | some .directory => .error .isDirectory
        | _ => .ok (disk.put (dir ++ [name]) (.file content))

def copy (disk : Disk) (source target : String) : Except FileError Disk :=
  (disk.readBytes source).bind (disk.write target)

def makeDirectory (disk : Disk) (path : String) : Except FileError Disk :=
  (checkPath path).bind fun _ =>
    let segments := ((Path.segments path).reverse.dropWhile (· == "")).reverse
    (disk.slot (Location.base path) segments).bind fun (dir, name) =>
      if Path.isVoid name || name == ".." then .error .alreadyExists
      else if isTooLongName name then .error .nameTooLong
      else if (disk.get? (dir ++ [name])).isSome then .error .alreadyExists
      else .ok (disk.put (dir ++ [name]) .directory)

/-- Makes the first of the given paths a directory, and for that the others, each
the parent of the one before it. -/
def makeDirectoriesFrom (disk : Disk) : List String → Disk × Except FileError Unit
  | [] => (disk, .error .notFound)
  | path :: outer =>
    if path.isEmpty then (disk, .ok ())
    else
      match disk.makeDirectory path with
      | .ok disk => (disk, .ok ())
      | .error .notFound =>
        match makeDirectoriesFrom disk outer with
        | (disk, .error e) => (disk, .error e)
        | (disk, .ok ()) =>
          match disk.makeDirectory path with
          | .ok disk => (disk, .ok ())
          | .error e => (disk, if disk.isDirectory path then .ok () else .error e)
      | .error e => (disk, if disk.isDirectory path then .ok () else .error e)

def makeDirectories (disk : Disk) (path : String) : Disk × Except FileError Unit :=
  disk.makeDirectoriesFrom (Path.ancestors path)

/-- What tells one file from another: its location or, when nothing is there, the
path as written. -/
inductive Identity where
  | known (loc : Location)
  | written (components : List String)
deriving DecidableEq

def identity (disk : Disk) (path : String) : Identity :=
  match disk.resolve path with
  | .ok loc => .known loc
  | .error _ => .written (Path.components path)

/-- The files of a disk that another disk lacks or has with other content, with
their paths. -/
def filesChangedFrom (disk before : Disk) : List (String × ByteArray) :=
  disk.entries.filterMap fun (loc, entry) =>
    match entry with
    | .directory => none
    | .file content =>
      if before.get? loc == some (.file content) then none
      else some (Location.path loc, content)

end Disk

end Encapsulate
