/-!
Paths as they are written, with `/` between segments. Joining and taking the
parent keep the text as written. Two paths are the same when their components
are: empty segments and single dots count for nothing, except that a leading dot
and a leading slash are components of their own.
-/

namespace Encapsulate.Path

/-- The parts of a text between slashes, empty ones included: the first, and those
after it. -/
def splitSlashes : List Char → List Char × List String
  | [] => ([], [])
  | c :: cs =>
    let (segment, later) := splitSlashes cs
    if c = '/' then ([], String.ofList segment :: later) else (c :: segment, later)

def segmentsOf (cs : List Char) : List String :=
  let (segment, later) := splitSlashes cs
  String.ofList segment :: later

def segments (path : String) : List String :=
  segmentsOf path.toList

def isAbsolute (path : String) : Bool :=
  path.toList.head? == some '/'

/-- The text of `path` below the directory `dir`; an absolute path stays as it is. -/
def join (dir path : String) : String :=
  if isAbsolute path then path
  else if dir.isEmpty || dir.toList.getLast? == some '/' then dir ++ path
  else dir ++ "/" ++ path

def isVoid (segment : String) : Bool :=
  segment == "" || segment == "."

/-- A path cut into its start, which is a slash, a dot or nothing, and the segments
after it. -/
def split (path : String) : String × List String :=
  match path.toList with
  | '/' :: cs => ("/", segmentsOf cs)
  | ['.'] => (".", [])
  | '.' :: '/' :: cs => (".", segmentsOf ('/' :: cs))
  | cs => ("", segmentsOf cs)

def trimSegments (segments : List String) : List String :=
  (segments.reverse.dropWhile isVoid).reverse

def components (path : String) : List String :=
  let (start, rest) := split path
  (if start.isEmpty then [] else [start]) ++ rest.filter (!isVoid ·)

def parent? (path : String) : Option String :=
  let (start, rest) := split path
  match trimSegments rest with
  | [] => if start == "." then some "" else none
  | trimmed => some (start ++ String.intercalate "/" (trimSegments trimmed.dropLast))

def parent (path : String) : String :=
  (parent? path).getD ""

/-- The last component, unless it leads upwards. -/
def fileName? (path : String) : Option String :=
  match (trimSegments (split path).2).getLast? with
  | some ".." => none
  | name => name

def ancestorsUpTo : Nat → String → List String
  | 0, _ => []
  | count + 1, path =>
    path :: match parent? path with
      | some p => ancestorsUpTo count p
      | none => []

def ancestors (path : String) : List String :=
  ancestorsUpTo (path.length + 1) path

/-- Drops paths that are the same as an earlier one or have components in `seen`. -/
def distinctFrom (seen : List (List String)) : List String → List String
  | [] => []
  | p :: ps =>
    let cs := components p
    if seen.contains cs then distinctFrom seen ps else p :: distinctFrom (cs :: seen) ps

def distinct (paths : List String) : List String :=
  distinctFrom [] paths

end Encapsulate.Path
