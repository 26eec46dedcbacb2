import Encapsulate.CompileCommands
import Encapsulate.Config

/-!
Running transforms over files. Each file is read, joined with the headers it
reaches through quoted includes, transformed by one transform after the other and
written. A file that fails is recorded and the next one is taken up. The parser is
a parameter: it turns a text into its tree.
-/

namespace Encapsulate

open Accessors Cpp

/-- What a run acts on: files, and what has been printed. -/
structure World where
  disk : Disk
  printed : String := ""

/-- Where changed files go. -/
inductive Output where
  | inPlace
  /-- Into a directory, under their own names. -/
  | directory (dir : String)
  | print
deriving DecidableEq, Repr

/-- What is to be done to each file. -/
structure Job where
  transforms : List Transform
  includeDirs : List String := []
  output : Output := .inPlace
  /-- Whether a file changed in place is copied first. -/
  keepsBackup : Bool := false
  /-- Whether nothing is written. -/
  isDryRun : Bool := false

def Job.ofSection (s : Section) : Except Error Job :=
  match Transform.ofConfigs s.transforms with
  | .error e => .error e
  | .ok transforms => .ok { transforms, includeDirs := s.includeDirs }

/-! Headers -/

/-- A quoted include and the directory of the file that holds it. -/
structure IncludeRequest where
  dir : String
  target : String

def IncludeRequest.ofFile (f : SourceFile) : List IncludeRequest :=
  f.includes.map (⟨Path.parent f.path, ·⟩)

/-- The first existing file among the including file's directory and the given ones. -/
def IncludeRequest.resolve? (disk : Disk) (includeDirs : List String) (r : IncludeRequest) :
    Option String :=
  ((r.dir :: includeDirs).map (Path.join · r.target)).find? disk.isFile

def maxHeaders : Nat := 256

/-- The headers on disk and how they are found. -/
structure HeaderSearch where
  parse : Parser
  disk : Disk
  includeDirs : List String

namespace HeaderSearch

/-- The next header that can be read and has not been visited, with all files
visited by then and the requests still open. -/
def next? (search : HeaderSearch) (visited : List Disk.Identity) :
    List IncludeRequest → Option (SourceFile × List Disk.Identity × List IncludeRequest)
  | [] => none
  | r :: rest =>
    match r.resolve? search.disk search.includeDirs with
    | none => next? search visited rest
    | some path =>
      let identity := search.disk.identity path
      if visited.contains identity then next? search visited rest
      else
        match search.disk.readText path with
        | .error _ => next? search (identity :: visited) rest
        | .ok text =>
          some (.ofParsed path text.toList (search.parse text), identity :: visited, rest)

def gather (search : HeaderSearch) : Nat → List Disk.Identity → List IncludeRequest →
    List SourceFile
  | 0, _, _ => []
  | room + 1, visited, requests =>
    match search.next? visited requests with
    | none => []
    | some (header, visited, rest) =>
      header :: gather search room visited (rest ++ IncludeRequest.ofFile header)

def load (search : HeaderSearch) (path source : String) : SourceUnit :=
  let primary := SourceFile.ofParsed path source.toList (search.parse source)
  ⟨primary, search.gather maxHeaders [search.disk.identity path] (IncludeRequest.ofFile primary)⟩

end HeaderSearch

/-! Files -/

def addStats (a b : Stats) : Stats :=
  { targets := a.targets + b.targets
    reads := a.reads + b.reads
    writes := a.writes + b.writes
    hoisted := a.hoisted + b.hoisted
    unsupported := a.unsupported + b.unsupported
    escapes := a.escapes + b.escapes
    unresolved := a.unresolved + b.unresolved
    accessorsInserted := a.accessorsInserted + b.accessorsInserted }

/-- What the transforms did to one file. -/
structure FileReport where
  path : String
  /-- The final text, unless nothing changed. -/
  rewritten : Option String := none
  diagnostics : List Diagnostic := []
  stats : Stats := {}

/-- Applies transforms to a text, each to the text the one before it left. -/
def transformFrom (search : HeaderSearch) (report : FileReport) (source : String) :
    List Transform → Except Error FileReport
  | [] => .ok report
  | t :: ts =>
    match t.run (search.load report.path source) with
    | .error e => .error e
    | .ok outcome =>
      let report := { report with
        rewritten := outcome.rewritten.orElse fun _ => report.rewritten
        diagnostics := report.diagnostics ++ outcome.diagnostics
        stats := addStats report.stats outcome.stats }
      transformFrom search report (outcome.rewritten.getD source) ts

namespace Job

def transformSource (job : Job) (parse : Parser) (disk : Disk) (path source : String) :
    Except Error FileReport :=
  transformFrom ⟨parse, disk, job.includeDirs⟩ { path } source job.transforms

/-- Writes in place, after a copy to the file's name with `.orig` if one is wanted. -/
def writeInPlace (job : Job) (world : World) (path text : String) : World × Except Error Unit :=
  let store (disk : Disk) : World × Except Error Unit :=
    match disk.write path text.toUTF8 with
    | .ok disk => ({ world with disk }, .ok ())
    | .error e => ({ world with disk }, .error (.io path e))
  if job.keepsBackup then
    let backup := path ++ ".orig"
    match world.disk.copy path backup with
    | .ok disk => store disk
    | .error e => (world, .error (.io backup e))
  else
    store world.disk

def writeBelow (world : World) (dir path text : String) : World × Except Error Unit :=
  match Path.fileName? path with
  | none => (world, .error (.noFileName path))
  | some name =>
    match world.disk.makeDirectories dir with
    | (disk, .error e) => ({ world with disk }, .error (.io dir e))
    | (disk, .ok ()) =>
      let target := Path.join dir name
      match disk.write target text.toUTF8 with
      | .ok disk => ({ world with disk }, .ok ())
      | .error e => ({ world with disk }, .error (.io target e))

def deliver (job : Job) (world : World) (path text : String) : World × Except Error Unit :=
  match job.output with
  | .inPlace => job.writeInPlace world path text
  | .directory dir => writeBelow world dir path text
  | .print => ({ world with printed := world.printed ++ text }, .ok ())

def transformFile (job : Job) (parse : Parser) (world : World) (path : String) :
    World × Except Error FileReport :=
  match world.disk.readText path with
  | .error e => (world, .error (.io path e))
  | .ok source =>
    match job.transformSource parse world.disk path source with
    | .error e => (world, .error e)
    | .ok report =>
      match report.rewritten with
      | none => (world, .ok report)
      | some text =>
        if job.isDryRun then (world, .ok report)
        else
          match job.deliver world path text with
          | (world, .ok ()) => (world, .ok report)
          | (world, .error e) => (world, .error e)

end Job

/-! Runs -/

/-- Totals over a run. -/
structure Summary where
  processed : Nat := 0
  rewritten : Nat := 0
  warnings : Nat := 0
  errors : List (String × Error) := []

namespace Summary

def merge (a b : Summary) : Summary :=
  ⟨a.processed + b.processed, a.rewritten + b.rewritten, a.warnings + b.warnings,
    a.errors ++ b.errors⟩

def isSuccess (s : Summary) : Bool :=
  s.errors.isEmpty

def ofFile (path : String) : Except Error FileReport → Summary
  | .ok report =>
    { processed := 1, rewritten := if report.rewritten.isSome then 1 else 0
      warnings := Diagnostic.warningCount report.diagnostics }
  | .error e => { processed := 1, errors := [(path, e)] }

end Summary

def Job.runFiles (job : Job) (parse : Parser) (world : World) : List String → World × Summary
  | [] => (world, {})
  | path :: paths =>
    let (world, result) := job.transformFile parse world path
    let (world, rest) := Job.runFiles job parse world paths
    (world, (Summary.ofFile path result).merge rest)

end Encapsulate
