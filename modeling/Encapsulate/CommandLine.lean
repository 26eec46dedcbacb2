import Encapsulate.Run

/-!
The command line. Options may be mixed with files; a value may follow its option
or be attached to it, and single letters may be run together. An option that takes
one value and a switch may each be given once. The version is printed as soon as
it is asked for. A run takes up the sections of the configuration in order and
stops at the first one that cannot be set up; what earlier sections did stays.
-/

namespace Encapsulate

open Cpp

structure Options where
  /-- The configuration file; standard input is read without one. -/
  config : Option String := none
  /-- The directory of the compilation database. -/
  buildPath : Option String := none
  outputDir : Option String := none
  printsOutput : Bool := false
  keepsBackup : Bool := false
  isDryRun : Bool := false
  includeDirs : List String := []
  /-- How often more logging was asked for. -/
  verbosity : Nat := 0
  files : List String := []
deriving DecidableEq, Repr

/-- What a command line asks for. -/
inductive Request where
  | run (options : Options)
  | version
  | help
  /-- The command line is not understood. -/
  | refused
deriving DecidableEq, Repr

namespace Options

inductive ValueOption where
  | config
  | buildPath
  | outputDir
  | include
deriving DecidableEq, Repr

inductive Switch where
  | print
  | backup
  | dryRun
  | verbose
  | version
  | help
deriving DecidableEq, Repr

def setValue (o : Options) (option : ValueOption) (v : String) : Option Options :=
  match option with
  | .config => if o.config.isSome then none else some { o with config := some v }
  | .buildPath => if o.buildPath.isSome then none else some { o with buildPath := some v }
  | .outputDir => if o.outputDir.isSome then none else some { o with outputDir := some v }
  | .include => some { o with includeDirs := o.includeDirs ++ [v] }

def setSwitch (o : Options) (switch : Switch) : Except Request Options :=
  match switch with
  | .print => if o.printsOutput then .error .refused else .ok { o with printsOutput := true }
  | .backup => if o.keepsBackup then .error .refused else .ok { o with keepsBackup := true }
  | .dryRun => if o.isDryRun then .error .refused else .ok { o with isDryRun := true }
  | .verbose => .ok { o with verbosity := o.verbosity + 1 }
  | .version => .error .version
  | .help => .error .help

inductive Named where
  | value (option : ValueOption)
  | switch (switch : Switch)

def ofLong? : String → Option Named
  | "config" => some (.value .config)
  | "build-path" => some (.value .buildPath)
  | "output-dir" => some (.value .outputDir)
  | "stdout" => some (.switch .print)
  | "backup" => some (.switch .backup)
  | "dry-run" => some (.switch .dryRun)
  | "debug" => some (.switch .verbose)
  | "version" => some (.switch .version)
  | "help" => some (.switch .help)
  | _ => none

def ofShort? : Char → Option Named
  | 'c' => some (.value .config)
  | 'p' => some (.value .buildPath)
  | 'o' => some (.value .outputDir)
  | 'I' => some (.value .include)
  | 'v' => some (.switch .verbose)
  | 'V' => some (.switch .version)
  | 'h' => some (.switch .help)
  | _ => none

/-- What has been read, and the option that still waits for its value. -/
structure Reading where
  options : Options := {}
  waiting : Option ValueOption := none

/-- Reads letters run together behind one dash. The first option that takes a value
takes the rest, with or without an equals sign. -/
def readLetters (o : Options) : List Char → Except Request Reading
  | [] => .ok { options := o }
  | c :: cs =>
    match ofShort? c with
    | none => .error .refused
    | some (.switch s) => (setSwitch o s).bind fun o => readLetters o cs
    | some (.value option) =>
      match cs with
      | [] => .ok { options := o, waiting := some option }
      | _ =>
        let attached := if cs.head? == some '=' then cs.drop 1 else cs
        match setValue o option (String.ofList attached) with
        | some o => .ok { options := o }
        | none => .error .refused

def readLong (o : Options) (word : List Char) : Except Request Reading :=
  let name := String.ofList (word.takeWhile (· != '='))
  let attached := match word.dropWhile (· != '=') with
    | _ :: v => some (String.ofList v)
    | [] => none
  match ofLong? name, attached with
  | some (.switch s), none => (setSwitch o s).map fun o => { options := o }
  | some (.value option), none => .ok { options := o, waiting := some option }
  | some (.value option), some v =>
    match setValue o option v with
    | some o => .ok { options := o }
    | none => .error .refused
  | _, _ => .error .refused

/-- What kind of argument a word is. -/
inductive Word where
  | endOfOptions
  | long (word : List Char)
  | letters (letters : List Char)
  | plain

def Word.of (arg : String) : Word :=
  match arg.toList with
  | ['-', '-'] => .endOfOptions
  | '-' :: '-' :: cs => .long cs
  | '-' :: c :: cs => .letters (c :: cs)
  | _ => .plain

def readFrom (r : Reading) : List String → Except Request Options
  | [] => if r.waiting.isSome then .error .refused else .ok r.options
  | arg :: args =>
    match Word.of arg, r.waiting with
    | .plain, some option =>
      match setValue r.options option arg with
      | some o => readFrom { options := o } args
      | none => .error .refused
    | .plain, none =>
      readFrom { options := { r.options with files := r.options.files ++ [arg] } } args
    | _, some _ => .error .refused
    | .endOfOptions, none => .ok { r.options with files := r.options.files ++ args }
    | .long word, none =>
      match readLong r.options word with
      | .ok r => readFrom r args
      | .error e => .error e
    | .letters letters, none =>
      match readLetters r.options letters with
      | .ok r => readFrom r args
      | .error e => .error e

def isConsistent (o : Options) : Bool :=
  !(o.printsOutput && o.outputDir.isSome)

def output (o : Options) : Output :=
  if o.printsOutput then .print
  else
    match o.outputDir with
    | some dir => .directory dir
    | none => .inPlace

end Options

def Request.ofArguments (args : List String) : Request :=
  match Options.readFrom {} args with
  | .error request => request
  | .ok options => if options.isConsistent then .run options else .refused

/-- How a run ended. -/
structure Finished where
  code : Nat
  world : World

namespace Options

def loadSections (o : Options) (disk : Disk) (input : String) : Except Error (List Section) :=
  match o.config with
  | none => Section.ofText input
  | some path =>
    match disk.readBytes path with
    | .ok content => Section.ofBytes content
    | .error e => .error (.io path e)

/-- The files for a section: those of the command line, else those it names, else
those of the build. -/
def selectFiles (o : Options) (disk : Disk) (s : Section) : Except Error (List String) :=
  if !o.files.isEmpty then .ok o.files
  else
    match s.files with
    | some files => .ok files
    | none => (CompileCommands.load disk (o.buildPath.getD ".")).map CompileCommands.files

def jobOf (o : Options) (s : Section) : Except Error Job :=
  (Job.ofSection s).map fun job =>
    { job with
      includeDirs := job.includeDirs ++ o.includeDirs
      output := o.output
      keepsBackup := o.keepsBackup
      isDryRun := o.isDryRun }

/-- Runs sections in order. A section without transforms is passed over. -/
def runSections (o : Options) (parse : Parser) (world : World) :
    List Section → World × Except Error Summary
  | [] => (world, .ok {})
  | s :: rest =>
    if !s.hasTransforms then runSections o parse world rest
    else
      match o.selectFiles world.disk s with
      | .error e => (world, .error e)
      | .ok files =>
        match o.jobOf s with
        | .error e => (world, .error e)
        | .ok job =>
          let (world, first) := job.runFiles parse world files
          match runSections o parse world rest with
          | (world, .ok later) => (world, .ok (first.merge later))
          | (world, .error e) => (world, .error e)

def run (o : Options) (parse : Parser) (disk : Disk) (input : String) : Finished :=
  match o.loadSections disk input with
  | .error _ => ⟨1, { disk }⟩
  | .ok [] => ⟨1, { disk }⟩
  | .ok sections =>
    match o.runSections parse { disk } sections with
    | (world, .ok summary) => ⟨if summary.isSuccess then 0 else 1, world⟩
    | (world, .error _) => ⟨1, world⟩

end Options

def versionText : String :=
  "accessorize 0.1.0\n"

def helpText : String :=
  "Encapsulate C++ member fields behind generated accessors\n\n"
    ++ "Usage: accessorize [OPTIONS] [FILES]...\n"

def answer (args : List String) (parse : Parser) (disk : Disk) (input : String) : Finished :=
  match Request.ofArguments args with
  | .refused => ⟨2, { disk }⟩
  | .version => ⟨0, { disk, printed := versionText }⟩
  | .help => ⟨0, { disk, printed := helpText }⟩
  | .run options => options.run parse disk input

end Encapsulate
