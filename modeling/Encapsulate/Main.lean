import Encapsulate.CommandLine
import Encapsulate.Cpp.TreeFile

/-!
The program: reads the working directory, answers the command line and writes the
files that changed. Source texts are looked up among the trees stored in
`parse_trees.json` in the working directory.
-/

namespace Encapsulate.Program

def treesName : String :=
  "parse_trees.json"

/-- All of standard input. -/
partial def readAll (input : IO.FS.Stream) (read : String) : IO String := do
  let line ← input.getLine
  if line.isEmpty then return read else readAll input (read ++ line)

def readDisk : IO Disk := do
  let root ← IO.currentDir
  let mut disk : Disk := {}
  for path in ← root.walkDir do
    let names := (Path.segments path.toString).drop (Path.segments root.toString).length
    if ← path.isDir then
      disk := disk.put names .directory
    else
      disk := disk.put names (.file (← IO.FS.readBinFile path))
  return disk

def writeChanges (before after : Disk) : IO Unit := do
  for (path, content) in after.filesChangedFrom before do
    let dir := Path.parent path
    if !dir.isEmpty then IO.FS.createDirAll dir
    IO.FS.writeBinFile path content

def run (args : List String) : IO UInt32 := do
  let input ← match Request.ofArguments args with
    | .run options =>
      if options.config.isNone then readAll (← IO.getStdin) "" else pure ""
    | _ => pure ""
  let disk ← readDisk
  let trees := match disk.readText treesName with
    | .ok text => (Cpp.TreeFile.ofText? text).getD []
    | .error _ => []
  let finished := answer args (Cpp.TreeFile.parser trees) disk input
  writeChanges disk finished.world.disk
  (← IO.getStdout).putStr finished.world.printed
  return finished.code.toUInt32

end Encapsulate.Program

def main (args : List String) : IO UInt32 :=
  Encapsulate.Program.run args
