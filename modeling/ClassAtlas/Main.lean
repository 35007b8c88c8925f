import ClassAtlas.CommandLine

/-!
# The program

Reads from the disk what a command looks at, runs the command on that file tree, and
writes to the disk what has changed in it.
-/

namespace ClassAtlas.Disk

def pathText (location : Location) : String :=
  "/" ++ "/".intercalate location

/-- The files and directories in the directory that an entry of another one leads to. -/
partial def recordEntry (location : Location) (t : FileTree) (entry : IO.FS.DirEntry) :
    IO FileTree := do
  let location := location ++ [entry.fileName]
  if ← entry.path.isDir then
    let t := { t with nodes := t.nodes.insert location .directory }
    (← entry.path.readDir).foldlM (recordEntry location) t
  else
    let content ← IO.FS.readBinFile entry.path
    return { t with nodes := t.nodes.insert location (.file content.toList) }

/-- What lies on the way to a location and, where that is a directory, everything in it. -/
def record (location : Location) (t : FileTree) : IO FileTree := do
  let mut t := t
  for length in List.range location.length do
    let above := location.take (length + 1)
    try
      let path ← IO.FS.realPath (pathText above)
      if ← path.isDir then
        t := { t with nodes := t.nodes.insert above .directory }
        if length + 1 = location.length then
          t ← (← path.readDir).foldlM (recordEntry location) t
      else
        let content ← IO.FS.readBinFile path
        t := { t with nodes := t.nodes.insert above (.file content.toList) }
    catch _ => return t
  return t

/-- A tree with nothing but the working directory and those above it. -/
def around (here : Location) : FileTree where
  nodes := .ofList ((List.range here.length).map fun length =>
    (here.take (length + 1), FileNode.directory))
  workingDirectory := here

def update (before after : FileTree) : IO Unit := do
  for (location, node) in after.nodes.toList do
    if before.node? location ≠ some node then
      match node with
      | .directory => IO.FS.createDirAll (pathText location)
      | .file content => IO.FS.writeBinFile (pathText location) content.toByteArray

end ClassAtlas.Disk

open ClassAtlas in
def main (args : List String) : IO UInt32 := do
  let here := (FileTree.stepsOf (← IO.currentDir).toString).filter fun step => !step.isEmpty
  let mut before := Disk.around here
  for path in CommandLine.pathsOf args do
    before ← Disk.record (before.locationOf path) before
  let (ending, after) := CommandLine.run args before
  Disk.update before after
  IO.print ending.output
  IO.eprint ending.errorOutput
  return UInt32.ofNat ending.status
