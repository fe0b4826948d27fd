import ClassDiagram.Command.Elapsed
import ClassDiagram.Command.Run

/-! The command line. What a call may look at is copied from the file system to a disk, the call is
carried out there, and what it changed is copied back. A diagram is written once; watching for changes is
left to other tools. -/

namespace ClassDiagram.Main

open Command Files

/-- The text of the path that the names lead along from the root. -/
def textOf (names : List String) : String :=
  "/" ++ "/".intercalate names

/-- Every place on the way along the segments. -/
def placesAlong (place : List String) : List String → List (List String)
  | [] => [place]
  | segment :: rest =>
    if Path.isIdle segment then placesAlong place rest
    else if segment == ".." then place :: placesAlong place.dropLast rest
    else place :: placesAlong (place ++ [segment]) rest

/-- The node at a path, without what is below it. -/
def nodeAt (path : Path) : IO (Option Node) := do
  let place := System.mkFilePath [path.text]
  if !(← place.pathExists) then return none
  else if ← place.isDir then return some (.dir [])
  else return some (.file (← IO.FS.readBinFile place))

/-- The node at a path with what is below it. Of files that are no sources only the names matter. Each
level makes the path longer, so that the limit of paths is as deep as anything can be opened. -/
def treeAt : (levels : Nat) → Path → IO (Option Node)
  | 0, path => nodeAt path
  | levels + 1, path => do
    let place := System.mkFilePath [path.text]
    if ← place.isDir then
      let mut entries := []
      for entry in ← place.readDir do
        if entry.fileName.endsWith ".java" || (← entry.path.isDir) then
          if let some node ← treeAt levels (path.join entry.fileName) then
            entries := (entry.fileName, node) :: entries
        else
          entries := (entry.fileName, .file .empty) :: entries
      return some (.dir entries.reverse)
    else nodeAt path

/-- Copies the nodes on the way to a path and at it, but no directory twice. -/
def copyNode (disk : Disk) (path : Path) : IO Disk := do
  let mut root := disk.root
  for place in placesAlong (if path.isAbsolute then [] else disk.cwd) path.segments do
    unless (root.get? place).any Node.isDir do
      if let some node ← nodeAt ⟨textOf place⟩ then
        root := node.put place root
  return { disk with root }

def copyTree (disk : Disk) (path : Path) : IO Disk := do
  let disk ← copyNode disk path
  match disk.spot path with
  | .error _ => return disk
  | .ok spot =>
    match ← treeAt pathLimit path with
    | some node => return { disk with root := node.put spot.names disk.root }
    | none => return disk

def copyTouched (disk : Disk) : Touched → IO Disk
  | .node path => copyNode disk path
  | .tree path => copyTree disk path

mutual
/-- Copies back what is new or changed. -/
def copyBack (names : List String) (before : Option Node) : Node → IO Unit
  | .file content => do
    if let some (.file old) := before then
      if old == content then return
    IO.FS.writeBinFile (textOf names) content
  | .dir entries => do
    if before.isNone then IO.FS.createDir (textOf names)
    copyAllBack names before entries

def copyAllBack (names : List String) (before : Option Node) : List (String × Node) → IO Unit
  | [] => return ()
  | (name, node) :: rest => do
    copyBack (names ++ [name]) (before.bind (·.child? name)) node
    copyAllBack names before rest
end

def usage : String :=
  "Usage: javauml [-c <FILE>] [-v] <COMMAND> [OPTIONS]\n\n"
    ++ "  uml    -s, --source <DIR>    -o, --output <DIR>  write the diagram of a source tree\n"
    ++ "  java   -d, --diagram <PATH>  -t, --target <DIR>  write or merge sources from a diagram\n"
    ++ "  model  -s, --source <DIR>                        print the model of a source tree\n"

def run (arguments : List String) : IO UInt32 := do
  let start ← IO.monoNanosNow
  let cwd := (Path.segments ⟨(← IO.currentDir).toString⟩).filter (!Path.isIdle ·)
  let mut disk ← copyNode { root := .dir [], cwd } ⟨textOf cwd⟩
  if let .ok call := Command.call arguments then
    disk ← copyNode disk call.config
    for touched in call.touches disk do
      disk ← copyTouched disk touched
  let (exit, console) := Command.run arguments disk
  copyBack [] (some disk.root) console.disk.root
  IO.print (console.text (elapsed ((← IO.monoNanosNow) - start)))
  match exit with
  | .failed trouble => IO.eprint trouble.report
  | .ended .misuse => IO.eprint usage
  | .ended .help => IO.print usage
  | _ => return exit.code.toUInt32
  return exit.code.toUInt32

end ClassDiagram.Main

def main (arguments : List String) : IO UInt32 :=
  ClassDiagram.Main.run arguments
