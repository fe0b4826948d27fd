import ClassDiagram.Files.Path
import ClassDiagram.Text.Offset

/-! Files and directories as a value. Every operation is given a path as written and walks it from the
working directory, so that it fails where the walk would. There are no links and no permissions, names
are texts, and what is written is written whole. -/

namespace ClassDiagram.Files

inductive Node where
  | file (content : ByteArray)
  | dir (entries : List (String × Node))
  deriving Inhabited

/-- Why an operation on a path fails. `listing` is a failure met while listing a directory. -/
inductive Fault where
  | notFound
  | notDirectory
  | isDirectory
  | exists
  | nameTooLong
  | nulInName
  | notText
  | listing (path : Path) (cause : Fault)
  deriving DecidableEq, Repr

def Fault.message : Fault → String
  | notFound => "No such file or directory (os error 2)"
  | notDirectory => "Not a directory (os error 20)"
  | isDirectory => "Is a directory (os error 21)"
  | .exists => "File exists (os error 17)"
  | nameTooLong => "File name too long (os error 36)"
  | nulInName => "file name contained an unexpected NUL byte"
  | notText => "stream did not contain valid UTF-8"
  | listing path cause => "IO error for operation on " ++ path.text ++ ": " ++ cause.message

namespace Node

def isDir : Node → Bool
  | dir _ => true
  | file _ => false

def entries : Node → List (String × Node)
  | dir entries => entries
  | file _ => []

def child? (node : Node) (name : String) : Option Node :=
  node.entries.lookup name

def get? (node : Node) : List String → Option Node
  | [] => some node
  | name :: names =>
    match node.child? name with
    | some child => child.get? names
    | none => none

def setEntry (name : String) (node : Node) : List (String × Node) → List (String × Node)
  | [] => [(name, node)]
  | (other, found) :: rest =>
    if other == name then (name, node) :: rest else (other, found) :: setEntry name node rest

/-- Puts a node at a place whose directories exist. -/
def put (new : Node) : List String → Node → Node
  | [], _ => new
  | name :: names, dir entries =>
    match entries.lookup name, names with
    | _, [] => dir (setEntry name new entries)
    | some child, _ => dir (setEntry name (put new names child) entries)
    | none, _ => dir entries
  | _ :: _, file content => file content

end Node

/-- All files there are, and the names that lead from their root to the working directory. -/
structure Disk where
  root : Node
  cwd : List String
  deriving Inhabited

/-- Where a path leads: names from the root, and whether it has to be a directory. The directory that
holds it exists. -/
structure Spot where
  names : List String
  asDir : Bool
  deriving DecidableEq, Repr

def nameLimit : Nat := 255

def pathLimit : Nat := 4095

namespace Disk

/-- Walks segments from a place. Each one but the last has to lead to a directory. -/
def walk (root : Node) (place : List String) : List String → Except Fault Spot
  | [] => .ok ⟨place, true⟩
  | segment :: rest =>
    match root.get? place with
    | none => .error .notFound
    | some (.file _) => .error .notDirectory
    | some (.dir entries) =>
      if Path.isIdle segment then walk root place rest
      else if segment == ".." then walk root place.dropLast rest
      else if nameLimit < segment.utf8ByteSize then .error .nameTooLong
      else if rest.isEmpty then .ok ⟨place ++ [segment], false⟩
      else if rest.all (· == "") then .ok ⟨place ++ [segment], true⟩
      else if (entries.lookup segment).isNone then .error .notFound
      else walk root (place ++ [segment]) rest

def spot (disk : Disk) (path : Path) : Except Fault Spot :=
  if path.text.toList.contains '\x00' then .error .nulInName
  else if path.text == "" then .error .notFound
  else if pathLimit < path.text.utf8ByteSize then .error .nameTooLong
  else walk disk.root (if path.isAbsolute then [] else disk.cwd) path.segments

/-- The file or directory at a path. -/
def node (disk : Disk) (path : Path) : Except Fault Node :=
  match disk.spot path with
  | .error fault => .error fault
  | .ok spot =>
    match disk.root.get? spot.names with
    | none => .error .notFound
    | some (.file content) => if spot.asDir then .error .notDirectory else .ok (.file content)
    | some (.dir entries) => .ok (.dir entries)

def isDir (disk : Disk) (path : Path) : Bool :=
  match disk.node path with
  | .ok (.dir _) => true
  | _ => false

def isFile (disk : Disk) (path : Path) : Bool :=
  match disk.node path with
  | .ok (.file _) => true
  | _ => false

def has (disk : Disk) (path : Path) : Bool :=
  match disk.node path with
  | .ok _ => true
  | .error _ => false

def readBytes (disk : Disk) (path : Path) : Except Fault ByteArray :=
  match disk.node path with
  | .ok (.file content) => .ok content
  | .ok (.dir _) => .error .isDirectory
  | .error fault => .error fault

def decode (content : ByteArray) : Except Fault String :=
  match String.fromUTF8? content with
  | some text => .ok text
  | none => .error .notText

def readText (disk : Disk) (path : Path) : Except Fault String :=
  match disk.readBytes path with
  | .ok content => decode content
  | .error fault => .error fault

/-- Writes a whole file, new or not. -/
def writeBytes (disk : Disk) (path : Path) (content : ByteArray) : Except Fault Disk :=
  match disk.spot path with
  | .error fault => .error fault
  | .ok spot =>
    match disk.root.get? spot.names with
    | some (.dir _) => .error .isDirectory
    | some (.file _) =>
      if spot.asDir then .error .notDirectory
      else .ok { disk with root := (Node.file content).put spot.names disk.root }
    | none =>
      if spot.asDir then .error .isDirectory
      else .ok { disk with root := (Node.file content).put spot.names disk.root }

def writeText (disk : Disk) (path : Path) (text : String) : Except Fault Disk :=
  disk.writeBytes path text.toUTF8

def makeDir (disk : Disk) (path : Path) : Except Fault Disk :=
  match disk.spot path with
  | .error fault => .error fault
  | .ok spot =>
    match disk.root.get? spot.names with
    | some _ => .error .exists
    | none => .ok { disk with root := (Node.dir []).put spot.names disk.root }

/-- Makes a directory and those above it that are missing, given innermost first. What was made before a
failure stays. -/
def makeDirsAlong : List Path → Disk → Except Fault Unit × Disk
  | [], disk => (.ok (), disk)
  | path :: above, disk =>
    match disk.makeDir path with
    | .ok disk => (.ok (), disk)
    | .error .notFound =>
      match makeDirsAlong above disk with
      | (.error fault, disk) => (.error fault, disk)
      | (.ok (), disk) =>
        match disk.makeDir path with
        | .ok disk => (.ok (), disk)
        | .error fault => (if disk.isDir path then .ok () else .error fault, disk)
    | .error fault => (if disk.isDir path then .ok () else .error fault, disk)

def makeDirs (disk : Disk) (path : Path) : Except Fault Unit × Disk :=
  makeDirsAlong path.lineage disk

end Disk

end ClassDiagram.Files
