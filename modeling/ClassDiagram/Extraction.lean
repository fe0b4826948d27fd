import ClassDiagram.Files.Listing
import ClassDiagram.Java.Outline
import ClassDiagram.Model.Project

/-! A project read from a tree of Java sources. Files of the root give top-level classes and each
directory gives a package. A file that cannot be read or parsed is skipped. -/

namespace ClassDiagram

open Files

structure Extraction where
  project : Project
  filesParsed : Nat
  filesSkipped : List Path
  deriving Repr, Inhabited

namespace Extraction

/-- What a part of the tree gives. -/
structure Harvest where
  classes : List Class := []
  packages : List Package := []
  parsed : Nat := 0
  skipped : List Path := []
  deriving Repr, Inhabited

namespace Harvest

def append (first second : Harvest) : Harvest where
  classes := first.classes ++ second.classes
  packages := first.packages ++ second.packages
  parsed := first.parsed + second.parsed
  skipped := first.skipped ++ second.skipped

def ofFile (path : Path) (content : ByteArray) : Harvest :=
  match Disk.decode content with
  | .error _ => { skipped := [path] }
  | .ok source =>
    match Java.sourceTypes? source with
    | none => { skipped := [path] }
    | some types => { classes := types.map Java.SourceType.type, parsed := 1 }

/-- A directory below the root is one package. -/
def ofPackage (path : Path) (inside : Harvest) : Harvest where
  packages := [{ name := path.fileName?.getD "", classes := inside.classes, packages := inside.packages }]
  parsed := inside.parsed
  skipped := inside.skipped

end Harvest

/-- What one entry of a directory gives, files and directories apart. -/
structure Part where
  files : Harvest := {}
  directories : Harvest := {}
  deriving Repr, Inhabited

/-- Puts together what the entries of a directory give. -/
def combine : List (String × Except Error Part) → Except Error Part
  | [] => .ok {}
  | (_, .error error) :: _ => .error error
  | (_, .ok part) :: rest =>
    (combine rest).map fun other =>
      { files := part.files.append other.files
        directories := part.directories.append other.directories }

def Part.whole (part : Part) : Harvest :=
  part.files.append part.directories

/-- What a directory gives, from what its entries that are not excluded give. -/
def ofEntries (found : List (String × Except Error Part)) : Except Error Harvest :=
  (combine (byName found)).map Part.whole

mutual
/-- What a node gives at its path. Files come before directories, each by name. -/
def gather (scanner : Scanner) (path : Path) : Node → Except Error Part
  | .file content => .ok { files := if isJavaPath path then Harvest.ofFile path content else {} }
  | .dir entries =>
    match checkEntry path with
    | .error error => .error error
    | .ok () =>
      (ofEntries (gatherAll scanner path entries)).map fun inside =>
        { directories := Harvest.ofPackage path inside }

def gatherAll (scanner : Scanner) (dir : Path) : List (String × Node) → List (String × Except Error Part)
  | [] => []
  | (name, node) :: rest =>
    let path := dir.join name
    if scanner.excludes path then gatherAll scanner dir rest
    else (name, gather scanner path node) :: gatherAll scanner dir rest
end

def ofHarvest (harvest : Harvest) : Extraction where
  project := ({ classes := harvest.classes, packages := harvest.packages } : Project).normalize
  filesParsed := harvest.parsed
  filesSkipped := harvest.skipped

end Extraction

/-- Reads and normalizes the project below a source directory. -/
def extract (disk : Disk) (source : Path) (exclude : List String) : Except Error Extraction :=
  match disk.node source with
  | .ok (.dir entries) =>
    match Scanner.make source exclude with
    | .error error => .error error
    | .ok scanner =>
      (Extraction.ofEntries (Extraction.gatherAll scanner source entries)).map Extraction.ofHarvest
  | _ => .error (.sourceFolderNotFound source)

end ClassDiagram
