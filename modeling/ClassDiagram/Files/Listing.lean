import ClassDiagram.Error

/-! What a source directory holds directly: Java files and subdirectories, by name, but for those that an
exclude pattern matches. Patterns are held against paths below the root of the sources. -/

namespace ClassDiagram.Files

structure Scanner where
  root : Path
  exclude : List Glob
  deriving DecidableEq, Repr

structure Listing where
  javaFiles : List Path := []
  subdirectories : List Path := []
  deriving DecidableEq, Repr

def patterns : List String → Except Error (List Glob)
  | [] => .ok []
  | pattern :: rest =>
    match Glob.parse pattern with
    | .error error => .error (.invalidPattern pattern error)
    | .ok glob => (patterns rest).map (glob :: ·)

namespace Scanner

def make (root : Path) (exclude : List String) : Except Error Scanner :=
  (patterns exclude).map fun exclude => { root, exclude }

def excludes (scanner : Scanner) (path : Path) : Bool :=
  let relative := (scanner.root.below? path).getD path
  scanner.exclude.any (·.accepts relative.text)

end Scanner

def hasJavaName (path : Path) : Bool :=
  path.extension? == some "java"

def isJavaFile (disk : Disk) (path : Path) : Bool :=
  disk.isFile path && hasJavaName path

def byName (entries : List (String × α)) : List (String × α) :=
  entries.mergeSort fun a b => decide (a.1 ≤ b.1)

/-- A directory beyond the limit of paths can be listed but not opened. -/
def checkEntry (path : Path) : Except Error Unit :=
  if pathLimit < path.text.utf8ByteSize then .error (.io path (.listing path .nameTooLong)) else .ok ()

/-- A file beyond the limit of paths cannot be looked at, so that its name does not count. -/
def isJavaPath (path : Path) : Bool :=
  decide (path.text.utf8ByteSize ≤ pathLimit) && hasJavaName path

def listEntries (scanner : Scanner) (dir : Path) : List (String × Node) → Listing
  | [] => {}
  | (name, node) :: rest =>
    let path := dir.join name
    let listing := listEntries scanner dir rest
    if scanner.excludes path then listing
    else if node.isDir then { listing with subdirectories := path :: listing.subdirectories }
    else if isJavaPath path then { listing with javaFiles := path :: listing.javaFiles }
    else listing

/-- A file in place of the directory holds nothing. -/
def list (disk : Disk) (scanner : Scanner) (dir : Path) : Except Error Listing :=
  match disk.node dir with
  | .error fault => .error (.io dir (.listing dir fault))
  | .ok node => .ok (listEntries scanner dir (byName node.entries))

end ClassDiagram.Files
