import ClassDiagram.Error
import ClassDiagram.Java.Merge
import ClassDiagram.Model.Project

/-! Java sources written from a project. Each class has a file of its own in the directory of its package;
a file that is there already is merged into. Names that would lead elsewhere than down from the root are
skipped. -/

namespace ClassDiagram

open Files

/-- Work on a disk. What was done before an error stays done. -/
abbrev Work := ExceptT Error (StateM Disk)

namespace Work

def attempt (path : Path) (action : Disk → Except Fault Disk) : Work Unit := do
  match action (← get) with
  | .ok disk => set disk
  | .error fault => throw (.io path fault)

def ask (path : Path) (question : Disk → Except Fault α) : Work α := do
  match question (← get) with
  | .ok answer => return answer
  | .error fault => throw (.io path fault)

def makeDirs (path : Path) : Work Unit := do
  let (result, disk) := (← get).makeDirs path
  set disk
  match result with
  | .ok () => return ()
  | .error fault => throw (.io path fault)

end Work

/-- How a file took a model. -/
inductive Outcome where
  | merged (fields methods : Nat)
  | unchanged
  | skipped (reason : String)
  deriving DecidableEq, Repr

/-- Merges a model into a file. -/
def mergeFile (path : Path) (model : Class) : Work Outcome := do
  let source ← Work.ask path (·.readText path)
  match Java.merge source model with
  | .merged fields methods text =>
    Work.attempt path (·.writeText path text)
    return .merged fields methods
  | .unchanged => return .unchanged
  | .refused => return .skipped (Error.message (.syntaxError path))
  | .notOneType count =>
    return .skipped ("expected exactly one top-level type, found " ++ toString count)

/-- The files of a run, by what became of them. -/
structure Report where
  created : List Path := []
  merged : List Path := []
  unchanged : List Path := []
  skipped : List Path := []
  deriving DecidableEq, Repr, Inhabited

namespace Report

def total (report : Report) : Nat :=
  report.created.length + report.merged.length + report.unchanged.length + report.skipped.length

def append (first second : Report) : Report where
  created := first.created ++ second.created
  merged := first.merged ++ second.merged
  unchanged := first.unchanged ++ second.unchanged
  skipped := first.skipped ++ second.skipped

end Report

namespace Generation

def writeClass (dir : Path) (c : Class) : Work Report := do
  let name := c.name ++ ".java"
  let path := dir.join name
  if Path.isFileName ⟨name⟩ then
    if (← get).has path then
      match ← mergeFile path c with
      | .merged _ _ => return { merged := [path] }
      | .unchanged => return { unchanged := [path] }
      | .skipped _ => return { skipped := [path] }
    else
      Work.attempt path (·.writeText path (Java.skeletonText c))
      return { created := [path] }
  else return { skipped := [path] }

def writeClasses (dir : Path) : List Class → Work Report
  | [] => return {}
  | c :: rest => do
    let first ← writeClass dir c
    return first.append (← writeClasses dir rest)

mutual
/-- Packages below come before the classes of the package. -/
def writePackage (parent : Path) : Package → Work Report
  | ⟨name, classes, packages⟩ => do
    let dir := parent.join name
    if Path.isDownward ⟨name⟩ then
      Work.makeDirs dir
      let below ← writePackages dir packages
      return below.append (← writeClasses dir classes)
    else return { skipped := [dir] }

def writePackages (parent : Path) : List Package → Work Report
  | [] => return {}
  | p :: rest => do
    let first ← writePackage parent p
    return first.append (← writePackages parent rest)
end

end Generation

/-- Writes a project below a root directory. -/
def generate (project : Project) (root : Path) : Work Report := do
  Work.makeDirs root
  let packages ← Generation.writePackages root project.packages
  return packages.append (← Generation.writeClasses root project.classes)

end ClassDiagram
