import ClassDiagram.Diagram.BodyLine
import ClassDiagram.Diagram.Header
import ClassDiagram.Model.Project

/-! Reading a diagram in one pass, a line at a time. The state is what has been read at top level, the
packages that are open, innermost first, and the class that is open, if any. -/

namespace ClassDiagram.Diagram

structure Reading where
  packages : List Package := []
  classes : List Class := []
  outer : List Package := []
  inner : Option Class := none
  deriving Repr, Inhabited

namespace Reading

/-- A finished class belongs to the innermost open package. -/
def addClass (r : Reading) (c : Class) : Reading :=
  match r.outer with
  | p :: ps => { r with outer := p.addClass c :: ps }
  | [] => { r with classes := r.classes ++ [c] }

def addPackage (r : Reading) (package : Package) : Reading :=
  match r.outer with
  | p :: ps => { r with outer := p.addPackage package :: ps }
  | [] => { r with packages := r.packages ++ [package] }

def closePackage (r : Reading) : Reading :=
  match r.outer with
  | p :: ps => { r with outer := ps }.addPackage p
  | [] => r

/-- Reads one line. Inside a class a brace closes it and any other line is a member. Elsewhere headers
come before braces, since a header may hold its closing brace. -/
def step (r : Reading) (line : List Char) : Reading :=
  match r.inner with
  | some c =>
    if closes line then { r with inner := none }.addClass c
    else
      match entryOf? line with
      | some entry => { r with inner := some (entry.addTo c) }
      | none => r
  | none =>
    if isClassHeader line then
      let c := classHeader line
      if closes line then r.addClass c else { r with inner := some c }
    else if isPackageHeader line then
      let p : Package := { name := packageName line }
      if closes line then r.addPackage p else { r with outer := p :: r.outer }
    else if closes line then r.closePackage
    else r

def closeClass (r : Reading) : Reading :=
  match r.inner with
  | some c => { r with inner := none }.addClass c
  | none => r

/-- Closes as many open packages as the list has entries. -/
def closePackages : List Package → Reading → Reading
  | [], r => r
  | _ :: ps, r => closePackages ps r.closePackage

/-- What has been read once everything open is closed, innermost first. -/
def finish (r : Reading) : Project :=
  let r := r.closeClass
  let r := closePackages r.outer r
  { packages := r.packages, classes := r.classes }

end Reading

def Reading.ofLines (lines : List (List Char)) : Project :=
  (lines.foldl Reading.step {}).finish

end ClassDiagram.Diagram
