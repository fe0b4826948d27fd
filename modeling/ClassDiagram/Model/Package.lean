import ClassDiagram.Model.Class

/-! Packages nest. A package without classes and with a single child only nests that child; collapsing
joins such chains into one package whose name is the joined path. -/

namespace ClassDiagram

structure Package where
  name : String
  classes : List Class := []
  packages : List Package := []
  deriving Repr, Inhabited

namespace Package

def addClass (p : Package) (c : Class) : Package :=
  { p with classes := p.classes ++ [c] }

def addPackage (p : Package) (child : Package) : Package :=
  { p with packages := p.packages ++ [child] }

def isNestingOnly (p : Package) : Bool :=
  p.classes.isEmpty && p.packages.length == 1

mutual
/-- A chain of nesting-only packages becomes its last link under the joined name. -/
def collapse : Package → Package
  | ⟨name, [], [child]⟩ =>
    let inner := child.collapse
    ⟨name ++ "/" ++ inner.name, inner.classes, inner.packages⟩
  | ⟨name, classes, packages⟩ => ⟨name, classes, collapseAll packages⟩

def collapseAll : List Package → List Package
  | [] => []
  | p :: ps => p.collapse :: collapseAll ps
end

mutual
def isCollapsed : Package → Bool
  | ⟨_, classes, packages⟩ =>
    !(classes.isEmpty && packages.length == 1) && areCollapsed packages

def areCollapsed : List Package → Bool
  | [] => true
  | p :: ps => p.isCollapsed && areCollapsed ps
end

mutual
/-- Own classes first, then those of the children, depth first. -/
def allClasses : Package → List Class
  | ⟨_, classes, packages⟩ => classes ++ classesOf packages

def classesOf : List Package → List Class
  | [] => []
  | p :: ps => p.allClasses ++ classesOf ps
end

mutual
def mapClasses (f : Class → Class) : Package → Package
  | ⟨name, classes, packages⟩ => ⟨name, classes.map f, mapAll f packages⟩

def mapAll (f : Class → Class) : List Package → List Package
  | [] => []
  | p :: ps => p.mapClasses f :: mapAll f ps
end

end Package

end ClassDiagram
