import ClassDiagram.Model.Package

/-! A project is a forest of packages beside top-level classes, with an index of its class names. Index
and containment are derived data: computing them afresh never depends on what they were before. -/

namespace ClassDiagram

structure Project where
  packages : List Package := []
  classes : List Class := []
  classNames : List String := []
  deriving Repr, Inhabited

namespace Project

def addPackage (p : Project) (package : Package) : Project :=
  { p with packages := p.packages ++ [package] }

def addClass (p : Project) (c : Class) : Project :=
  { p with classes := p.classes ++ [c] }

/-- Top-level classes first, then those of the packages, depth first. -/
def allClasses (p : Project) : List Class :=
  p.classes ++ Package.classesOf p.packages

def classCount (p : Project) : Nat :=
  p.allClasses.length

def mapClasses (f : Class → Class) (p : Project) : Project :=
  { p with classes := p.classes.map f, packages := Package.mapAll f p.packages }

/-- The edit reaches every class of that name, at any depth. -/
def editClass (name : String) (f : Class → Class) (p : Project) : Project :=
  p.mapClasses fun c => if c.name == name then f c else c

def find? (p : Project) (name : String) : Option Class :=
  p.allClasses.find? (·.name == name)

def isKnown (p : Project) (name : String) : Bool :=
  p.classNames.contains name

def collapsePackages (p : Project) : Project :=
  { p with packages := Package.collapseAll p.packages }

/-- Each class name once, where it occurs first. -/
def indexNames (p : Project) : Project :=
  { p with classNames := (p.allClasses.map Class.name).eraseDups }

def inferContainment (p : Project) : Project :=
  p.mapClasses (Class.inferContained p.classNames)

def normalize (p : Project) : Project :=
  p.collapsePackages.indexNames.inferContainment

end Project

end ClassDiagram
