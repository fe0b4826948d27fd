import ClassDiagram.Model.Project

/-! Changing every class of a package tree keeps the tree, and index and containment are recomputed
from names and fields alone. -/

namespace ClassDiagram.Class

def unlinked (c : Class) : Class :=
  { c with contained := [] }

end ClassDiagram.Class

namespace ClassDiagram.Proofs.PackageTree

theorem mapAll_eq (f : Class → Class) (all : List Package) :
    Package.mapAll f all = all.map (Package.mapClasses f) := by
  induction all with
  | nil => rfl
  | cons p ps ih => rw [Package.mapAll, ih, List.map_cons]

mutual
theorem mapClasses_comp (f g : Class → Class) (p : Package) :
    (p.mapClasses g).mapClasses f = p.mapClasses (f ∘ g) := by
  match p with
  | ⟨name, classes, packages⟩ => simp [Package.mapClasses, mapAll_comp f g packages]
termination_by structural p

theorem mapAll_comp (f g : Class → Class) (all : List Package) :
    Package.mapAll f (Package.mapAll g all) = Package.mapAll (f ∘ g) all := by
  match all with
  | [] => rfl
  | p :: ps => simp [Package.mapAll, mapClasses_comp f g p, mapAll_comp f g ps]
termination_by structural all
end

mutual
theorem allClasses_map (f : Class → Class) (p : Package) :
    (p.mapClasses f).allClasses = p.allClasses.map f := by
  match p with
  | ⟨name, classes, packages⟩ =>
    simp [Package.mapClasses, Package.allClasses, classesOf_map f packages]
termination_by structural p

private theorem classesOf_map (f : Class → Class) (all : List Package) :
    Package.classesOf (Package.mapAll f all) = (Package.classesOf all).map f := by
  match all with
  | [] => rfl
  | p :: ps => simp [Package.mapAll, Package.classesOf, allClasses_map f p, classesOf_map f ps]
termination_by structural all
end

theorem project_allClasses_map (f : Class → Class) (p : Project) :
    (p.mapClasses f).allClasses = p.allClasses.map f := by
  simp [Project.mapClasses, Project.allClasses, classesOf_map]

theorem project_map_comp (f g : Class → Class) (p : Project) :
    (p.mapClasses g).mapClasses f = p.mapClasses (f ∘ g) := by
  simp [Project.mapClasses, mapAll_comp]

/-- Index and containment only look at names and fields, so a change of containment is undone. -/
theorem relinked (f : Class → Class) (names : List String) (p : Project)
    (name : ∀ c, (f c).name = c.name)
    (linked : ∀ known c, (f c).inferContained known = c.inferContained known) :
    ({ p.mapClasses f with classNames := names } : Project).indexNames.inferContainment =
      p.indexNames.inferContainment := by
  have same : ({ p.mapClasses f with classNames := names } : Project).allClasses.map Class.name =
      p.allClasses.map Class.name := by
    have classes := project_allClasses_map f p
    simp only [Project.allClasses] at classes ⊢
    rw [classes, List.map_map]
    exact List.map_congr_left fun c _ => name c
  have inferred : ∀ known, Class.inferContained known ∘ f = Class.inferContained known :=
    fun known =>
    funext fun c => linked known c
  simp only [Project.inferContainment, Project.indexNames, same]
  simp [Project.mapClasses, mapAll_comp, inferred]

mutual
theorem collapse_map (f : Class → Class) (p : Package) :
    (p.mapClasses f).collapse = p.collapse.mapClasses f := by
  match p with
  | ⟨name, [], [child]⟩ =>
    have inner := collapse_map f child
    simp only [Package.mapClasses, Package.mapAll, List.map_nil, Package.collapse, inner]
    cases child.collapse
    rfl
  | ⟨name, [], []⟩ => rfl
  | ⟨name, [], first :: second :: more⟩ =>
    have inner := collapseAll_map f (first :: second :: more)
    simp only [Package.mapAll] at inner
    simp only [Package.mapClasses, Package.mapAll, List.map_nil, Package.collapse, inner]
  | ⟨name, c :: classes, packages⟩ =>
    simp only [Package.mapClasses, List.map_cons, Package.collapse, collapseAll_map f packages]
termination_by structural p

theorem collapseAll_map (f : Class → Class) (all : List Package) :
    Package.collapseAll (Package.mapAll f all) = Package.mapAll f (Package.collapseAll all) := by
  match all with
  | [] => rfl
  | p :: ps =>
    simp only [Package.mapAll, Package.collapseAll, collapse_map f p, collapseAll_map f ps]
termination_by structural all
end

/-- Normalizing undoes a change of containment. -/
theorem normalize_map (f : Class → Class) (p : Project) (name : ∀ c, (f c).name = c.name)
    (linked : ∀ known c, (f c).inferContained known = c.inferContained known) :
    (p.mapClasses f).normalize = p.normalize := by
  have same := relinked f p.classNames p.collapsePackages name linked
  simpa [Project.normalize, Project.collapsePackages, Project.mapClasses, collapseAll_map]
    using same

end ClassDiagram.Proofs.PackageTree
