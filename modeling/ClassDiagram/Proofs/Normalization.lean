import ClassDiagram.Proofs.CollapsedPackages
import ClassDiagram.Proofs.PackageTree

/-! Normalizing at any time. What normalizing gives depends only on the essence of a project: its
collapsed packages, and its classes without what is derived for them. Shaping a project keeps the
essence, and a mutation changes the essence in the same way whether or not the project was shaped
before, so only the mutations count. -/

namespace ClassDiagram

inductive Addition where
  | field (field : Field)
  | method (method : Method)
  | constant (constant : String)
  | contained (name : String)
  deriving DecidableEq, Repr

def Class.append (c : Class) : Addition → Class
  | .field field => c.addField field
  | .method method => c.addMethod method
  | .constant constant => c.addConstant constant
  | .contained name => c.addContained name

/-- `append` reaches every class of the name. -/
inductive Mutation where
  | addPackage (package : Package)
  | addClass (c : Class)
  | append (name : String) (addition : Addition)
  deriving Repr

inductive Shaping where
  | normalize
  | collapsePackages
  | indexNames
  | inferContainment
  deriving DecidableEq, Repr

inductive Step where
  | mutate (mutation : Mutation)
  | shape (shaping : Shaping)
  deriving Repr

def Step.mutation? : Step → Option Mutation
  | mutate mutation => some mutation
  | shape _ => none

namespace Project

def mutate (p : Project) : Mutation → Project
  | .addPackage package => p.addPackage package
  | .addClass c => p.addClass c
  | .append name addition => p.editClass name (·.append addition)

def shape (p : Project) : Shaping → Project
  | .normalize => p.normalize
  | .collapsePackages => p.collapsePackages
  | .indexNames => p.indexNames
  | .inferContainment => p.inferContainment

def step (p : Project) : Step → Project
  | .mutate mutation => p.mutate mutation
  | .shape shaping => p.shape shaping

end Project

/-- The project without its derived data: no index, and no containment in any class. -/
def Project.unlinked (p : Project) : Project :=
  { p.mapClasses Class.unlinked with classNames := [] }

end ClassDiagram

namespace ClassDiagram.Proofs.Normalization
open CollapsedPackages PackageTree

def essence (p : Project) : Project :=
  p.collapsePackages.unlinked

/-- Normalizing looks at the essence only. -/
theorem normalize_essence (p : Project) : p.normalize = (essence p).indexNames.inferContainment :=
  (relinked Class.unlinked [] p.collapsePackages (fun _ => rfl) (fun _ _ => rfl)).symm

private theorem normalize_alike {p q : Project} (same : essence p = essence q) :
    p.normalize = q.normalize := by
  rw [normalize_essence, normalize_essence, same]

private theorem collapseAll_twice (all : List Package) :
    Package.collapseAll (Package.collapseAll all) = Package.collapseAll all := by
  simp only [collapseAll_eq, List.map_map]
  exact List.map_congr_left fun p _ => collapse_collapsed (collapse_isCollapsed p)

private theorem essence_collapse (p : Project) : essence p.collapsePackages = essence p := by
  simp only [essence, Project.collapsePackages, collapseAll_twice]

private theorem essence_map (f : Class → Class) (p : Project) :
    essence (p.mapClasses f) =
      { p.collapsePackages.mapClasses (Class.unlinked ∘ f) with classNames := [] } := by
  simp only [essence, Project.unlinked, Project.collapsePackages, Project.mapClasses,
    collapseAll_map, mapAll_comp, List.map_map]

/-- A change of containment does not touch the essence. -/
theorem essence_relinked (f : Class → Class) (relinks : ∀ c, (f c).unlinked = c.unlinked)
    (p : Project) : essence (p.mapClasses f) = essence p := by
  have same : Class.unlinked ∘ f = Class.unlinked := funext relinks
  rw [essence_map, same]
  rfl

private theorem essence_names (names : List String) (p : Project) :
    essence { p with classNames := names } = essence p := rfl

private theorem essence_infer (p : Project) : essence p.inferContainment = essence p :=
  essence_relinked (Class.inferContained p.classNames) (fun _ => rfl) p

private theorem essence_normalize (p : Project) : essence p.normalize = essence p := by
  rw [Project.normalize, essence_infer]
  exact essence_collapse p

private theorem essence_shape (p : Project) (shaping : Shaping) :
    essence (p.shape shaping) = essence p := by
  cases shaping with
  | normalize => exact essence_normalize p
  | collapsePackages => exact essence_collapse p
  | indexNames => exact essence_names _ p
  | inferContainment => exact essence_infer p

private theorem essence_addPackage (p : Project) (package : Package) :
    essence (p.addPackage package) =
      (essence p).addPackage (package.collapse.mapClasses Class.unlinked) := by
  simp only [essence, Project.unlinked, Project.mapClasses, Project.collapsePackages,
    Project.addPackage, collapseAll_eq, mapAll_eq, List.map_append, List.map_cons, List.map_nil]

private theorem essence_addClass (p : Project) (c : Class) :
    essence (p.addClass c) = (essence p).addClass c.unlinked := by
  simp only [essence, Project.unlinked, Project.mapClasses, Project.collapsePackages,
    Project.addClass, List.map_append, List.map_cons, List.map_nil]

/-- An edit that does not read containment can as well be made on the essence. -/
theorem essence_edit {f : Class → Class} (blind : ∀ c, (f c).unlinked = (f c.unlinked).unlinked)
    (p : Project) : essence (p.mapClasses f) = (essence p).mapClasses (Class.unlinked ∘ f) := by
  have same : (Class.unlinked ∘ f) ∘ Class.unlinked = Class.unlinked ∘ f :=
    funext fun c => (blind c).symm
  rw [essence_map]
  simp only [essence, Project.unlinked, Project.mapClasses, mapAll_comp, List.map_map, same]

private theorem append_blind (c : Class) (addition : Addition) :
    (c.append addition).unlinked = (c.unlinked.append addition).unlinked := by
  cases addition <;> rfl

/-- Projects of one essence stay so under a mutation. -/
theorem mutate_alike {p q : Project} (same : essence p = essence q) (mutation : Mutation) :
    essence (p.mutate mutation) = essence (q.mutate mutation) := by
  cases mutation with
  | addPackage package =>
    show essence (p.addPackage package) = essence (q.addPackage package)
    rw [essence_addPackage, essence_addPackage, same]
  | addClass c =>
    show essence (p.addClass c) = essence (q.addClass c)
    rw [essence_addClass, essence_addClass, same]
  | append name addition =>
    have blind : ∀ c : Class, (if c.name == name then c.append addition else c).unlinked =
        (if c.unlinked.name == name then c.unlinked.append addition else c.unlinked).unlinked := by
      intro c
      by_cases reached : (c.name == name) = true
      · simpa [Class.unlinked, reached] using append_blind c addition
      · simp [Class.unlinked, reached]
    show essence (p.editClass name _) = essence (q.editClass name _)
    rw [Project.editClass, Project.editClass, essence_edit blind, essence_edit blind, same]

/-- Steps lead to the essence to which their mutations alone lead. -/
theorem steps_alike {p q : Project} (same : essence p = essence q) (steps : List Step) :
    essence (steps.foldl Project.step p) =
      essence ((steps.filterMap Step.mutation?).foldl Project.mutate q) := by
  induction steps generalizing p q with
  | nil => exact same
  | cons step steps ih =>
    cases step with
    | mutate mutation => exact ih (mutate_alike same mutation)
    | shape shaping => exact ih ((essence_shape p shaping).trans same)

/-- Shapings may stand anywhere between mutations: one normalization at the end gives what it gives
after the mutations alone. So it may be repeated, and what was derived before does not count. -/
theorem normalize_at_any_time (p : Project) :
    (∀ steps : List Step, (steps.foldl Project.step p).normalize =
      ((steps.filterMap Step.mutation?).foldl Project.mutate p).normalize) ∧
      p.normalize.normalize = p.normalize ∧ p.normalize = p.unlinked.normalize := by
  refine ⟨fun steps => normalize_alike (steps_alike rfl steps),
    normalize_alike (essence_normalize p), normalize_alike ?_⟩
  exact ((essence_names [] _).trans (essence_relinked Class.unlinked (fun _ => rfl) p)).symm

end ClassDiagram.Proofs.Normalization
