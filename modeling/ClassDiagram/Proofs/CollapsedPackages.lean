import ClassDiagram.Model.Project
import Mathlib.Data.List.Basic
import Mathlib.Logic.Function.Iterate

/-! Collapsed package trees. A package that only nests its child takes the child's place under the
joined name, turn after turn, until it holds a class or does not have a single child. No package
that only nests is left, and every other one keeps its path, its classes and its turn in
preorder. -/

namespace ClassDiagram.Package

def pathOf (names : List String) : String :=
  "/".intercalate names

mutual
/-- The package and all below it in preorder, each with the names that lead to it. -/
def located (above : List String) : Package → List (List String × Package)
  | ⟨name, classes, packages⟩ =>
    (above ++ [name], ⟨name, classes, packages⟩) :: locatedIn (above ++ [name]) packages

def locatedIn (above : List String) : List Package → List (List String × Package)
  | [] => []
  | p :: ps => p.located above ++ locatedIn above ps
end

def placed (packages : List (List String × Package)) : List (String × Class) :=
  packages.flatMap fun (names, p) => p.classes.map (pathOf names, ·)

/-- One turn of collapsing: a package that only nests its child takes the child's place. -/
def absorb : Package → Package
  | ⟨name, [], [child]⟩ => ⟨name ++ "/" ++ child.name, child.classes, child.packages⟩
  | p => p

end ClassDiagram.Package

namespace ClassDiagram.Proofs.CollapsedPackages
open Package

theorem collapseAll_eq (all : List Package) : collapseAll all = all.map collapse := by
  induction all with
  | nil => rfl
  | cons p ps ih => rw [collapseAll, ih, List.map_cons]

private theorem areCollapsed_eq (all : List Package) : areCollapsed all = all.all isCollapsed := by
  induction all with
  | nil => rfl
  | cons p ps ih => rw [areCollapsed, ih, List.all_cons]

theorem classesOf_eq (all : List Package) : classesOf all = all.flatMap allClasses := by
  induction all with
  | nil => rfl
  | cons p ps ih => rw [classesOf, ih, List.flatMap_cons]

theorem locatedIn_eq (above : List String) (all : List Package) :
    locatedIn above all = all.flatMap (located above) := by
  induction all with
  | nil => rfl
  | cons p ps ih => rw [locatedIn, ih, List.flatMap_cons]

theorem located_eq (above : List String) (p : Package) :
    p.located above = (above ++ [p.name], p) ::
      p.packages.flatMap (located (above ++ [p.name])) := by
  cases p
  rw [located, locatedIn_eq]

private theorem allClasses_eq (p : Package) :
    p.allClasses = p.classes ++ p.packages.flatMap allClasses := by
  cases p
  rw [allClasses, classesOf_eq]

private theorem isCollapsed_eq (p : Package) :
    p.isCollapsed = (!p.isNestingOnly && p.packages.all isCollapsed) := by
  cases p
  rw [isCollapsed, areCollapsed_eq]
  rfl

def under (name : String) (p : Package) : Package :=
  ⟨name ++ "/" ++ p.name, p.classes, p.packages⟩

theorem collapse_nesting (name : String) (child : Package) :
    collapse ⟨name, [], [child]⟩ = under name child.collapse := by
  rw [collapse]
  rfl

theorem collapse_solid {p : Package} (solid : p.isNestingOnly = false) :
    p.collapse = { p with packages := p.packages.map collapse } := by
  obtain ⟨name, classes, packages⟩ := p
  rw [collapse, collapseAll_eq]
  rintro child rfl rfl
  simp [isNestingOnly] at solid

/-- What holds of a package if it holds of all children holds of every package. -/
theorem package_induction {motive : Package → Prop}
    (step : ∀ p, (∀ child ∈ p.packages, motive child) → motive p) (p : Package) : motive p := by
  obtain ⟨name, classes, packages⟩ := p
  exact step _ fun child member => package_induction step child
termination_by sizeOf p
decreasing_by
  have smaller : sizeOf child < sizeOf packages := List.sizeOf_lt_of_mem member
  simp only [Package.mk.sizeOf_spec]
  omega

theorem nesting_induction {motive : Package → Prop}
    (nesting : ∀ name child, motive child → motive ⟨name, [], [child]⟩)
    (solid : ∀ p, p.isNestingOnly = false → (∀ child ∈ p.packages, motive child) → motive p)
    (p : Package) : motive p := by
  induction p using package_induction with
  | step p below =>
    by_cases nests : p.isNestingOnly = true
    · obtain ⟨name, classes, packages⟩ := p
      simp only [isNestingOnly, Bool.and_eq_true, List.isEmpty_iff, beq_iff_eq,
        List.length_eq_one_iff] at nests
      obtain ⟨rfl, child, rfl⟩ := nests
      exact nesting name child (below child (by simp))
    · exact solid p (by simpa using nests) below

private theorem absorb_under (name : String) (p : Package) :
    absorb (under name p) = under name (absorb p) := by
  obtain ⟨own, classes, packages⟩ := p
  cases classes with
  | cons => rfl
  | nil =>
    cases packages with
    | nil => rfl
    | cons child more =>
      cases more with
      | nil => simp [under, absorb, String.append_assoc]
      | cons => rfl

private theorem turns_under (name : String) (turns : Nat) (p : Package) :
    absorb^[turns] (under name p) = under name (absorb^[turns] p) := by
  have commute : Function.Semiconj (under name) absorb absorb := fun p => (absorb_under name p).symm
  exact ((commute.iterate_right turns) p).symm

/-- The turns end with a package that does not only nest, and collapsing goes on in the children of
that one. -/
theorem turns_end (p : Package) :
    ∃ turns, (∀ turn < turns, (absorb^[turn] p).isNestingOnly = true) ∧
    (absorb^[turns] p).isNestingOnly = false ∧
    p.collapse =
      { absorb^[turns] p with packages := (absorb^[turns] p).packages.map collapse } := by
  induction p using nesting_induction with
  | nesting name child ih =>
    obtain ⟨turns, before, last, collapsed⟩ := ih
    have first : ∀ turn, absorb^[turn + 1] ⟨name, [], [child]⟩ = under name (absorb^[turn] child) :=
      fun turn => turns_under name turn child
    refine ⟨turns + 1, ?_, ?_, ?_⟩
    · intro turn within
      cases turn with
      | zero => rfl
      | succ turn =>
        rw [first]
        exact before turn (by omega)
    · rw [first]
      exact last
    · rw [first, collapse_nesting, collapsed]
      rfl
  | solid p solid ih => exact ⟨0, by simp, solid, collapse_solid solid⟩

theorem collapse_isCollapsed (p : Package) : p.collapse.isCollapsed = true := by
  induction p using nesting_induction with
  | nesting name child ih =>
    rw [collapse_nesting, isCollapsed_eq]
    rwa [isCollapsed_eq] at ih
  | solid p solid ih =>
    have same : isNestingOnly { p with packages := p.packages.map collapse } = p.isNestingOnly := by
      simp [isNestingOnly]
    rw [collapse_solid solid, isCollapsed_eq, same, solid]
    simpa using ih

/-- In a collapsed tree no package only nests, at any depth. -/
theorem collapsed_solid {p : Package} (collapsed : p.isCollapsed = true) (above : List String) :
    ∀ q ∈ p.located above, q.2.isNestingOnly = false := by
  induction p using nesting_induction generalizing above with
  | nesting name child ih =>
    rw [isCollapsed_eq] at collapsed
    exact nomatch collapsed
  | solid p solid ih =>
    rw [isCollapsed_eq, Bool.and_eq_true, List.all_eq_true] at collapsed
    intro q member
    rw [located_eq] at member
    rcases List.mem_cons.mp member with rfl | member
    · exact solid
    · obtain ⟨child, listed, member⟩ := List.mem_flatMap.mp member
      exact ih child listed (collapsed.2 child listed) _ q member

theorem collapse_collapsed {p : Package} (collapsed : p.isCollapsed = true) : p.collapse = p := by
  induction p using nesting_induction with
  | nesting name child ih =>
    rw [isCollapsed_eq] at collapsed
    exact nomatch collapsed
  | solid p solid ih =>
    rw [isCollapsed_eq, Bool.and_eq_true, List.all_eq_true] at collapsed
    have same : p.packages.map collapse = p.packages :=
      (List.map_congr_left fun child member => ih child member (collapsed.2 child member)).trans
        (List.map_id' p.packages)
    rw [collapse_solid solid, same]
    cases p
    rfl

def seen (packages : List (List String × Package)) : List (String × List Class) :=
  packages.map fun (names, p) => (pathOf names, p.classes)

private theorem located_seen (above : List String) (p : Package) :
    seen (p.located above) = (pathOf (above ++ [p.name]), p.classes) ::
      p.packages.flatMap fun child => seen (child.located (above ++ [p.name])) := by
  rw [located_eq, seen, List.map_cons, List.map_flatMap]
  rfl

private theorem placed_seen (packages : List (List String × Package)) :
    placed packages = (seen packages).flatMap fun (path, classes) => classes.map (path, ·) := by
  simp [placed, seen, List.flatMap_map]

/-- Names that lead to the same paths, whatever follows. -/
def SamePath (first second : List String) : Prop :=
  ∀ names, pathOf (first ++ names) = pathOf (second ++ names)

theorem SamePath.deeper {first second : List String} (same : SamePath first second)
    (name : String) : SamePath (first ++ [name]) (second ++ [name]) := by
  intro names
  simpa using same (name :: names)

/-- Joined names lead to the path of the two. -/
theorem samePath_joined (above : List String) (name last : String) :
    SamePath (above ++ [name ++ "/" ++ last]) (above ++ [name] ++ [last]) := by
  have joined : ∀ names, pathOf ((name ++ "/" ++ last) :: names) =
      pathOf (name :: last :: names) := by
    intro names
    cases names with
    | nil => simp [pathOf, String.intercalate_cons_cons]
    | cons next names => simp [pathOf, String.intercalate_cons_cons, String.append_assoc]
  intro names
  simp only [List.append_assoc, List.singleton_append]
  cases above with
  | nil => exact joined names
  | cons first above =>
    have behind := joined names
    simp only [pathOf] at behind ⊢
    rw [String.intercalate_append_of_ne_nil (by simp) (by simp),
      String.intercalate_append_of_ne_nil (by simp) (by simp), behind]
    rfl

private theorem seen_alike {first second : List String} (same : SamePath first second)
    (p : Package) : seen (p.located first) = seen (p.located second) := by
  induction p using package_induction generalizing first second with
  | step p ih =>
    have here : pathOf (first ++ [p.name]) = pathOf (second ++ [p.name]) := same [p.name]
    rw [located_seen, located_seen, here]
    exact congrArg _ (List.flatMap_congr fun child member => ih child member (same.deeper p.name))

/-- A package under the joined name is seen where its nesting package had it. -/
theorem under_seen (above : List String) (name : String) (p : Package) :
    seen (located above (under name p)) = seen (located (above ++ [name]) p) := by
  have same : SamePath (above ++ [(under name p).name]) (above ++ [name] ++ [p.name]) :=
    samePath_joined above name p.name
  have here : pathOf (above ++ [(under name p).name]) = pathOf (above ++ [name] ++ [p.name]) := by
    simpa using same []
  rw [located_seen, located_seen, here]
  exact congrArg _ (List.flatMap_congr fun child _ => seen_alike same child)

/-- Collapsing keeps sight of all packages but those that only nest. -/
theorem collapse_seen (above : List String) (p : Package) :
    seen (p.collapse.located above) = seen ((p.located above).filter (!·.2.isNestingOnly)) := by
  induction p using nesting_induction generalizing above with
  | nesting name child ih =>
    have nests : isNestingOnly ⟨name, [], [child]⟩ = true := rfl
    rw [collapse_nesting, under_seen, ih, located_eq _ ⟨name, [], [child]⟩, List.filter_cons]
    simp [nests]
  | solid p solid ih =>
    have kept : (p.located above).filter (!·.2.isNestingOnly) =
        (above ++ [p.name], p) :: p.packages.flatMap fun child =>
          (child.located (above ++ [p.name])).filter (!·.2.isNestingOnly) := by
      rw [located_eq, List.filter_cons, List.filter_flatMap]
      simp [solid]
    rw [collapse_solid solid, located_seen, kept, seen, List.map_cons, List.map_flatMap,
      List.flatMap_map]
    exact congrArg _ (List.flatMap_congr fun child member => ih child member (above ++ [p.name]))

/-- A package that only nests places no class. -/
theorem placed_solid (packages : List (List String × Package)) :
    placed (packages.filter (!·.2.isNestingOnly)) = placed packages := by
  induction packages with
  | nil => rfl
  | cons first rest ih =>
    obtain ⟨names, p⟩ := first
    simp only [placed] at ih ⊢
    rw [List.filter_cons, List.flatMap_cons, ← ih]
    split
    · rfl
    next nests =>
      have empty : p.classes = [] := by
        have both : p.isNestingOnly = true := by simpa using nests
        simp only [isNestingOnly, Bool.and_eq_true, List.isEmpty_iff] at both
        exact both.1
      simp [empty]

theorem collapse_placed (above : List String) (p : Package) :
    placed (p.collapse.located above) = placed (p.located above) := by
  rw [placed_seen, collapse_seen, ← placed_seen, placed_solid]

theorem placed_located (above : List String) (p : Package) :
    placed (p.located above) = p.classes.map (pathOf (above ++ [p.name]), ·) ++
      p.packages.flatMap fun child => placed (child.located (above ++ [p.name])) := by
  rw [located_eq, placed, List.flatMap_cons, List.flatMap_assoc]
  rfl

theorem placed_locatedIn (above : List String) (all : List Package) :
    placed (locatedIn above all) = all.flatMap fun p => placed (p.located above) := by
  rw [locatedIn_eq, placed, List.flatMap_assoc]
  rfl

/-- Classes are placed in the order in which they are visited. -/
theorem placed_classes (above : List String) (p : Package) :
    (placed (p.located above)).map Prod.snd = p.allClasses := by
  induction p using package_induction generalizing above with
  | step p ih =>
    have below :
        p.packages.flatMap (fun child =>
          (placed (child.located (above ++ [p.name]))).map Prod.snd) =
          p.packages.flatMap allClasses :=
      List.flatMap_congr fun child member => ih child member (above ++ [p.name])
    rw [placed_located, List.map_append, List.map_flatMap, below, allClasses_eq]
    simp [Function.comp_def]

/-- Collapsing takes a finite number of turns at each package and leaves none that only nests. Every
class keeps its path and its place in the order of visits, and the packages that are left have, in
preorder, the paths of those that did not only nest before. -/
theorem collapse_keeps_locations (p : Package) :
    (∃ turns, (∀ turn < turns, (absorb^[turn] p).isNestingOnly = true) ∧
      (absorb^[turns] p).isNestingOnly = false ∧
      p.collapse = { absorb^[turns] p with packages := (absorb^[turns] p).packages.map collapse }) ∧
      p.collapse.isCollapsed = true ∧
      (∀ q ∈ p.collapse.located [], ¬(q.2.classes = [] ∧ q.2.packages.length = 1)) ∧
      placed (p.collapse.located []) = placed (p.located []) ∧
      (placed (p.located [])).map Prod.snd = p.allClasses ∧
      (placed (p.collapse.located [])).map Prod.snd = p.collapse.allClasses ∧
      (p.collapse.located []).map (pathOf ·.1) =
        ((p.located []).filter (!·.2.isNestingOnly)).map (pathOf ·.1) := by
  refine ⟨turns_end p, collapse_isCollapsed p, ?_, collapse_placed [] p, placed_classes [] p,
    placed_classes [] p.collapse, ?_⟩
  · rintro q member ⟨noClasses, single⟩
    have solid := collapsed_solid (collapse_isCollapsed p) [] q member
    simp [isNestingOnly, noClasses, single] at solid
  · have paths := congrArg (List.map Prod.fst) (collapse_seen [] p)
    simpa [seen, Function.comp_def] using paths

end ClassDiagram.Proofs.CollapsedPackages
