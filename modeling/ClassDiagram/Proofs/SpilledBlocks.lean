import ClassDiagram.Proofs.BlockDepths

/-! Blocks are read as deep as they were written, or less deep: each closing brace in a name closes
a package too early. So the sum of all depths tells whether any block has left its package. None has
if and only if a brace stands in no name but that of the last block of a package at top level,
behind which there is no package to be closed. -/

namespace ClassDiagram
open Diagram

namespace Package

mutual
/-- The names of the blocks of a package, in the order of their headers. -/
def blockNames : Package → List String
  | ⟨name, classes, packages⟩ => name :: (classes.map Class.name ++ blockNamesOf packages)

def blockNamesOf : List Package → List String
  | [] => []
  | p :: ps => p.blockNames ++ blockNamesOf ps
end

/-- Only the last block of the package may have a closing brace in its name. -/
def Tight (p : Package) : Prop :=
  ∀ name ∈ p.blockNames.dropLast, '}' ∉ name.toList

instance (p : Package) : Decidable p.Tight :=
  inferInstanceAs (Decidable (∀ name ∈ p.blockNames.dropLast, '}' ∉ name.toList))

mutual
def reread : Package → Package
  | ⟨name, classes, packages⟩ =>
    ⟨Proofs.HeaderLines.requote name, classes.map Class.reread, rereadAll packages⟩

def rereadAll : List Package → List Package
  | [] => []
  | p :: ps => p.reread :: rereadAll ps
end

end Package
end ClassDiagram

namespace ClassDiagram.Proofs.SpilledBlocks
open Text Diagram HeaderLines OnePassReading DrawnDiagrams ReplayedBlocks BlockDepths

def depthSum (r : Reading) : Nat :=
  r.weigh id

/-- Blocks with the given names lead from one state to another. They were written at some depth and
below it, their depths had the given sum, and none of them is read deeper. -/
structure Sinks (depth total : Nat) (names : List String) (before after : Reading) : Prop where
  level : after.outer.length ≤ before.outer.length
  count : after.weigh (fun _ => 1) = before.weigh (fun _ => 1) + names.length
  sum : depthSum after ≤ depthSum before + total
  idle : names = [] → after = before ∧ total = 0
  sharp : names ≠ [] → depthSum after = depthSum before + total → before.outer.length = depth ∧
    (∀ name ∈ names.dropLast, '}' ∉ name.toList) ∧
    (0 < depth → (∃ name ∈ names.getLast?, '}' ∈ name.toList) → after.outer.length < depth)

theorem Sinks.refl (depth : Nat) (r : Reading) : Sinks depth 0 [] r r :=
  ⟨Nat.le_refl _, rfl, Nat.le_refl _, fun _ => ⟨rfl, rfl⟩, fun some => absurd rfl some⟩

/-- Blocks in a package are read as deep as they were written only if those before them have left
the package open. -/
theorem Sinks.trans {depth first second : Nat} {names more : List String}
    {before middle after : Reading} (inside : 0 < depth)
    (one : Sinks depth first names before middle) (two : Sinks depth second more middle after) :
    Sinks depth (first + second) (names ++ more) before after := by
  have sums := And.intro one.sum two.sum
  refine ⟨Nat.le_trans two.level one.level,
    by rw [two.count, one.count, List.length_append, Nat.add_assoc], by omega, ?_,
    fun some full => ?_⟩
  · intro nothing
    obtain ⟨none, none'⟩ := List.append_eq_nil_iff.mp nothing
    obtain ⟨rfl, rfl⟩ := one.idle none
    simpa using two.idle none'
  · by_cases none : names = []
    · obtain ⟨rfl, rfl⟩ := one.idle none
      subst none
      exact two.sharp some (by omega)
    by_cases none' : more = []
    · obtain ⟨rfl, rfl⟩ := two.idle none'
      subst none'
      rw [List.append_nil] at some ⊢
      exact one.sharp some full
    obtain ⟨level, front, spill⟩ := one.sharp none (by omega)
    obtain ⟨level', front', spill'⟩ := two.sharp none' (by omega)
    have last : ∀ name ∈ names.getLast?, '}' ∉ name.toList := fun name member brace =>
      absurd (spill inside ⟨name, member, brace⟩) (by omega)
    refine ⟨level, ?_, fun inside => ?_⟩
    · rw [List.dropLast_append_of_ne_nil none']
      intro name member
      rcases List.mem_append.mp member with member | member
      · rw [← List.dropLast_concat_getLast none, List.mem_append, List.mem_singleton] at member
        rcases member with member | rfl
        · exact front name member
        · exact last _ (List.getLast?_eq_some_getLast none)
      · exact front' name member
    · rw [List.getLast?_append]
      cases ending : more.getLast? with
      | none => exact absurd (List.getLast?_eq_none_iff.mp ending) none'
      | some name => simpa [ending] using spill' inside

section
variable {r : Reading} (closed : r.inner = none)
include closed

private theorem spill_weigh {weight : Nat → Nat} (name : String) :
    (r.spill name).weigh weight = r.weigh weight := by
  simp only [Reading.spill]
  split
  · exact closePackage_weigh closed
  · rfl

private theorem class_sinks {depth : Nat} (inside : r.outer.length ≤ depth) (c : Class) :
    Sinks depth depth [c.name] r (r.replayClass c) := by
  have added : (r.addClass c.reread).inner = none := by simp [closed]
  have weighs : ∀ weight : Nat →
      Nat, (r.replayClass c).weigh weight = r.weigh weight + weight r.outer.length :=
    fun weight => by
    rw [Reading.replayClass, spill_weigh added, addClass_weigh]
  have level : (r.replayClass c).outer.length = r.outer.length - if '}' ∈ c.name.toList then 1
      else 0 := by
    simp only [Reading.replayClass, Reading.spill]
    split <;> simp
  refine ⟨by omega, weighs _, ?_, by simp, fun _ full => ⟨?_, by simp, ?_⟩⟩
  · have sum := weighs id
    simp only [depthSum, id] at sum ⊢
    omega
  · have sum := weighs id
    simp only [depthSum, id] at sum full
    omega
  · rintro deep ⟨name, last, brace⟩
    obtain rfl : c.name = name := by simpa using last
    rw [level, if_pos brace]
    omega

private theorem classes_sinks {depth : Nat} (deep : 0 < depth) (inside : r.outer.length ≤ depth)
    (all : List Class) :
    Sinks depth (all.length * depth) (all.map Class.name) r (all.foldl Reading.replayClass r) := by
  induction all generalizing r with
  | nil => simpa using Sinks.refl depth r
  | cons c all ih =>
    have own := class_sinks closed inside c
    have others := @ih (r.replayClass c) (by simp [closed]) (Nat.le_trans own.level inside)
    have total : (c :: all).length * depth = depth + all.length * depth := by
      rw [List.length_cons, Nat.add_mul, Nat.one_mul, Nat.add_comm]
    rw [total]
    exact own.trans deep others

end

/-- The brace behind the blocks of a package closes it, unless that is done already. -/
theorem Sinks.close {depth total : Nat} {name : String} {names : List String} {r after : Reading}
    (closed : r.inner = none) (closed' : after.inner = none) (inside : r.outer.length ≤ depth)
    (unbraced : '}' ∉ name.toList)
    (blocks : Sinks (depth + 1) total names (within r { name := requote name }) after) :
    Sinks depth (depth + total) (name :: names) r after.closePackage := by
  have opened : ∀ weight : Nat →
      Nat, (within r { name := requote name }).weigh weight =
      r.weigh weight + weight r.outer.length := fun weight => by
    rw [within_weigh closed, weigh_empty]
  have deeper : (within r { name := requote name }).outer.length = r.outer.length + 1 := rfl
  have level := blocks.level
  have sum := blocks.sum
  have count := blocks.count
  rw [opened] at count
  rw [deeper] at level
  simp only [depthSum, opened, id] at sum
  refine ⟨by rw [closePackage_depth]; omega, ?_, ?_, by simp, fun _ full => ?_⟩
  · rw [closePackage_weigh closed', count, List.length_cons]
    omega
  · rw [depthSum, closePackage_weigh closed', depthSum]
    omega
  · rw [depthSum, closePackage_weigh closed', depthSum] at full
    by_cases none : names = []
    · subst none
      refine ⟨by omega, by simp, ?_⟩
      rintro _ ⟨last, member, brace⟩
      obtain rfl : name = last := by simpa using member
      exact absurd brace unbraced
    · obtain ⟨_, front, spill⟩ := blocks.sharp none (by simp only [depthSum, opened, id]; omega)
      refine ⟨by omega, ?_, ?_⟩
      · rw [List.dropLast_cons_of_ne_nil none]
        exact List.forall_mem_cons.mpr ⟨unbraced, front⟩
      · rintro deep ⟨last, member, brace⟩
        have fewer :=
          spill (by omega) ⟨last, by rwa [List.getLast?_cons_of_ne_nil none] at member, brace⟩
        rw [closePackage_depth]
        omega

mutual
private theorem package_sinks (p : Package) (drawn : p.Drawn) {r : Reading}
    (closed : r.inner = none) {depth : Nat} (inside : r.outer.length ≤ depth) :
    Sinks depth (p.weigh id depth) p.blockNames r (r.replayPackage p) := by
  match p with
  | ⟨name, classes, packages⟩ =>
    obtain ⟨_, _, below, braced⟩ := drawn
    by_cases brace : '}' ∈ name.toList
    · obtain ⟨rfl, rfl⟩ := braced brace
      have weighs : ∀ weight : Nat →
          Nat, (r.replayPackage ⟨name, [], []⟩).weigh weight =
          r.weigh weight + weight r.outer.length := fun weight => by
        simp only [Reading.replayPackage, Reading.replayPackages, List.foldl_nil,
          Reading.openPackage, brace, if_true]
        rw [closePackage_weigh (by simp [closed]), addPackage_weigh, weigh_empty]
      have level : (r.replayPackage ⟨name, [], []⟩).outer.length = r.outer.length - 1 := by
        simp [Reading.replayPackage, Reading.replayPackages, Reading.openPackage, brace,
          addPackage_depth]
      have sum := weighs id
      simp only [id] at sum
      rw [weigh_empty]
      refine ⟨by omega, weighs _, ?_, by simp [Package.blockNames],
        fun _ full => ⟨?_, by simp [Package.blockNames, Package.blockNamesOf], ?_⟩⟩
      · simp only [depthSum, sum, id]
        omega
      · simp only [depthSum, sum, id] at full
        omega
      · intro deep _
        omega
    · have blocks :=
        (classes_sinks (r := within r { name := requote name }) closed (Nat.succ_pos depth)
          (Nat.succ_le_succ inside) classes)
      have others :=
        packages_sinks packages below
          (r := classes.foldl Reading.replayClass (within r { name := requote name }))
          (by simp [closed])
        (Nat.succ_pos depth) (Nat.le_trans blocks.level (Nat.succ_le_succ inside))
      have whole :=
        (blocks.trans (Nat.succ_pos depth) others).close closed (by simp [closed]) inside brace
      simp only [Reading.replayPackage, Reading.openPackage, brace, if_false, Package.weigh,
        Package.blockNames, id, Nat.add_assoc] at whole ⊢
      exact whole
termination_by structural p

theorem packages_sinks (all : List Package) (drawn : ∀ p ∈ all, p.Drawn) {r : Reading}
    (closed : r.inner = none) {depth : Nat} (deep : 0 < depth) (inside : r.outer.length ≤ depth) :
    Sinks depth (Package.weighAll id depth all) (Package.blockNamesOf all) r
      (r.replayPackages all) := by
  match all with
  | [] => exact .refl depth r
  | p :: ps =>
    rw [List.forall_mem_cons] at drawn
    have own := package_sinks p drawn.1 closed inside
    exact own.trans deep
      (packages_sinks ps drawn.2 (by simp [closed]) deep (Nat.le_trans own.level inside))
termination_by structural all
end

private theorem top_iff {r : Reading} : r.outer = [] ↔ r.outer.length ≤ 0 := by
  rw [Nat.le_zero, List.length_eq_zero_iff]

mutual
private theorem weigh_count (p : Package) (depth : Nat) :
    p.weigh (fun _ => 1) depth = p.blockNames.length := by
  match p with
  | ⟨name, classes, packages⟩ =>
    simp only [Package.weigh, Package.blockNames, List.length_cons, List.length_append,
      List.length_map, weighAll_count packages (depth + 1)]
    omega
termination_by structural p

theorem weighAll_count (all : List Package) (depth : Nat) :
    Package.weighAll (fun _ => 1) depth all = (Package.blockNamesOf all).length := by
  match all with
  | [] => rfl
  | p :: ps =>
    rw [Package.weighAll, Package.blockNamesOf, List.length_append, weigh_count p depth,
      weighAll_count ps depth]
termination_by structural all
end

private theorem top_packages {all : List Package} (drawn : ∀ p ∈ all, p.Drawn) {r : Reading}
    (closed : r.inner = none) (top : r.outer = []) : (r.replayPackages all).outer = [] ∧
      (r.replayPackages all).weigh (fun _ => 1) =
        r.weigh (fun _ => 1) + Package.weighAll (fun _ => 1) 0 all ∧
      depthSum (r.replayPackages all) ≤ depthSum r + Package.weighAll id 0 all ∧
      (depthSum (r.replayPackages all) = depthSum r + Package.weighAll id 0 all →
        ∀ p ∈ all, p.Tight) := by
  induction all generalizing r with
  | nil => exact ⟨top, rfl, Nat.le_refl _, by simp⟩
  | cons p ps ih =>
    rw [List.forall_mem_cons] at drawn
    have own := package_sinks p drawn.1 closed (top_iff.mp top)
    obtain ⟨top', count, sum, sharp⟩ := @ih drawn.2 (r.replayPackage p) (by simp [closed])
      (top_iff.mpr (Nat.le_trans own.level (top_iff.mp top)))
    have sum' := own.sum
    rw [own.count, ← weigh_count p 0] at count
    simp only [Reading.replayPackages, Package.weighAll]
    refine ⟨top', by omega, by omega, fun full => List.forall_mem_cons.mpr ⟨?_, sharp (by omega)⟩⟩
    exact (own.sharp (by cases p; simp [Package.blockNames]) (by omega)).2.1

private theorem top_classes (all : List Class) {r : Reading} (closed : r.inner = none)
    (top : r.outer = []) : (all.foldl Reading.replayClass r).outer = [] ∧
      ∀ weight :
      Nat → Nat, (all.foldl Reading.replayClass r).weigh weight =
      r.weigh weight + all.length * weight 0 := by
  induction all generalizing r with
  | nil => exact ⟨top, by simp⟩
  | cons c all ih =>
    have own := class_sinks closed (top_iff.mp top) c
    obtain ⟨top', weighs⟩ :=
      @ih (r.replayClass c) (by simp [closed])
        (top_iff.mpr (Nat.le_trans own.level (top_iff.mp top)))
    refine ⟨top', fun weight => ?_⟩
    rw [List.foldl_cons, weighs, Reading.replayClass, spill_weigh (by simp [closed]),
      addClass_weigh, top, List.length_nil, List.length_cons, Nat.add_mul, Nat.one_mul]
    omega

/-- All blocks of a project are read again, and they are read as deep as they were only if its
packages are tight. -/
theorem replay_weigh {p : Project} (drawn : p.Drawn) :
    (Reading.replay p).inner = none ∧ (Reading.replay p).outer = [] ∧
    (Reading.replay p).weigh (fun _ => 1) = p.weigh (fun _ => 1) ∧
    ((Reading.replay p).weigh id = p.weigh id → ∀ package ∈ p.packages, package.Tight) := by
  obtain ⟨top, count, _, sharp⟩ := @top_packages p.packages drawn.packages {} rfl rfl
  obtain ⟨top', weighs⟩ :=
    @top_classes p.classes (Reading.replayPackages {} p.packages) (by simp) top
  have empty : ∀ weight : Nat → Nat, Reading.weigh weight {} = 0 := fun weight => by
    simp [Reading.weigh, Package.weighAll, Package.weighStack]
  refine ⟨by simp [Reading.replay], top', ?_, fun full => sharp ?_⟩
  · rw [Reading.replay, weighs, count, empty, Project.weigh, Nat.zero_add]
  · rw [Reading.replay, weighs, Project.weigh] at full
    simp only [depthSum, empty]
    omega

def spills (names : List String) (r : Reading) : Reading :=
  names.foldl Reading.spill r

private theorem spills_skip {name : String} (unbraced : '}' ∉ name.toList) (names : List String)
    (r : Reading) : spills (name :: names) r = spills names r := by
  rw [spills, List.foldl_cons, Reading.spill, if_neg unbraced, spills]

private theorem spills_nothing {names : List String} (unbraced : ∀ name ∈ names, '}' ∉ name.toList)
    (r : Reading) : spills names r = r := by
  induction names with
  | nil => rfl
  | cons name names ih =>
    rw [List.forall_mem_cons] at unbraced
    rw [spills_skip unbraced.1, ih unbraced.2]

private theorem spills_append (names more : List String) (r : Reading) :
    spills (names ++ more) r = spills more (spills names r) :=
  List.foldl_append

private theorem spills_close (names : List String) (r : Reading) :
    (spills names r).closePackage = spills names r.closePackage := by
  induction names generalizing r with
  | nil => rfl
  | cons name names ih =>
    have own : (r.spill name).closePackage = r.closePackage.spill name := by
      simp only [Reading.spill]
      split <;> rfl
    rw [spills, List.foldl_cons, ← spills, ih, own]
    rfl

private theorem spills_top (names : List String) {r : Reading} (top : r.outer = []) :
    spills names r = r := by
  induction names with
  | nil => rfl
  | cons name names ih =>
    have nothing : r.closePackage = r := by simp [Reading.closePackage, top]
    rw [spills, List.foldl_cons, Reading.spill, nothing, ite_self]
    exact ih

private theorem classes_kept {all : List Class}
    (tight : ∀ name ∈ (all.map Class.name).dropLast, '}' ∉ name.toList) (r : Reading)
    (p : Package) : all.foldl Reading.replayClass (within r p) =
      spills (all.map Class.name)
      (within r { p with classes := p.classes ++ all.map Class.reread }) := by
  induction all generalizing p with
  | nil => cases p; simp [spills]
  | cons c all ih =>
    have own : (within r p).replayClass c = (within r (p.addClass c.reread)).spill c.name := rfl
    cases all with
    | nil => exact own
    | cons d all =>
      rw [List.map_cons, List.map_cons, List.dropLast_cons_of_ne_nil (by simp),
        List.forall_mem_cons] at tight
      have unbraced : (within r (p.addClass c.reread)).spill c.name =
          within r (p.addClass c.reread) := by
        rw [Reading.spill, if_neg tight.1]
      have names : (c :: d :: all).map Class.name = c.name :: (d :: all).map Class.name := rfl
      rw [List.foldl_cons, own, unbraced, ih tight.2, names, spills_skip tight.1]
      simp [Package.addClass]

mutual
private theorem package_kept (p : Package) (drawn : p.Drawn) (tight : p.Tight) (r : Reading) :
    r.replayPackage p = spills p.blockNames (r.addPackage p.reread) := by
  match p with
  | ⟨name, classes, packages⟩ =>
    obtain ⟨_, _, below, braced⟩ := drawn
    by_cases brace : '}' ∈ name.toList
    · obtain ⟨rfl, rfl⟩ := braced brace
      simp [Reading.replayPackage, Reading.replayPackages, Reading.openPackage, brace, spills,
        Package.blockNames, Package.blockNamesOf, Reading.spill, Package.reread, Package.rereadAll]
    · have head : ∀ names r, spills (name :: names) r = spills names r := fun names r => by
        rw [spills, List.foldl_cons, Reading.spill, if_neg brace, spills]
      simp only [Reading.replayPackage, Reading.openPackage, brace, if_false,
        Package.blockNames, head]
      cases packages with
      | nil =>
        have inside : ∀ name ∈ (classes.map Class.name).dropLast, '}' ∉ name.toList := by
          intro other member
          refine tight other ?_
          simp only [Package.blockNames, Package.blockNamesOf, List.append_nil]
          cases classes with
          | nil => simp at member
          | cons c classes => simpa using Or.inr member
        rw [classes_kept inside, Package.blockNamesOf, List.append_nil, Reading.replayPackages,
          spills_close, within_closePackage]
        simp [Package.reread, Package.rereadAll]
      | cons first more =>
        have some : Package.blockNamesOf (first :: more) ≠ [] := by
          cases first; simp [Package.blockNamesOf, Package.blockNames]
        simp only [Package.Tight, Package.blockNames] at tight
        rw [List.dropLast_cons_of_ne_nil (by simp [some]), List.dropLast_append_of_ne_nil some,
          List.forall_mem_cons, List.forall_mem_append] at tight
        obtain ⟨_, inside, others⟩ := tight
        rw [classes_kept fun name member => inside name (List.dropLast_subset _ member),
          spills_nothing inside,
          packages_kept (first :: more) below others, spills_close, within_closePackage,
          spills_append, spills_nothing inside]
        simp [Package.reread]
termination_by structural p

theorem packages_kept (all : List Package) (drawn : ∀ p ∈ all, p.Drawn)
    (tight : ∀ name ∈ (Package.blockNamesOf all).dropLast, '}' ∉ name.toList)
    (r : Reading) (p : Package) : (within r p).replayPackages all =
      spills (Package.blockNamesOf all)
      (within r { p with packages := p.packages ++ Package.rereadAll all }) := by
  match all with
  | [] => cases p; simp [Reading.replayPackages, Package.blockNamesOf, spills, Package.rereadAll]
  | [child] =>
    rw [List.forall_mem_singleton] at drawn
    simp only [Package.blockNamesOf, List.append_nil] at tight ⊢
    rw [Reading.replayPackages, Reading.replayPackages, package_kept child drawn tight,
      within_addPackage]
    simp [Package.addPackage, Package.rereadAll]
  | child :: next :: more =>
    rw [List.forall_mem_cons] at drawn
    have some : Package.blockNamesOf (next :: more) ≠ [] := by
      cases next; simp [Package.blockNamesOf, Package.blockNames]
    have names : Package.blockNamesOf (child :: next :: more) =
        child.blockNames ++ Package.blockNamesOf (next :: more) := rfl
    rw [names, List.dropLast_append_of_ne_nil some, List.forall_mem_append] at tight
    obtain ⟨inside, others⟩ := tight
    rw [Reading.replayPackages,
      package_kept child drawn.1 fun name member =>
        inside name (List.dropLast_subset _ member), spills_nothing inside,
      within_addPackage, packages_kept (next :: more) drawn.2 others, names, spills_append,
      spills_nothing inside]
    simp [Package.addPackage, Package.rereadAll]
termination_by structural all
end

private theorem packages_kept_top {all : List Package} (drawn : ∀ p ∈ all, p.Drawn)
    (tight : ∀ p ∈ all, p.Tight) {r : Reading} (top : r.outer = []) :
    r.replayPackages all = { r with packages := r.packages ++ Package.rereadAll all } := by
  induction all generalizing r with
  | nil => simp [Reading.replayPackages, Package.rereadAll]
  | cons p ps ih =>
    rw [List.forall_mem_cons] at drawn tight
    have added : r.addPackage p.reread = { r with packages := r.packages ++ [p.reread] } := by
      simp only [Reading.addPackage, top]
    rw [Reading.replayPackages, package_kept p drawn.1 tight.1, added, spills_top _ (by exact top),
      ih drawn.2 tight.2 (by exact top)]
    simp [Package.rereadAll]

private theorem classes_kept_top (all : List Class) {r : Reading} (top : r.outer = []) :
    all.foldl Reading.replayClass r = { r with classes := r.classes ++ all.map Class.reread } := by
  induction all generalizing r with
  | nil => simp
  | cons c all ih =>
    have own : r.replayClass c = { r with classes := r.classes ++ [c.reread] } := by
      have added : r.addClass c.reread = { r with classes := r.classes ++ [c.reread] } := by
        simp only [Reading.addClass, top]
      have nothing : Reading.closePackage { r with classes := r.classes ++ [c.reread] } =
          { r with classes := r.classes ++ [c.reread] } := by
        simp only [Reading.closePackage, top]
      rw [Reading.replayClass, added, Reading.spill, nothing, ite_self]
    rw [List.foldl_cons, own, ih (by exact top)]
    simp

/-- Tight packages are read with every block in its place. -/
theorem replay_kept {p : Project} (drawn : p.Drawn)
    (tight : ∀ package ∈ p.packages, package.Tight) :
    Reading.replay p = { packages := Package.rereadAll p.packages,
                         classes := p.classes.map Class.reread } := by
  rw [Reading.replay, packages_kept_top drawn.packages tight rfl, classes_kept_top _ rfl]
  simp

end ClassDiagram.Proofs.SpilledBlocks
