import ClassDiagram.Proofs.ContainmentArrows
import ClassDiagram.Proofs.SpilledBlocks

/-! When a diagram is settled after one reading. Whatever text is read, its project is written and
read again. What is written then is the same text if and only if no name in it disturbs a line: a
block must not be closed by its header with others behind it, no header may lose its name or its
quotes, no name may be taken for a keyword, and no arrow for a header. -/

namespace ClassDiagram
open Diagram

/-- No name of the project changes how the lines of its diagram are read. -/
structure Project.Settled (p : Project) : Prop where
  tight : ∀ package ∈ p.packages, package.Tight
  unquoted : ∀ name ∈ Package.namesOf p.packages, '"' ∉ name.toList
  named : ∀ c ∈ p.allClasses, c.name ≠ ""
  unambiguous : ∀ c ∈ p.allClasses, c.Unambiguous
  inert : ∀ c ∈ p.allClasses, arrows p.classNames c ≠ [] →
    c.name ∉ Proofs.DiagramRoundTrip.blockWords

instance (p : Project) : Decidable p.Settled :=
  decidable_of_iff ((∀ package ∈ p.packages, package.Tight) ∧
      (∀ name ∈ Package.namesOf p.packages, '"' ∉ name.toList) ∧
      (∀ c ∈ p.allClasses, c.name ≠ "") ∧ (∀ c ∈ p.allClasses, c.Unambiguous) ∧
      ∀ c ∈ p.allClasses, arrows p.classNames c ≠ [] → c.name ∉ Proofs.DiagramRoundTrip.blockWords)
    ⟨fun ⟨a, b, c, d, e⟩ => ⟨a, b, c, d, e⟩, fun ⟨a, b, c, d, e⟩ => ⟨a, b, c, d, e⟩⟩

/-- The project with every block read again in its place. -/
def Project.reread (p : Project) : Project :=
  { packages := Package.rereadAll p.packages, classes := p.classes.map Class.reread }

end ClassDiagram

namespace ClassDiagram.Proofs.SettledDiagrams
open Text Diagram Blanks JoinedTexts MemberLines HeaderLines DiagramBlocks DiagramRoundTrip
  OnePassReading PackageTree BlockTitles RestatedHeaders
  DrawnDiagrams ReplayedBlocks BlockDepths SpilledBlocks
open ClassDiagram.Class (unlinked)

mutual
theorem weigh_map (weight : Nat → Nat) (f : Class → Class) (p : Package) (depth : Nat) :
    (p.mapClasses f).weigh weight depth = p.weigh weight depth := by
  match p with
  | ⟨name, classes, packages⟩ =>
    simp [Package.mapClasses, Package.weigh, weighAll_map weight f packages]
termination_by structural p

private theorem weighAll_map (weight : Nat → Nat) (f : Class → Class) (all : List Package)
    (depth : Nat) :
    Package.weighAll weight depth (Package.mapAll f all) = Package.weighAll weight depth all := by
  match all with
  | [] => rfl
  | p :: ps =>
    simp [Package.mapAll, Package.weighAll, weigh_map weight f p, weighAll_map weight f ps]
termination_by structural all
end

private theorem classLines_map {f : Class → Class}
    (same : ∀ depth c, classLines depth (f c) = classLines depth c) (depth : Nat)
    (all : List Class) :
    (all.map f).flatMap (classLines depth) = all.flatMap (classLines depth) := by
  rw [List.flatMap_map]
  exact List.flatMap_congr fun c _ => same depth c

mutual
theorem packageLines_map {f : Class → Class}
    (same : ∀ depth c, classLines depth (f c) = classLines depth c) (p : Package) (depth : Nat) :
    packageLines depth (p.mapClasses f) = packageLines depth p := by
  match p with
  | ⟨name, classes, packages⟩ =>
    simp only [Package.mapClasses, packageLines, classLines_map same,
      packagesLines_map same packages]
termination_by structural p

private theorem packagesLines_map {f : Class → Class}
    (same : ∀ depth c, classLines depth (f c) = classLines depth c) (all : List Package)
    (depth : Nat) : packagesLines depth (Package.mapAll f all) = packagesLines depth all := by
  match all with
  | [] => rfl
  | p :: ps =>
    simp only [Package.mapAll, packagesLines, packageLines_map same p, packagesLines_map same ps]
termination_by structural all
end

private theorem inferred_lines (known : List String) (depth : Nat) (c : Class) :
    classLines depth (c.inferContained known) = classLines depth c := rfl

/-- A change of classes that keeps what is computed for them keeps index and containment. -/
theorem indexed_map {f : Class → Class} (name : ∀ c, (f c).name = c.name)
    (inferred : ∀ known c, (f c).inferContained known = f (c.inferContained known)) {p : Project}
    (indexed : p.Indexed) : (p.mapClasses f).Indexed := by
  have names : (p.mapClasses f).indexNames = p.indexNames.mapClasses f := by
    have same : (p.mapClasses f).allClasses.map Class.name = p.allClasses.map Class.name := by
      rw [project_allClasses_map, List.map_map]
      exact List.map_congr_left fun c _ => name c
    simp only [Project.indexNames, same]
    rfl
  have swap : ∀ known, Class.inferContained known ∘ f = f ∘ Class.inferContained known :=
    fun known => funext (inferred known)
  have linked : (p.indexNames.mapClasses f).inferContainment =
      p.indexNames.inferContainment.mapClasses f := by
    rw [Project.inferContainment, project_map_comp, Project.inferContainment, project_map_comp]
    exact congrArg (Project.mapClasses · p.indexNames) (swap _)
  rw [Project.Indexed, names, linked, indexed]

private theorem behindBlocks_inert {p : Project} (drawn : p.Drawn) (indexed : p.Indexed) :
    (∀ line ∈ behindBlocks p, Inert line) ↔ ∀ c ∈ p.allClasses, arrows p.classNames c ≠ [] →
      c.name ∉ blockWords := by
  have classes := allClasses_drawn drawn
  have solid : ∀ target ∈ p.classNames, ∀ x ∈ target.toList, isBlank x = false := by
    intro target listed
    obtain ⟨c, present, rfl⟩ := indexed_names indexed listed
    exact (classes c present).title.solid
  have shape : behindBlocks p =
      chars (p.allClasses.flatMap (arrows p.classNames)) ++ [endMarker.toList] := by
    simp [behindBlocks, chars]
  rw [shape, List.forall_mem_append]
  constructor
  · rintro ⟨inert, _⟩ c present some
    obtain ⟨line, more, first⟩ := List.exists_cons_of_ne_nil some
    have listed : line ∈ arrows p.classNames c := by simp [first]
    have own := inert line.toList (List.mem_map_of_mem (List.mem_flatMap.mpr ⟨c, present, listed⟩))
    simp only [arrows, List.mem_map] at listed
    obtain ⟨target, contained, rfl⟩ := listed
    have known : target ∈ p.classNames := by
      simpa using (List.mem_filter.mp (List.mem_eraseDups.mp contained)).2
    exact (arrow_inert (classes c present).title.solid (solid target known) _).mp own
  · refine fun plain => ⟨fun line member => ?_, by simpa using marker_inert.2⟩
    simp only [chars, List.mem_map, List.mem_flatMap] at member
    obtain ⟨text, ⟨c, present, listed⟩, rfl⟩ := member
    have own := plain c present (List.ne_nil_of_mem listed)
    simp only [arrows, List.mem_map] at listed
    obtain ⟨target, contained, rfl⟩ := listed
    have known : target ∈ p.classNames := by
      simpa using (List.mem_filter.mp (List.mem_eraseDups.mp contained)).2
    exact (arrow_inert (classes c present).title.solid (solid target known) _).mpr own

private theorem indent_inj {depth : Nat} {first second : String}
    (same : indent depth first = indent depth second) : first = second := by
  have chars := congrArg String.toList same
  rw [indent_toList, indent_toList, List.append_cancel_left_eq] at chars
  exact String.toList_inj.mp chars

private theorem classLines_length (depth : Nat) (c : Class) :
    (classLines depth c.reread).length = (classLines depth c).length := by
  simp [classLines, Class.reread]

private theorem classesLines_length (depth : Nat) (all : List Class) :
    ((all.map Class.reread).flatMap (classLines depth)).length =
      (all.flatMap (classLines depth)).length := by
  rw [List.flatMap_map, List.length_flatMap, List.length_flatMap]
  simp only [classLines_length]

mutual
private theorem packageLines_length (p : Package) (depth : Nat) :
    (packageLines depth p.reread).length = (packageLines depth p).length := by
  match p with
  | ⟨name, classes, packages⟩ =>
    simp only [Package.reread, packageLines, List.length_append, classesLines_length,
      packagesLines_length packages, List.length_singleton]
termination_by structural p

private theorem packagesLines_length (all : List Package) (depth : Nat) :
    (packagesLines depth (Package.rereadAll all)).length = (packagesLines depth all).length := by
  match all with
  | [] => rfl
  | p :: ps =>
    simp only [Package.rereadAll, packagesLines, List.length_append, packageLines_length p,
      packagesLines_length ps]
termination_by structural all
end

private theorem classes_shown {depth : Nat} {all : List Class}
    (same : (all.map Class.reread).flatMap (classLines depth) = all.flatMap (classLines depth)) :
    ∀ c ∈ all, headerText c.restated = headerText c := by
  induction all with
  | nil => simp
  | cons c all ih =>
    rw [List.map_cons, List.flatMap_cons, List.flatMap_cons] at same
    obtain ⟨own, others⟩ := List.append_inj same (classLines_length depth c)
    refine List.forall_mem_cons.mpr ⟨?_, ih others⟩
    have header := indent_inj (List.cons.inj own).1
    exact (String.append_left_inj _).mp header

mutual
theorem package_shown (p : Package) {depth : Nat}
    (same : packageLines depth p.reread = packageLines depth p) :
    (∀ name ∈ p.names, '"' ∉ name.toList) ∧
      ∀ c ∈ p.allClasses, headerText c.restated = headerText c := by
  match p with
  | ⟨name, classes, packages⟩ =>
    simp only [Package.reread, packageLines, List.append_assoc, List.cons_append, List.nil_append]
      at same
    obtain ⟨header, inside⟩ := List.cons.inj same
    obtain ⟨own, behind⟩ := List.append_inj inside (classesLines_length _ _)
    obtain ⟨below, _⟩ := List.append_inj behind (packagesLines_length _ _)
    obtain ⟨names, texts⟩ := packages_shown packages below
    have kept : requote name = name :=
      (String.append_right_inj _).mp ((String.append_left_inj _).mp (indent_inj header))
    simp only [Package.names, Package.allClasses, List.forall_mem_cons, List.forall_mem_append]
    exact ⟨⟨(requote_eq_iff name).mp kept, names⟩, classes_shown own, texts⟩
termination_by structural p

private theorem packages_shown (all : List Package) {depth : Nat}
    (same : packagesLines depth (Package.rereadAll all) = packagesLines depth all) :
    (∀ name ∈ Package.namesOf all, '"' ∉ name.toList) ∧
      ∀ c ∈ Package.classesOf all, headerText c.restated = headerText c := by
  match all with
  | [] => simp [Package.namesOf, Package.classesOf]
  | p :: ps =>
    rw [Package.rereadAll, packagesLines, packagesLines] at same
    obtain ⟨own, others⟩ := List.append_inj same (packageLines_length p depth)
    have first := package_shown p own
    have rest := packages_shown ps others
    simp only [Package.namesOf, Package.classesOf, List.forall_mem_append]
    exact ⟨⟨first.1, rest.1⟩, first.2, rest.2⟩
termination_by structural all
end

mutual
theorem package_settled {f : Class → Class} (p : Package)
    (unquoted : ∀ name ∈ p.names, '"' ∉ name.toList) (kept : ∀ c ∈ p.allClasses, c.reread = f c) :
    p.reread = p.mapClasses f := by
  match p with
  | ⟨name, classes, packages⟩ =>
    simp only [Package.names, Package.allClasses, List.forall_mem_cons, List.forall_mem_append]
      at unquoted kept
    rw [Package.reread, Package.mapClasses, (requote_eq_iff name).mpr unquoted.1,
      List.map_congr_left kept.1, packages_settled packages unquoted.2 kept.2]
termination_by structural p

private theorem packages_settled {f : Class → Class} (all : List Package)
    (unquoted : ∀ name ∈ Package.namesOf all, '"' ∉ name.toList)
    (kept : ∀ c ∈ Package.classesOf all, c.reread = f c) :
    Package.rereadAll all = Package.mapAll f all := by
  match all with
  | [] => rfl
  | p :: ps =>
    simp only [Package.namesOf, Package.classesOf, List.forall_mem_append] at unquoted kept
    rw [Package.rereadAll, Package.mapAll, package_settled p unquoted.1 kept.1,
      packages_settled ps unquoted.2 kept.2]
termination_by structural all
end

section
variable {p : Project} (drawn : p.Drawn) (indexed : p.Indexed)
include drawn indexed

/-- If no block is added or leaves its package, each block is read in its place. -/
theorem read_again (inert : ∀ line ∈ behindBlocks p, Inert line)
    (tight : ∀ package ∈ p.packages, package.Tight) :
    read (renderText p) = p.reread.indexNames.inferContainment := by
  obtain ⟨closed, top, _⟩ := replay_weigh drawn
  rw [Diagram.read, read_replayed drawn indexed, inert_idle closed top inert,
    replay_kept drawn tight]
  rfl

/-- Two diagrams that are the same have blocks of the same depths. -/
theorem same_weight (same : render (read (renderText p)) = render p) (weight : Nat → Nat) :
    ((behindBlocks p).foldl Reading.step (Reading.replay p)).weigh weight = p.weigh weight := by
  have raw : (read (renderText p)).weigh weight =
      (readLines (lines (renderText p).toList)).weigh weight := by
    simp [Diagram.read, Project.inferContainment, Project.indexNames, Project.weigh,
      Project.mapClasses, weighAll_map]
  rw [← finish_weigh, ← read_replayed drawn indexed, ← raw, ← render_weigh (read_drawn _), same,
    render_weigh drawn]

private theorem same_settled (same : render (read (renderText p)) = render p) : p.Settled := by
  obtain ⟨closed, top, count, sharp⟩ := replay_weigh drawn
  have weights := same_weight drawn indexed same
  have inert : ∀ line ∈ behindBlocks p, Inert line := by
    refine (inert_or_more closed (behindBlocks p)).resolve_right ?_
    rw [weights, count]
    exact Nat.lt_irrefl _
  have tight := sharp (by rw [← weights id, inert_idle closed top inert])
  have shape : ∀ q : Project, render q =
      startMarker :: (packagesLines 0 q.packages ++ (q.classes.flatMap (classLines 0) ++
      (q.allClasses.flatMap (arrows q.classNames) ++ [endMarker]))) := fun q => by simp [render]
  rw [read_again drawn indexed inert tight, shape, shape p] at same
  have blocks := (List.cons.inj same).2
  simp only [Project.inferContainment, Project.indexNames, Project.mapClasses, Project.reread,
    packagesLines_map (inferred_lines _), classLines_map (inferred_lines _)] at blocks
  obtain ⟨packages, behind⟩ := List.append_inj blocks (packagesLines_length _ _)
  obtain ⟨classes, _⟩ := List.append_inj behind (classesLines_length _ _)
  obtain ⟨unquoted, below⟩ := packages_shown _ packages
  have texts : ∀ c ∈ p.allClasses, headerText c.restated = headerText c := by
    rw [Project.allClasses, List.forall_mem_append]
    exact ⟨classes_shown classes, below⟩
  have settled := fun c member =>
    (title_restated (allClasses_drawn drawn c member).title).2 (texts c member)
  exact ⟨tight, unquoted, fun c member => (settled c member).1,
    fun c member => (settled c member).2, (behindBlocks_inert drawn indexed).mp inert⟩

/-- A settled project is read back, but for classes that are marked as abstract and are not
plain. -/
theorem settled_read (settled : p.Settled) :
    read (renderText p) = p.mapClasses Class.plainlyAbstract := by
  have kept : ∀ c ∈ p.allClasses, c.reread = (unlinked ∘ Class.plainlyAbstract) c := by
    intro c member
    have restated :=
      (title_restated (allClasses_drawn drawn c member).title).1 ⟨settled.named c member,
        settled.unambiguous c member⟩
    rw [Class.reread, restated]
    rfl
  have split : ∀ c, c ∈ p.classes ∨ c ∈ Package.classesOf p.packages →
      c.reread = (unlinked ∘ Class.plainlyAbstract) c := fun c member =>
    kept c (by simpa [Project.allClasses] using member)
  have whole :
      p.reread =
      { (p.mapClasses Class.plainlyAbstract).mapClasses unlinked with classNames := [] } := by
    rw [project_map_comp, Project.reread,
      packages_settled _ settled.unquoted fun c member => split c (Or.inr member),
      List.map_congr_left fun c member => split c (Or.inl member)]
    rfl
  have plainly : (p.mapClasses Class.plainlyAbstract).Indexed :=
    @indexed_map Class.plainlyAbstract (fun _ => rfl) (fun _ _ => rfl) p indexed
  rw [read_again drawn indexed ((behindBlocks_inert drawn indexed).mpr settled.inert) settled.tight,
    whole, relinked unlinked [] _ (fun _ => rfl) (fun _ _ => rfl), plainly]

end

/-- Only plain classes are written as abstract. -/
theorem render_plainly (p : Project) : render (p.mapClasses Class.plainlyAbstract) = render p := by
  have lines : ∀ depth c, classLines depth (Class.plainlyAbstract c) = classLines depth c := by
    intro depth c
    have text : headerText c.plainlyAbstract = headerText c := headed_text c
    simp only [classLines, text]
    rfl
  have arrows : ((p.allClasses.map Class.plainlyAbstract).flatMap (arrows p.classNames)) =
      p.allClasses.flatMap (arrows p.classNames) := by
    rw [List.flatMap_map]
    rfl
  rw [render, project_allClasses_map]
  simp only [Project.mapClasses, packagesLines_map lines, classLines_map lines, arrows]
  rfl

/-- A diagram is the same after it has been read and written again if and only if its project is
settled. -/
theorem render_settles (text : String) :
    render (read (renderText (read text))) = render (read text) ↔ (read text).Settled := by
  have drawn := read_drawn text
  have indexed := (ContainmentArrows.Finished.read text).indexed
  refine ⟨same_settled drawn indexed, fun settled => ?_⟩
  rw [settled_read drawn indexed settled, render_plainly]

/-- The braces of the first class are taken for a part of its name, and then the second class has
left the package. -/
example : ¬(read "package p \x7b\nclass A<T>\x7b\x7d\nclass B \x7b\n\x7d\n\x7d").Settled ∧
    (read "package p \x7b\nclass A<T> \x7b\x7d\nclass B \x7b\n\x7d\n\x7d").Settled := by
  decide +kernel

end ClassDiagram.Proofs.SettledDiagrams
