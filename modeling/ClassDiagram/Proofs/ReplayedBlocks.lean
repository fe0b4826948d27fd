import ClassDiagram.Proofs.DrawnDiagrams

/-! What the machine makes of the blocks that are written for what it has read. A block whose name
holds a closing brace is closed by its own header, so the brace at its end closes the package around
it. -/

namespace ClassDiagram
open Diagram Proofs.HeaderLines Proofs.OnePassReading

def Class.reread (c : Class) : Class :=
  { c.restated with fields := c.fields, methods := c.methods, constants := c.constants }

namespace Diagram.Reading

/-- The brace behind a block that is closed already. -/
def spill (r : Reading) (name : String) : Reading :=
  if '}' ∈ name.toList then r.closePackage else r

def replayClass (r : Reading) (c : Class) : Reading :=
  (r.addClass c.reread).spill c.name

def openPackage (r : Reading) (name : String) : Reading :=
  if '}' ∈ name.toList then r.addPackage { name := requote name }
    else within r { name := requote name }

mutual
def replayPackage (r : Reading) : Package → Reading
  | ⟨name, classes, packages⟩ =>
    (replayPackages (classes.foldl replayClass (r.openPackage name)) packages).closePackage

def replayPackages (r : Reading) : List Package → Reading
  | [] => r
  | p :: ps => replayPackages (r.replayPackage p) ps
end

def replay (p : Project) : Reading :=
  p.classes.foldl replayClass (replayPackages {} p.packages)

end Diagram.Reading
end ClassDiagram

namespace ClassDiagram.Proofs.ReplayedBlocks
open Text Diagram Blanks JoinedTexts MemberLines HeaderLines DiagramBlocks DiagramRoundTrip
  OnePassReading BlockTitles RestatedHeaders DrawnDiagrams

@[simp] theorem closePackage_inner (r : Reading) : r.closePackage.inner = r.inner := by
  simp only [Reading.closePackage]
  split
  · rw [addPackage_inner]
  · rfl

@[simp] theorem spill_inner (r : Reading) (name : String) : (r.spill name).inner = r.inner := by
  simp only [Reading.spill]
  split <;> simp

@[simp] theorem replayClass_inner (r : Reading) (c : Class) :
    (r.replayClass c).inner = r.inner := by
  simp [Reading.replayClass]

@[simp] theorem openPackage_inner (r : Reading) (name : String) :
    (r.openPackage name).inner = r.inner := by
  simp only [Reading.openPackage]
  split <;> simp

@[simp] theorem replayClasses_inner (r : Reading) (all : List Class) :
    (all.foldl Reading.replayClass r).inner = r.inner := by
  induction all generalizing r with
  | nil => rfl
  | cons c all ih => rw [List.foldl_cons, ih, replayClass_inner]

mutual
@[simp] theorem replayPackage_inner (r : Reading) (p : Package) :
    (r.replayPackage p).inner = r.inner := by
  match p with
  | ⟨name, classes, packages⟩ => simp [Reading.replayPackage, replayPackages_inner _ packages]
termination_by structural p

@[simp] theorem replayPackages_inner (r : Reading) (all : List Package) :
    (r.replayPackages all).inner = r.inner := by
  match all with
  | [] => rfl
  | p :: ps => simp [Reading.replayPackages, replayPackages_inner _ ps, replayPackage_inner r p]
termination_by structural all
end

section
variable {r : Reading} (closed : r.inner = none)
include closed

private theorem closing_taken (depth : Nat) : r.step (closingLine depth) = r.closePackage := by
  have noClass : isClassHeader (closingLine depth) = false := by
    rw [isClassHeader, closing_words]
    decide
  have noPackage : isPackageHeader (closingLine depth) = false := by
    rw [isPackageHeader, closing_words]
    decide
  rw [step_other closed (Bool.eq_false_iff.mp noClass) (Bool.eq_false_iff.mp noPackage),
    if_pos (closing_closes depth)]

private theorem class_replayed {c : Class} (drawn : c.Drawn) (depth : Nat) :
    (chars (classLines depth c)).foldl Reading.step r = r.replayClass c := by
  have isHeader := headerLine_isClassHeader depth c
  have closes := title_closes drawn.title depth
  rw [classLines_chars, List.foldl_cons, classRest, List.foldl_append]
  by_cases brace : '}' ∈ c.name.toList
  · have bare : c.reread = c.restated := by
      obtain ⟨constants, fields, methods⟩ : c.constants = [] ∧ c.fields = [] ∧ c.methods = [] := by
        simpa [memberLines] using drawn.braced brace
      have same : headed c.restated = c.restated := classHeader_bare _
      rw [Class.reread, constants, fields, methods, ← same]
      rfl
    have own : r.step (headerLine depth c) = r.addClass c.reread := by
      simp [Reading.step, closed, isHeader, closes, brace, header_padded, bare]
    rw [own, drawn.braced brace]
    simp only [List.map_nil, chars, List.foldl_nil, List.foldl_cons, Reading.replayClass,
      Reading.spill, brace, if_true]
    exact closing_taken (by simp [closed]) depth
  · have own : r.step (headerLine depth c) = { r with inner := some c.restated } := by
      simp [Reading.step, closed, isHeader, closes, brace, header_padded]
    have unclosed := fun line member =>
      Bool.not_eq_true' _ ▸ @members_open (depth + 1) _ drawn.members line member
    have same : headed c.restated = c.restated := classHeader_bare _
    have members :
        (chars ((memberLines c).map (indent (depth + 1)))).foldl addLine c.restated = c.reread := by
      rw [members_added drawn.members, Class.reread, ← same]
      simp [headed]
    rw [own, members_fold r c.restated (by simpa using unclosed), members]
    simp only [List.foldl_cons, List.foldl_nil, Reading.step, closing_closes, if_true,
      Reading.replayClass, Reading.spill, brace, if_false]
    rw [← closed]

private theorem classes_replayed {all : List Class} (drawn : ∀ c ∈ all, c.Drawn) (depth : Nat) :
    (chars (all.flatMap (classLines depth))).foldl Reading.step r =
      all.foldl Reading.replayClass r := by
  induction all generalizing r with
  | nil => rfl
  | cons c all ih =>
    rw [List.forall_mem_cons] at drawn
    have shape : chars ((c :: all).flatMap (classLines depth)) =
        chars (classLines depth c) ++ chars (all.flatMap (classLines depth)) := by
      simp [chars]
    rw [shape, List.foldl_append, class_replayed closed drawn.1, List.foldl_cons,
      ih (by simp [closed]) drawn.2]

private theorem packageHeader_taken {name : String} (title : IsPackageTitle name) (depth : Nat) :
    r.step (packageHeader depth name) = r.openPackage name := by
  have blank := padding_blank depth
  have noClass : isClassHeader (packageHeader depth name) = false :=
    package_notClass blank title.noKeyword
  have closes : closes (packageHeader depth name) = name.toList.contains '}' :=
    package_closes blank name
  have named : packageName (packageHeader depth name) = requote name := package_name blank name
  rw [step_package closed (Bool.eq_false_iff.mp noClass) (package_isHeader blank name), closes,
    named]
  simp only [Reading.openPackage, List.contains_iff_mem]

end

mutual
theorem package_replayed (p : Package) {r : Reading} (closed : r.inner = none) (drawn : p.Drawn)
    (depth : Nat) : (chars (packageLines depth p)).foldl Reading.step r = r.replayPackage p := by
  match p with
  | ⟨name, classes, packages⟩ =>
    obtain ⟨title, inside, below, _⟩ := drawn
    rw [packageLines_chars, List.foldl_cons, packageHeader_taken closed title, List.foldl_append,
      classes_replayed (by simp [closed]) inside,
      List.foldl_append, packages_replayed packages (by simp [closed]) below, List.foldl_cons,
      List.foldl_nil, closing_taken (by simp [closed])]
    rfl
termination_by structural p

private theorem packages_replayed (all : List Package) {r : Reading} (closed : r.inner = none)
    (drawn : ∀ p ∈ all, p.Drawn) (depth : Nat) :
    (chars (packagesLines depth all)).foldl Reading.step r = r.replayPackages all := by
  match all with
  | [] => rfl
  | p :: ps =>
    rw [List.forall_mem_cons] at drawn
    have shape : chars (packagesLines depth (p :: ps)) =
        chars (packageLines depth p) ++ chars (packagesLines depth ps) := by
      simp [chars, packagesLines]
    rw [shape, List.foldl_append, package_replayed p closed drawn.1,
      packages_replayed ps (by simp [closed]) drawn.2]
    rfl
termination_by structural all
end

def behindBlocks (p : Project) : List (List Char) :=
  chars (p.allClasses.flatMap (arrows p.classNames) ++ [endMarker])

private theorem render_replayed {p : Project} (drawn : p.Drawn) :
    (chars (render p)).foldl Reading.step {} =
      (behindBlocks p).foldl Reading.step (Reading.replay p) := by
  have shape : chars (render p) = startMarker.toList :: (chars (packagesLines 0 p.packages) ++
      (chars (p.classes.flatMap (classLines 0)) ++ behindBlocks p)) := by
    simp [chars, render, behindBlocks]
  have start : Reading.step {} startMarker.toList = {} := by
    rw [step_other rfl (Bool.eq_false_iff.mp marker_inert.1.noClass)
      (Bool.eq_false_iff.mp marker_inert.1.noPackage), if_neg (by decide)]
  rw [shape, List.foldl_cons, start, List.foldl_append,
    packages_replayed p.packages rfl drawn.packages, List.foldl_append,
    classes_replayed (by simp) drawn.classes]
  rfl

private theorem class_lines {c : Class} (drawn : c.Drawn) : IsWhole c := by
  exact ⟨fun member => absurd (drawn.title.solid _ member) (by decide),
    classLines_whole (title_oneLine drawn.title) drawn.members⟩

mutual
theorem package_drawn (p : Package) (drawn : p.Drawn) :
    (∀ c ∈ p.allClasses, c.Drawn) ∧ ∀ name ∈ p.names, IsPackageTitle name := by
  match p with
  | ⟨name, classes, packages⟩ =>
    obtain ⟨title, inside, below, _⟩ := drawn
    have others := packages_drawn packages below
    simp only [Package.allClasses, Package.names, List.forall_mem_append, List.forall_mem_cons]
    exact ⟨⟨inside, others.1⟩, title, others.2⟩
termination_by structural p

private theorem packages_drawn (all : List Package) (drawn : ∀ p ∈ all, p.Drawn) :
    (∀ c ∈ Package.classesOf all, c.Drawn) ∧ ∀ name ∈ Package.namesOf all, IsPackageTitle name := by
  match all with
  | [] => simp [Package.classesOf, Package.namesOf]
  | p :: ps =>
    rw [List.forall_mem_cons] at drawn
    have first := package_drawn p drawn.1
    have others := packages_drawn ps drawn.2
    simp only [Package.classesOf, Package.namesOf, List.forall_mem_append]
    exact ⟨⟨first.1, others.1⟩, first.2, others.2⟩
termination_by structural all
end

theorem allClasses_drawn {p : Project} (drawn : p.Drawn) : ∀ c ∈ p.allClasses, c.Drawn := by
  rw [Project.allClasses, List.forall_mem_append]
  exact ⟨drawn.classes, (packages_drawn _ drawn.packages).1⟩

/-- What is read from the diagram of a drawn project. -/
theorem read_replayed {p : Project} (drawn : p.Drawn) (indexed : p.Indexed) :
    readLines (lines (renderText p).toList) =
      ((behindBlocks p).foldl Reading.step (Reading.replay p)).finish := by
  have classes := allClasses_drawn drawn
  have whole := renderText_lines (fun c member => class_lines (classes c member))
    (fun name member => ((packages_drawn _ drawn.packages).2 name member).oneLine) (by
      intro name member
      obtain ⟨c, present, rfl⟩ := indexed_names indexed member
      exact (class_lines (classes c present)).name)
  rw [whole, readLines_fold, Reading.ofLines, render_replayed drawn]

end ClassDiagram.Proofs.ReplayedBlocks
