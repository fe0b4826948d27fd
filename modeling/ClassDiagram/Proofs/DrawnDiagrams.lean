import ClassDiagram.Proofs.DiagramRoundTrip
import ClassDiagram.Proofs.OnePassReading
import ClassDiagram.Proofs.RestatedHeaders

/-! What is read from any text can be written. The machine that reads a diagram only makes classes
and packages with titles and legible members, and a block with a closing brace in its name is empty,
since that brace has closed it. Of such a project every line that is written is a whole line. -/

namespace ClassDiagram
open Diagram Proofs.BlockTitles Proofs.RestatedHeaders Proofs.DiagramBlocks

structure Class.Drawn (c : Class) : Prop where
  title : IsTitle c
  members : c.Legible
  braced : '}' ∈ c.name.toList → memberLines c = []

inductive Package.Drawn : Package → Prop where
  | mk {name : String} {classes : List Class} {packages : List Package}
      (title : IsPackageTitle name) (inside : ∀ c ∈ classes, c.Drawn)
      (below : ∀ p ∈ packages, Drawn p) (braced : '}' ∈ name.toList → classes = [] ∧
        packages = []) : Drawn ⟨name, classes, packages⟩

structure Project.Drawn (p : Project) : Prop where
  classes : ∀ c ∈ p.classes, c.Drawn
  packages : ∀ package ∈ p.packages, package.Drawn

/-- What is open has been opened by a header without a closing brace. -/
structure Diagram.Reading.Drawn (r : Reading) : Prop where
  packages : ∀ p ∈ r.packages, p.Drawn
  classes : ∀ c ∈ r.classes, c.Drawn
  outer : ∀ p ∈ r.outer, p.Drawn ∧ '}' ∉ p.name.toList
  inner : ∀ c ∈ r.inner, c.Drawn ∧ '}' ∉ c.name.toList

end ClassDiagram

namespace ClassDiagram.Proofs.DrawnDiagrams
open Text Diagram Blanks JoinedTexts MemberLines HeaderLines DiagramBlocks DiagramRoundTrip
  OnePassReading LegibleMembers BlockTitles RestatedHeaders

private theorem addClass_drawn {r : Reading} (drawn : r.Drawn) {c : Class} (own : c.Drawn) :
    (r.addClass c).Drawn := by
  obtain ⟨packages, classes, outer, inner⟩ := drawn
  simp only [Reading.addClass]
  split
  next p ps shape =>
    rw [shape, List.forall_mem_cons] at outer
    obtain ⟨⟨drawn, unbraced⟩, others⟩ := outer
    refine ⟨packages, classes, List.forall_mem_cons.mpr ⟨⟨?_, unbraced⟩, others⟩, inner⟩
    obtain ⟨title, inside, below, _⟩ := drawn
    exact .mk title (by simpa [or_imp, forall_and] using ⟨inside, own⟩) below fun brace =>
      absurd brace unbraced
  · exact ⟨packages, by simpa [or_imp, forall_and] using ⟨classes, own⟩, outer, inner⟩

private theorem addPackage_drawn {r : Reading} (drawn : r.Drawn) {child : Package}
    (own : child.Drawn) : (r.addPackage child).Drawn := by
  obtain ⟨packages, classes, outer, inner⟩ := drawn
  simp only [Reading.addPackage]
  split
  next p ps shape =>
    rw [shape, List.forall_mem_cons] at outer
    obtain ⟨⟨drawn, unbraced⟩, others⟩ := outer
    refine ⟨packages, classes, List.forall_mem_cons.mpr ⟨⟨?_, unbraced⟩, others⟩, inner⟩
    obtain ⟨title, inside, below, _⟩ := drawn
    exact .mk title inside (by simpa [or_imp, forall_and] using ⟨below, own⟩) fun brace =>
      absurd brace unbraced
  · exact ⟨by simpa [or_imp, forall_and] using ⟨packages, own⟩, classes, outer, inner⟩

private theorem closePackage_drawn {r : Reading} (drawn : r.Drawn) : r.closePackage.Drawn := by
  simp only [Reading.closePackage]
  split
  next p ps shape =>
    have outer := drawn.outer
    rw [shape, List.forall_mem_cons] at outer
    have rest : Reading.Drawn { r with outer := ps } :=
      ⟨drawn.packages, drawn.classes, outer.2, drawn.inner⟩
    exact addPackage_drawn rest outer.1.1
  · exact drawn

private theorem header_drawn {line : List Char} (oneLine : '\n' ∉ line) :
    (classHeader line).Drawn := by
  have bare := classHeader_bare line
  refine ⟨classHeader_title oneLine, ?_, fun _ => ?_⟩ <;> rw [← bare]
  · exact ⟨by simp [headed], by simp [headed], by simp [headed]⟩
  · rfl

private theorem packageHeader_drawn {line : List Char} (oneLine : '\n' ∉ line)
    (noClass : isClassHeader line = false) : Package.Drawn { name := packageName line } :=
  .mk (packageName_title oneLine noClass) (by simp) (by simp) fun _ => ⟨rfl, rfl⟩

/-- A member line leaves the title of a class as it is. -/
theorem addLine_drawn {line : List Char} (body : IsBodyLine line) {c : Class} (drawn : c.Drawn)
    (unbraced : '}' ∉ c.name.toList) :
    (addLine c line).Drawn ∧ '}' ∉ (addLine c line).name.toList := by
  have same : headed (addLine c line) = headed c := by
    rw [addLine]
    split
    next entry _ => cases entry <;> rfl
    · rfl
  have name : (addLine c line).name = c.name := by simpa [headed] using congrArg Class.name same
  have interfaces : (addLine c line).interfaces = c.interfaces := by
    simpa [headed] using congrArg Class.interfaces same
  have superclass : (addLine c line).superclass = c.superclass := by
    simpa [headed] using congrArg Class.superclass same
  obtain ⟨solid, opened, known, oneLine⟩ := drawn.title
  have title : IsTitle (addLine c line) := by
    refine ⟨name ▸ solid, name ▸ opened, ?_, interfaces ▸ oneLine⟩
    rcases known with ⟨own, parent, listed⟩ | bare
    · exact Or.inl ⟨name ▸ own, superclass ▸ parent, interfaces ▸ listed⟩
    · exact Or.inr (by rw [superclass, interfaces]; exact bare)
  exact ⟨⟨title, addLine_legible body drawn.members, fun brace => absurd (name ▸ brace) unbraced⟩,
    name ▸ unbraced⟩

private theorem step_drawn {r : Reading} (drawn : r.Drawn) {line : List Char}
    (oneLine : '\n' ∉ line) : (r.step line).Drawn := by
  obtain ⟨packages, classes, outer, inner⟩ := drawn
  cases open' : r.inner with
  | some c =>
    obtain ⟨own, unbraced⟩ := inner c open'
    by_cases closing : closes line = true
    · have rest : Reading.Drawn { r with inner := none } := ⟨packages, classes, outer, by simp⟩
      simp only [Reading.step, open', closing, if_true]
      exact addClass_drawn rest own
    · have step : r.step line = { r with inner := some (addLine c line) } := by
        simp only [Reading.step, open', closing, if_false, addLine, Bool.false_eq_true]
        cases entryOf? line with
        | none => simp [← open']
        | some entry => rfl
      rw [step]
      have body : IsBodyLine line := ⟨oneLine, by simpa [closes] using closing⟩
      exact ⟨packages, classes, outer, by simpa using addLine_drawn body own unbraced⟩
  | none =>
    have drawn : r.Drawn := ⟨packages, classes, outer, inner⟩
    by_cases isClass : isClassHeader line = true
    · have own := header_drawn oneLine
      by_cases closing : closes line = true
      · simp only [Reading.step, open', isClass, closing, if_true]
        exact addClass_drawn drawn own
      · simp only [Reading.step, open', isClass, closing, if_true, if_false, Bool.false_eq_true]
        exact ⟨packages, classes, outer,
          by simpa using ⟨own, fun brace => closing (classHeader_brace brace)⟩⟩
    · by_cases isPackage : isPackageHeader line = true
      · have own := packageHeader_drawn oneLine (Bool.eq_false_iff.mpr isClass)
        rw [step_package open' isClass isPackage]
        split
        · exact addPackage_drawn drawn own
        next opening =>
          exact ⟨packages, classes,
            List.forall_mem_cons.mpr ⟨⟨own, fun brace => opening (packageName_brace brace)⟩, outer⟩,
            inner⟩
      · rw [step_other open' isClass isPackage]
        split
        · exact closePackage_drawn drawn
        · exact drawn

private theorem run_drawn {r : Reading} (drawn : r.Drawn) {lines : List (List Char)}
    (oneLine : ∀ line ∈ lines, '\n' ∉ line) : (lines.foldl Reading.step r).Drawn := by
  induction lines generalizing r with
  | nil => exact drawn
  | cons line lines ih =>
    rw [List.forall_mem_cons] at oneLine
    exact ih (step_drawn drawn oneLine.1) oneLine.2

private theorem closePackages_drawn {r : Reading} (drawn : r.Drawn) (all : List Package) :
    (Reading.closePackages all r).Drawn := by
  induction all generalizing r with
  | nil => exact drawn
  | cons p ps ih => exact ih (closePackage_drawn drawn)

private theorem finish_drawn {r : Reading} (drawn : r.Drawn) : r.finish.Drawn := by
  have closed : r.closeClass.Drawn := by
    simp only [Reading.closeClass]
    split
    next c open' =>
      have rest : Reading.Drawn { r with inner := none } :=
        ⟨drawn.packages, drawn.classes, drawn.outer, by simp⟩
      exact addClass_drawn rest (drawn.inner c open').1
    · exact drawn
  have whole := closePackages_drawn closed r.closeClass.outer
  exact ⟨whole.classes, whole.packages⟩

/-- Containment is no part of what is drawn. -/
theorem inferred_drawn {c : Class} (drawn : c.Drawn) (known : List String) :
    (c.inferContained known).Drawn := by
  obtain ⟨⟨solid, opened, title, oneLine⟩, ⟨fields, methods, constants⟩, braced⟩ := drawn
  refine ⟨⟨solid, opened, ?_, oneLine⟩, ⟨fields, methods, constants⟩, braced⟩
  exact title.imp (fun ⟨name, superclass, interfaces⟩ => ⟨name, superclass, interfaces⟩) id

mutual
theorem map_drawn {f : Class → Class} (kept : ∀ c : Class, c.Drawn → (f c).Drawn) (p : Package)
    (drawn : p.Drawn) : (p.mapClasses f).Drawn := by
  match p with
  | ⟨name, classes, packages⟩ =>
    obtain ⟨title, inside, below, braced⟩ := drawn
    refine .mk title ?_ (mapAll_drawn kept packages below) fun brace => ?_
    · simpa using fun c member => kept c (inside c member)
    · obtain ⟨rfl, rfl⟩ := braced brace
      exact ⟨rfl, rfl⟩
termination_by structural p

private theorem mapAll_drawn {f : Class → Class} (kept : ∀ c : Class, c.Drawn → (f c).Drawn)
    (all : List Package) (drawn : ∀ p ∈ all, p.Drawn) : ∀ p ∈ Package.mapAll f all, p.Drawn := by
  match all with
  | [] => exact drawn
  | p :: ps =>
    rw [List.forall_mem_cons] at drawn
    exact List.forall_mem_cons.mpr ⟨map_drawn kept p drawn.1, mapAll_drawn kept ps drawn.2⟩
termination_by structural all
end

private theorem lines_oneLine (text : List Char) : ∀ line ∈ lines text, '\n' ∉ line := by
  fun_induction lines text with
  | case1 => simp
  | case2 rest ih => simpa using ih
  | case3 rest ih => simpa using ih
  | case4 c rest feed _ line more behind ih =>
    rw [behind, List.forall_mem_cons] at ih
    exact List.forall_mem_cons.mpr ⟨by simpa using ⟨fun same => feed same.symm, ih.1⟩, ih.2⟩
  | case5 c rest feed _ behind ih => simpa using fun same => feed same.symm

/-- Whatever the text, what is read from it is drawn. -/
theorem read_drawn (text : String) : (read text).Drawn := by
  have start : Reading.Drawn {} := ⟨by simp, by simp, by simp, by simp⟩
  have raw : (readLines (lines text.toList)).Drawn := by
    rw [readLines_fold]
    exact finish_drawn (run_drawn start (lines_oneLine _))
  obtain ⟨classes, packages⟩ := raw
  have kept := fun c drawn =>
    @inferred_drawn c drawn (readLines (lines text.toList)).indexNames.classNames
  exact ⟨List.forall_mem_map.mpr fun c member => kept c (classes c member),
    mapAll_drawn kept _ packages⟩

end ClassDiagram.Proofs.DrawnDiagrams
