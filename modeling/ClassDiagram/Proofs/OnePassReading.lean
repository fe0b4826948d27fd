import ClassDiagram.Diagram.Reader
import ClassDiagram.Diagram.Reading

/-! Blocks that are read by recursion are read in one pass. Every block takes a run of lines, and
the same lines lead the machine from before the header of the block to behind its end, with the
block added. So no line is read twice or passed over, and reading all blocks is one fold over the
lines. -/

namespace ClassDiagram.Proofs.OnePassReading
open Diagram

def within (r : Reading) (p : Package) : Reading :=
  { r with outer := p :: r.outer }

@[simp] theorem within_inner (r : Reading) (p : Package) : (within r p).inner = r.inner := rfl

private theorem within_addClass (r : Reading) (p : Package) (c : Class) :
    (within r p).addClass c = within r (p.addClass c) := rfl

theorem within_addPackage (r : Reading) (p child : Package) :
    (within r p).addPackage child = within r (p.addPackage child) := rfl

theorem within_closePackage (r : Reading) (p : Package) :
    (within r p).closePackage = r.addPackage p := rfl

@[simp] theorem addClass_inner (r : Reading) (c : Class) : (r.addClass c).inner = r.inner := by
  simp only [Reading.addClass]
  split <;> rfl

@[simp] theorem addPackage_inner (r : Reading) (p : Package) :
    (r.addPackage p).inner = r.inner := by
  simp only [Reading.addPackage]
  split <;> rfl

theorem addPackage_depth (r : Reading) (p : Package) :
    (r.addPackage p).outer.length = r.outer.length := by
  simp only [Reading.addPackage]
  split <;> simp_all

private theorem closeClass_closed {r : Reading} (closed : r.inner = none) : r.closeClass = r := by
  simp only [Reading.closeClass, closed]

/-- How many packages are closed depends on the length of the list only. -/
theorem closePackages_length {first second : List Package} (same : first.length = second.length)
    (r : Reading) : Reading.closePackages first r = Reading.closePackages second r := by
  induction first generalizing second r with
  | nil => rw [List.eq_nil_of_length_eq_zero same.symm]
  | cons p first ih =>
    cases second with
    | nil => simp at same
    | cons q second => exact ih (by simpa using same) r.closePackage

section
variable {r : Reading} (closed : r.inner = none)
include closed

/-- The end of the text closes a class. -/
theorem finish_class (c : Class) : { r with inner := some c }.finish = (r.addClass c).finish := by
  have ended : { r with inner := some c }.closeClass = r.addClass c := by
    simp only [Reading.closeClass, ← closed]
  have rest : (r.addClass c).closeClass = r.addClass c := closeClass_closed (by simp [closed])
  simp only [Reading.finish, ended, rest]

/-- The end of the text closes a package. -/
theorem finish_package (p : Package) : (within r p).finish = (r.addPackage p).finish := by
  have outer : (within r p).closeClass = within r p := closeClass_closed closed
  have inner : (r.addPackage p).closeClass = r.addPackage p := closeClass_closed (by simp [closed])
  have closing : Reading.closePackages (within r p).outer (within r p) =
      Reading.closePackages (r.addPackage p).outer (r.addPackage p) :=
    closePackages_length (addPackage_depth r p).symm (r.addPackage p)
  simp only [Reading.finish, outer, inner, closing]

end

/-- The machine takes all lines but the rest and comes to a state. If the text ends before that,
there is no rest and it finishes like that state. -/
def Reaches (before : Reading) (lines rest : List (List Char)) (after : Reading) : Prop :=
  ∃ run, lines = run ++ rest ∧
    (run.foldl Reading.step before = after ∨ rest = [] ∧
      (run.foldl Reading.step before).finish = after.finish)

theorem Reaches.refl (r : Reading) (lines : List (List Char)) : Reaches r lines lines r :=
  ⟨[], rfl, Or.inl rfl⟩

theorem Reaches.trans {first second third : Reading} {lines middle rest : List (List Char)}
    (one : Reaches first lines middle second) (two : Reaches second middle rest third) :
    Reaches first lines rest third := by
  obtain ⟨run, rfl, reached | ⟨rfl, ended⟩⟩ := one
  · obtain ⟨more, rfl, arrived⟩ := two
    refine ⟨run ++ more, by simp, ?_⟩
    rwa [List.foldl_append, reached]
  · obtain ⟨more, nothing, arrived⟩ := two
    obtain ⟨rfl, rfl⟩ := List.append_eq_nil_iff.mp nothing.symm
    refine ⟨run, rfl, Or.inr ⟨rfl, ended.trans ?_⟩⟩
    rcases arrived with same | ⟨_, alike⟩
    · exact congrArg Reading.finish same
    · exact alike

/-- A line that the machine takes by itself. -/
theorem Reaches.line {before after : Reading} {line : List Char} (step : before.step line = after)
    (lines : List (List Char)) : Reaches before (line :: lines) lines after :=
  ⟨[line], rfl, Or.inl step⟩

/-- All lines are taken, so the whole text finishes like the state they lead to. -/
theorem Reaches.finish {before after : Reading} {lines : List (List Char)}
    (reaches : Reaches before lines [] after) :
    (lines.foldl Reading.step before).finish = after.finish := by
  obtain ⟨run, rfl, same | ⟨_, alike⟩⟩ := reaches
  · rw [List.append_nil, same]
  · rw [List.append_nil, alike]

/-- Lines without a brace add members to the open class. -/
theorem members_fold (r : Reading) (c : Class) {lines : List (List Char)}
    (open' : ∀ line ∈ lines, closes line = false) :
    lines.foldl Reading.step { r with inner := some c } =
      { r with inner := some (lines.foldl addLine c) } := by
  induction lines generalizing c with
  | nil => rfl
  | cons line lines ih =>
    have step : Reading.step { r with inner := some c } line =
        { r with inner := some (addLine c line) } := by
      simp only [Reading.step, open' line (by simp), Bool.false_eq_true, if_false, addLine]
      cases entryOf? line with
      | none => rfl
      | some entry => rfl
    rw [List.foldl_cons, step, List.foldl_cons]
    exact ih _ fun other member => open' other (by simp [member])

section
variable {r : Reading} (closed : r.inner = none)
include closed

/-- The body of a class reaches through the first brace, or to the end of the text. -/
theorem classBody_leads (c : Class) (lines : List (List Char)) :
    Reaches { r with inner := some c } lines (behindBrace lines).val
      (r.addClass ((lines.takeWhile (!closes ·)).foldl addLine c)) := by
  have whole := List.takeWhile_append_dropWhile (p := fun line => !closes line) (l := lines)
  have unclosed : ∀ line ∈ lines.takeWhile (!closes ·), closes line = false := by
    intro line member
    simpa using List.all_eq_true.mp List.all_takeWhile line member
  have members := members_fold r c unclosed
  simp only [behindBrace]
  cases rest : lines.dropWhile (!closes ·) with
  | nil =>
    rw [rest, List.append_nil] at whole
    refine ⟨lines, by simp, Or.inr ⟨rfl, ?_⟩⟩
    rw [whole] at members ⊢
    rw [members, finish_class closed]
  | cons brace rest' =>
    have closing : closes brace = true := by
      have stops := List.head?_dropWhile_not (fun line => !closes line) lines
      simpa [rest] using stops
    refine ⟨lines.takeWhile (!closes ·) ++ [brace], ?_, Or.inl ?_⟩
    · rw [List.append_assoc, List.singleton_append, List.drop_one, List.tail_cons, ← rest, whole]
    · rw [List.foldl_append, members, List.foldl_cons, List.foldl_nil]
      simp only [Reading.step, closing, if_true, ← closed]

private theorem class_leads {header : List Char} (isHeader : isClassHeader header = true)
    (lines : List (List Char)) :
    Reaches r (header :: lines) (readClass header lines).2.val
      (r.addClass (readClass header lines).1) := by
  simp only [readClass]
  split
  next closing =>
    exact .line (by simp only [Reading.step, closed, isHeader, closing, if_true]) lines
  next opening =>
    refine .trans (.line ?_ lines) (classBody_leads closed (classHeader header) lines)
    simp only [Reading.step, closed, isHeader, opening, if_true, if_false, Bool.false_eq_true]

end

section
variable {r : Reading} (closed : r.inner = none) {line : List Char}
  (noClass : ¬ isClassHeader line = true)
include closed noClass

theorem step_package (isHeader : isPackageHeader line = true) :
    r.step line = if closes line then r.addPackage { name := packageName line }
      else within r { name := packageName line } := by
  simp only [Reading.step, closed, noClass, isHeader, if_true, if_false, Bool.false_eq_true, within]

theorem step_other (noPackage : ¬ isPackageHeader line = true) :
    r.step line = if closes line then r.closePackage else r := by
  simp only [Reading.step, closed, noClass, noPackage, if_false, Bool.false_eq_true]

end

/-- The inside of a package reaches through the first brace that closes no block within it. -/
theorem body_leads {r : Reading} (closed : r.inner = none) (p : Package)
    (lines : List (List Char)) :
    Reaches (within r p) lines (readBody p lines).2.val (r.addPackage (readBody p lines).1) := by
  fun_induction readBody p lines generalizing r with
  | case1 p => exact ⟨[], rfl, Or.inr ⟨rfl, finish_package closed p⟩⟩
  | case2 p line lines isHeader c rest found whole after read ih =>
    have own := @class_leads (within r p) closed line isHeader lines
    rw [found, within_addClass] at own
    have others := ih closed
    rw [read] at others
    exact own.trans others
  | case3 p line lines noClass isHeader child closing whole after read =>
    rename_i ih
    have own := @step_package (within r p) closed line noClass isHeader
    rw [if_pos closing, within_addPackage] at own
    have others := ih closed
    rw [read] at others
    exact .trans (.line own lines) others
  | case4 p line lines noClass isHeader child opening nested between inner whole after read below =>
    rename_i ih
    have own := @step_package (within r p) closed line noClass isHeader
    rw [if_neg opening] at own
    have block := @below (within r p) closed
    rw [inner, within_addPackage] at block
    have others := ih closed
    rw [read] at others
    exact .trans (.line own lines) (block.trans others)
  | case5 p line lines noClass noPackage closing =>
    have own := @step_other (within r p) closed line noClass noPackage
    rw [if_pos closing, within_closePackage] at own
    exact .line own lines
  | case6 p line lines noClass noPackage opening whole after read ih =>
    have own := @step_other (within r p) closed line noClass noPackage
    rw [if_neg opening] at own
    have others := ih closed
    rw [read] at others
    exact .trans (.line own lines) others

private theorem package_leads {r : Reading} (closed : r.inner = none) {header : List Char}
    (noClass : ¬ isClassHeader header = true) (isHeader : isPackageHeader header = true)
    (lines : List (List Char)) :
    Reaches r (header :: lines) (readPackage header lines).2.val
      (r.addPackage (readPackage header lines).1) := by
  have own := step_package closed noClass isHeader
  simp only [readPackage]
  split
  next closing =>
    rw [if_pos closing] at own
    exact .line own lines
  next opening =>
    rw [if_neg opening] at own
    exact .trans (.line own lines) (body_leads closed _ lines)

def idle (project : Project) : Reading :=
  { packages := project.packages, classes := project.classes }

private theorem blocks_lead (project : Project) (lines : List (List Char)) :
    Reaches (idle project) lines [] (idle (readBlocks project lines)) := by
  fun_induction readBlocks project lines with
  | case1 project => exact .refl _ []
  | case2 project line lines isHeader c rest found ih =>
    have own := @class_leads (idle project) rfl line isHeader lines
    rw [found] at own
    exact own.trans ih
  | case3 project line lines noClass isHeader p rest found ih =>
    have own := @package_leads (idle project) rfl line noClass isHeader lines
    rw [found] at own
    exact own.trans ih
  | case4 project line lines noClass noPackage ih =>
    have own := @step_other (idle project) rfl line noClass noPackage
    -- at top level a brace closes nothing
    have nothing : (idle project).closePackage = idle project := rfl
    rw [nothing, ite_self] at own
    exact .trans (.line own lines) ih

/-- Blocks index no names. -/
theorem readBlocks_names (project : Project) (lines : List (List Char)) :
    (readBlocks project lines).classNames = project.classNames := by
  fun_induction readBlocks project lines with
  | case1 => rfl
  | case2 _ _ _ _ _ _ _ ih => exact ih
  | case3 _ _ _ _ _ _ _ _ ih => exact ih
  | case4 _ _ _ _ _ ih => exact ih

theorem readLines_fold (lines : List (List Char)) : readLines lines = Reading.ofLines lines := by
  have names : (readLines lines).classNames = [] := readBlocks_names {} lines
  have whole := (blocks_lead {} lines).finish
  calc readLines lines = (idle (readLines lines)).finish := by
        rw [Reading.finish, closeClass_closed rfl, ← names]
        rfl
    _ = Reading.ofLines lines := whole.symm

/-- Reading a diagram block by block is one fold over its lines, from nothing open to all closed.
Each block takes the run of lines from its header through its end and hands on the rest, so every
line is taken once and by one block. -/
theorem reading_is_one_pass (text : String) :
    readLines (Text.lines text.toList) = ((Text.lines text.toList).foldl Reading.step {}).finish ∧
      read text = (Reading.ofLines (Text.lines text.toList)).indexNames.inferContainment ∧
      (∀ (r : Reading) (header : List Char) (lines : List (List Char)), r.inner = none →
        isClassHeader header = true →
        Reaches r (header :: lines) (readClass header lines).2.val
        (r.addClass (readClass header lines).1)) ∧
      ∀ (r : Reading) (header : List Char) (lines : List (List Char)), r.inner = none →
      ¬ isClassHeader header = true → isPackageHeader header = true →
        Reaches r (header :: lines) (readPackage header lines).2.val
        (r.addPackage (readPackage header lines).1) := by
  refine ⟨readLines_fold _, ?_,
    fun r header lines closed isHeader => class_leads closed isHeader lines,
    fun r header lines closed noClass isHeader => package_leads closed noClass isHeader lines⟩
  rw [Diagram.read, readLines_fold]

def cutOff : String :=
  "package shop \x7b\n  class Till \x7b\n    - sum: int\n"

theorem cutOff_one_pass :
    readLines (Text.lines cutOff.toList) =
      ((Text.lines cutOff.toList).foldl Reading.step {}).finish ∧
      isClassHeader "  class Till \x7b".toList = true ∧
      Reaches {} ["  class Till \x7b".toList, "    - sum: int".toList] []
        (Reading.addClass {} { name := "Till",
                               fields := [{ name := "sum", type := "int", isPrivate := true }] }) ∧
      isClassHeader "package shop \x7b\x7d".toList = false ∧
      isPackageHeader "package shop \x7b\x7d".toList = true ∧
      Reaches {} ["package shop \x7b\x7d".toList, "left".toList] ["left".toList]
      (Reading.addPackage {} { name := "shop" }) := by
  obtain ⟨fold, _, classes, packages⟩ := reading_is_one_pass cutOff
  have isClass : isClassHeader "  class Till \x7b".toList = true := by decide
  have noClass : isClassHeader "package shop \x7b\x7d".toList = false := by decide
  have isPackage : isPackageHeader "package shop \x7b\x7d".toList = true := by decide
  refine ⟨fold, isClass, ?_, noClass, isPackage, ?_⟩
  · exact classes {} "  class Till \x7b".toList ["    - sum: int".toList] rfl isClass
  · exact packages {} "package shop \x7b\x7d".toList ["left".toList] rfl
      (Bool.eq_false_iff.mp noClass) isPackage

end ClassDiagram.Proofs.OnePassReading
