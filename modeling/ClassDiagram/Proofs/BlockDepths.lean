import ClassDiagram.Proofs.ReplayedBlocks

/-! How many blocks there are, and how deep they lie. Each block weighs what a function gives for
its depth. The machine adds that weight when it reads a header, and a diagram shows it in the line
that closes the block, so the weight of a project can be read off its diagram. -/

namespace ClassDiagram
open Diagram

namespace Package

mutual
def weigh (weight : Nat → Nat) (depth : Nat) : Package → Nat
  | ⟨_, classes, packages⟩ =>
    weight depth + classes.length * weight (depth + 1) + weighAll weight (depth + 1) packages

def weighAll (weight : Nat → Nat) (depth : Nat) : List Package → Nat
  | [] => 0
  | p :: ps => p.weigh weight depth + weighAll weight depth ps
end

def weighStack (weight : Nat → Nat) : List Package → Nat
  | [] => 0
  | p :: ps => p.weigh weight ps.length + weighStack weight ps

end Package

def Project.weigh (weight : Nat → Nat) (p : Project) : Nat :=
  Package.weighAll weight 0 p.packages + p.classes.length * weight 0

/-- An open class has no place yet, but lies in the innermost open package. -/
def Diagram.Reading.weigh (weight : Nat → Nat) (r : Reading) : Nat :=
  Package.weighAll weight 0 r.packages + r.classes.length * weight 0 +
    Package.weighStack weight r.outer + if r.inner.isSome then weight r.outer.length else 0

/-- A line with nothing but the brace that closes a block. -/
def Diagram.isBlockEnd (line : String) : Bool :=
  line.toList.dropWhile (· == ' ') == ['}']

def Diagram.weighLines (weight : Nat → Nat) : List String → Nat
  | [] => 0
  | line :: lines =>
    (if isBlockEnd line then weight (line.toList.length / 2) else 0) + weighLines weight lines

end ClassDiagram

namespace ClassDiagram.Proofs.BlockDepths
open Text Diagram Blanks JoinedTexts MemberLines HeaderLines DiagramBlocks DiagramRoundTrip
  OnePassReading DrawnDiagrams ReplayedBlocks

variable {weight : Nat → Nat}

private theorem weighAll_append (depth : Nat) (first second : List Package) :
    Package.weighAll weight depth (first ++ second) =
      Package.weighAll weight depth first + Package.weighAll weight depth second := by
  induction first with
  | nil => simp [Package.weighAll]
  | cons p first ih => rw [List.cons_append, Package.weighAll, Package.weighAll, ih, Nat.add_assoc]

private theorem weigh_eq (depth : Nat) (p : Package) :
    p.weigh weight depth = weight depth + p.classes.length * weight (depth + 1) +
      Package.weighAll weight (depth + 1) p.packages := by
  cases p
  rfl

theorem weigh_empty (depth : Nat) (name : String) :
    Package.weigh weight depth { name } = weight depth := by
  simp [Package.weigh, Package.weighAll]

@[simp] theorem addClass_depth (r : Reading) (c : Class) :
    (r.addClass c).outer.length = r.outer.length := by
  simp only [Reading.addClass]
  split <;> simp_all

@[simp] theorem closePackage_depth (r : Reading) :
    r.closePackage.outer.length = r.outer.length - 1 := by
  simp only [Reading.closePackage]
  split
  next shape => rw [addPackage_depth, shape, List.length_cons, Nat.add_sub_cancel]
  next shape => simp [shape]

theorem addClass_weigh (r : Reading) (c : Class) :
    (r.addClass c).weigh weight = r.weigh weight + weight r.outer.length := by
  simp only [Reading.addClass]
  split
  next p ps shape =>
    simp only [Reading.weigh, shape, Package.weighStack, Package.addClass, weigh_eq,
      List.length_append, List.length_cons, List.length_nil, Nat.add_mul, Nat.one_mul, Nat.zero_add]
    omega
  next shape =>
    simp only [Reading.weigh, shape, Package.weighStack, List.length_append, List.length_singleton,
      List.length_nil, Nat.add_mul, Nat.one_mul]
    omega

theorem addPackage_weigh (r : Reading) (p : Package) :
    (r.addPackage p).weigh weight = r.weigh weight + p.weigh weight r.outer.length := by
  simp only [Reading.addPackage]
  split
  next q qs shape =>
    simp only [Reading.weigh, shape, Package.weighStack, Package.addPackage, weigh_eq _ q,
      weigh_eq _ { q with packages := _ }, List.length_cons, weighAll_append, Package.weighAll]
    omega
  next shape =>
    simp only [Reading.weigh, shape, Package.weighStack, List.length_nil, weighAll_append,
      Package.weighAll]
    omega

section
variable {r : Reading} (closed : r.inner = none)
include closed

theorem within_weigh (p : Package) :
    (within r p).weigh weight = r.weigh weight + p.weigh weight r.outer.length := by
  simp only [Reading.weigh, within, closed, Package.weighStack, Option.isSome_none,
    Bool.false_eq_true, if_false]
  omega

theorem closePackage_weigh : r.closePackage.weigh weight = r.weigh weight := by
  simp only [Reading.closePackage]
  split
  next p ps shape =>
    rw [addPackage_weigh]
    simp only [Reading.weigh, shape, closed, Package.weighStack, Option.isSome_none,
      Bool.false_eq_true, if_false]
    omega
  · rfl

/-- A header outside of classes adds a block, and nothing else does. -/
theorem step_weigh (line : List Char) : (r.step line).weigh weight =
    r.weigh weight + if isClassHeader line = true ∨
    isPackageHeader line = true then weight r.outer.length else 0 := by
  by_cases isClass : isClassHeader line = true
  · rw [if_pos (Or.inl isClass)]
    by_cases closing : closes line = true
    · simp only [Reading.step, closed, isClass, closing, if_true, addClass_weigh]
    · simp only [Reading.step, closed, isClass, closing, if_true, if_false, Bool.false_eq_true,
        Reading.weigh, Option.isSome_some, Option.isSome_none]
      omega
  · by_cases isPackage : isPackageHeader line = true
    · rw [if_pos (Or.inr isPackage), step_package closed isClass isPackage]
      split
      · rw [addPackage_weigh, weigh_empty]
      · rw [within_weigh closed, weigh_empty]
    · rw [if_neg (by simp [isClass, isPackage]), step_other closed isClass isPackage]
      split
      · rw [closePackage_weigh closed, Nat.add_zero]
      · rw [Nat.add_zero]

end

/-- Within a class no block is added. -/
theorem step_inner {r : Reading} {c : Class} (open' : r.inner = some c) (line : List Char) :
    (r.step line).weigh weight = r.weigh weight := by
  simp only [Reading.step, open']
  split
  · rw [addClass_weigh]
    simp [Reading.weigh, open']
  · split
    · simp [Reading.weigh, open']
    · rfl

private theorem step_grows (r : Reading) (line : List Char) :
    r.weigh weight ≤ (r.step line).weigh weight := by
  cases open' : r.inner with
  | none =>
    rw [step_weigh open']
    exact Nat.le_add_right _ _
  | some c => exact Nat.le_of_eq (step_inner open' line).symm

private theorem run_grows (r : Reading) (lines : List (List Char)) :
    r.weigh weight ≤ (lines.foldl Reading.step r).weigh weight := by
  induction lines generalizing r with
  | nil => exact Nat.le_refl _
  | cons line lines ih => exact Nat.le_trans (step_grows r line) (ih (r.step line))

private theorem closePackages_weigh {r : Reading} (closed : r.inner = none) (all : List Package) :
    (Reading.closePackages all r).weigh weight = r.weigh weight := by
  induction all generalizing r with
  | nil => rfl
  | cons p ps ih => rw [Reading.closePackages, ih (by simp [closed]), closePackage_weigh closed]

private theorem closePackages_idle {r : Reading} (closed : r.inner = none) {all : List Package}
    (deep : r.outer.length ≤ all.length) :
    (Reading.closePackages all r).outer = [] ∧ (Reading.closePackages all r).inner = none := by
  induction all generalizing r with
  | nil => exact ⟨List.eq_nil_of_length_eq_zero (Nat.le_zero.mp deep), closed⟩
  | cons p ps ih =>
    refine ih (by simp [closed]) ?_
    rw [List.length_cons] at deep
    rw [closePackage_depth]
    omega

private theorem closeClass_weigh (r : Reading) :
    r.closeClass.inner = none ∧ r.closeClass.weigh weight = r.weigh weight := by
  simp only [Reading.closeClass]
  split
  next c open' =>
    rw [addClass_inner, addClass_weigh]
    simp [Reading.weigh, open']
  next open' => exact ⟨open', rfl⟩

/-- What is open at the end is closed where it lies. -/
theorem finish_weigh (r : Reading) : r.finish.weigh weight = r.weigh weight := by
  obtain ⟨closed, same⟩ := @closeClass_weigh weight r
  obtain ⟨outer, inner⟩ := closePackages_idle closed (Nat.le_refl r.closeClass.outer.length)
  have kept := @closePackages_weigh weight _ closed r.closeClass.outer
  simp only [Reading.weigh, outer, inner, Package.weighStack, Option.isSome_none,
    Bool.false_eq_true, if_false] at kept
  simp only [Reading.finish, Project.weigh]
  rw [← same]
  simpa [Reading.weigh] using kept

/-- If anything but the blocks of a project opens a block, there are more blocks. -/
theorem inert_or_more {r : Reading} (closed : r.inner = none) (lines : List (List Char)) :
    (∀ line ∈ lines, Inert line) ∨
      r.weigh (fun _ => 1) < (lines.foldl Reading.step r).weigh (fun _ => 1) := by
  induction lines generalizing r with
  | nil => exact Or.inl (by simp)
  | cons line lines ih =>
    have own := @step_weigh (fun _ => 1) r closed line
    by_cases opens : isClassHeader line = true ∨ isPackageHeader line = true
    · have more := @run_grows (fun _ => 1) (r.step line) lines
      rw [if_pos opens] at own
      exact Or.inr (by rw [List.foldl_cons]; omega)
    · obtain ⟨noClass, noPackage⟩ := not_or.mp opens
      have kept : (r.step line).inner = none := by
        rw [step_other closed noClass noPackage]
        split <;> simp [closed]
      rw [if_neg opens, Nat.add_zero] at own
      rcases ih kept with inert | grown
      · exact Or.inl
          (List.forall_mem_cons.mpr
            ⟨⟨Bool.eq_false_iff.mpr noClass, Bool.eq_false_iff.mpr noPackage⟩, inert⟩)
      · exact Or.inr (by rw [List.foldl_cons, ← own]; exact grown)

/-- At top level lines that open nothing change nothing. -/
theorem inert_idle {r : Reading} (closed : r.inner = none) (top : r.outer = [])
    {lines : List (List Char)} (inert : ∀ line ∈ lines, Inert line) :
    lines.foldl Reading.step r = r := by
  induction lines with
  | nil => rfl
  | cons line lines ih =>
    rw [List.forall_mem_cons] at inert
    have nothing : r.closePackage = r := by simp [Reading.closePackage, top]
    have own : r.step line = r := by
      rw [step_other closed (Bool.eq_false_iff.mp inert.1.noClass)
        (Bool.eq_false_iff.mp inert.1.noPackage), nothing, ite_self]
    rw [List.foldl_cons, own, ih inert.2]

private theorem weighLines_append (first second : List String) :
    weighLines weight (first ++ second) = weighLines weight first + weighLines weight second := by
  induction first with
  | nil => simp [weighLines]
  | cons line first ih => rw [List.cons_append, weighLines, weighLines, ih, Nat.add_assoc]

private theorem weighLines_nothing {lines : List String}
    (none : ∀ line ∈ lines, isBlockEnd line = false) : weighLines weight lines = 0 := by
  induction lines with
  | nil => rfl
  | cons line lines ih =>
    rw [List.forall_mem_cons] at none
    simp [weighLines, none.1, ih none.2]

private theorem last_other {line : String} {x : Char} (last : line.toList.getLast? = some x)
    (other : x ≠ '}') : isBlockEnd line = false := by
  rw [isBlockEnd, Bool.eq_false_iff]
  intro ended
  have whole := List.takeWhile_append_dropWhile (p := (· == ' ')) (l := line.toList)
  rw [beq_iff_eq.mp ended] at whole
  rw [← whole, List.getLast?_concat] at last
  exact other (Option.some.inj last).symm

private theorem lacks_end {line : String} (noBrace : '}' ∉ line.toList) :
    isBlockEnd line = false := by
  cases last : line.toList.getLast? with
  | none => simp [isBlockEnd, List.getLast?_eq_none_iff.mp last]
  | some x => exact last_other last fun same => noBrace (same ▸ List.mem_of_getLast? last)

private theorem closing_weigh (depth : Nat) :
    weighLines weight [indent depth "\x7d"] = weight depth := by
  have chars : (indent depth "\x7d").toList = padding depth ++ ['}'] := indent_toList depth _
  have dropped := @dropWhile_stops _ (· == ' ') (padding depth) ['}']
    (fun c member => by simpa using List.eq_of_mem_replicate member) (by simp)
  have ended : isBlockEnd (indent depth "\x7d") = true := by rw [isBlockEnd, chars, dropped]; rfl
  have length : (indent depth "\x7d").toList.length / 2 = depth := by
    rw [chars, padding, List.length_append, List.length_replicate, List.length_singleton]
    omega
  rw [weighLines, weighLines, ended, if_pos rfl, length, Nat.add_zero]

private theorem class_weigh {c : Class} (drawn : c.Drawn) (depth : Nat) :
    weighLines weight (classLines depth c) = weight depth := by
  have members :
      ∀ line ∈ indent depth (headerText c ++ " \x7b") :: (memberLines c).map (indent (depth + 1)),
      isBlockEnd line = false := by
    rw [List.forall_mem_cons]
    refine ⟨@last_other _ '{' (by simp [indent_toList]) (by decide), fun line member => ?_⟩
    obtain ⟨text, known, rfl⟩ := List.mem_map.mp member
    apply lacks_end
    rw [indent_toList]
    exact lacks_append (blank_noBrace (padding_blank _))
      (member_lacks (by decide) (by decide) drawn.members (fun _ clean => clean.noBrace) text known)
  rw [show classLines depth c =
    (indent depth (headerText c ++ " \x7b") :: (memberLines c).map (indent (depth + 1))) ++
    [indent depth "\x7d"] from rfl,
    weighLines_append, weighLines_nothing members, closing_weigh, Nat.zero_add]

private theorem classes_weigh {all : List Class} (drawn : ∀ c ∈ all, c.Drawn) (depth : Nat) :
    weighLines weight (all.flatMap (classLines depth)) = all.length * weight depth := by
  induction all with
  | nil => simp [weighLines]
  | cons c all ih =>
    rw [List.forall_mem_cons] at drawn
    rw [List.flatMap_cons, weighLines_append, class_weigh drawn.1, ih drawn.2, List.length_cons,
      Nat.add_mul, Nat.one_mul, Nat.add_comm]

mutual
theorem package_weigh (p : Package) (drawn : p.Drawn) (depth : Nat) :
    weighLines weight (packageLines depth p) = p.weigh weight depth := by
  match p with
  | ⟨name, classes, packages⟩ =>
    obtain ⟨_, inside, below, _⟩ := drawn
    have header : weighLines weight [indent depth ("package \"" ++ name ++ "\" \x7b")] = 0 :=
      weighLines_nothing
        (by simpa using @last_other _ '{' (by simp [indent_toList, List.getLast?_cons]) (by decide))
    rw [packageLines, weighLines_append, weighLines_append, weighLines_append, header,
      classes_weigh inside, packages_weigh packages below, closing_weigh, Package.weigh]
    omega
termination_by structural p

private theorem packages_weigh (all : List Package) (drawn : ∀ p ∈ all, p.Drawn) (depth : Nat) :
    weighLines weight (packagesLines depth all) = Package.weighAll weight depth all := by
  match all with
  | [] => rfl
  | p :: ps =>
    rw [List.forall_mem_cons] at drawn
    rw [packagesLines, weighLines_append, package_weigh p drawn.1, packages_weigh ps drawn.2,
      Package.weighAll]
termination_by structural all
end

/-- A diagram shows how much its project weighs. -/
theorem render_weigh {p : Project} (drawn : p.Drawn) :
    weighLines weight (render p) = p.weigh weight := by
  have arrows : ∀ line ∈ p.allClasses.flatMap (arrows p.classNames), isBlockEnd line = false := by
    intro line member
    simp only [List.mem_flatMap, Diagram.arrows, List.mem_map] at member
    obtain ⟨c, _, target, _, rfl⟩ := member
    refine @last_other _ 's' ?_ (by decide)
    simp only [arrow]
    split <;> simp [List.getLast?_cons]
  have start : weighLines weight [startMarker] = 0 := weighLines_nothing (by decide)
  have ends : weighLines weight [endMarker] = 0 := weighLines_nothing (by decide)
  simp only [render, weighLines_append, start, ends, weighLines_nothing arrows,
    packages_weigh p.packages drawn.packages, classes_weigh drawn.classes, Project.weigh]
  omega

end ClassDiagram.Proofs.BlockDepths
