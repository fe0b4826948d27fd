import ClassDiagram.Proofs.Likeness
import ClassDiagram.Proofs.Remainders

/-! Machines that watch readings. A machine goes from state to state over the trees that a form
takes. Which states it may reach is computed from the form alone: over a single tree by the form
that takes it, over the trees of a called rule by a table that the right-hand side of the rule has
to agree with, and over a repetition by going round until no state is new. -/

namespace ClassDiagram.Proofs.FormRuns
open Java Form Likeness Remainders

/-- A machine over things of which each shows a tree. `single` lists the states that it may go to
over a tree that a form for single trees takes, and `called` those that it may reach over what a
rule takes. -/
structure Watch (α σ : Type) where
  view : α → Tree
  step : σ → α → σ
  states : List σ
  single : Form → σ → List σ
  called : Rule → σ → List σ

section
variable {α σ : Type} [DecidableEq σ]

def fromEach {β : Type} (reached : β → List σ) (starts : List β) : List σ :=
  starts.foldr (fun q found => reached q ∪ found) []

/-- Goes round until no state is new, and gives up for all states when the fuel runs out. -/
def rounds (all : List σ) (round : List σ → List σ) : Nat → List σ → List σ
  | 0, _ => all
  | fuel + 1, found =>
    let next := round found
    if next.all found.contains then found else rounds all round fuel (next ∪ found)

def Watch.reached (watch : Watch α σ) : Form → List σ → List σ
  | .empty, starts => starts
  | .one shape, starts => fromEach (watch.single (.one shape)) starts
  | .inside bracket rule, starts => fromEach (watch.single (.inside bracket rule)) starts
  | .call rule, starts => fromEach (watch.called rule) starts
  | .seq first second, starts => watch.reached second (watch.reached first starts)
  | .alt left right, starts => watch.reached left starts ∪ watch.reached right starts
  | .star body, starts => rounds watch.states (watch.reached body) (watch.states.length + 1) starts
  | .absent _, starts => starts

/-- What is listed for single trees and for the given rules is all that may happen. -/
structure Watch.Sound (watch : Watch α σ) (calls : Rule → Bool) : Prop where
  complete : ∀ q, q ∈ watch.states
  single : ∀ atom q x, takes atom (watch.view x) = true → watch.step q x ∈ watch.single atom q
  closed : ∀ rule, calls rule = true → builtFrom (fun _ => true) calls (Grammar.form rule) = true
  called : ∀ rule, calls rule = true →
    ∀ q, watch.reached (Grammar.form rule) [q] ⊆ watch.called rule q

/-- What a reading takes, and the state that the machine reaches over it. -/
def Watch.Runs (watch : Watch α σ) (q : σ) (things : List α) (rest : List Tree) (found : List σ) :
    Prop :=
  ∃ taken more, things = taken ++ more ∧ more.map watch.view = rest ∧
    taken.foldl watch.step q ∈ found

theorem mem_fromEach {β : Type} {reached : β → List σ} {starts : List β} {q : β} {q' : σ}
    (start : q ∈ starts) (found : q' ∈ reached q) : q' ∈ fromEach reached starts := by
  induction starts with
  | nil => simp at start
  | cons first starts ih =>
    refine List.mem_union_iff.mpr ?_
    rcases List.mem_cons.mp start with rfl | start
    · exact Or.inl found
    · exact Or.inr (ih start)

/-- Nothing leads out of the states that rounds lead to. -/
theorem rounds_closed {all : List σ} (complete : ∀ q, q ∈ all) (round : List σ → List σ)
    (fuel : Nat) (starts : List σ) : starts ⊆ rounds all round fuel starts ∧
      ∃ found, rounds all round fuel starts = found ∧ ((∀ q, q ∈ found) ∨ round found ⊆ found) := by
  induction fuel generalizing starts with
  | zero => exact ⟨fun q _ => complete q, all, rfl, Or.inl complete⟩
  | succ fuel ih =>
    simp only [rounds]
    split
    next known =>
      refine ⟨List.Subset.refl _, starts, rfl, Or.inr fun q member => ?_⟩
      simpa using List.all_eq_true.mp known q member
    next =>
      obtain ⟨within, found⟩ := ih (round starts ∪ starts)
      exact ⟨fun q member => within (List.mem_union_iff.mpr (Or.inr member)), found⟩

variable {watch : Watch α σ} {calls : Rule → Bool}

omit [DecidableEq σ] in
/-- What follows a reading is taken by what is read next. -/
theorem Watch.Runs.behind {q : σ} {things : List α} {middle rest : List Tree}
    {found found' : List σ} (first : watch.Runs q things middle found)
    (second : ∀ q things, q ∈ found → things.map watch.view = middle →
      watch.Runs q things rest found') : watch.Runs q things rest found' := by
  obtain ⟨taken, more, rfl, shown, state⟩ := first
  obtain ⟨taken', more', rfl, shown', state'⟩ := second _ more state shown
  exact ⟨taken ++ taken', more', by simp, shown', by simpa using state'⟩

omit [DecidableEq σ] in
theorem Watch.Runs.mono {q : σ} {things : List α} {rest : List Tree} {found found' : List σ}
    (runs : watch.Runs q things rest found) (within : found ⊆ found') :
    watch.Runs q things rest found' := by
  obtain ⟨taken, more, whole, shown, state⟩ := runs
  exact ⟨taken, more, whole, shown, within state⟩

variable (sound : watch.Sound calls)
include sound

private theorem single_runs {atom : Form} {q : σ} {starts : List σ} (start : q ∈ starts)
    {things : List α} {t : Tree} {rest : List Tree} (taken : takes atom t = true)
    (shown : things.map watch.view = t :: rest) :
    watch.Runs q things rest (fromEach (watch.single atom) starts) := by
  obtain ⟨x, more, rfl, rfl, behind⟩ := List.map_eq_cons_iff.mp shown
  exact ⟨[x], more, rfl, behind, mem_fromEach start (sound.single atom q x taken)⟩

private theorem reading_runs {callees : Rule → List Tree → List (List Tree)} (tidy : Tidy callees)
    (called : ∀ rule, calls rule = true →
      ∀ things rest q, rest ∈ callees rule (things.map watch.view) →
      watch.Runs q things rest (watch.called rule q))
    {form : Form} (built : builtFrom (fun _ => true) calls form = true) {things : List α}
    {rest : List Tree} (read : rest ∈ endsBy callees form (things.map watch.view)) {q : σ}
    {starts : List σ} (start : q ∈ starts) :
    watch.Runs q things rest (watch.reached form starts) := by
  induction form generalizing things rest q starts with
  | empty => exact ⟨[], things, rfl, (List.mem_singleton.mp read).symm, start⟩
  | one shape =>
    obtain ⟨t, accepted, shown⟩ := mem_one.mp read
    have taken : takes (.one shape) (.leaf t) = true := accepted
    exact single_runs sound start taken shown
  | inside bracket rule =>
    obtain ⟨rules, opening, closing, inner, listed, shown⟩ := mem_inside.mp read
    have taken :
        takes (.inside bracket rule) (.group bracket rules opening closing inner) = true := by
      simpa [takes] using listed
    exact single_runs sound start taken shown
  | call rule =>
    exact (called rule built things rest q read).mono fun q' member => mem_fromEach start member
  | seq first second one two =>
    simp only [builtFrom, Bool.and_eq_true] at built
    obtain ⟨middle, here, sequel⟩ := (mem_seq tidy).mp read
    refine (one built.1 here start).behind fun q' more state shown =>
      two built.2 (shown ▸ sequel) state
  | alt left right one two =>
    simp only [builtFrom, Bool.and_eq_true] at built
    rcases (mem_alt tidy).mp read with read | read
    · exact (one built.1 read start).mono fun q' member => List.mem_union_iff.mpr (Or.inl member)
    · exact (two built.2 read start).mono fun q' member => List.mem_union_iff.mpr (Or.inr member)
  | star body ih =>
    obtain ⟨within, found, same, closed⟩ :=
      rounds_closed sound.complete (watch.reached body) (watch.states.length + 1) starts
    rw [Watch.reached, same]
    rw [same] at within
    have steps := (mem_star tidy).mp read
    -- the states found are those before and behind every round
    have known := within start
    clear read start within same
    generalize shown : things.map watch.view = trees at steps
    induction steps generalizing things q with
    | done => exact ⟨[], things, rfl, shown, known⟩
    | next step _ _ more =>
      subst shown
      refine (ih built step known).behind fun q' others state shown => more ?_ shown
      rcases closed with all | closed
      · exact all q'
      · exact closed state
  | absent form => exact ⟨[], things, rfl, (mem_absent.mp read).1.symm, start⟩

private theorem ends_run (fuel : Nat) {rule : Rule} (isCalled : calls rule = true) {things : List α}
    {rest : List Tree} {q : σ} (read : rest ∈ ends Grammar.form fuel rule (things.map watch.view)) :
    watch.Runs q things rest (watch.called rule q) := by
  induction fuel generalizing rule things rest q with
  | zero => simp [ends] at read
  | succ fuel ih =>
    have runs :=
      reading_runs sound (ends_tidy Grammar.form fuel)
        (fun _ isCalled _ _ _ read => ih isCalled read) (sound.closed rule isCalled) read
      (List.mem_singleton.mpr rfl : q ∈ [q])
    exact runs.mono (sound.called rule isCalled q)

/-- Over a reading of the form the machine reaches one of the states computed. -/
theorem form_runs {fuel : Nat} {form : Form} (built : builtFrom (fun _ => true) calls form = true)
    {things : List α} {rest : List Tree}
    (read : rest ∈ endsBy (ends Grammar.form fuel) form (things.map watch.view)) {q : σ}
    {starts : List σ} (start : q ∈ starts) :
    watch.Runs q things rest (watch.reached form starts) :=
  reading_runs sound (ends_tidy Grammar.form fuel)
    (fun _ isCalled _ _ _ read => ends_run sound fuel isCalled read) built read start

end

end ClassDiagram.Proofs.FormRuns
