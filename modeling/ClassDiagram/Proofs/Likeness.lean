import ClassDiagram.Java.Outline
import Mathlib.Data.List.Forall2

/-! What a form looks at. It tells trees apart only by the single tokens and the regions it names
itself, so trees that those do not tell apart are read alike: the readings of two such lists
correspond one to one. -/

namespace ClassDiagram.Proofs.Likeness
open Java Java.Outline Form
open List (Forall₂)

def takes : Form → Tree → Bool
  | .one shape, .leaf t => shape.accepts t
  | .inside bracket rule, .group found rules _ _ _ => found = bracket && rules.contains rule
  | _, _ => false

/-- Whether a form is made of the given forms for single trees and calls of the given rules. -/
def builtFrom (atoms : Form → Bool) (calls : Rule → Bool) : Form → Bool
  | .empty => true
  | .one shape => atoms (.one shape)
  | .inside bracket rule => atoms (.inside bracket rule)
  | .call rule => calls rule
  | .seq first second => builtFrom atoms calls first && builtFrom atoms calls second
  | .alt left right => builtFrom atoms calls left && builtFrom atoms calls right
  | .star body => builtFrom atoms calls body
  | .absent form => builtFrom atoms calls form

def Alike (atoms : Form → Bool) (first second : Tree) : Prop :=
  ∀ atom, atoms atom = true → takes atom first = takes atom second

/-- A relation that the given forms do not see through, and rules made of nothing else. -/
structure Blind (R : Tree → Tree → Prop) (atoms : Form → Bool) (calls : Rule → Bool) : Prop where
  alike : ∀ first second, R first second → Alike atoms first second
  rules : ∀ rule, calls rule = true → builtFrom atoms calls (Grammar.form rule) = true

theorem endsBy_one (callees : Rule → List Tree → List (List Tree)) (shape : Shape) (tree : Tree)
    (rest : List Tree) :
    endsBy callees (.one shape) (tree :: rest) = if takes (.one shape) tree then [rest]
      else [] := by
  cases tree with
  | leaf => rfl
  | group => simp [endsBy, takes]

theorem endsBy_inside (callees : Rule → List Tree → List (List Tree)) (bracket : Bracket)
    (rule : Rule) (tree : Tree) (rest : List Tree) :
    endsBy callees (.inside bracket rule) (tree :: rest) = if takes (.inside bracket rule) tree then
      [rest] else [] := by
  cases tree with
  | leaf => simp [endsBy, takes]
  | group => simp [endsBy, takes]

section
variable {R : Tree → Tree → Prop}

private theorem insert_like {rest rest' : List Tree} {all all' : List (List Tree)}
    (like : Forall₂ R rest rest') (others : Forall₂ (Forall₂ R) all all') :
    Forall₂ (Forall₂ R) (Form.insert rest all) (Form.insert rest' all') := by
  induction others with
  | nil => exact .cons like .nil
  | cons first more ih =>
    simp only [Form.insert, like.length_eq, first.length_eq]
    split
    · exact .cons like (.cons first more)
    · split
      · exact .cons first ih
      · exact .cons first more

private theorem merge_like {left left' right right' : List (List Tree)}
    (one : Forall₂ (Forall₂ R) left left') (two : Forall₂ (Forall₂ R) right right') :
    Forall₂ (Forall₂ R) (merge left right) (merge left' right') := by
  induction one with
  | nil => exact two
  | cons first _ ih => exact insert_like first ih

theorem filter_like {p q : List Tree → Bool} {all all' : List (List Tree)}
    (same : ∀ {a b}, Forall₂ R a b → p a = q b) (like : Forall₂ (Forall₂ R) all all') :
    Forall₂ (Forall₂ R) (all.filter p) (all'.filter q) := by
  induction like with
  | nil => exact .nil
  | cons first more ih =>
    simp only [List.filter_cons, same first]
    split
    · exact .cons first ih
    · exact ih

private theorem closure_like {step step' : List Tree → List (List Tree)}
    (steps : ∀ {trees trees'}, Forall₂ R trees trees' →
      Forall₂ (Forall₂ R) (step trees) (step' trees')) (fuel : Nat)
    {pending pending' : List (List Tree)} (like : Forall₂ (Forall₂ R) pending pending') :
    Forall₂ (Forall₂ R) (Form.closure step fuel pending) (Form.closure step' fuel pending') := by
  induction fuel generalizing pending pending' with
  | zero => exact like
  | succ fuel ih =>
    cases like with
    | nil => exact .nil
    | cons first more =>
      refine .cons first (ih (merge_like (filter_like ?_ (steps first)) more))
      intro a b pair
      rw [pair.length_eq, first.length_eq]

theorem any_empty_like {all all' : List (List Tree)} (like : Forall₂ (Forall₂ R) all all') :
    all.any List.isEmpty = all'.any List.isEmpty := by
  induction like with
  | nil => rfl
  | cons first _ ih =>
    cases first with
    | nil => rfl
    | cons => simpa using ih

private theorem getLast_like {all all' : List (List Tree)} (like : Forall₂ (Forall₂ R) all all') :
    Option.Rel (Forall₂ R) all.getLast? all'.getLast? := by
  induction like with
  | nil => exact .none
  | cons first more ih =>
    cases more with
    | nil => exact .some first
    | cons => simpa [List.getLast?_cons_cons] using ih

end

section
variable {R : Tree → Tree → Prop} {atoms : Form → Bool} {calls : Rule → Bool}

theorem endsBy_like {callees callees' : Rule → List Tree → List (List Tree)}
    (alike : ∀ first second, R first second → Alike atoms first second)
    (called : ∀ rule trees trees', calls rule = true → Forall₂ R trees trees' →
      Forall₂ (Forall₂ R) (callees rule trees) (callees' rule trees'))
    {form : Form} (built : builtFrom atoms calls form = true) {trees trees' : List Tree}
    (like : Forall₂ R trees trees') :
    Forall₂ (Forall₂ R) (endsBy callees form trees) (endsBy callees' form trees') := by
  induction form generalizing trees trees' with
  | empty => exact .cons like .nil
  | one shape =>
    cases like with
    | nil => exact .nil
    | cons first more =>
      rw [endsBy_one, endsBy_one, alike _ _ first _ built]
      split
      · exact .cons more .nil
      · exact .nil
  | inside bracket rule =>
    cases like with
    | nil => exact .nil
    | cons first more =>
      rw [endsBy_inside, endsBy_inside, alike _ _ first _ built]
      split
      · exact .cons more .nil
      · exact .nil
  | call rule => exact called rule _ _ built like
  | seq first second one two =>
    simp only [builtFrom, Bool.and_eq_true] at built
    have starts := one built.1 like
    simp only [endsBy]
    generalize endsBy callees first trees = these, endsBy callees' first trees' = those at starts
    induction starts with
    | nil => exact .nil
    | cons start _ ih => exact merge_like (two built.2 start) ih
  | alt left right one two =>
    simp only [builtFrom, Bool.and_eq_true] at built
    exact merge_like (one built.1 like) (two built.2 like)
  | star body ih =>
    simp only [endsBy, like.length_eq]
    exact closure_like (fun pair => ih built pair) _ (.cons like .nil)
  | absent form ih =>
    have inner := ih built like
    simp only [endsBy]
    cases here : endsBy callees form trees with
    | nil =>
      rw [here] at inner
      rw [List.forall₂_nil_left_iff.mp inner]
      exact .cons like .nil
    | cons =>
      rw [here] at inner
      cases there : endsBy callees' form trees' with
      | nil =>
        rw [there] at inner
        cases inner
      | cons => exact .nil

variable (blind : Blind R atoms calls)
include blind

theorem ends_like (fuel : Nat) {rule : Rule} (called : calls rule = true) {trees trees' : List Tree}
    (like : Forall₂ R trees trees') :
    Forall₂ (Forall₂ R) (ends Grammar.form fuel rule trees)
      (ends Grammar.form fuel rule trees') := by
  induction fuel generalizing rule trees trees' with
  | zero => exact .nil
  | succ fuel ih =>
    exact endsBy_like blind.alike (fun _ _ _ called like => ih called like)
      (blind.rules rule called) like

private theorem remainders_like {form : Form} (built : builtFrom atoms calls form = true)
    {trees trees' : List Tree} (like : Forall₂ R trees trees') :
    Forall₂ (Forall₂ R) (remainders Grammar.form form trees)
      (remainders Grammar.form form trees') := by
  simp only [remainders, like.length_eq]
  exact endsBy_like blind.alike (fun _ _ _ called like => ends_like blind _ called like) built like

theorem covers_like {form : Form} (built : builtFrom atoms calls form = true)
    {trees trees' : List Tree} (like : Forall₂ R trees trees') :
    form.covers Grammar.form trees = form.covers Grammar.form trees' :=
  any_empty_like (remainders_like blind built like)

theorem longest_like {form : Form} (built : builtFrom atoms calls form = true)
    {trees trees' : List Tree} (like : Forall₂ R trees trees') :
    Option.Rel (Forall₂ R) (form.longest? Grammar.form trees) (form.longest? Grammar.form trees') :=
  getLast_like (remainders_like blind built like)

theorem after_like {form : Form} (built : builtFrom atoms calls form = true)
    {trees trees' : List Tree} (like : Forall₂ R trees trees') :
    Forall₂ R (after form trees) (after form trees') := by
  have longest := longest_like blind built like
  simp only [after]
  cases here : form.longest? Grammar.form trees with
  | none =>
    rw [here] at longest
    cases there : form.longest? Grammar.form trees' with
    | none => exact like
    | some =>
      rw [there] at longest
      cases longest
  | some =>
    rw [here] at longest
    cases there : form.longest? Grammar.form trees' with
    | none =>
      rw [there] at longest
      cases longest
    | some =>
      rw [there] at longest
      cases longest with
      | some pair => exact pair

end

end ClassDiagram.Proofs.Likeness
