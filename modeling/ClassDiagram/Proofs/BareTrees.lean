import ClassDiagram.Proofs.OutlineLikeness
import ClassDiagram.Proofs.TokenTrees

/-! Trees without places. Where a token stands in the source, and whether a comment stands before
it, has no part in how trees are built and read: tokens that differ in nothing else give trees that
declare the same. -/

namespace ClassDiagram.Proofs.BareTrees
open Java Java.Outline TokenTrees Likeness OutlineLikeness
open List (Forall₂)

def bareToken (t : Token) : Token :=
  { t with start := 0, stop := 0, commented := false }

mutual
def bare : Tree → Tree
  | .leaf t => .leaf (bareToken t)
  | .group bracket rules opening closing inside =>
    .group bracket rules (bareToken opening) (bareToken closing) (bareAll inside)

def bareAll : List Tree → List Tree
  | [] => []
  | t :: ts => bare t :: bareAll ts
end

@[simp] theorem bareAll_eq (trees : List Tree) : bareAll trees = trees.map bare := by
  induction trees with
  | nil => rfl
  | cons t trees ih => simp [bareAll, ih]

mutual
theorem tokensOf_bare (tree : Tree) : tokensOf (bare tree) = (tokensOf tree).map bareToken := by
  cases tree with
  | leaf t => rfl
  | group bracket rules opening closing inside =>
    simp [bare, tokensOf, allTokens_bare inside]

private theorem allTokens_bare (trees : List Tree) :
    allTokens (trees.map bare) = (allTokens trees).map bareToken := by
  cases trees with
  | nil => rfl
  | cons t ts => simp [allTokens, tokensOf_bare t, allTokens_bare ts]
end

def SameBare (first second : Tree) : Prop :=
  bare first = bare second

private theorem sameBare_iff {trees trees' : List Tree} :
    Forall₂ SameBare trees trees' ↔ trees.map bare = trees'.map bare := by
  rw [← List.forall₂_eq_eq_eq, List.forall₂_map_left_iff, List.forall₂_map_right_iff]
  rfl

private theorem bareToken_kind {first second : Token} (same : bareToken first = bareToken second) :
    first.kind = second.kind ∧ first.text = second.text ∧ first.glued = second.glued := by
  simpa [bareToken] using same

theorem SameBare.cases {first second : Tree} (same : SameBare first second) :
    (∃ t u, first = .leaf t ∧ second = .leaf u ∧ bareToken t = bareToken u) ∨
      ∃ bracket rules opening closing inside opening' closing' inside', first =
      .group bracket rules opening closing inside ∧
        second = .group bracket rules opening' closing' inside' ∧ opening.text = opening'.text ∧
        Forall₂ SameBare inside inside' := by
  cases first with
  | leaf t =>
    cases second with
    | leaf u => exact Or.inl ⟨t, u, rfl, rfl, by simpa [SameBare, bare] using same⟩
    | group => simp [SameBare, bare] at same
  | group =>
    cases second with
    | leaf => simp [SameBare, bare] at same
    | group =>
      simp only [SameBare, bare, bareAll_eq, Tree.group.injEq] at same
      obtain ⟨rfl, rfl, opened, _, inner⟩ := same
      exact Or.inr ⟨_, _, _, _, _, _, _, _, rfl, rfl, (bareToken_kind opened).2.1,
        sameBare_iff.mpr inner⟩

private theorem accepts_bare {t u : Token} (same : bareToken t = bareToken u) (shape : Shape) :
    shape.accepts t = shape.accepts u := by
  obtain ⟨kind, text, glued⟩ := bareToken_kind same
  cases shape <;> simp [Shape.accepts, Token.keyword, Token.isSymbol, kind, text, glued]

theorem SameBare.alike {first second : Tree} (same : SameBare first second) :
    Alike (fun _ => true) first second := by
  intro atom _
  rcases same.cases with ⟨t, u, rfl, rfl, tokens⟩ | ⟨_, _, _, _, _, _, _, _, rfl, rfl, _, _⟩
  · cases atom with
    | one shape => exact accepts_bare tokens shape
    | _ => rfl
  · cases atom <;> rfl

theorem SameBare.twin {first second : Tree} (same : SameBare first second) : Twin first second := by
  rcases same.cases with ⟨t, u, rfl, rfl, tokens⟩ |
    ⟨bracket, _, _, _, _, _, _, _, rfl, rfl, opened, _⟩
  · obtain ⟨kind, text, _⟩ := bareToken_kind tokens
    exact ⟨by simp [Tree.word?, kind, text],
      by simp [Tree.isSymbol, Token.isSymbol, kind, text], text, rfl⟩
  · exact ⟨rfl, fun _ => rfl, opened, by cases bracket <;> rfl⟩

theorem hidden : Unseen SameBare :=
  hidden_of (fun _ _ same => same.alike) (fun _ _ same => same.twin)

theorem pieces_bare {trees trees' : List Tree} (like : Forall₂ SameBare trees trees') :
    Forall₂ (Forall₂ SameBare) (Tree.pieces false trees) (Tree.pieces false trees') :=
  pieces_like (fun _ _ same => same.twin) like false

private theorem derives_bare {rule : Rule} {trees trees' : List Tree}
    (like : Forall₂ SameBare trees trees') : derives rule trees = derives rule trees' := by
  have one : ∀ {part part'}, Forall₂ SameBare part part' →
      Form.derives Grammar.form rule part = Form.derives Grammar.form rule part' := fun pair =>
    covers_like hidden.toBlind (builtFrom_all _) pair
  have all : ∀ {parts parts'}, Forall₂ (Forall₂ SameBare) parts parts' →
      parts.all (Form.derives Grammar.form rule) = parts'.all (Form.derives Grammar.form rule) := by
    intro parts parts' pairs
    induction pairs with
    | nil => rfl
    | cons first _ ih => simp only [List.all_cons, one first, ih]
  simp only [derives, one like, all (pieces_bare like)]

mutual
theorem bare_bare (tree : Tree) : bare (bare tree) = bare tree := by
  cases tree with
  | leaf t => rfl
  | group bracket rules opening closing inside =>
    have inner := bareAll_bare inside
    simp only [bare, bareAll_eq, inner]
    rfl

private theorem bareAll_bare (trees : List Tree) : (trees.map bare).map bare = trees.map bare := by
  cases trees with
  | nil => rfl
  | cons t ts => rw [List.map_cons, List.map_cons, bare_bare t, bareAll_bare ts]
end

mutual
/-- Brackets match, leaves are no brackets, and each region carries the rules that derive its
inside. -/
def WellBuilt : Tree → Prop
  | .leaf t => ∀ bracket, t.kind ≠ .opening bracket ∧ t.kind ≠ .closing bracket
  | .group bracket rules opening closing inside =>
    opening.kind = .opening bracket ∧ closing.kind = .closing bracket ∧
      rules = bracket.rules.filter (derives · inside) ∧ AllWellBuilt inside

def AllWellBuilt : List Tree → Prop
  | [] => True
  | t :: ts => WellBuilt t ∧ AllWellBuilt ts
end

theorem allWellBuilt_iff {trees : List Tree} : AllWellBuilt trees ↔ ∀ t ∈ trees, WellBuilt t := by
  induction trees with
  | nil => simp [AllWellBuilt]
  | cons t trees ih => simp [AllWellBuilt, ih]

mutual
theorem build_tree (tree : Tree) (well : WellBuilt tree) (frames : List Tree.Frame)
    (current : List Tree) (rest : List Token) :
    Tree.build derives frames current (tokensOf tree ++ rest) =
      Tree.build derives frames (tree :: current) rest := by
  cases tree with
  | leaf t =>
    simp only [tokensOf, List.cons_append, List.nil_append]
    rw [Tree.build.eq_3]
    cases kind : t.kind with
    | opening bracket => exact absurd kind (well bracket).1
    | closing bracket => exact absurd kind (well bracket).2
    | _ => rfl
  | group bracket rules opening closing inside =>
    obtain ⟨opens, closes, rfl, inner⟩ := well
    simp only [tokensOf, List.cons_append, List.append_assoc, List.nil_append]
    rw [Tree.build.eq_3, opens]
    simp only
    rw [build_trees inside inner, Tree.build.eq_3, closes]
    simp

private theorem build_trees (trees : List Tree) (well : AllWellBuilt trees)
    (frames : List Tree.Frame) (current : List Tree) (rest : List Token) :
    Tree.build derives frames current (allTokens trees ++ rest) =
      Tree.build derives frames (trees.reverse ++ current) rest := by
  cases trees with
  | nil => rfl
  | cons t ts =>
    rw [allTokens, List.append_assoc, build_tree t well.1, build_trees ts well.2]
    simp
end

/-- The trees that tokens of trees are built to. -/
theorem build_allTokens_eq {trees : List Tree} (well : AllWellBuilt trees) :
    Tree.build derives [] [] (allTokens trees) = some trees := by
  have built := build_trees trees well [] [] []
  simpa [Tree.build] using built

theorem build_wellBuilt {frames : List Tree.Frame} {current trees : List Tree} {tokens : List Token}
    (built : Tree.build derives frames current tokens = some trees)
    (opened : ∀ frame ∈ frames, frame.opening.kind = .opening frame.bracket ∧
      AllWellBuilt frame.before)
    (well : AllWellBuilt current) : AllWellBuilt trees := by
  induction tokens generalizing frames current with
  | nil =>
    cases frames with
    | nil =>
      simp only [Tree.build, Option.some.injEq] at built
      subst built
      exact allWellBuilt_iff.mpr fun t member =>
        allWellBuilt_iff.mp well t (List.mem_reverse.mp member)
    | cons => simp [Tree.build] at built
  | cons t tokens ih =>
    rw [Tree.build.eq_3] at built
    split at built
    next bracket opens =>
      refine ih built ?_ trivial
      intro frame member
      rcases List.mem_cons.mp member with rfl | member
      · exact ⟨opens, well⟩
      · exact opened frame member
    next bracket closes =>
      cases frames with
      | nil => simp at built
      | cons frame frames =>
        simp only at built
        split at built
        next same =>
          obtain ⟨opens, before⟩ := opened frame (by simp)
          refine ih built (fun other member => opened other (by simp [member]))
            ⟨⟨?_, closes, rfl, ?_⟩, before⟩
          · rw [← same]
            exact opens
          · exact allWellBuilt_iff.mpr fun t member =>
              allWellBuilt_iff.mp well t (List.mem_reverse.mp member)
        next => simp at built
    next noOpening noClosing =>
      exact ih built opened ⟨fun bracket => ⟨noOpening bracket, noClosing bracket⟩, well⟩

mutual
theorem wellBuilt_bare (tree : Tree) (well : WellBuilt tree) : WellBuilt (bare tree) := by
  cases tree with
  | leaf t => exact well
  | group bracket rules opening closing inside =>
    obtain ⟨opens, closes, rfl, inner⟩ := well
    have same : ∀ rule, derives rule inside = derives rule (inside.map bare) := fun rule =>
      derives_bare (sameBare_iff.mpr (bareAll_bare inside).symm)
    refine ⟨opens, closes, ?_, ?_⟩
    · rw [bareAll_eq]
      exact List.filter_congr fun rule _ => same rule
    · rw [bareAll_eq]
      exact allWellBuilt_bare inside inner

private theorem allWellBuilt_bare (trees : List Tree) (well : AllWellBuilt trees) :
    AllWellBuilt (trees.map bare) := by
  cases trees with
  | nil => trivial
  | cons t ts => exact ⟨wellBuilt_bare t well.1, allWellBuilt_bare ts well.2⟩
end

def bareFrame (frame : Tree.Frame) : Tree.Frame where
  bracket := frame.bracket
  opening := bareToken frame.opening
  before := frame.before.map bare

private theorem build_bare (frames : List Tree.Frame) (current : List Tree) (tokens : List Token) :
    (Tree.build derives frames current tokens).map (List.map bare) =
      Tree.build derives (frames.map bareFrame) (current.map bare) (tokens.map bareToken) := by
  induction tokens generalizing frames current with
  | nil =>
    cases frames with
    | nil => simp [Tree.build]
    | cons => simp [Tree.build]
  | cons t tokens ih =>
    have kind : (bareToken t).kind = t.kind := rfl
    rw [List.map_cons, Tree.build.eq_3, Tree.build.eq_3, kind]
    cases t.kind with
    | opening bracket => exact ih (⟨bracket, t, current⟩ :: frames) []
    | closing bracket =>
      cases frames with
      | nil => rfl
      | cons frame frames =>
        have bracketed : (bareFrame frame).bracket = frame.bracket := rfl
        simp only [List.map_cons, bracketed]
        split
        · have same : ∀ rule, derives rule current.reverse =
              derives rule (current.map bare).reverse := by
            intro rule
            rw [← List.map_reverse]
            exact derives_bare (sameBare_iff.mpr (bareAll_bare _).symm)
          rw [ih]
          simp only [List.map_cons, bare, bareAll_eq, List.map_reverse, same, bareFrame]
        · rfl
    | _ => exact ih frames (.leaf t :: current)

/-- Tokens that differ from those of trees in their places at most are built to such trees. -/
theorem build_places {trees : List Tree} {tokens : List Token} (well : AllWellBuilt trees)
    (same : tokens.map bareToken = (allTokens trees).map bareToken) :
    ∃ built, Tree.build derives [] [] tokens = some built ∧ Forall₂ SameBare built trees := by
  have bareBuilt := build_bare [] [] tokens
  rw [same, ← allTokens_bare, List.map_nil, List.map_nil,
    build_allTokens_eq (allWellBuilt_bare trees well)] at bareBuilt
  obtain ⟨built, isBuilt, equal⟩ := Option.map_eq_some_iff.mp bareBuilt
  exact ⟨built, isBuilt, sameBare_iff.mpr equal⟩

private theorem method_bare (isPrivate : Bool) {type type' : Tree} {trees trees' : List Tree}
    (first : SameBare type type') (like : Forall₂ SameBare trees trees') :
    method? isPrivate type trees = method? isPrivate type' trees' := by
  cases like with
  | nil => rfl
  | cons name more =>
    cases more with
    | nil => rfl
    | cons second more =>
      rcases second.cases with ⟨_, _, rfl, rfl, _⟩ |
        ⟨bracket, _, _, _, _, _, _, _, rfl, rfl, _, inner⟩
      · rfl
      · cases bracket with
        | paren =>
          simp only [method?, name.twin.word, first.twin.word, parameters_like hidden inner]
        | _ => rfl

private theorem typedMember_bare (isPrivate : Bool) {type type' : Tree} {trees trees' : List Tree}
    (first : SameBare type type') (like : Forall₂ SameBare trees trees') :
    typedMember isPrivate type trees = typedMember isPrivate type' trees' := by
  simp only [typedMember, method_bare isPrivate first like, fields_like hidden isPrivate first like]

private theorem member_bare {piece piece' : List Tree} (like : Forall₂ SameBare piece piece') :
    member piece = member piece' := by
  have rest := ownModifiers_like hidden like
  simp only [member, isModified_like hidden "private" like]
  generalize after Grammar.ownModifiers piece = here,
    after Grammar.ownModifiers piece' = there at rest
  cases rest with
  | nil => rfl
  | @cons t t' more more' first behind =>
    have all : Forall₂ SameBare (t :: more) (t' :: more') := .cons first behind
    have plain :=
      after_like hidden.toBlind (builtFrom_all (Grammar.bareType Grammar.notMemberTypes)) all
    have generic :=
      after_like hidden.toBlind
        (builtFrom_all (.seq Grammar.typeParameters Grammar.annotations)) all
    simp only [first.twin.firstText, first.twin.symbol, first.twin.braces,
      typedMember_bare _ first plain]
    generalize after (.seq Grammar.typeParameters Grammar.annotations) (t :: more) = one,
      after (.seq Grammar.typeParameters Grammar.annotations) (t' :: more') = two at generic
    cases generic with
    | nil => rfl
    | @cons u u' rest rest' type after' =>
      have typed := after_like hidden.toBlind (builtFrom_all (Grammar.bareType []))
        (show Forall₂ SameBare (u :: rest) (u' :: rest') from .cons type after')
      simp only [method_bare _ type typed]

theorem members_bare {all all' : List (List Tree)} (like : Forall₂ (Forall₂ SameBare) all all') :
    all.map member = all'.map member := by
  induction like with
  | nil => rfl
  | cons first _ ih => simp only [List.map_cons, member_bare first, ih]

theorem areProgram_bare {run run' : List Tree} {all all' : List (List Tree)}
    (start : Forall₂ SameBare run run') (like : Forall₂ (Forall₂ SameBare) all all') :
    areProgram run all = areProgram run' all' := by
  induction like generalizing run run' with
  | nil => exact derives_bare start
  | @cons piece piece' _ _ first _ ih =>
    have heading := heading_like hidden first
    simp only [areProgram, derives_bare start]
    generalize heading? piece = here, heading? piece' = there at heading
    cases heading with
    | none => exact ih (List.rel_append start first)
    | some same =>
      obtain ⟨kind, _, _⟩ := same
      have covered : ∀ form : Form, form.covers Grammar.form piece =
          form.covers Grammar.form piece' := fun form =>
        covers_like hidden.toBlind (builtFrom_all form) first
      simp only [kind, covered, ih .nil]

end ClassDiagram.Proofs.BareTrees
