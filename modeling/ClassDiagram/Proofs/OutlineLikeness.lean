import ClassDiagram.Proofs.Likeness

/-! What an outline looks at. Besides the readings of forms it sees words, symbols and the first
token of each tree; trees that agree in all of these have the same names, modifiers, supertypes and
parameters. -/

namespace ClassDiagram.Proofs.OutlineLikeness
open Java Java.Outline Likeness
open List (Forall₂)

/-- Both trees show the same word, the same symbol and the same first token, or both are braces. -/
structure Twin (first second : Tree) : Prop where
  word : first.word? = second.word?
  symbol : ∀ text, first.isSymbol text = second.isSymbol text
  firstText : first.firstText = second.firstText
  braces : first.isBraces = second.isBraces

private theorem isWord_eq (text : String) (tree : Tree) :
    tree.isWord text = (tree.word? == some text) := by
  cases tree with
  | leaf t => by_cases word : t.kind = .word <;> simp [Tree.isWord, Tree.word?, Token.isWord, word]
  | group => simp [Tree.isWord, Tree.word?]

theorem Twin.isWord {first second : Tree} (twin : Twin first second) (text : String) :
    first.isWord text = second.isWord text := by
  rw [isWord_eq, isWord_eq, twin.word]

theorem Twin.startsTag {first second : Tree} (twin : Twin first second) :
    first.startsTag = second.startsTag := by
  simp only [Tree.startsTag, twin.symbol]

section
variable {trees trees' : List Tree}

private theorem head_symbol (twins : Forall₂ Twin trees trees') (text : String) :
    trees.head?.any (·.isSymbol text) = trees'.head?.any (·.isSymbol text) := by
  cases twins with
  | nil => rfl
  | cons first => simp [first.symbol]

private theorem last_symbol (twins : Forall₂ Twin trees trees') (text : String) :
    trees.getLast?.any (·.isSymbol text) = trees'.getLast?.any (·.isSymbol text) := by
  rw [List.getLast?_eq_head?_reverse, List.getLast?_eq_head?_reverse]
  exact head_symbol (List.rel_reverse twins) text

private theorem head_isWord (twins : Forall₂ Twin trees trees') (text : String) :
    trees.head?.any (·.isWord text) = trees'.head?.any (·.isWord text) := by
  cases twins with
  | nil => rfl
  | cons first => simp [first.isWord]

theorem last_word (twins : Forall₂ Twin trees trees') (text : String) :
    trees.getLast?.any (·.isWord text) = trees'.getLast?.any (·.isWord text) := by
  rw [List.getLast?_eq_head?_reverse, List.getLast?_eq_head?_reverse]
  exact head_isWord (List.rel_reverse twins) text

theorem head_word (twins : Forall₂ Twin trees trees') :
    trees.head?.bind Tree.word? = trees'.head?.bind Tree.word? := by
  cases twins with
  | nil => rfl
  | cons first => simp [first.word]

private theorem any_word (twins : Forall₂ Twin trees trees') (text : String) :
    trees.any (·.isWord text) = trees'.any (·.isWord text) := by
  induction twins with
  | nil => rfl
  | cons first _ ih => simp only [List.any_cons, first.isWord, ih]

private theorem nameChain_twins (twins : Forall₂ Twin trees trees') :
    nameChain trees = nameChain trees' := by
  fun_induction nameChain trees generalizing trees' with
  | case1 =>
    cases twins
    rfl
  | case2 name =>
    obtain ⟨_, _, first, none, rfl⟩ := List.forall₂_cons_left_iff.mp twins
    cases none
    simp [nameChain, first.word]
  | case3 name dot rest text named ih =>
    obtain ⟨_, _, first, more, rfl⟩ := List.forall₂_cons_left_iff.mp twins
    obtain ⟨_, _, second, others, rfl⟩ := List.forall₂_cons_left_iff.mp more
    rw [first.word] at named
    simp only [nameChain, named, second.symbol, ih others]
  | case4 name dot rest unnamed =>
    obtain ⟨_, _, first, more, rfl⟩ := List.forall₂_cons_left_iff.mp twins
    obtain ⟨_, _, second, others, rfl⟩ := List.forall₂_cons_left_iff.mp more
    rw [first.word] at unnamed
    simp only [nameChain, unnamed]

private theorem typeChain_twins (twins : Forall₂ Twin trees trees') (depth : Nat)
    (chain : List String) : typeChain depth chain trees = typeChain depth chain trees' := by
  induction twins generalizing depth chain with
  | nil => rfl
  | cons first more ih => simp only [typeChain, first.symbol, first.word, head_symbol more, ih]

private theorem annotationChain_twins (twins : Forall₂ Twin trees trees') :
    annotationChain trees = annotationChain trees' := by
  cases twins with
  | nil => rfl
  | cons first more =>
    have tails : Forall₂ Twin _ _ := List.forall₂_drop 1 more
    simp only [List.drop_one] at tails
    simp only [annotationChain, first.symbol, head_symbol more, nameChain_twins more,
      nameChain_twins tails]

private theorem dropWhile_twins (twins : Forall₂ Twin trees trees') :
    Forall₂ Twin (trees.dropWhile (!·.startsTag)) (trees'.dropWhile (!·.startsTag)) := by
  induction twins with
  | nil => exact .nil
  | cons first more ih =>
    simp only [List.dropWhile_cons, first.startsTag]
    split
    · exact ih
    · exact .cons first more

end

theorem pieces_like {R : Tree → Tree → Prop}
    (twin : ∀ first second, R first second → Twin first second)
    {trees trees' : List Tree} (like : Forall₂ R trees trees') (assigned : Bool) :
    Forall₂ (Forall₂ R) (Tree.pieces assigned trees) (Tree.pieces assigned trees') := by
  induction like generalizing assigned with
  | nil => exact .nil
  | @cons t t' rest rest' first more ih =>
    simp only [Tree.pieces, (twin _ _ first).symbol, (twin _ _ first).braces]
    split
    · exact .cons (.cons first .nil) (ih false)
    · have tail := ih (assigned || t'.isSymbol "=")
      generalize Tree.pieces (assigned || t'.isSymbol "=") rest = here,
        Tree.pieces (assigned || t'.isSymbol "=") rest' = there at tail
      cases tail with
      | nil => exact .cons (.cons first .nil) .nil
      | cons head others => exact .cons (.cons first head) others

theorem cut_like {R : Tree → Tree → Prop}
    (twin : ∀ first second, R first second → Twin first second) {trees trees' : List Tree}
    (like : Forall₂ R trees trees') (text : String) :
    Forall₂ R (trees.takeWhile (!·.isSymbol text)) (trees'.takeWhile (!·.isSymbol text)) ∧
      Forall₂ R (trees.dropWhile (!·.isSymbol text)) (trees'.dropWhile (!·.isSymbol text)) := by
  induction like with
  | nil => exact ⟨.nil, .nil⟩
  | cons first more ih =>
    simp only [List.takeWhile_cons, List.dropWhile_cons, (twin _ _ first).symbol]
    split
    · exact ⟨.cons first ih.1, ih.2⟩
    · exact ⟨.nil, .cons first more⟩

def headerForms : List Form :=
  [.call .tag, Grammar.ownModifiers, Grammar.typeParameters, Grammar.type]

/-- A relation that modifiers and headers do not see through. -/
structure Veiled (R : Tree → Tree → Prop) (atoms : Form → Bool) (calls : Rule → Bool) :
    Prop extends Blind R atoms calls where
  twin : ∀ first second, R first second → Twin first second
  headers : ∀ form ∈ headerForms, builtFrom atoms calls form = true

private theorem before_like {R : Tree → Tree → Prop} {rest rest' trees trees' : List Tree}
    (ended : Forall₂ R rest rest') (like : Forall₂ R trees trees') :
    Forall₂ R (before rest trees) (before rest' trees') := by
  simp only [before, ended.length_eq, like.length_eq]
  exact List.forall₂_take _ like

theorem filterMap_like {R : Tree → Tree → Prop} {α : Type} {f : List Tree → Option α}
    (same : ∀ {a b}, Forall₂ R a b → f a = f b) {all all' : List (List Tree)}
    (like : Forall₂ (Forall₂ R) all all') :
    all.filterMap f = all'.filterMap f := by
  induction like with
  | nil => rfl
  | cons first _ ih => simp only [List.filterMap_cons, same first, ih]

section
variable {R : Tree → Tree → Prop} {atoms : Form → Bool} {calls : Rule → Bool}
  (veiled : Veiled R atoms calls)
include veiled

theorem Veiled.twins {trees trees' : List Tree} (like : Forall₂ R trees trees') :
    Forall₂ Twin trees trees' :=
  like.imp veiled.twin

private theorem withoutAnnotations_like (fuel : Nat) {trees trees' : List Tree}
    (like : Forall₂ R trees trees') :
    Forall₂ R (withoutAnnotations fuel trees) (withoutAnnotations fuel trees') := by
  induction fuel generalizing trees trees' with
  | zero => exact like
  | succ fuel ih =>
    cases like with
    | nil => exact .nil
    | cons first more =>
      simp only [withoutAnnotations, (veiled.twin _ _ first).startsTag]
      split
      · exact ih (after_like veiled.toBlind (veiled.headers _ (by simp [headerForms]))
          (.cons first more))
      · exact .cons first (ih more)

theorem hasModifier_like (word : String) {trees trees' : List Tree}
    (like : Forall₂ R trees trees') : hasModifier word trees = hasModifier word trees' := by
  simp only [hasModifier, like.length_eq]
  exact any_word (veiled.twins (withoutAnnotations_like veiled _ like)) word

private theorem supertypeName_like {trees trees' : List Tree} (like : Forall₂ R trees trees') :
    supertypeName? trees = supertypeName? trees' := by
  cases like with
  | nil => rfl
  | @cons t t' rest rest' first more =>
    have all : Forall₂ R (t :: rest) (t' :: rest') := .cons first more
    have twin := veiled.twin _ _ first
    have named :=
      typeChain_twins (veiled.twins (withoutAnnotations_like veiled (t' :: rest').length all)) 0 []
    have tagged := annotationChain_twins (veiled.twins all)
    have behind := annotationChain_twins (dropWhile_twins (veiled.twins more))
    simp only [supertypeName?, twin.startsTag, twin.firstText, tagged, behind, named, all.length_eq]

private theorem listed_like {form : Form} (built : builtFrom atoms calls form = true) (fuel : Nat)
    {trees trees' : List Tree} (like : Forall₂ R trees trees') :
    Forall₂ (Forall₂ R) (listed form fuel trees) (listed form fuel trees') := by
  induction fuel generalizing trees trees' with
  | zero => exact .nil
  | succ fuel ih =>
    have longest := longest_like veiled.toBlind built like
    simp only [listed]
    generalize form.longest? Grammar.form trees = here,
      form.longest? Grammar.form trees' = there at longest
    cases longest with
    | none => exact .nil
    | some ended =>
      refine .cons (before_like ended like) ?_
      cases ended with
      | nil => exact .nil
      | cons first more =>
        simp only [(veiled.twin _ _ first).symbol]
        split
        · exact ih more
        · exact .nil

theorem partsOf_like {form : Form} (built : builtFrom atoms calls form = true)
    {trees trees' : List Tree} (like : Forall₂ R trees trees') :
    Forall₂ (Forall₂ R) (partsOf form trees) (partsOf form trees') := by
  simp only [partsOf, like.length_eq]
  exact listed_like veiled built _ like

private theorem extended_like {trees trees' : List Tree} (like : Forall₂ R trees trees') :
    (extended trees).1 = (extended trees').1 ∧
    Forall₂ R (extended trees).2 (extended trees').2 := by
  cases like with
  | nil => exact ⟨rfl, .nil⟩
  | cons first more =>
    have rest :=
      after_like veiled.toBlind (veiled.headers Grammar.type (by simp [headerForms])) more
    simp only [extended, (veiled.twin _ _ first).isWord]
    split
    · exact ⟨supertypeName_like veiled (before_like rest more), rest⟩
    · exact ⟨rfl, .cons first more⟩

private theorem implemented_like {trees trees' : List Tree} (like : Forall₂ R trees trees') :
    implemented trees = implemented trees' := by
  cases like with
  | nil => rfl
  | cons first more =>
    have parts := partsOf_like veiled (veiled.headers Grammar.type (by simp [headerForms])) more
    have names := filterMap_like (fun like => supertypeName_like veiled like) parts
    simp only [implemented, (veiled.twin _ _ first).isWord, names]

theorem header_like (kind : Kind) (isAbstract : Bool) (name : String) {trees trees' : List Tree}
    (like : Forall₂ R trees trees') :
    header kind isAbstract name trees = header kind isAbstract name trees' := by
  cases kind with
  | plain =>
    have rest :=
      after_like veiled.toBlind (veiled.headers Grammar.typeParameters (by simp [headerForms])) like
    obtain ⟨superclass, behind⟩ := extended_like veiled rest
    simp only [header, supertypes, superclass, implemented_like veiled behind]
  | interface => rfl
  | enum => rfl

theorem ownModifiers_like {trees trees' : List Tree} (like : Forall₂ R trees trees') :
    Forall₂ R (after Grammar.ownModifiers trees) (after Grammar.ownModifiers trees') :=
  after_like veiled.toBlind (veiled.headers _ (by simp [headerForms])) like

theorem isModified_like (word : String) {trees trees' : List Tree} (like : Forall₂ R trees trees') :
    hasModifier word (before (after Grammar.ownModifiers trees) trees) =
      hasModifier word (before (after Grammar.ownModifiers trees') trees') :=
  hasModifier_like veiled word (before_like (ownModifiers_like veiled like) like)

/-- Two headings of one kind and one name, with related trees behind them. -/
def SameHeading (R : Tree → Tree → Prop) (first second : Kind × String × List Tree) : Prop :=
  first.1 = second.1 ∧ first.2.1 = second.2.1 ∧ Forall₂ R first.2.2 second.2.2

theorem heading_like {trees trees' : List Tree} (like : Forall₂ R trees trees') :
    Option.Rel (SameHeading R) (heading? trees) (heading? trees') := by
  have rest := ownModifiers_like veiled like
  simp only [heading?]
  generalize after Grammar.ownModifiers trees = here,
    after Grammar.ownModifiers trees' = there at rest
  cases rest with
  | nil => exact .none
  | @cons keyword keyword' _ _ first more =>
    have same : kind? keyword = kind? keyword' := by
      simp only [kind?, (veiled.twin _ _ first).isWord]
    cases more with
    | nil => exact .none
    | @cons name name' _ _ second behind =>
      simp only [same, (veiled.twin _ _ second).word]
      cases kind? keyword' with
      | none => exact .none
      | some kind =>
        cases name'.word? with
        | none => exact .none
        | some text => exact .some ⟨rfl, rfl, behind⟩

private theorem parameter_like
    (built : builtFrom atoms calls (Grammar.bareType Grammar.modifierWords) = true)
    {typed typed' : List Tree} (like : Forall₂ R typed typed') :
    parameter? typed = parameter? typed' := by
  have rest := after_like veiled.toBlind built like
  simp only [parameter?]
  generalize after (Grammar.bareType Grammar.modifierWords) typed = here,
    after (Grammar.bareType Grammar.modifierWords) typed' = there at rest
  cases like with
  | nil => rfl
  | cons type _ =>
    cases rest with
    | nil => rfl
    | cons name behind =>
      simp only [head_symbol (veiled.twins behind), (veiled.twin _ _ type).word,
        (veiled.twin _ _ name).word]

structure SameParameter (part part' : List Tree) : Prop where
  last : part.getLast?.any (·.isWord "this") = part'.getLast?.any (·.isWord "this")
  unmodified : ((after Grammar.modifiers part).length == part.length) =
    ((after Grammar.modifiers part').length == part'.length)
  parameter : parameter? (after Grammar.modifiers part) = parameter? (after Grammar.modifiers part')

theorem sameParameter_like (modifiers : builtFrom atoms calls Grammar.modifiers = true)
    (type : builtFrom atoms calls (Grammar.bareType Grammar.modifierWords) = true)
    {part part' : List Tree} (like : Forall₂ R part part') :
    SameParameter part part' := by
  have rest := after_like veiled.toBlind modifiers like
  exact ⟨last_word (veiled.twins like) "this", by rw [rest.length_eq, like.length_eq],
    parameter_like veiled type rest⟩

end

theorem parameters_parts {trees trees' : List Tree} (twins : Forall₂ Twin trees trees')
    (parts : Forall₂ SameParameter (partsOf (.alt Grammar.parameter Grammar.receiver) trees)
      (partsOf (.alt Grammar.parameter Grammar.receiver) trees')) :
    parameters trees = parameters trees' := by
  have all : ∀ {all all'}, Forall₂ SameParameter all all' →
      (all.map (after Grammar.modifiers)).filterMap parameter? =
      (all'.map (after Grammar.modifiers)).filterMap parameter? := by
    intro all all' pairs
    induction pairs with
    | nil => rfl
    | cons first _ ih => simp only [List.map_cons, List.filterMap_cons, first.parameter, ih]
  simp only [parameters]
  generalize partsOf (.alt Grammar.parameter Grammar.receiver) trees = here,
    partsOf (.alt Grammar.parameter Grammar.receiver) trees' = there at parts
  cases parts with
  | nil => rfl
  | @cons part part' _ _ first rest =>
    have receiver : startsWithReceiver part trees = startsWithReceiver part' trees' := by
      simp only [startsWithReceiver, first.last, first.unmodified, last_symbol twins]
    simp only [receiver]
    split
    · exact all rest
    · exact all (.cons first rest)

abbrev Unseen (R : Tree → Tree → Prop) : Prop :=
  Veiled R (fun _ => true) (fun _ => true)

theorem builtFrom_all (form : Form) : builtFrom (fun _ => true) (fun _ => true) form = true := by
  induction form with
  | seq first second one two => simp [builtFrom, one, two]
  | alt left right one two => simp [builtFrom, one, two]
  | star body ih => exact ih
  | absent form ih => exact ih
  | _ => rfl

theorem hidden_of {R : Tree → Tree → Prop}
    (alike : ∀ first second, R first second → Alike (fun _ => true) first second)
    (twin : ∀ first second, R first second → Twin first second) : Unseen R :=
  ⟨⟨alike, fun _ _ => builtFrom_all _⟩, twin, fun _ _ => builtFrom_all _⟩

section
variable {R : Tree → Tree → Prop} (hidden : Unseen R)
include hidden

theorem parameters_like {trees trees' : List Tree} (like : Forall₂ R trees trees') :
    parameters trees = parameters trees' :=
  parameters_parts (hidden.twins like)
    ((partsOf_like hidden (builtFrom_all (.alt Grammar.parameter Grammar.receiver)) like).imp
      fun _ _ pair =>
    sameParameter_like hidden (builtFrom_all _) (builtFrom_all _) pair)

private theorem declaredNames_like {trees trees' : List Tree} (like : Forall₂ R trees trees') :
    declaredNames trees = declaredNames trees' :=
  filterMap_like (fun part => head_word (hidden.twins part))
    (partsOf_like hidden (builtFrom_all _) like)

theorem fields_like (isPrivate : Bool) {type type' : Tree} {trees trees' : List Tree}
    (first : R type type') (like : Forall₂ R trees trees') :
    fields? isPrivate type trees = fields? isPrivate type' trees' := by
  simp only [fields?, (hidden.twin _ _ first).word, head_word (hidden.twins like),
    declaredNames_like hidden like]

end

end ClassDiagram.Proofs.OutlineLikeness
