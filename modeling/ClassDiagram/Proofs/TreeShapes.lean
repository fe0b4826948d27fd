import ClassDiagram.Proofs.BareTrees
import ClassDiagram.Proofs.SourceCuts
import ClassDiagram.Proofs.SupertypeNames

/-! Shapes of trees: the kinds and texts of their tokens, and no more. Layout has a hand in two
things besides the places of tokens. What touches the next token may be read as one with it, and by
that a rule may derive the inside of a region in one source and not in the other. So two sources of
the same tokens have trees of the same shape, and are to be read each in its own way. -/

namespace ClassDiagram.Proofs.TreeShapes
open Java Java.Outline TokenTrees BareTrees OutlineLikeness BodyPieces SourceCuts LexemeLocality
open List (Forall₂)

def shapeToken (t : Token) : Token where
  kind := t.kind
  text := t.text
  start := 0
  stop := 0

mutual
def shape : Tree → Tree
  | .leaf t => .leaf (shapeToken t)
  | .group bracket _ opening closing inside =>
    .group bracket [] (shapeToken opening) (shapeToken closing) (shapeAll inside)

def shapeAll : List Tree → List Tree
  | [] => []
  | t :: ts => shape t :: shapeAll ts
end

@[simp] theorem shapeAll_eq (trees : List Tree) : shapeAll trees = trees.map shape := by
  induction trees with
  | nil => rfl
  | cons t trees ih => simp [shapeAll, ih]

/-- Two trees of tokens that differ in nothing but layout. -/
def SameShape (first second : Tree) : Prop :=
  shape first = shape second

private theorem sameShape_iff {trees trees' : List Tree} :
    Forall₂ SameShape trees trees' ↔ trees.map shape = trees'.map shape := by
  rw [← List.forall₂_eq_eq_eq, List.forall₂_map_left_iff, List.forall₂_map_right_iff]
  rfl

theorem SameShape.symm {first second : Tree} (same : SameShape first second) :
    SameShape second first :=
  Eq.symm same

theorem shapes_symm {trees trees' : List Tree} (same : Forall₂ SameShape trees trees') :
    Forall₂ SameShape trees' trees :=
  sameShape_iff.mpr (sameShape_iff.mp same).symm

/-- Two leaves of one kind and one text, or two regions of one kind. -/
theorem SameShape.cases {first second : Tree} (same : SameShape first second) :
    (∃ t u, first = .leaf t ∧ second = .leaf u ∧ t.kind = u.kind ∧ t.text = u.text) ∨
      ∃ bracket rules opening closing inside rules' opening' closing' inside', first =
      .group bracket rules opening closing inside ∧
        second = .group bracket rules' opening' closing' inside' ∧ opening.text = opening'.text ∧
        Forall₂ SameShape inside inside' := by
  cases first with
  | leaf t =>
    cases second with
    | leaf u => exact Or.inl ⟨t, u, rfl, rfl, by simpa [SameShape, shape, shapeToken] using same⟩
    | group => simp [SameShape, shape] at same
  | group =>
    cases second with
    | leaf => simp [SameShape, shape] at same
    | group =>
      simp only [SameShape, shape, shapeAll_eq, Tree.group.injEq] at same
      obtain ⟨rfl, _, opened, _, inner⟩ := same
      have text := congrArg Token.text opened
      exact Or.inr ⟨_, _, _, _, _, _, _, _, _, rfl, rfl, text, sameShape_iff.mpr inner⟩

theorem SameShape.twin {first second : Tree} (same : SameShape first second) :
    Twin first second := by
  rcases same.cases with ⟨t, u, rfl, rfl, kind, text⟩ |
    ⟨bracket, _, _, _, _, _, _, _, _, rfl, rfl, opened, _⟩
  · exact ⟨by simp [Tree.word?, kind, text],
      by simp [Tree.isSymbol, Token.isSymbol, kind, text], text, rfl⟩
  · exact ⟨rfl, fun _ => rfl, opened, by cases bracket <;> rfl⟩

theorem isSymbol_other {t : Tree} {text other : String} (symbol : t.isSymbol text = true)
    (different : text ≠ other) : t.isSymbol other = false := by
  cases t with
  | leaf t =>
    simp only [Tree.isSymbol, Token.isSymbol, Bool.and_eq_true, beq_iff_eq] at symbol
    simp [Tree.isSymbol, Token.isSymbol, symbol, different]
  | group => rfl

theorem pieces_shape {trees trees' : List Tree} (same : Forall₂ SameShape trees trees') :
    Forall₂ (Forall₂ SameShape) (Tree.pieces false trees) (Tree.pieces false trees') :=
  pieces_like (fun _ _ same => same.twin) same false

def shapeFrame (frame : Tree.Frame) : Tree.Frame where
  bracket := frame.bracket
  opening := shapeToken frame.opening
  before := frame.before.map shape

/-- The shapes of the trees that tokens are built to do not depend on what any rule derives. -/
theorem build_shape {derives : Rule → List Tree → Bool} (frames : List Tree.Frame)
    (current : List Tree) (tokens : List Token) :
    (Tree.build derives frames current tokens).map (List.map shape) =
      Tree.build (fun _ _ => false) (frames.map shapeFrame) (current.map shape)
      (tokens.map shapeToken) := by
  induction tokens generalizing frames current with
  | nil =>
    cases frames with
    | nil => simp [Tree.build]
    | cons => simp [Tree.build]
  | cons t tokens ih =>
    have kind : (shapeToken t).kind = t.kind := rfl
    rw [List.map_cons, Tree.build.eq_3, Tree.build.eq_3, kind]
    cases t.kind with
    | opening bracket => exact ih (⟨bracket, t, current⟩ :: frames) []
    | closing bracket =>
      cases frames with
      | nil => rfl
      | cons frame frames =>
        have bracketed : (shapeFrame frame).bracket = frame.bracket := rfl
        simp only [List.map_cons, bracketed]
        split
        · rw [ih]
          simp [shape, shapeFrame]
        · rfl
    | _ => exact ih frames (.leaf t :: current)

/-- Tokens of the same kinds and texts are built to trees of the same shape. -/
theorem built_alike {tokens tokens' : List Token}
    (same : tokens.map shapeToken = tokens'.map shapeToken) {trees trees' : List Tree}
    (built : Tree.build derives [] [] tokens = some trees)
    (built' : Tree.build derives [] [] tokens' = some trees') :
    Forall₂ SameShape trees trees' := by
  have one := @build_shape derives [] [] tokens
  have two := @build_shape derives [] [] tokens'
  rw [built, same] at one
  rw [built'] at two
  exact sameShape_iff.mpr (Option.some.inj (one.trans two.symm))

/-- A word that is read as one with what follows is the start of the one modifier with a hyphen in
it, and the hyphen comes next. -/
structure BeforeHyphen (t : Token) (hyphen : Prop) : Prop where
  parted : t.text ≠ "non-sealed"
  start : t.glued = true → t.text = "non"
  next : t.glued = true → hyphen

def Hyphenated : List Token → Prop
  | [] => True
  | t :: rest =>
    (t.kind = .word → BeforeHyphen t (∃ u ∈ rest.head?, u.isSymbol "-" = true)) ∧ Hyphenated rest

theorem Hyphenated.behind {first second : List Token} (all : Hyphenated (first ++ second)) :
    Hyphenated second := by
  induction first with
  | nil => exact all
  | cons t first ih => exact ih all.2

mutual
/-- The same of trees, in each list of them. -/
def Lexed : Tree → Prop
  | .leaf _ => True
  | .group _ _ _ _ inside => AllLexed inside

def AllLexed : List Tree → Prop
  | [] => True
  | t :: rest =>
    Lexed t ∧
      (∀ token, t = .leaf token → token.kind = .word →
        BeforeHyphen token (∃ u ∈ rest.head?, u.isSymbol "-" = true)) ∧ AllLexed rest
end

theorem AllLexed.behind {first second : List Tree} (all : AllLexed (first ++ second)) :
    AllLexed second := by
  induction first with
  | nil => exact all
  | cons t first ih => exact ih all.2.2

/-- Before another list that does not start with a hyphen the same holds of a list alone. -/
theorem AllLexed.cons {t : Tree} {front rest : List Tree} (all : AllLexed (t :: rest))
    (lexed : AllLexed front)
    (next : ∀ u ∈ rest.head?, u.isSymbol "-" = true → front.head? = some u) :
    AllLexed (t :: front) := by
  refine ⟨all.1, ?_, lexed⟩
  rintro token rfl word
  obtain ⟨parted, start, hyphen⟩ := all.2.1 token rfl word
  refine ⟨parted, start, fun glued => ?_⟩
  obtain ⟨u, head, isHyphen⟩ := hyphen glued
  exact ⟨u, next u head isHyphen, isHyphen⟩

theorem AllLexed.front {first second : List Tree} (all : AllLexed (first ++ second))
    (stopped : ∀ u ∈ second.head?, u.isSymbol "-" = false) : AllLexed first := by
  induction first with
  | nil => trivial
  | cons t first ih =>
    refine AllLexed.cons all (ih all.2.2) fun u head hyphen => ?_
    cases first with
    | nil => simp [stopped u head] at hyphen
    | cons => exact head

theorem AllLexed.separated {first rest : List Tree} {separator : Token}
    (all : AllLexed (first ++ .leaf separator :: rest))
    (semicolon : separator.isSymbol ";" = true) : AllLexed first :=
  all.front (by simp [isSymbol_other (t := .leaf separator) semicolon (show ";" ≠ "-" by decide)])

theorem AllLexed.inside {bracket : Bracket} {rules : List Rule} {opening closing : Token}
    {inner trees : List Tree} (all : AllLexed trees)
    (member : .group bracket rules opening closing inner ∈ trees) : AllLexed inner := by
  obtain ⟨front, rest, rfl⟩ := List.append_of_mem member
  exact all.behind.1

theorem pieces_lexed {assigned : Bool} {trees : List Tree} (all : AllLexed trees) :
    ∀ piece ∈ Tree.pieces assigned trees, AllLexed piece := by
  induction trees generalizing assigned with
  | nil => simp [Tree.pieces]
  | cons t rest ih =>
    have behind : AllLexed rest := all.2.2
    rw [Tree.pieces]
    split
    next cut =>
      intro piece member
      rcases List.mem_cons.mp member with rfl | member
      · refine ⟨all.1, ?_, trivial⟩
        rintro token rfl word
        simp [Tree.isSymbol, Token.isSymbol, Tree.isBraces, word] at cut
      · exact ih behind piece member
    next =>
      split
      next first more here =>
        have lexed := @ih (assigned || t.isSymbol "=") behind
        rw [here] at lexed
        intro piece member
        rcases List.mem_cons.mp member with rfl | member
        · refine all.cons (lexed first List.mem_cons_self) fun u head _ => ?_
          obtain ⟨_, whole, _⟩ := pieces_cons here
          rcases first with _ | ⟨v, first⟩
          · exact absurd here GrownSources.pieces_nonempty
          · simpa [whole] using head
        · exact lexed piece (List.mem_cons_of_mem _ member)
      next none =>
        obtain rfl := pieces_eq_nil none
        simpa using all

mutual
theorem lexed_tree (tree : Tree) (well : WellBuilt tree) {rest : List Token}
    (hyphens : Hyphenated (tokensOf tree ++ rest)) : Lexed tree := by
  cases tree with
  | leaf t => trivial
  | group bracket rules opening closing inside =>
    obtain ⟨_, closes, _, inner⟩ := well
    simp only [tokensOf, List.cons_append, List.append_assoc, List.nil_append] at hyphens
    refine lexed_trees inside inner hyphens.2 fun u head => ?_
    obtain rfl : closing = u := by simpa using head
    simp [closes]

private theorem lexed_trees (trees : List Tree) (well : AllWellBuilt trees) {rest : List Token}
    (hyphens : Hyphenated (allTokens trees ++ rest)) (ended : ∀ u ∈ rest.head?, u.kind ≠ .symbol) :
    AllLexed trees := by
  cases trees with
  | nil => trivial
  | cons t ts =>
    rw [allTokens, List.append_assoc] at hyphens
    refine ⟨lexed_tree t well.1 hyphens, ?_, lexed_trees ts well.2 hyphens.behind ended⟩
    rintro token rfl word
    obtain ⟨parted, start, next⟩ := hyphens.1 word
    refine ⟨parted, start, fun glued => ?_⟩
    obtain ⟨u, head, hyphen⟩ := next glued
    have symbol : u.kind = .symbol :=
      (by simpa [Token.isSymbol] using hyphen : u.kind = .symbol ∧ u.text = "-").1
    cases ts with
    | nil => exact absurd symbol (ended u (by simpa [allTokens] using head))
    | cons second ts =>
      cases second with
      | leaf v =>
        obtain rfl : v = u := by simpa [allTokens, tokensOf] using head
        exact ⟨_, rfl, hyphen⟩
      | group bracket rules opening closing inside =>
        obtain rfl : opening = u := by simpa [allTokens, tokensOf] using head
        obtain ⟨⟨opens, _⟩, _⟩ := well.2
        simp [opens] at symbol
end

private theorem hyphen_lexeme {levels : List Level} {c : Char} {rest : List Char} {length : Nat}
    (word : lexeme? levels (c :: rest) = some (length, .token .word)) (more : List Char) :
    lexeme? levels ('-' :: 's' :: more) = some (1, .token .symbol) := by
  have noNumber : Number.pattern.longest? ('-' :: 's' :: more) = none := by
    have start : (Number.pattern.derive '-').isNever = true := by decide +kernel
    have proper : Number.pattern.isNullable = false := by decide +kernel
    simp [Text.Pattern.longest?, start, proper]
  have code : ∀ inHole, codeLexeme? inHole ('-' :: 's' :: more) = some (1, .token .symbol) := by
    have noStart : isNameStart '-' = false := by decide +kernel
    have noLayout : isLayout '-' = false := by decide
    have symbol : symbolLength? ('-' :: 's' :: more) = some 1 := rfl
    intro inHole
    have plain : codeLexeme? inHole ('-' :: 's' :: more) = simpleLexeme? ('-' :: 's' :: more) := rfl
    simp [plain, simpleLexeme?, noNumber, symbol, noStart, noLayout]
  simp only [lexeme?] at word ⊢
  split at word
  · exact absurd word stringLexeme_no_word
  · exact absurd word stringLexeme_no_word
  · exact code true
  next noString noBlock noHole =>
    exact code false

private theorem glued_split {c : Char} {rest : List Char} {length : Nat} (noAngle : c ≠ '>')
    (glued : isGlued (c :: rest) length = true) :
    (c :: rest).take length = "non".toList ∧ length = 3 ∧
    ∃ behind, rest = "on".toList ++ '-' :: 's' :: behind := by
  have parts : (c :: rest).take length = "non".toList ∧
      "-sealed".toList <+: (c :: rest).drop length := by
    simp only [isGlued, List.head?_cons, splitModifier, Bool.and_eq_true, beq_iff_eq,
      Option.some.injEq, noAngle, if_false, List.isPrefixOf_iff_prefix] at glued
    exact glued.1
  obtain ⟨taken, behind, dropped⟩ := parts
  have whole := List.take_append_drop length (c :: rest)
  rw [taken, ← dropped] at whole
  refine ⟨taken, ?_, "ealed".toList ++ behind, (List.cons.inj whole).2.symm⟩
  have size := congrArg List.length taken
  have long := congrArg List.length whole
  simp only [List.length_take, List.length_append] at size long
  have three : "non".toList.length = 3 := rfl
  have seven : "-sealed".toList.length = 7 := rfl
  omega

private theorem tokensFrom_hyphenated {levels : List Level} {commented : Bool} {skip offset : Nat}
    {text : List Char} {tokens : List Token}
    (lexed : tokensFrom levels commented skip offset text = some tokens) : Hyphenated tokens := by
  fun_induction tokensFrom levels commented skip offset text generalizing tokens with
  | case1 =>
    obtain rfl := Option.some.inj lexed
    trivial
  | case2 _ _ _ _ _ _ ih => exact ih lexed
  | case3 => simp at lexed
  | case4 levels commented offset c rest length next kind text token found =>
    rename_i ih
    obtain ⟨more, tail, rfl⟩ := Option.map_eq_some_iff.mp lexed
    have noAngle : kind = .word → c ≠ '>' := by
      rintro rfl rfl
      exact absurd (lexeme_word found).1 (by decide +kernel)
    refine ⟨fun word => ⟨?_, fun glued => ?_, fun glued => ?_⟩, ih tail⟩
    · -- no name has a hyphen in it
      intro spelled
      obtain rfl : kind = .word := word
      have run : String.ofList ((c :: rest).take length) = "non-sealed" := spelled
      have cut := congrArg String.toList run
      rw [String.toList_ofList, (lexeme_word found).2,
        ← List.prefix_iff_eq_take.mp (List.takeWhile_prefix isNamePart)] at cut
      have named : isNamePart '-' = true :=
        List.mem_takeWhile_imp (p := isNamePart) (l := c :: rest) (by rw [cut]; decide)
      exact absurd named (by decide +kernel)
    · exact congrArg String.ofList (glued_split (noAngle word) glued).1
    · obtain rfl : kind = .word := word
      obtain ⟨_, rfl, behind, split⟩ := glued_split (noAngle rfl) glued
      have same : Level.after levels token = levels := rfl
      rw [same, split, show 3 - 1 = "on".toList.length from rfl, tokensFrom_skip,
        tokensFrom_token (hyphen_lexeme found _)] at tail
      obtain ⟨others, _, rfl⟩ := Option.map_eq_some_iff.mp tail
      exact ⟨_, rfl, rfl⟩
  | case5 =>
    rename_i ih
    exact ih lexed

private theorem tokens_hyphenated {source : List Char} {tokens : List Token}
    (lexed : tokens? source = some tokens) : Hyphenated tokens := by
  simp only [tokens?] at lexed
  split at lexed
  · exact tokensFrom_hyphenated lexed
  · exact tokensFrom_hyphenated lexed

theorem trees_lexed {source : List Char} {tokens : List Token} {trees : List Tree}
    (lexed : tokens? source = some tokens) (built : Tree.build derives [] [] tokens = some trees) :
    AllLexed trees := by
  have spelled : allTokens trees = tokens := by
    simpa [framesTokens, allTokens] using build_allTokens built
  refine lexed_trees trees (build_wellBuilt built (by simp) trivial) ?_
    (show ∀ u ∈ ([] : List Token).head?, u.kind ≠ .symbol by simp)
  rw [List.append_nil, spelled]
  exact tokens_hyphenated lexed

end ClassDiagram.Proofs.TreeShapes
