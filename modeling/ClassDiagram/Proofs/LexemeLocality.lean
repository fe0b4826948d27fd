import ClassDiagram.Proofs.Blanks
import ClassDiagram.Proofs.TokenTrees
import Mathlib.Data.List.Find

/-! How far the lexer looks ahead. Where a token ends with a brace, a parenthesis, a semicolon or a
comma, or is a word, a source may go on with a blank or a comment instead of what follows there: no
lexeme up to that place changes. The one exception is a block comment that is never closed, which a
text block takes for plain text. -/

namespace ClassDiagram.Proofs.LexemeLocality
open Java Text

def closers : List Char :=
  ['{', '}', ')', ';', ',']

/-- A source may be cut behind such a character, and behind the last one of a word. -/
def IsEdge (edge : Char) (rest : List Char) : Prop :=
  edge ∈ closers ∨ isNamePart edge = true ∧ rest.head?.any isNamePart = false

def gaps : List Char :=
  ['/', ' ', '\t', '\n', '\x0b', '\x0c', '\r']

/-- Characters behind which no source is cut: those of the gaps, of quotes and escapes, and of the
ends of comments. -/
def uncut : List Char :=
  gaps ++ ['"', '\'', '\\', '*']

private theorem uncut_apart : ∀ c ∈ uncut, c ∉ closers ∧ isNamePart c = false := by decide +kernel

/-- The text goes on in a way that keeps it apart from the token before. -/
def Gapped (text : List Char) : Prop :=
  ∃ gap ∈ gaps, ∃ more, text = gap :: more

theorem layout_gap {c : Char} (layout : isLayout c = true) : c ∈ gaps := by
  have listed : ∀ n < 14, 9 ≤ n → Char.ofNat n ∈ gaps := by decide
  simp only [isLayout, Bool.or_eq_true, beq_iff_eq, Bool.and_eq_true, decide_eq_true_eq] at layout
  rcases layout with rfl | bounds
  · decide
  · simpa using listed c.toNat (by omega) (by omega)

section
variable {p : Char → Bool} {before : List Char} {edge : Char} {rest rest' : List Char}

private theorem takeWhile_local
    (short : ((before ++ edge :: rest).takeWhile p).length ≤ before.length) :
    (before ++ edge :: rest').takeWhile p = (before ++ edge :: rest).takeWhile p := by
  induction before with
  | nil =>
    cases accepted : p edge with
    | false => simp [accepted]
    | true => simp [accepted] at short
  | cons c before ih =>
    cases accepted : p c with
    | false => simp [accepted]
    | true =>
      simp only [List.cons_append, List.takeWhile_cons, accepted, if_true, List.length_cons,
        Nat.add_le_add_iff_right] at short ⊢
      rw [ih short]

private theorem takeWhile_short (before rest : List Char) (stops : p edge = false) :
    ((before ++ edge :: rest).takeWhile p).length ≤ before.length := by
  induction before with
  | nil => simp [stops]
  | cons c before ih =>
    cases accepted : p c with
    | false => simp [accepted]
    | true => simpa [accepted] using ih

private theorem isPrefixOf_local {text : List Char} (foreign : edge ∉ text) :
    text.isPrefixOf (before ++ edge :: rest) = text.isPrefixOf before := by
  induction text generalizing before with
  | nil => cases before <;> simp
  | cons c text ih =>
    cases before with
    | nil =>
      have differs : c ≠ edge := fun same => foreign (by simp [same])
      simp [List.isPrefixOf, differs]
    | cons d before =>
      simp only [List.cons_append, List.isPrefixOf, ih fun inside => foreign (by simp [inside])]

end

def foreign (c : Char) : Pattern → Bool
  | .never => true
  | .empty => true
  | .one accepts => !accepts c
  | .seq first second => foreign c first && foreign c second
  | .alt left right => foreign c left && foreign c right
  | .star body => foreign c body

private theorem foreign_thenMatch {c : Char} {first second : Pattern} (one : foreign c first = true)
    (two : foreign c second = true) : foreign c (first.thenMatch second) = true := by
  cases first <;> simp_all [Pattern.thenMatch, foreign]

private theorem foreign_orMatch {c : Char} {left right : Pattern} (one : foreign c left = true)
    (two : foreign c right = true) : foreign c (left.orMatch right) = true := by
  cases left <;> cases right <;> simp_all [Pattern.orMatch, foreign]

private theorem foreign_derive {c : Char} (d : Char) {p : Pattern} (outside : foreign c p = true) :
    foreign c (p.derive d) = true := by
  induction p with
  | never => rfl
  | empty => rfl
  | one accepts =>
    simp only [Pattern.derive]
    split <;> rfl
  | seq first second one two =>
    simp only [foreign, Bool.and_eq_true] at outside
    simp only [Pattern.derive]
    split
    · exact foreign_orMatch (foreign_thenMatch (one outside.1) outside.2) (two outside.2)
    · exact foreign_thenMatch (one outside.1) outside.2
  | alt left right one two =>
    simp only [foreign, Bool.and_eq_true] at outside
    exact foreign_orMatch (one outside.1) (two outside.2)
  | star body ih => exact foreign_thenMatch (ih outside) outside

private theorem derive_foreign {c : Char} {p : Pattern} (outside : foreign c p = true) :
    p.derive c = .never := by
  induction p with
  | never => rfl
  | empty => rfl
  | one accepts =>
    simp only [foreign, Bool.not_eq_true'] at outside
    simp [Pattern.derive, outside]
  | seq first second one two =>
    simp only [foreign, Bool.and_eq_true] at outside
    simp [Pattern.derive, one outside.1, two outside.2, Pattern.thenMatch, Pattern.orMatch]
  | alt left right one two =>
    simp only [foreign, Bool.and_eq_true] at outside
    simp [Pattern.derive, one outside.1, two outside.2, Pattern.orMatch]
  | star body ih => simp [Pattern.derive, ih outside, Pattern.thenMatch]

theorem longest_foreign {c : Char} {p : Pattern} (outside : foreign c p = true)
    (before rest : List Char) : p.longest? (before ++ c :: rest) = p.longest? before := by
  induction before generalizing p with
  | nil => simp [Pattern.longest?, derive_foreign outside, Pattern.isNever]
  | cons d before ih =>
    simp only [List.cons_append, Pattern.longest?, ih (foreign_derive d outside)]

/-- A pattern that matches nothing at the start of a text matches nothing at the start of its
beginning. -/
theorem longest_none {p : Pattern} {text rest : List Char}
    (nothing : p.longest? (text ++ rest) = none) : p.longest? text = none := by
  induction text generalizing p with
  | nil =>
    cases rest with
    | nil => exact nothing
    | cons c rest =>
      simp only [List.nil_append, Pattern.longest?] at nothing ⊢
      split at nothing
      · simp at nothing
      · exact nothing
  | cons c text ih =>
    simp only [List.cons_append, Pattern.longest?] at nothing ⊢
    cases dead : (p.derive c).isNever with
    | true => simpa [dead] using nothing
    | false =>
      simp only [dead, Bool.false_eq_true, if_false] at nothing ⊢
      cases tail : (p.derive c).longest? (text ++ rest) with
      | some => simp [tail] at nothing
      | none =>
        rw [tail] at nothing
        rw [ih tail]
        exact nothing

private theorem longest_short {p : Pattern} {text rest : List Char} {n : Nat}
    (found : p.longest? (text ++ rest) = some n) (short : n ≤ text.length) :
    p.longest? text = some n := by
  induction text generalizing p n with
  | nil =>
    obtain rfl : n = 0 := by simpa using short
    cases rest with
    | nil => exact found
    | cons c rest =>
      simp only [List.nil_append, Pattern.longest?] at found ⊢
      split at found
      · simp at found
      · exact found
  | cons c text ih =>
    simp only [List.cons_append, Pattern.longest?] at found ⊢
    cases dead : (p.derive c).isNever with
    | true => simpa [dead] using found
    | false =>
      simp only [dead, Bool.false_eq_true, if_false] at found ⊢
      cases tail : (p.derive c).longest? (text ++ rest) with
      | some m =>
        obtain rfl : m + 1 = n := by simpa [tail] using found
        rw [ih tail (by simpa using short)]
      | none =>
        rw [tail] at found
        rw [longest_none tail]
        exact found

private theorem longest_gapped {rest : List Char} (gapped : Gapped rest) (text : List Char) :
    Number.pattern.longest? (text ++ rest) = Number.pattern.longest? text := by
  obtain ⟨gap, listed, more, rfl⟩ := gapped
  have outside : ∀ gap ∈ gaps, foreign gap Number.pattern = true := by decide +kernel
  exact longest_foreign (outside gap listed) text more

section
variable {before : List Char} {edge : Char} {rest rest' : List Char} (isEdge : IsEdge edge rest)

private theorem commentLength_pos {text : List Char} {n : Nat}
    (closed : commentLength? text = some n) : 2 ≤ n := by
  fun_induction commentLength? text generalizing n with
  | case1 => simp_all
  | case2 c rest _ ih =>
    obtain ⟨m, inner, rfl⟩ := Option.map_eq_some_iff.mp closed
    have := ih inner
    omega
  | case3 => simp at closed

theorem commentLength_cons {c : Char} {text : List Char} (open' : c ≠ '*' ∨ text.head? ≠ some '/') :
    commentLength? (c :: text) = (commentLength? text).map (· + 1) := by
  rw [commentLength?]
  rintro rest rfl rfl
  simp at open'

private theorem characterLength_pos {text : List Char} {n : Nat}
    (closed : characterLength? text = some n) : 1 ≤ n := by
  fun_induction characterLength? text generalizing n with
  | case1 => simp_all
  | case2 =>
    obtain ⟨m, _, rfl⟩ := Option.map_eq_some_iff.mp closed
    omega
  | case5 =>
    obtain ⟨m, _, rfl⟩ := Option.map_eq_some_iff.mp closed
    omega
  | _ => simp at closed

private theorem characterLength_cons {c : Char} {text : List Char} (noQuote : c ≠ '\'')
    (noEscape : c ≠ '\\') (noFeed : c ≠ '\n') :
    characterLength? (c :: text) = (characterLength? text).map (· + 1) := by
  rw [characterLength?]
  · exact noQuote
  · exact fun _ _ same => absurd same noEscape
  · exact noFeed
  · exact fun same => absurd same noEscape

private theorem quoteLength_cons {c : Char} {text : List Char}
    (apart : c ≠ '\\' ∨ text.head? ≠ some '"') :
    quoteLength (c :: text) = if isFragmentChar c then quoteLength text + 1 else 0 := by
  rw [quoteLength]
  rintro rest rfl rfl
  simp at apart

include isEdge

private theorem edge_ne {c : Char} (other : c ∈ uncut) : edge ≠ c := by
  rintro rfl
  obtain ⟨outside, noWord⟩ := uncut_apart _ other
  rcases isEdge with closer | named
  · exact outside closer
  · simp [noWord] at named

private theorem commentLength_local {n : Nat}
    (closed : commentLength? (before ++ edge :: rest) = some n) (short : n ≤ before.length) :
    commentLength? (before ++ edge :: rest') = some n := by
  induction before generalizing n with
  | nil =>
    have := commentLength_pos closed
    simp only [List.length_nil] at short
    omega
  | cons c before ih =>
    by_cases ends : c = '*' ∧ before.head? = some '/'
    · obtain ⟨rfl, slash⟩ := ends
      obtain ⟨more, rfl⟩ := List.head?_eq_some_iff.mp slash
      exact closed
    · have open' : ∀ rest, c ≠ '*' ∨ (before ++ edge :: rest).head? ≠ some '/' := by
        intro rest
        cases before with
        | nil => exact Or.inr (by simpa using edge_ne isEdge (by decide))
        | cons d before => simpa [Classical.or_iff_not_imp_left] using ends
      rw [List.cons_append, commentLength_cons (open' _)] at closed ⊢
      obtain ⟨m, inner, rfl⟩ := Option.map_eq_some_iff.mp closed
      rw [ih inner (by simpa using short)]
      rfl

omit isEdge in
/-- What follows a character that no mark holds does not matter to the marks before it. -/
theorem commentLength_open (apart : edge ≠ '*' ∧ edge ≠ '/')
    (kept : commentLength? rest = none → commentLength? rest' = none)
    (open' : commentLength? (before ++ edge :: rest) = none) :
    commentLength? (before ++ edge :: rest') = none := by
  induction before with
  | nil =>
    rw [List.nil_append, commentLength_cons (Or.inl apart.1), Option.map_eq_none_iff] at open' ⊢
    exact kept open'
  | cons c before ih =>
    by_cases ends : c = '*' ∧ before.head? = some '/'
    · obtain ⟨rfl, slash⟩ := ends
      obtain ⟨more, rfl⟩ := List.head?_eq_some_iff.mp slash
      exact open'
    · have unmarked : ∀ rest, c ≠ '*' ∨ (before ++ edge :: rest).head? ≠ some '/' := by
        intro rest
        cases before with
        | nil => exact Or.inr (by simpa using apart.2)
        | cons d before => simpa [Classical.or_iff_not_imp_left] using ends
      rw [List.cons_append, commentLength_cons (unmarked _), Option.map_eq_none_iff] at open' ⊢
      exact ih open'

omit isEdge in
private theorem characterLength_local {n : Nat}
    (closed : characterLength? (before ++ edge :: rest) = some n)
    (short : n ≤ before.length) : characterLength? (before ++ edge :: rest') = some n := by
  fun_induction characterLength? before generalizing n with
  | case1 => simpa [characterLength?] using closed
  | case2 c before ih =>
    simp only [List.cons_append, characterLength?] at closed ⊢
    obtain ⟨m, inner, rfl⟩ := Option.map_eq_some_iff.mp closed
    rw [ih inner (by simpa using short)]
    rfl
  | case3 => simp [characterLength?] at closed
  | case4 =>
    simp only [List.cons_append, List.nil_append, characterLength?] at closed
    obtain ⟨m, _, rfl⟩ := Option.map_eq_some_iff.mp closed
    simp at short
  | case5 c before noQuote noEscape noFeed noEnd ih =>
    have plain : c ≠ '\\' := by
      rintro rfl
      cases before with
      | nil => exact noEnd rfl rfl
      | cons d before => exact noEscape d before rfl rfl
    rw [List.cons_append, characterLength_cons noQuote plain noFeed] at closed ⊢
    obtain ⟨m, inner, rfl⟩ := Option.map_eq_some_iff.mp closed
    rw [ih inner (by simpa using short)]
    rfl
  | case6 =>
    have := characterLength_pos closed
    simp only [List.length_nil] at short
    omega

private theorem edge_fragment : isFragmentChar edge = true := by
  have noQuote : edge ≠ '"' := edge_ne isEdge (by decide)
  have noEscape : edge ≠ '\\' := edge_ne isEdge (by decide)
  simp [isFragmentChar, noQuote, noEscape]

private theorem quoteLength_local (short : quoteLength (before ++ edge :: rest) ≤ before.length) :
    quoteLength (before ++ edge :: rest') = quoteLength (before ++ edge :: rest) := by
  have apart : ∀ {c before}, (∀ rest, c = '\\' → before = '"' :: rest → False) → ∀ rest,
      c ≠ '\\' ∨ (before ++ edge :: rest).head? ≠ some '"' := by
    intro c before unpaired rest
    cases before with
    | nil => exact Or.inr (by simpa using edge_ne isEdge (by decide))
    | cons d before =>
      by_cases escape : c = '\\'
      · refine Or.inr fun quote => unpaired before escape ?_
        simpa using quote
      · exact Or.inl escape
  fun_induction quoteLength before with
  | case1 before ih =>
    simp only [List.cons_append, quoteLength, List.length_cons, Nat.add_le_add_iff_right] at short ⊢
    rw [ih short]
  | case2 c before unpaired fragment ih =>
    rw [List.cons_append, quoteLength_cons (apart unpaired _), if_pos fragment] at short ⊢
    rw [List.cons_append, quoteLength_cons (apart unpaired _), if_pos fragment,
      ih (by simpa using short)]
  | case3 c before unpaired other =>
    rw [List.cons_append, quoteLength_cons (apart unpaired _), if_neg other, List.cons_append,
      quoteLength_cons (apart unpaired _), if_neg other]
  | case4 =>
    rw [List.nil_append, quoteLength_cons (Or.inl (edge_ne isEdge (by decide))),
      if_pos (edge_fragment isEdge)] at short
    simp at short

omit isEdge in
private theorem leadingComment_cons (c d : Char) (text : List Char) :
    leadingComment? (c :: d :: text) =
      if c = '/' ∧ d = '/' then some ((c :: d :: text).takeWhile (· != '\n')).length
      else if c = '/' ∧ d = '*' then (commentLength? text).map (· + 2)
      else none := by
  simp only [leadingComment?]
  split
  next => simp_all
  next => simp_all
  next noLine noBlock =>
    rw [if_neg fun both => noLine text (by simp [both]),
      if_neg fun both => noBlock text (by simp [both])]

private theorem leadingComment_edge (before rest' : List Char) (short : before.length ≤ 1) :
    leadingComment? (before ++ edge :: rest') = none := by
  have noSlash : edge ≠ '/' := edge_ne isEdge (by decide)
  have noStar : edge ≠ '*' := edge_ne isEdge (by decide)
  cases before with
  | nil => cases rest' <;> simp [leadingComment?, noSlash]
  | cons c before =>
    have last : before = [] := List.length_eq_zero_iff.mp (by simpa using short)
    rw [last, List.cons_append, List.nil_append, leadingComment_cons]
    simp [noSlash, noStar]

private theorem leadingComment_local {n : Nat}
    (found : leadingComment? (before ++ edge :: rest) = some n) (short : n ≤ before.length) :
    leadingComment? (before ++ edge :: rest') = some n := by
  rcases before with _ | ⟨c, _ | ⟨d, before⟩⟩
  · rw [leadingComment_edge isEdge [] _ (by simp)] at found
    simp at found
  · rw [leadingComment_edge isEdge [c] _ (by simp)] at found
    simp at found
  · simp only [List.cons_append, leadingComment_cons] at found ⊢
    split at found
    next line =>
      have same := Option.some.inj found
      rw [if_pos line, ← same]
      rw [← same] at short
      have run := @takeWhile_local (· != '\n') (c :: d :: before) edge rest rest' short
      exact congrArg (fun run => some (List.length run)) run
    next line =>
      rw [if_neg line]
      split at found
      next block =>
        obtain ⟨m, inner, rfl⟩ := Option.map_eq_some_iff.mp found
        rw [if_pos block, commentLength_local isEdge inner (by simp at short; omega)]
        rfl
      next => simp at found

private theorem leadingComment_none
    (kept : commentLength? rest = none → commentLength? rest' = none)
    (found : leadingComment? (before ++ edge :: rest) = none) :
    leadingComment? (before ++ edge :: rest') = none := by
  rcases before with _ | ⟨c, _ | ⟨d, before⟩⟩
  · exact leadingComment_edge isEdge [] _ (by simp)
  · exact leadingComment_edge isEdge [c] _ (by simp)
  · simp only [List.cons_append, leadingComment_cons] at found ⊢
    split at found
    next => simp at found
    next line =>
      rw [if_neg line]
      split at found
      next block =>
        rw [if_pos block, Option.map_eq_none_iff]
        exact commentLength_open ⟨edge_ne isEdge (by decide), edge_ne isEdge (by decide)⟩ kept
          (Option.map_eq_none_iff.mp found)
      next block => rw [if_neg block]

private theorem edge_not_layout : isLayout edge = false := by
  apply Bool.eq_false_iff.mpr
  intro layout
  exact edge_ne isEdge (List.mem_append_left _ (layout_gap layout)) rfl

omit isEdge in
private theorem blockLexeme_quote (text : List Char) :
    blockLexeme ('"' :: text) =
      if ['"', '"'].isPrefixOf text then (3, .token (.closing .quote))
      else (1 + quoteLength text, .fragment) := by
  simp only [blockLexeme]
  split
  next same =>
    simp only [List.cons.injEq, true_and] at same
    simp [same]
  next same =>
    simp only [List.cons.injEq, true_and] at same
    subst same
    rw [if_neg]
    intro two
    obtain ⟨more, rfl⟩ := List.isPrefixOf_iff_prefix.mp two
    simp_all
  next noQuote => exact absurd rfl (noQuote text)

omit isEdge in
private theorem blockLexeme_plain {text : List Char} (noQuote : text.head? ≠ some '"') :
    blockLexeme text = plainLexeme text := by
  simp only [blockLexeme]
  split
  · simp at noQuote
  · simp at noQuote
  · rfl

private theorem plainLexeme_local {n : Nat} {lexeme : Lexeme}
    (kept : commentLength? rest = none → commentLength? rest' = none)
    (found : plainLexeme (before ++ edge :: rest) = (n, lexeme)) (short : n ≤ before.length) :
    plainLexeme (before ++ edge :: rest') = (n, lexeme) := by
  have layout := takeWhile_short before rest (edge_not_layout isEdge)
  have indent : (before ++ edge :: rest').takeWhile isLayout =
      (before ++ edge :: rest).takeWhile isLayout :=
    takeWhile_local layout
  generalize isDepth : ((before ++ edge :: rest).takeWhile isLayout).length = depth at layout
  have dropped : ∀ rest, (before ++ edge :: rest).drop depth = before.drop depth ++ edge :: rest :=
    fun rest =>
    List.drop_append_of_le_length layout
  have remaining : (before.drop depth).length = before.length - depth := List.length_drop
  simp only [plainLexeme, indent, isDepth, dropped] at found ⊢
  cases comment : leadingComment? (before.drop depth ++ edge :: rest) with
  | none =>
    rw [comment] at found
    obtain ⟨rfl, rfl⟩ := Prod.mk.inj found
    rw [leadingComment_none isEdge kept comment, takeWhile_local short]
  | some m =>
    rw [comment] at found
    simp only at found
    split at found
    next outruns =>
      obtain ⟨rfl, rfl⟩ := Prod.mk.inj found
      have run : (before ++ edge :: rest').takeWhile isFragmentChar =
          (before ++ edge :: rest).takeWhile isFragmentChar :=
        takeWhile_local (by omega)
      rw [leadingComment_local isEdge comment (by omega), run]
      simp [outruns]
    next inside =>
      obtain ⟨rfl, rfl⟩ := Prod.mk.inj found
      rw [leadingComment_local isEdge comment (by omega), takeWhile_local short]
      simp [inside]

private theorem blockLexeme_local {n : Nat} {lexeme : Lexeme}
    (kept : commentLength? rest = none → commentLength? rest' = none)
    (nonempty : before ≠ []) (found : blockLexeme (before ++ edge :: rest) = (n, lexeme))
    (short : n ≤ before.length) :
    blockLexeme (before ++ edge :: rest') = (n, lexeme) := by
  obtain ⟨c, before, rfl⟩ := List.exists_cons_of_ne_nil nonempty
  by_cases quote : c = '"'
  · subst quote
    have noQuote : edge ∉ ['"', '"'] := by simpa using edge_ne isEdge (by decide)
    simp only [List.cons_append, blockLexeme_quote, isPrefixOf_local noQuote] at found ⊢
    split at found
    next closes => rw [if_pos closes, found]
    next open' =>
      obtain ⟨rfl, rfl⟩ := Prod.mk.inj found
      simp only [List.length_cons] at short
      have same : quoteLength (before ++ edge :: rest') = quoteLength (before ++ edge :: rest) :=
        quoteLength_local isEdge (by omega)
      rw [if_neg open', same]
  · have plainStart : ∀ rest, ((c :: before) ++ edge :: rest).head? ≠ some '"' := by
      simpa using quote
    rw [blockLexeme_plain (plainStart _)] at found ⊢
    exact plainLexeme_local isEdge kept found short

omit isEdge in
private theorem stringLexeme_plain {c : Char} (noEscape : c ≠ '\\') (level : Level)
    (text : List Char) : stringLexeme? level (c :: text) =
      if level = .textBlock then some (blockLexeme (c :: text))
      else if c = '"' then some (1, .token (.closing .quote))
      else some (((c :: text).takeWhile isFragmentChar).length, .fragment) := by
  simp only [stringLexeme?]
  split <;> simp_all

private theorem stringLexeme_local {level : Level} {c : Char} {n : Nat} {lexeme : Lexeme}
    (kept : commentLength? rest = none → commentLength? rest' = none)
    (found : stringLexeme? level (c :: (before ++ edge :: rest)) = some (n, lexeme))
    (short : n ≤ before.length + 1) :
    stringLexeme? level (c :: (before ++ edge :: rest')) = some (n, lexeme) := by
  by_cases escape : c = '\\'
  · subst escape
    cases before with
    | nil =>
      have two : n = 2 := by
        by_cases hole : edge = '{'
        · subst hole
          simpa [stringLexeme?] using (Prod.mk.inj (Option.some.inj found)).1.symm
        · simp_all [stringLexeme?]
      simp [two] at short
    | cons d before =>
      by_cases hole : d = '{'
      · subst hole
        exact found
      · simp_all [stringLexeme?]
  · rw [stringLexeme_plain escape] at found ⊢
    split at found
    next block =>
      rw [if_pos block]
      have inner : blockLexeme (c :: before ++ edge :: rest') = (n, lexeme) :=
        blockLexeme_local isEdge kept (by simp) (Option.some.inj found) (by simpa using short)
      rw [← List.cons_append, inner]
    next string =>
      rw [if_neg string]
      split at found
      next quote =>
        rw [if_pos quote]
        exact found
      next noQuote =>
        obtain ⟨rfl, rfl⟩ := Prod.mk.inj (Option.some.inj found)
        have run := @takeWhile_local isFragmentChar (c :: before) edge rest rest' short
        simp only [List.cons_append] at run
        rw [if_neg noQuote, run]

def marks : List Char :=
  ['(', ')', '[', ']', '{', '}', '"', '\'', '/']

omit isEdge in
theorem codeLexeme_plain {inHole : Bool} {c : Char} (plain : c ∉ marks) (text : List Char) :
    codeLexeme? inHole (c :: text) = simpleLexeme? (c :: text) := by
  simp only [marks, List.mem_cons, List.not_mem_nil, or_false, not_or] at plain
  simp only [codeLexeme?]
  split
  all_goals simp_all

omit isEdge in
private theorem codeLexeme_quote (inHole : Bool) (text : List Char) :
    codeLexeme? inHole ('"' :: text) =
      some (if ['"', '"'].isPrefixOf text then 3 else 1, .token (.opening .quote)) := by
  rcases text with _ | ⟨c, _ | ⟨d, text⟩⟩
  · rfl
  · by_cases one : c = '"' <;> simp [codeLexeme?, List.isPrefixOf]
  · by_cases one : c = '"'
    · by_cases two : d = '"'
      · simp [codeLexeme?, List.isPrefixOf, one, two]
      · simp [codeLexeme?, List.isPrefixOf, one, two, Ne.symm two]
    · simp [codeLexeme?, List.isPrefixOf, one, Ne.symm one]

omit isEdge in
private theorem codeLexeme_character (inHole : Bool) (text : List Char) :
    codeLexeme? inHole ('\'' :: text) =
      if ['\''].isPrefixOf text then none else (characterLength? text).map fun n =>
      (n + 1, .token .character) := by
  cases text with
  | nil => rfl
  | cons c text =>
    by_cases quote : c = '\''
    · simp [codeLexeme?, List.isPrefixOf, quote]
    · simp [codeLexeme?, List.isPrefixOf, quote, Ne.symm quote]

omit isEdge in
theorem codeLexeme_slash (inHole : Bool) (text : List Char) :
    codeLexeme? inHole ('/' :: text) =
      if ['/'].isPrefixOf text then some ((('/' :: text).takeWhile (· != '\n')).length, .comment)
      else if ['*'].isPrefixOf text then (commentLength? text.tail).map fun n => (n + 2, .comment)
      else simpleLexeme? ('/' :: text) := by
  cases text with
  | nil => rfl
  | cons c text =>
    by_cases line : c = '/'
    · simp [codeLexeme?, List.isPrefixOf, line]
    · by_cases block : c = '*'
      · simp [codeLexeme?, List.isPrefixOf, block]
      · simp [codeLexeme?, List.isPrefixOf, line, block, Ne.symm line, Ne.symm block]

omit isEdge in
/-- Nothing that a gap is no part of reaches across one. -/
theorem prefix_gapped {text start : List Char} (gapped : Gapped rest)
    (outside : ∀ gap ∈ gaps, gap ∉ text.tail) (nonempty : start ≠ [])
    (fits : text <+: start ++ rest) : text <+: start := by
  rcases Nat.le_total text.length start.length with short | long
  · exact List.prefix_of_prefix_length_le fits (List.prefix_append start rest) short
  · obtain ⟨more, rfl⟩ := List.prefix_of_prefix_length_le (List.prefix_append start rest) fits long
    obtain ⟨gap, listed, tail, rfl⟩ := gapped
    cases more with
    | nil => simp
    | cons c more =>
      obtain rfl : c = gap :=
        (List.cons_prefix_cons.mp ((List.prefix_append_right_inj start).mp fits)).1
      obtain ⟨first, start, rfl⟩ := List.exists_cons_of_ne_nil nonempty
      exact absurd (by simp) (outside c listed)

omit isEdge in
private theorem symbolLength_local {start : List Char} {n : Nat} (gapped : Gapped rest')
    (nonempty : start ≠ []) (found : symbolLength? (start ++ rest) = some n)
    (short : n ≤ start.length) :
    symbolLength? (start ++ rest') = some n := by
  have outside : ∀ text ∈ symbols, ∀ gap ∈ gaps, gap ∉ text.tail := by decide +kernel
  simp only [symbolLength?, Option.map_eq_some_iff] at found ⊢
  obtain ⟨text, first, rfl⟩ := found
  obtain ⟨fits, earlier, later, split, none⟩ := List.find?_eq_some_iff_append.mp first
  have within : text <+: start :=
    List.prefix_of_prefix_length_le (List.isPrefixOf_iff_prefix.mp fits)
      (List.prefix_append start rest) short
  refine ⟨text, List.find?_eq_some_iff_append.mpr ⟨?_, earlier, later, split, ?_⟩, rfl⟩
  · exact List.isPrefixOf_iff_prefix.mpr (within.trans (List.prefix_append start rest'))
  · intro other before
    have listed : other ∈ symbols := by simp [split, before]
    have refused := none other before
    simp only [Bool.not_eq_true', ← Bool.not_eq_true, List.isPrefixOf_iff_prefix] at refused ⊢
    intro reaches
    exact refused
      ((prefix_gapped gapped (outside other listed) nonempty reaches).trans
        (List.prefix_append start rest))

omit isEdge in
private theorem simpleLexeme_local {c : Char} {n : Nat} {lexeme : Lexeme} (gapped : Gapped rest')
    (found : simpleLexeme? (c :: (before ++ edge :: rest)) = some (n, lexeme))
    (short : n ≤ before.length + 1) :
    simpleLexeme? (c :: (before ++ edge :: rest')) = some (n, lexeme) := by
  have whole : ∀ rest, c :: (before ++ edge :: rest) = (c :: before ++ [edge]) ++ rest := by simp
  have size : (c :: before ++ [edge]).length = before.length + 2 := by simp
  simp only [simpleLexeme?] at found ⊢
  split at found
  next layout =>
    rw [if_pos layout]
    exact found
  next noLayout =>
    rw [if_neg noLayout]
    split at found
    next named =>
      obtain ⟨rfl, rfl⟩ := Prod.mk.inj (Option.some.inj found)
      have run := @takeWhile_local isNamePart (c :: before) edge rest rest' short
      simp only [List.cons_append] at run
      rw [if_pos named, run]
    next unnamed =>
      rw [if_neg unnamed]
      rw [whole] at found ⊢
      split at found
      next m number =>
        obtain ⟨rfl, rfl⟩ := Prod.mk.inj (Option.some.inj found)
        rw [longest_gapped gapped, longest_short number (by omega)]
      next noNumber =>
        rw [longest_gapped gapped, longest_none noNumber]
        obtain ⟨m, symbol, same⟩ := Option.map_eq_some_iff.mp found
        obtain ⟨rfl, rfl⟩ := Prod.mk.inj same
        rw [symbolLength_local gapped (by simp) symbol (by omega)]
        rfl

private theorem quoteLexeme_local {inHole : Bool} {result : Option (Nat × Lexeme)}
    (found : codeLexeme? inHole ('"' :: (before ++ edge :: rest)) = result) :
    codeLexeme? inHole ('"' :: (before ++ edge :: rest')) = result := by
  have noQuote : edge ∉ ['"', '"'] := by simpa using edge_ne isEdge (by decide)
  rw [codeLexeme_quote, isPrefixOf_local noQuote] at found ⊢
  exact found

private theorem characterLexeme_local {inHole : Bool} {n : Nat} {lexeme : Lexeme}
    (found : codeLexeme? inHole ('\'' :: (before ++ edge :: rest)) = some (n, lexeme))
    (short : n ≤ before.length + 1) :
    codeLexeme? inHole ('\'' :: (before ++ edge :: rest')) = some (n, lexeme) := by
  have noQuote : edge ∉ ['\''] := by simpa using edge_ne isEdge (by decide)
  rw [codeLexeme_character, isPrefixOf_local noQuote] at found ⊢
  split at found
  next => simp at found
  next nonempty =>
    obtain ⟨m, inner, same⟩ := Option.map_eq_some_iff.mp found
    obtain ⟨rfl, rfl⟩ := Prod.mk.inj same
    rw [if_neg nonempty, characterLength_local inner (by omega)]
    rfl

private theorem slashLexeme_local {inHole : Bool} {n : Nat} {lexeme : Lexeme}
    (gapped : Gapped rest')
    (found : codeLexeme? inHole ('/' :: (before ++ edge :: rest)) = some (n, lexeme))
    (short : n ≤ before.length + 1) :
    codeLexeme? inHole ('/' :: (before ++ edge :: rest')) = some (n, lexeme) := by
  have noSlash : edge ∉ ['/'] := by simpa using edge_ne isEdge (by decide)
  have noStar : edge ∉ ['*'] := by simpa using edge_ne isEdge (by decide)
  rw [codeLexeme_slash, isPrefixOf_local noSlash, isPrefixOf_local noStar] at found ⊢
  split at found
  next line =>
    obtain ⟨rfl, rfl⟩ := Prod.mk.inj (Option.some.inj found)
    have run := @takeWhile_local (· != '\n') ('/' :: before) edge rest rest' short
    simp only [List.cons_append] at run
    rw [if_pos line, run]
  next noLine =>
    rw [if_neg noLine]
    split at found
    next block =>
      rw [if_pos block]
      obtain ⟨more, rfl⟩ := List.isPrefixOf_iff_prefix.mp block
      obtain ⟨m, inner, same⟩ := Option.map_eq_some_iff.mp found
      obtain ⟨rfl, rfl⟩ := Prod.mk.inj same
      simp only [List.cons_append, List.nil_append, List.tail_cons, List.length_cons]
        at inner short ⊢
      rw [commentLength_local isEdge inner (by omega)]
      rfl
    next noBlock =>
      rw [if_neg noBlock]
      exact simpleLexeme_local gapped found short

private theorem codeLexeme_local {inHole : Bool} {c : Char} {n : Nat} {lexeme : Lexeme}
    (gapped : Gapped rest')
    (found : codeLexeme? inHole (c :: (before ++ edge :: rest)) = some (n, lexeme))
    (short : n ≤ before.length + 1) :
    codeLexeme? inHole (c :: (before ++ edge :: rest')) = some (n, lexeme) := by
  by_cases plain : c ∈ marks
  · simp only [marks, List.mem_cons, List.not_mem_nil, or_false] at plain
    rcases plain with rfl | rfl | rfl | rfl | rfl | rfl | rfl | rfl | rfl
    -- brackets stand for themselves
    all_goals try exact found
    · exact quoteLexeme_local isEdge found
    · exact characterLexeme_local isEdge found short
    · exact slashLexeme_local isEdge gapped found short
  · rw [codeLexeme_plain plain] at found ⊢
    exact simpleLexeme_local gapped found short

/-- A lexeme that ends before the edge stays the same if a gap follows the edge. -/
theorem lexeme_local {levels : List Level} {c : Char} {n : Nat} {lexeme : Lexeme}
    (gapped : Gapped rest') (kept : commentLength? rest = none → commentLength? rest' = none)
    (found : lexeme? levels (c :: (before ++ edge :: rest)) = some (n, lexeme))
    (short : n ≤ before.length + 1) :
    lexeme? levels (c :: (before ++ edge :: rest')) = some (n, lexeme) := by
  simp only [lexeme?] at found ⊢
  split at found
  · exact stringLexeme_local isEdge kept found short
  · exact stringLexeme_local isEdge kept found short
  · exact codeLexeme_local isEdge gapped found short
  · exact codeLexeme_local isEdge gapped found short

omit isEdge in
private theorem head_local (text rest : List Char) :
    (text ++ edge :: rest).head? = (text ++ [edge]).head? := by
  cases text <;> rfl

/-- An edge that is a letter of the modifier ends the word that it is in. -/
theorem edge_ends (inside : edge ∈ splitModifier.2) : rest.head?.any isNamePart = false := by
  rcases isEdge with closer | named
  · have apart : ∀ c ∈ closers, c ∉ splitModifier.2 := by decide
    exact absurd inside (apart edge closer)
  · exact named.2

/-- The modifier cannot reach across the edge, for then a word would go on behind it. -/
theorem modifier_within {text : List Char}
    (reaches : splitModifier.2 <+: (text ++ [edge]) ++ rest) :
    splitModifier.2 <+: text ++ [edge] := by
  have letters : ∀ c ∈ splitModifier.2.tail, isNamePart c = true := by decide +kernel
  rcases Nat.le_total splitModifier.2.length (text ++ [edge]).length with short | long
  · exact List.prefix_of_prefix_length_le reaches (List.prefix_append _ rest) short
  · obtain ⟨more, same⟩ := List.prefix_of_prefix_length_le (List.prefix_append _ rest) reaches long
    have inside : edge ∈ splitModifier.2 := by simp [← same]
    cases more with
    | nil => exact ⟨[], by rw [List.append_nil, ← same, List.append_nil]⟩
    | cons c more =>
      rw [← same] at reaches
      obtain ⟨tail, rfl⟩ := (List.prefix_append_right_inj _).mp reaches
      have letter : isNamePart c = true := by
        apply letters
        rw [← same]
        cases text <;> simp
      have none := edge_ends isEdge inside
      simp [letter] at none

/-- Whether the second part of the split modifier follows, and nothing that would prolong it. -/
theorem modifier_local (gapped : Gapped rest') (text : List Char) :
    (splitModifier.2.isPrefixOf (text ++ edge :: rest') &&
        !((text ++ edge :: rest').drop splitModifier.2.length).head?.any isNamePart) =
      (splitModifier.2.isPrefixOf (text ++ edge :: rest) &&
        !((text ++ edge :: rest).drop splitModifier.2.length).head?.any isNamePart) := by
  have whole : ∀ rest, text ++ edge :: rest = (text ++ [edge]) ++ rest := by simp
  have outside : ∀ gap ∈ gaps, gap ∉ splitModifier.2.tail := by decide
  have noGap : rest'.head?.any isNamePart = false := by
    obtain ⟨gap, listed, more, rfl⟩ := gapped
    exact (uncut_apart gap (List.mem_append_left _ listed)).2
  rw [whole rest, whole rest']
  by_cases fits : splitModifier.2 <+: text ++ [edge]
  · have both : ∀ rest, splitModifier.2.isPrefixOf ((text ++ [edge]) ++ rest) = true := fun rest =>
      List.isPrefixOf_iff_prefix.mpr (fits.trans (List.prefix_append _ rest))
    have dropped : ∀ rest, ((text ++ [edge]) ++ rest).drop splitModifier.2.length =
        (text ++ [edge]).drop splitModifier.2.length ++ rest :=
      fun rest => List.drop_append_of_le_length fits.length_le
    rw [both, both, dropped, dropped]
    cases behind : (text ++ [edge]).drop splitModifier.2.length with
    | cons c more => rfl
    | nil =>
      obtain ⟨tail, same⟩ := fits
      have inside : edge ∈ splitModifier.2 := by
        rw [← same, List.drop_left] at behind
        rw [behind, List.append_nil] at same
        simp [same]
      simp [noGap, edge_ends isEdge inside]
  · have never : splitModifier.2.isPrefixOf ((text ++ [edge]) ++ rest') = false := by
      rw [Bool.eq_false_iff, ne_eq, List.isPrefixOf_iff_prefix]
      exact fun reaches => fits (prefix_gapped gapped outside (by simp) reaches)
    have neither : splitModifier.2.isPrefixOf ((text ++ [edge]) ++ rest) = false := by
      rw [Bool.eq_false_iff, ne_eq, List.isPrefixOf_iff_prefix]
      exact fun reaches => fits (modifier_within isEdge reaches)
    rw [never, neither]
    rfl

theorem isGlued_local (gapped : Gapped rest') (c : Char) {n : Nat} (short : n ≤ before.length + 1) :
    isGlued (c :: (before ++ edge :: rest')) n = isGlued (c :: (before ++ edge :: rest)) n := by
  have taken : ∀ rest, (c :: before ++ edge :: rest).take n = (c :: before).take n := fun rest =>
    List.take_append_of_le_length (by simpa using short)
  have dropped : ∀ rest, (c :: before ++ edge :: rest).drop n =
      (c :: before).drop n ++ edge :: rest := fun rest =>
    List.drop_append_of_le_length (by simpa using short)
  simp only [List.cons_append] at taken dropped
  have modified := modifier_local isEdge gapped ((c :: before).drop n)
  simp only [isGlued, taken, dropped, head_local _ rest, head_local _ rest', List.head?_cons,
    Bool.and_assoc, modified]

end

end ClassDiagram.Proofs.LexemeLocality
