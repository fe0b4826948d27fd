import ClassDiagram.Proofs.SplicedText
import ClassDiagram.Proofs.TokenOrder

/-! Places that the lexer comes to. It goes over a source lexeme by lexeme, so none of them lies
inside a comment or any other lexeme, and the regions that are open at a place tell whether it lies
inside a string. -/

namespace ClassDiagram.Proofs.LexedPlaces
open Java Text LexemeLocality SourceCuts ScannedText SplicedText TokenOrder

theorem byteLength_append (first second : List Char) :
    byteLength (first ++ second) = byteLength first + byteLength second := by
  induction first with
  | nil => simp [byteLength]
  | cons c first ih => rw [List.cons_append, byteLength, byteLength, ih, Nat.add_assoc]

def leaves (levels : List Level) (text : List Char) (length : Nat) : Lexeme → List Level
  | .token kind => Level.after levels (tokenAt false 0 text length kind)
  | _ => levels

/-- The lexer comes from one place of a text to another, and these regions are open there. -/
inductive Comes : List Level → List Char → List Level → List Char → Prop
  | here (levels : List Level) (text : List Char) : Comes levels text levels text
  | on {levels levels' : List Level} {c : Char} {text rest : List Char} {length : Nat}
      {lexeme : Lexeme} (found : lexeme? levels (c :: text) = some (length, lexeme))
      (more : Comes (leaves levels (c :: text) length lexeme) (text.drop (length - 1)) levels'
        rest) : Comes levels (c :: text) levels' rest

section
variable {levels levels' levels'' : List Level} {text rest rest' : List Char}

theorem Comes.trans (first : Comes levels text levels' rest)
    (second : Comes levels' rest levels'' rest') : Comes levels text levels'' rest' := by
  induction first with
  | here => exact second
  | on found _ ih => exact .on found (ih second)

theorem Comes.suffix (comes : Comes levels text levels' rest) : rest <:+ text := by
  induction comes with
  | here => exact List.suffix_rfl
  | on _ _ ih => exact ih.trans ((List.drop_suffix _ _).trans (List.suffix_cons _ _))

/-- There is one way to go, so the lexer comes to one of two places by way of the other. -/
theorem Comes.linear (first : Comes levels text levels' rest)
    (second : Comes levels text levels'' rest') :
    Comes levels' rest levels'' rest' ∨ Comes levels'' rest' levels' rest := by
  induction first with
  | here => exact Or.inl second
  | on found more ih =>
    cases second with
    | here => exact Or.inr (.on found more)
    | on found' more' =>
      obtain ⟨rfl, rfl⟩ := Prod.mk.inj (Option.some.inj (found.symm.trans found'))
      exact ih more'

private theorem tokensFrom_drop (levels : List Level) (commented : Bool) (skip offset : Nat)
    (text : List Char) :
    tokensFrom levels commented skip offset text =
      tokensFrom levels commented 0 (offset + byteLength (text.take skip)) (text.drop skip) := by
  induction text generalizing skip offset with
  | nil => simp [tokensFrom]
  | cons c text ih =>
    cases skip with
    | zero => simp [byteLength]
    | succ skip =>
      rw [tokensFrom, ih, List.take_succ_cons, List.drop_succ_cons, byteLength, Nat.add_assoc]

/-- The tokens behind a place that the lexer comes to are the last ones of the text. -/
theorem Comes.tokens (comes : Comes levels text levels' rest) {commented : Bool} {offset : Nat}
    {tokens : List Token} (lexed : tokensFrom levels commented 0 offset text = some tokens) :
    ∃ passed commented' later, text = passed ++ rest ∧
      tokensFrom levels' commented' 0 (offset + byteLength passed) rest = some later ∧
      later <:+ tokens := by
  induction comes generalizing commented offset tokens with
  | here => exact ⟨[], commented, tokens, rfl, lexed, List.suffix_rfl⟩
  | @on levels _ c text _ length lexeme found _ ih =>
    have next :
        ∃ commented' later, tokensFrom (leaves levels (c :: text) length lexeme) commented' 0
        (offset + c.utf8Size + byteLength (text.take (length - 1))) (text.drop (length - 1)) =
        some later ∧ later <:+ tokens := by
      cases lexeme with
      | token kind =>
        rw [tokensFrom_token found, tokensFrom_drop, Option.map_eq_some_iff] at lexed
        obtain ⟨later, read, rfl⟩ := lexed
        exact ⟨false, later, read, List.suffix_cons _ _⟩
      | _ =>
        rw [tokensFrom_silent found (by simp), tokensFrom_drop] at lexed
        exact ⟨_, tokens, lexed, List.suffix_rfl⟩
    obtain ⟨commented', later, read, own⟩ := next
    obtain ⟨passed, commented'', last, whole, read', inner⟩ := ih read
    refine ⟨c :: (text.take (length - 1) ++ passed), commented'', last, ?_, ?_, inner.trans own⟩
    · rw [List.cons_append, List.append_assoc, ← whole, List.take_append_drop]
    · rw [byteLength, byteLength_append, ← Nat.add_assoc, ← Nat.add_assoc]
      exact read'

/-- The lexer comes to the end of every token. -/
theorem tokensFrom_comes {commented : Bool} {skip offset : Nat} {before after : List Token}
    {t : Token}
    (lexed : tokensFrom levels commented skip offset text = some (before ++ t :: after)) :
    ∃ head rest, text = head ++ rest ∧ t.stop = offset + byteLength head ∧
      Comes levels (text.drop skip) ((before ++ [t]).foldl Level.after levels) rest ∧
      tokensFrom ((before ++ [t]).foldl Level.after levels) false 0 t.stop rest = some after := by
  fun_induction tokensFrom levels commented skip offset text generalizing before with
  | case1 => simp at lexed
  | case2 levels commented skip offset c text ih =>
    obtain ⟨head, rest, rfl, stop, comes, read⟩ := ih lexed
    exact ⟨c :: head, rest, rfl, by rw [stop, byteLength, Nat.add_assoc], comes, read⟩
  | case3 => simp at lexed
  | case4 levels commented offset c text length next kind spelled token found =>
    rename_i ih
    obtain ⟨later, tail, same⟩ := Option.map_eq_some_iff.mp lexed
    cases before with
    | nil =>
      obtain ⟨rfl, rfl⟩ := List.cons.inj same
      have positive := lexeme_pos found
      have stop : token.stop = next + byteLength (text.take (length - 1)) := by
        obtain ⟨behind, rfl⟩ : ∃ behind, length = behind + 1 := ⟨length - 1, by omega⟩
        simp only [token, spelled, next, List.take_succ_cons, byteLength,
          Nat.add_sub_cancel, Nat.add_assoc]
      rw [tokensFrom_drop, ← stop] at tail
      refine ⟨c :: text.take (length - 1), text.drop (length - 1),
        by rw [List.cons_append, List.take_append_drop], ?_, .on found (.here _ _), tail⟩
      rw [stop, byteLength, Nat.add_assoc]
    | cons first before =>
      obtain ⟨rfl, rfl⟩ := List.cons.inj same
      obtain ⟨head, rest, whole, stop, comes, read⟩ := ih tail
      exact ⟨c :: head, rest, by rw [whole]; rfl, by rw [stop, byteLength, Nat.add_assoc],
        .on found comes, read⟩
  | case5 levels commented offset c text length lexeme found next silent =>
    rename_i ih
    obtain ⟨head, rest, whole, stop, comes, read⟩ := ih lexed
    refine ⟨c :: head, rest, by rw [whole]; rfl, by rw [stop, byteLength, Nat.add_assoc],
      .on found ?_, read⟩
    cases lexeme with
    | token kind => exact absurd rfl (silent kind)
    | _ => exact comes

end

def unmarked : List Char → List Char
  | '\ufeff' :: rest => rest
  | source => source

/-- The lexer comes to the place behind a part of the source. -/
structure Reached (source before : List Char) (levels : List Level) (rest : List Char) : Prop where
  whole : source = before ++ rest
  comes : Comes [] (unmarked source) levels rest

def HasLexeme (source before middle rest : List Char) (lexeme : Lexeme) : Prop :=
  ∃ levels, Reached source before levels (middle ++ rest) ∧
    lexeme? levels (middle ++ rest) = some (middle.length, lexeme)

section
variable {source head rest : List Char} {levels : List Level}

/-- A place that the lexer comes to lies before a lexeme or behind it. -/
theorem Reached.apart (reached : Reached source head levels rest) {first middle last : List Char}
    {lexeme : Lexeme} (isLexeme : HasLexeme source first middle last lexeme) :
    head <+: first ∨ first ++ middle <+: head := by
  obtain ⟨levels', start, found⟩ := isLexeme
  have whole := start.whole.symm.trans reached.whole
  rcases start.comes.linear reached.comes with later | earlier
  · generalize text_eq : middle ++ last = text at later found
    cases later with
    | here =>
      rw [text_eq] at whole
      exact Or.inl (List.append_cancel_right whole ▸ List.prefix_rfl)
    | on found' more =>
      -- what the lexer comes to behind the lexeme is a part of what follows it
      obtain ⟨rfl, rfl⟩ := Prod.mk.inj (Option.some.inj (found.symm.trans found'))
      rename_i c text
      have behind : text.drop (middle.length - 1) <:+ last := by
        cases middle with
        | nil =>
          obtain rfl : last = c :: text := text_eq
          exact List.suffix_cons c text
        | cons d middle =>
          obtain ⟨_, rfl⟩ := List.cons.inj text_eq
          simp
      obtain ⟨between, rfl⟩ := more.suffix.trans behind
      have same : first ++ middle ++ between ++ rest = head ++ rest := by simpa using whole
      exact Or.inr ⟨between, List.append_cancel_right same⟩
  · obtain ⟨between, rfl⟩ := earlier.suffix
    have same : head ++ between ++ (middle ++ last) = first ++ (middle ++ last) := by
      simpa using whole.symm
    exact Or.inl ⟨between, List.append_cancel_right same⟩

/-- The place behind a token, and the regions that are open there. -/
theorem tokens_reached {before after : List Token} {t : Token}
    (lexed : tokens? source = some (before ++ t :: after)) :
    ∃ head rest, Reached source head ((before ++ [t]).foldl Level.after []) rest ∧
      t.stop = byteLength head ∧
      tokensFrom ((before ++ [t]).foldl Level.after []) false 0 t.stop rest = some after := by
  by_cases marked : source.head? = some '\ufeff'
  · obtain ⟨text, rfl⟩ := List.head?_eq_some_iff.mp marked
    obtain ⟨head, rest, rfl, stop, comes, read⟩ :=
      tokensFrom_comes (show tokensFrom [] false 0 _ text = _ from lexed)
    exact ⟨'\ufeff' :: head, rest, ⟨rfl, comes⟩, by rw [stop, byteLength], read⟩
  · have bare : unmarked source = source := by
      rw [unmarked]
      rintro rest rfl
      simp at marked
    rw [tokens_unmarked marked] at lexed
    obtain ⟨head, rest, whole, stop, comes, read⟩ := tokensFrom_comes lexed
    exact ⟨head, rest, ⟨whole, by rw [bare]; exact comes⟩, by rw [stop, Nat.zero_add], read⟩

/-- Nothing, or the end of a line that holds but blanks and maybe a comment. -/
inductive IsGap : List Char → Prop
  | none : IsGap []
  | line {blanks comment : List Char} (blank : ∀ c ∈ blanks, isLayout c = true)
      (commented : comment = [] ∨ ∃ text, comment = '/' :: '/' :: text)
      (oneLine : '\n' ∉ blanks ++ comment) : IsGap (blanks ++ comment ++ ['\n'])

private theorem blanks_passed (code : inCode levels = true) {blanks : List Char}
    (blank : ∀ c ∈ blanks, isLayout c = true) (rest : List Char) :
    Comes levels (blanks ++ rest) levels rest := by
  induction blanks with
  | nil => exact .here levels rest
  | cons c blanks ih =>
    exact .on (blank_lexeme (blank c (by simp)) code _)
      (ih fun d member => blank d (by simp [member]))

/-- The lexer comes across such a gap, and opens no region. -/
theorem IsGap.passed {gap : List Char} (isGap : IsGap gap) (code : inCode levels = true)
    (rest : List Char) : Comes levels (gap ++ rest) levels rest := by
  cases isGap with
  | none => exact .here levels rest
  | @line blanks comment blank commented oneLine =>
    have feed := @blanks_passed levels code ['\n'] (by decide) rest
    rw [List.append_assoc, List.append_assoc]
    refine (blanks_passed code blank _).trans ?_
    rcases commented with rfl | ⟨text, rfl⟩
    · exact feed
    · have found :=
        @comment_lexeme text ('\n' :: rest) (by rintro c member rfl; simp [member] at oneLine)
          rfl levels code
      refine .on found ?_
      simpa [leaves] using feed

end

end ClassDiagram.Proofs.LexedPlaces
