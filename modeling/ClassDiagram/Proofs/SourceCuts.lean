import ClassDiagram.Proofs.Blanks
import ClassDiagram.Proofs.LexemeLocality

/-! Cutting a source. Behind a brace, a separator or a word a source may go on with a blank or a
comment without a change to the tokens before it, and what follows is read as if nothing stood
before it but the braces that are open there. -/

namespace ClassDiagram.Proofs.SourceCuts
open Java Text LexemeLocality

/-- A token behind which a source may be cut. -/
inductive IsEdgeToken (t : Token) : Prop
  | opening (kind : t.kind = .opening .brace)
  | closing {bracket : Bracket} (kind : t.kind = .closing bracket)
    (listed : bracket ∈ [Bracket.brace, .paren])
  | separator (kind : t.kind = .symbol) (listed : t.text ∈ [";", ","])
  | word (kind : t.kind = .word) (unglued : t.glued = false)

def tokenAt (commented : Bool) (offset : Nat) (text : List Char) (length : Nat)
    (kind : Token.Kind) : Token where
  kind := kind
  text := String.ofList (text.take length)
  start := offset
  stop := offset + byteLength (text.take length)
  glued := isGlued text length
  commented := commented

theorem tokensFrom_token {levels : List Level} {c : Char} {rest : List Char} {length : Nat}
    {kind : Token.Kind} (found : lexeme? levels (c :: rest) = some (length, .token kind))
    (commented : Bool) (offset : Nat) :
    tokensFrom levels commented 0 offset (c :: rest) =
      (tokensFrom (Level.after levels (tokenAt commented offset (c :: rest) length kind))
        false (length - 1)
        (offset + c.utf8Size) rest).map
          (tokenAt commented offset (c :: rest) length kind :: ·) := by
  rw [tokensFrom, found]
  rfl

theorem tokensFrom_silent {levels : List Level} {c : Char} {rest : List Char} {length : Nat}
    {lexeme : Lexeme} (found : lexeme? levels (c :: rest) = some (length, lexeme))
    (silent : ∀ kind, lexeme ≠ .token kind) (commented : Bool)
    (offset : Nat) :
    tokensFrom levels commented 0 offset (c :: rest) =
      tokensFrom levels (commented || lexeme = .comment) (length - 1)
      (offset + c.utf8Size) rest := by
  rw [tokensFrom, found]
  cases lexeme with
  | token kind => exact absurd rfl (silent kind)
  | _ => rfl

theorem separator_lexeme {c : Char} (listed : c ∈ [';', ',']) (rest : List Char) :
    simpleLexeme? (c :: rest) = some (1, .token .symbol) := by
  simp only [List.mem_cons, List.not_mem_nil, or_false] at listed
  have outside : foreign c Number.pattern = true := by
    rcases listed with rfl | rfl <;> decide +kernel
  have noNumber : Number.pattern.longest? (c :: rest) = none := longest_foreign outside [] rest
  have symbol : symbolLength? (c :: rest) = some 1 := by
    rcases listed with rfl | rfl <;> rfl
  have noStart : isNameStart c = false := by
    rcases listed with rfl | rfl <;> decide +kernel
  have noLayout : isLayout c = false := by
    rcases listed with rfl | rfl <;> decide
  simp [simpleLexeme?, noNumber, symbol, noStart, noLayout]

private theorem simpleLexeme_unbracketed {text : List Char} {length : Nat} {kind : Token.Kind}
    (found : simpleLexeme? text = some (length, .token kind)) (bracket : Bracket) :
    kind ≠ .opening bracket ∧ kind ≠ .closing bracket := by
  simp only [simpleLexeme?] at found
  split at found
  · simp at found
  · split at found
    · simp at found
    · split at found
      · obtain ⟨_, rfl⟩ : _ ∧ Token.Kind.word = kind := by simpa using found
        simp
      · split at found
        · obtain ⟨_, rfl⟩ : _ ∧ Token.Kind.number = kind := by simpa using found
          simp
        · obtain ⟨_, rfl⟩ : _ ∧ Token.Kind.symbol = kind := by simpa using found
          simp

private theorem codeLexeme_opening {inHole : Bool} {c : Char} {rest : List Char} {length : Nat}
    (found : codeLexeme? inHole (c :: rest) = some (length, .token (.opening .brace))) :
    c = '{' := by
  simp only [codeLexeme?] at found
  split at found
  all_goals try (simp at found; done)
  next same => exact (List.cons.inj same).1
  next => exact absurd rfl (simpleLexeme_unbracketed found .brace).1

private theorem codeLexeme_closing {inHole : Bool} {c : Char} {rest : List Char} {length : Nat}
    {bracket : Bracket} (listed : bracket ∈ [Bracket.brace, .paren])
    (found : codeLexeme? inHole (c :: rest) = some (length, .token (.closing bracket))) :
    c = '}' ∨ c = ')' := by
  simp only [codeLexeme?] at found
  split at found
  all_goals try (simp at found; done)
  next same => exact Or.inr (List.cons.inj same).1
  next =>
    obtain rfl : Bracket.square = bracket := by simpa using (Prod.mk.inj (Option.some.inj found)).2
    simp at listed
  next same => exact Or.inl (List.cons.inj same).1
  next => exact absurd rfl (simpleLexeme_unbracketed found bracket).2

private theorem stringLexeme_brackets {level : Level} {text : List Char} {length : Nat}
    {kind : Token.Kind} (found : stringLexeme? level text = some (length, .token kind)) :
    kind = .opening .hole ∨ kind = .closing .quote := by
  simp only [stringLexeme?] at found
  split at found
  all_goals try (simp_all; done)
  simp only [blockLexeme] at found
  split at found
  all_goals try (simp_all; done)
  simp only [plainLexeme] at found
  split at found
  · split at found <;> simp at found
  · simp at found

/-- The lexeme ends at an edge, and stays the same if a gap follows it. -/
structure EdgeLexeme (inHole : Bool) (c : Char) (text : List Char) (length : Nat)
    (kind : Token.Kind) (more rest : List Char) : Prop where
  text_eq : text = more ++ rest
  length_eq : length = more.length + 1
  isEdge : IsEdge ((c :: more).getLast (List.cons_ne_nil c more)) rest
  found : ∀ rest', Gapped rest' →
    codeLexeme? inHole (c :: (more ++ rest')) = some (length, .token kind)
  unglued : ∀ rest', Gapped rest' ∨ rest' = rest → isGlued (c :: (more ++ rest')) length = false

/-- Such a token is one character, whatever follows it. -/
theorem closer_ending {inHole : Bool} {c : Char} {text : List Char} {length : Nat}
    {kind : Token.Kind} (closer : c ∈ closers)
    (found : codeLexeme? inHole (c :: text) = some (length, .token kind)) :
    EdgeLexeme inHole c text length kind [] text := by
  have always : ∀ rest, codeLexeme? inHole (c :: rest) = codeLexeme? inHole (c :: text) ∧
      length = 1 := by
    intro rest
    simp only [closers, List.mem_cons, List.not_mem_nil, or_false] at closer
    have separator : ∀ {c : Char}, c ∈ [';', ','] →
        ∀ rest, codeLexeme? inHole (c :: rest) = some (1, .token .symbol) := by
      intro c listed rest
      have unmarked : ∀ c ∈ [';', ','], c ∉ marks := by decide
      exact (codeLexeme_plain (unmarked c listed) rest).trans (separator_lexeme listed rest)
    rcases closer with rfl | rfl | rfl | rfl | rfl
    · exact ⟨rfl, (Prod.mk.inj (Option.some.inj found)).1.symm⟩
    · exact ⟨rfl, (Prod.mk.inj (Option.some.inj found)).1.symm⟩
    · exact ⟨rfl, (Prod.mk.inj (Option.some.inj found)).1.symm⟩
    · rw [separator (by simp)] at found ⊢
      exact ⟨(separator (by simp) text).symm, (Prod.mk.inj (Option.some.inj found)).1.symm⟩
    · rw [separator (by simp)] at found ⊢
      exact ⟨(separator (by simp) text).symm, (Prod.mk.inj (Option.some.inj found)).1.symm⟩
  obtain rfl := (always text).2
  refine ⟨rfl, rfl, Or.inl closer, fun rest _ => (always rest).1.trans found, fun rest _ => ?_⟩
  have noAngle : ∀ c ∈ closers, c ≠ '>' := by decide
  simp [isGlued, noAngle c closer, splitModifier]

private theorem gap_noPart {rest : List Char} (gapped : Gapped rest) :
    ∀ c ∈ rest.head?, isNamePart c = false ∧ '-' ≠ c := by
  obtain ⟨gap, listed, more, rfl⟩ := gapped
  have none : ∀ gap ∈ gaps, isNamePart gap = false ∧ '-' ≠ gap := by decide +kernel
  simpa using none gap listed

/-- A word ends where no name character follows. -/
theorem word_ending {inHole : Bool} {c : Char} {text : List Char} {length : Nat}
    (found : codeLexeme? inHole (c :: text) = some (length, .token .word))
    (unglued : isGlued (c :: text) length = false) :
    EdgeLexeme inHole c text length .word (text.takeWhile isNamePart)
      (text.dropWhile isNamePart) := by
  obtain ⟨starts, spelled⟩ := TokenTrees.codeLexeme_word found
  have first := TokenTrees.namePart_of_nameStart starts
  have marked : ∀ c ∈ marks, isNameStart c = false := by decide +kernel
  have noMark : c ∉ marks := fun mark => by simp [marked c mark] at starts
  have layouts : ∀ gap ∈ gaps, isNameStart gap = false := by decide +kernel
  have noLayout : isLayout c = false := Bool.eq_false_iff.mpr fun layout => by
    simp [layouts c (layout_gap layout)] at starts
  have noAngle : c ≠ '>' := by
    rintro rfl
    exact absurd starts (by decide +kernel)
  have inside : ∀ d ∈ text.takeWhile isNamePart, isNamePart d = true :=
    fun d => List.all_eq_true.mp List.all_takeWhile d
  have whole : ∀ d ∈ c :: text.takeWhile isNamePart, isNamePart d = true := by
    simpa [first] using inside
  have size : length = (text.takeWhile isNamePart).length + 1 := by simpa [first] using spelled
  refine ⟨List.takeWhile_append_dropWhile.symm, size,
    Or.inr ⟨whole _ (List.getLast_mem _), ?_⟩, ?_, ?_⟩
  · have stopped := List.head?_dropWhile_not isNamePart text
    cases head : (text.dropWhile isNamePart).head? with
    | none => rfl
    | some d => simpa [head] using stopped
  · intro rest gapped
    have run : (c :: (text.takeWhile isNamePart ++ rest)).takeWhile isNamePart =
        c :: text.takeWhile isNamePart :=
      Blanks.takeWhile_stops whole fun d head => (gap_noPart gapped d head).1
    rw [codeLexeme_plain noMark, simpleLexeme?, noLayout, starts, run, size]
    rfl
  · rintro rest (gapped | rfl)
    · have behind : (c :: (text.takeWhile isNamePart ++ rest)).drop length = rest := by
        rw [size, List.drop_succ_cons, List.drop_left]
      have apart : splitModifier.2.isPrefixOf rest = false := by
        cases rest with
        | nil => rfl
        | cons d rest => simp [splitModifier, List.isPrefixOf, (gap_noPart gapped d rfl).2]
      simp only [isGlued, behind, apart]
      simp [noAngle]
    · rw [List.takeWhile_append_dropWhile]
      exact unglued

private theorem edgeToken_ending {inHole commented : Bool} {offset : Nat} {c : Char}
    {text : List Char} {length : Nat} {kind : Token.Kind}
    (found : codeLexeme? inHole (c :: text) = some (length, .token kind))
    (isEdge : IsEdgeToken (tokenAt commented offset (c :: text) length kind)) :
    ∃ more rest, EdgeLexeme inHole c text length kind more rest := by
  cases isEdge with
  | opening brace =>
    cases brace
    obtain rfl := codeLexeme_opening found
    exact ⟨_, _, closer_ending (by decide) found⟩
  | closing brace listed =>
    cases brace
    rcases codeLexeme_closing listed found with rfl | rfl
    · exact ⟨_, _, closer_ending (by decide) found⟩
    · exact ⟨_, _, closer_ending (by decide) found⟩
  | separator symbol listed =>
    have taken : (c :: text).take length ∈ [[';'], [',']] := by
      simp only [tokenAt, List.mem_cons, List.not_mem_nil, or_false] at listed ⊢
      rcases listed with same | same
      · exact Or.inl (by simpa using congrArg String.toList same)
      · exact Or.inr (by simpa using congrArg String.toList same)
    have first : c ∈ closers := by
      cases length with
      | zero => simp at taken
      | succ length =>
        simp only [List.take_succ_cons, List.mem_cons, List.cons.injEq, List.not_mem_nil, or_false]
          at taken
        rcases taken with ⟨rfl, _⟩ | ⟨rfl, _⟩
        · decide
        · decide
    exact ⟨_, _, closer_ending first found⟩
  | word word unglued =>
    cases word
    exact ⟨_, _, word_ending found unglued⟩

private theorem edgeToken_lexeme {levels : List Level} {commented : Bool} {offset : Nat} {c : Char}
    {text : List Char} {length : Nat} {kind : Token.Kind}
    (found : lexeme? levels (c :: text) = some (length, .token kind))
    (isEdge : IsEdgeToken (tokenAt commented offset (c :: text) length kind)) :
    ∃ inHole more rest, (∀ text, lexeme? levels text = codeLexeme? inHole text) ∧
      EdgeLexeme inHole c text length kind more rest := by
  have noString : ∀ level, stringLexeme? level (c :: text) ≠ some (length, .token kind) := by
    intro level found
    rcases stringLexeme_brackets found with rfl | rfl
    · cases isEdge <;> simp_all [tokenAt]
    · cases isEdge with
      | closing kind listed =>
        cases kind
        simp at listed
      | _ => simp_all [tokenAt]
  simp only [lexeme?] at found ⊢
  split at found
  · exact absurd found (noString _)
  · exact absurd found (noString _)
  · exact ⟨true, (edgeToken_ending found isEdge).imp fun _ =>
      Exists.imp fun _ ending => ⟨fun _ => rfl, ending⟩⟩
  · exact ⟨false, (edgeToken_ending found isEdge).imp fun _ =>
      Exists.imp fun _ ending => ⟨fun _ => rfl, ending⟩⟩

theorem tokensFrom_skip (levels : List Level) (commented : Bool) (offset : Nat)
    (before text : List Char) : tokensFrom levels commented before.length offset (before ++ text) =
      tokensFrom levels commented 0 (offset + byteLength before) text := by
  induction before generalizing offset with
  | nil => simp [byteLength]
  | cons c before ih =>
    simp only [List.length_cons, List.cons_append, tokensFrom, ih, byteLength, Nat.add_assoc]

/-- A place behind a token, and what the lexer makes of a source that goes on in another way from
there. -/
structure Cut (levels : List Level) (commented : Bool) (skip offset : Nat) (text : List Char)
    (before : List Token) (t : Token) (after : List Token) (head : List Char) (edge : Char)
    (rest : List Char) : Prop where
  text_eq : text = head ++ edge :: rest
  skipped : skip ≤ head.length
  isEdge : IsEdge edge rest
  stop : t.stop = offset + byteLength (head ++ [edge])
  lexed : tokensFrom ((before ++ [t]).foldl Level.after levels) false 0 t.stop rest = some after
  replaced : ∀ rest', Gapped rest' → (commentLength? rest = none → commentLength? rest' = none) →
    tokensFrom levels commented skip offset (head ++ edge :: rest') =
      (tokensFrom ((before ++ [t]).foldl Level.after levels) false 0 t.stop rest').map
      (before ++ t :: ·)

section
variable {levels : List Level} {commented : Bool} {offset : Nat} {c : Char} {text : List Char}
  {length : Nat} {before after : List Token} {t : Token}
  {head : List Char} {edge : Char} {rest : List Char}

theorem Cut.silent {lexeme : Lexeme} (found : lexeme? levels (c :: text) = some (length, lexeme))
    (silent : ∀ kind, lexeme ≠ .token kind)
    (cut : Cut levels (commented || lexeme = .comment) (length - 1) (offset + c.utf8Size) text
      before t after head edge rest) :
    Cut levels commented 0 offset (c :: text) before t after (c :: head) edge rest := by
  have short : length ≤ head.length + 1 := by
    have := cut.skipped
    omega
  refine ⟨by rw [cut.text_eq, List.cons_append], by simp, cut.isEdge, ?_, cut.lexed, ?_⟩
  · rw [cut.stop, List.cons_append, byteLength]
    omega
  · intro rest' gapped kept
    rw [cut.text_eq] at found
    rw [List.cons_append,
      tokensFrom_silent (lexeme_local cut.isEdge gapped kept found short) silent,
      cut.replaced rest' gapped kept]

theorem Cut.token {kind : Token.Kind}
    (found : lexeme? levels (c :: text) = some (length, .token kind))
    (cut : Cut (Level.after levels (tokenAt commented offset (c :: text) length kind))
      false (length - 1) (offset + c.utf8Size) text before t after head edge rest) :
    Cut levels commented 0 offset (c :: text)
      (tokenAt commented offset (c :: text) length kind :: before) t after
      (c :: head) edge rest := by
  have short : length ≤ head.length + 1 := by
    have := cut.skipped
    omega
  have same : ∀ rest', Gapped rest' →
      tokenAt commented offset (c :: (head ++ edge :: rest')) length kind =
      tokenAt commented offset (c :: text) length kind := by
    intro rest' gapped
    have taken : ∀ rest, (c :: head ++ edge :: rest).take length = (c :: head).take length :=
      fun rest =>
      List.take_append_of_le_length (by simpa using short)
    simp only [List.cons_append] at taken
    simp only [tokenAt, cut.text_eq, taken, isGlued_local cut.isEdge gapped c short]
  refine ⟨by rw [cut.text_eq, List.cons_append], by simp, cut.isEdge, ?_, cut.lexed, ?_⟩
  · rw [cut.stop, List.cons_append, byteLength]
    omega
  · intro rest' gapped kept
    rw [cut.text_eq] at found
    rw [List.cons_append, tokensFrom_token (lexeme_local cut.isEdge gapped kept found short),
      same rest' gapped, cut.replaced rest' gapped kept]
    simp [Function.comp_def]

theorem Cut.here {kind : Token.Kind}
    (found : lexeme? levels (c :: text) = some (length, .token kind))
    (isEdge : IsEdgeToken (tokenAt commented offset (c :: text) length kind))
    (tail : tokensFrom (Level.after levels (tokenAt commented offset (c :: text) length kind))
      false (length - 1) (offset + c.utf8Size) text = some after) :
    ∃ head edge rest, Cut levels commented 0 offset (c :: text) []
      (tokenAt commented offset (c :: text) length kind) after head edge rest := by
  obtain ⟨inHole, more, rest, isCode, ending⟩ := edgeToken_lexeme found isEdge
  have whole :
      ∀ rest, (c :: more).dropLast ++ (c :: more).getLast (List.cons_ne_nil c more) :: rest =
      c :: (more ++ rest) := by
    intro rest
    have run := congrArg (· ++ rest) (List.dropLast_concat_getLast (List.cons_ne_nil c more))
    simpa using run
  have taken : ∀ rest, (c :: (more ++ rest)).take length = c :: more := by
    intro rest
    rw [ending.length_eq, List.take_succ_cons, List.take_left]
  have stop : (tokenAt commented offset (c :: text) length kind).stop =
      offset + c.utf8Size + byteLength more := by
    rw [ending.text_eq, tokenAt, taken, byteLength, Nat.add_assoc]
  refine ⟨(c :: more).dropLast, (c :: more).getLast (List.cons_ne_nil c more), rest, ?_, by simp,
    ending.isEdge, ?_, ?_, ?_⟩
  · rw [whole, ending.text_eq]
  · rw [List.dropLast_concat_getLast, stop, byteLength, Nat.add_assoc]
  · rw [ending.length_eq, Nat.add_sub_cancel, ending.text_eq, tokensFrom_skip, ← ending.length_eq,
      ← ending.text_eq] at tail
    rw [stop]
    exact tail
  · intro rest' gapped _
    have same : tokenAt commented offset (c :: (more ++ rest')) length kind =
        tokenAt commented offset (c :: text) length kind := by
      have unglued := ending.unglued rest (Or.inr rfl)
      rw [ending.text_eq]
      simp only [tokenAt, taken, unglued, ending.unglued rest' (Or.inl gapped)]
    rw [whole, tokensFrom_token ((isCode _).trans (ending.found rest' gapped)), same, stop,
      ending.length_eq, Nat.add_sub_cancel, tokensFrom_skip]
    rfl

end

theorem tokensFrom_cut {levels : List Level} {commented : Bool} {skip offset : Nat}
    {text : List Char} {before after : List Token} {t : Token}
    (lexed : tokensFrom levels commented skip offset text = some (before ++ t :: after))
    (isEdge : IsEdgeToken t) :
    ∃ head edge rest, Cut levels commented skip offset text before t after head edge rest := by
  generalize all : before ++ t :: after = tokens at lexed
  fun_induction tokensFrom levels commented skip offset text generalizing before tokens with
  | case1 => simp_all
  | case2 levels commented skip offset c text ih =>
    obtain ⟨head, edge, rest, cut⟩ := ih tokens all lexed
    refine ⟨c :: head, edge, rest, ?_, ?_, cut.isEdge, ?_, cut.lexed, ?_⟩
    · rw [cut.text_eq, List.cons_append]
    · simpa using cut.skipped
    · rw [cut.stop, List.cons_append, byteLength]
      omega
    · intro rest' gapped kept
      rw [List.cons_append, tokensFrom, cut.replaced rest' gapped kept]
  | case3 => simp at lexed
  | case4 levels commented offset c text length next kind spelled token found =>
    rename_i ih
    obtain ⟨more, tail, same⟩ := Option.map_eq_some_iff.mp lexed
    rw [← same] at all
    cases before with
    | nil =>
      obtain ⟨rfl, rfl⟩ := List.cons.inj all
      exact Cut.here found isEdge tail
    | cons first before =>
      obtain ⟨rfl, behind⟩ := List.cons.inj all
      obtain ⟨head, edge, rest, cut⟩ := ih more behind tail
      exact ⟨c :: head, edge, rest, .token found cut⟩
  | case5 levels commented offset c text length lexeme found next silent =>
    rename_i ih
    obtain ⟨head, edge, rest, cut⟩ := ih tokens all lexed
    exact ⟨c :: head, edge, rest, .silent found silent cut⟩

end ClassDiagram.Proofs.SourceCuts
