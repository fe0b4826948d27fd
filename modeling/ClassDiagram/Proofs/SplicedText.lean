import ClassDiagram.Proofs.GeneratedText
import Mathlib.Data.List.TakeWhile

/-! Lines put into a source. Behind a brace, a separator or a word that stands between braces they
are read where they were put, and what stands before and behind them is read as before. -/

namespace ClassDiagram.Proofs.SplicedText
open Java Text TokenTrees BareTrees LexemeLocality SourceCuts ScannedText GeneratedText

private theorem after_unbracketed {t : Token}
    (plain : ∀ bracket, t.kind ≠ .opening bracket ∧ t.kind ≠ .closing bracket)
    (levels : List Level) : Level.after levels t = levels := by
  cases kind : t.kind with
  | opening bracket => exact absurd kind (plain bracket).1
  | closing bracket => exact absurd kind (plain bracket).2
  | _ => simp [Level.after, kind]

private theorem after_closed {opening closing : Token} {bracket : Bracket}
    (opens : opening.kind = .opening bracket) (closes : closing.kind = .closing bracket)
    (levels : List Level) :
    Level.after (Level.after levels opening) closing = levels := by
  cases bracket <;> simp [Level.after, opens, closes]

mutual
/-- Behind a whole tree the same regions are open as before it. -/
theorem levels_tree (tree : Tree) (well : WellBuilt tree) (levels : List Level) :
    (tokensOf tree).foldl Level.after levels = levels := by
  cases tree with
  | leaf t => exact after_unbracketed well levels
  | group bracket rules opening closing inside =>
    obtain ⟨opens, closes, _, inner⟩ := well
    rw [tokensOf, List.foldl_cons, List.foldl_append, levels_trees inside inner]
    exact after_closed opens closes levels

private theorem levels_trees (trees : List Tree) (well : AllWellBuilt trees) (levels : List Level) :
    (allTokens trees).foldl Level.after levels = levels := by
  cases trees with
  | nil => rfl
  | cons t ts => rw [allTokens, List.foldl_append, levels_tree t well.1, levels_trees ts well.2]
end

/-- Inside braces and behind whole trees there, the braces are all that is open. -/
theorem levels_body {outside first : List Tree} (wellOutside : AllWellBuilt outside)
    (wellFirst : AllWellBuilt first) {opening t : Token} (opens : opening.kind = .opening .brace)
    {before : List Token} (ended : opening :: allTokens first = before ++ [t]) :
    (allTokens outside ++ before ++ [t]).foldl Level.after [] = [.braces] := by
  rw [List.append_assoc, List.foldl_append, levels_trees _ wellOutside, ← ended, List.foldl_cons,
    levels_trees _ wellFirst]
  simp [Level.after, opens]

theorem cut_append (before after : List Char) :
    cut? (byteLength before) (before ++ after) = some (before, after) := by
  induction before with
  | nil => simp [byteLength, cut?]
  | cons c before ih =>
    have size := c.utf8Size_pos
    obtain ⟨offset, length⟩ : ∃ offset, c.utf8Size + byteLength before = offset + 1 :=
      ⟨c.utf8Size + byteLength before - 1, by omega⟩
    have behind : offset + 1 - c.utf8Size = byteLength before := by omega
    have inside : c.utf8Size ≤ offset + 1 := by omega
    rw [byteLength, length, List.cons_append, cut?, if_pos inside, behind, ih]
    rfl

/-- A place of a source behind a token, and how the source is read if it goes on in another way from
there. -/
structure Junction (source : List Char) (before : List Token) (t : Token) (after : List Token)
    (head rest : List Char) : Prop where
  source_eq : source = head ++ rest
  stop : t.stop = byteLength head
  scanned : scan ((before ++ [t]).foldl Level.after []) rest = some (after.map bareToken)
  replaced : ∀ rest', Gapped rest' → (commentLength? rest = none → commentLength? rest' = none) →
    (tokens? (head ++ rest')).map (List.map bareToken) =
      (scan ((before ++ [t]).foldl Level.after []) rest').map ((before ++ [t]).map bareToken ++ ·)

section
variable {before after : List Token} {t : Token} {offset : Nat} {text head rest : List Char}
  {edge : Char}

theorem Cut.scanned (cut : Cut [] false 0 offset text before t after head edge rest) :
    scan ((before ++ [t]).foldl Level.after []) rest = some (after.map bareToken) := by
  rw [scan, tokensFrom_bare _ _ false _ _ t.stop, cut.lexed]
  rfl

theorem Cut.scan_replaced (cut : Cut [] false 0 offset text before t after head edge rest)
    {rest' : List Char} (gapped : Gapped rest')
    (kept : commentLength? rest = none → commentLength? rest' = none) :
    (tokensFrom [] false 0 offset (head ++ edge :: rest')).map (List.map bareToken) =
      (scan ((before ++ [t]).foldl Level.after []) rest').map
        ((before ++ [t]).map bareToken ++ ·) := by
  rw [cut.replaced rest' gapped kept, scan, tokensFrom_bare _ false false 0 0 t.stop]
  simp [Function.comp_def]

end

theorem tokens_unmarked {source : List Char} (noMark : source.head? ≠ some '\ufeff') :
    tokens? source = tokensFrom [] false 0 0 source := by
  rw [tokens?]
  rintro rest rfl
  simp at noMark

/-- Behind such a token there is such a place, with or without a mark at the start of the source. -/
theorem tokens_place {source : List Char} {before after : List Token} {t : Token}
    (lexed : tokens? source = some (before ++ t :: after)) (isEdge : IsEdgeToken t) :
    ∃ head rest, Junction source before t after head rest := by
  by_cases marked : source.head? = some '\ufeff'
  · obtain ⟨text, rfl⟩ := List.head?_eq_some_iff.mp marked
    obtain ⟨head, edge, rest, cut⟩ :=
      tokensFrom_cut (show tokensFrom [] false 0 _ text = _ from lexed) isEdge
    refine ⟨'\ufeff' :: (head ++ [edge]), rest, ?_, ?_, Cut.scanned cut, ?_⟩
    · simp [cut.text_eq]
    · rw [cut.stop, byteLength]
    · intro rest' gapped kept
      simpa [tokens?] using Cut.scan_replaced cut gapped kept
  · rw [tokens_unmarked marked] at lexed
    obtain ⟨head, edge, rest, cut⟩ := tokensFrom_cut lexed isEdge
    refine ⟨head ++ [edge], rest, ?_, ?_, Cut.scanned cut, ?_⟩
    · simp [cut.text_eq]
    · rw [cut.stop, Nat.zero_add]
    · intro rest' gapped kept
      have unmarked : (head ++ edge :: rest').head? ≠ some '\ufeff' := by
        rw [cut.text_eq] at marked
        cases head with
        | nil => simpa using marked
        | cons => simpa using marked
      rw [List.append_assoc, List.singleton_append, tokens_unmarked unmarked]
      exact Cut.scan_replaced cut gapped kept

def wideBlankPoints : List Nat :=
  [0x85, 0xa0, 0x1680, 0x2000, 0x2001, 0x2002, 0x2003, 0x2004, 0x2005, 0x2006, 0x2007, 0x2008,
   0x2009, 0x200a, 0x2028, 0x2029, 0x202f, 0x205f, 0x3000]

private theorem wideBlank_listed {c : Char} (wide : wideBlanks.has c = true) :
    c.toNat ∈ wideBlankPoints := by
  simp only [Ranges.has, wideBlanks, List.any_cons, List.any_nil, Bool.or_false, Bool.or_eq_true,
    Bool.and_eq_true, decide_eq_true_eq] at wide
  simp only [wideBlankPoints, List.mem_cons, List.not_mem_nil, or_false]
  omega

/-- The lexer has no use for a blank beyond ASCII. -/
theorem wideBlank_refused {c : Char} (wide : wideBlanks.has c = true) (inHole : Bool)
    (text : List Char) : codeLexeme? inHole (c :: text) = none := by
  have all : ∀ n ∈ wideBlankPoints, Char.ofNat n ∉ marks ∧ isLayout (Char.ofNat n) = false ∧
      isNameStart (Char.ofNat n) = false ∧
      foreign (Char.ofNat n) Number.pattern = true ∧
      ∀ symbol ∈ symbols, symbol.head? ≠ some (Char.ofNat n) := by
    decide +kernel
  obtain ⟨noMark, noLayout, noStart, outside, noSymbol⟩ := by
    simpa only [Char.ofNat_toNat] using all c.toNat (wideBlank_listed wide)
  have noNumber : Number.pattern.longest? (c :: text) = none := longest_foreign outside [] text
  have none : symbolLength? (c :: text) = none := by
    rw [symbolLength?, Option.map_eq_none_iff, List.find?_eq_none]
    intro symbol listed found
    have other := noSymbol symbol listed
    cases symbol with
    | nil => exact absurd listed (by decide)
    | cons d symbol =>
      have same : d = c := by
        simpa [List.isPrefixOf] using (List.isPrefixOf_iff_prefix.mp found).head
      simp [same] at other
  simp [codeLexeme_plain noMark, simpleLexeme?, noLayout, noStart, noNumber, none]

section
variable {levels : List Level} (code : inCode levels = true)
include code

private theorem blank_layout {c : Char} (blank : isBlank c = true) {text : List Char}
    (scanned : scan levels (c :: text) ≠ none) : isLayout c = true := by
  simp only [isBlank] at blank
  split at blank
  · exact blank
  · have refused : lexeme? levels (c :: text) = none :=
      (lexeme_code code _).trans (wideBlank_refused blank false text)
    exact absurd (by simp [scan, tokensFrom, refused]) scanned

theorem blanks_layout {blanks : List Char} (blank : ∀ c ∈ blanks, isBlank c = true)
    {text : List Char} (scanned : scan levels (blanks ++ text) ≠ none) :
    ∀ c ∈ blanks, isLayout c = true := by
  induction blanks with
  | nil => simp
  | cons c blanks ih =>
    have layout := blank_layout code (blank c (by simp)) scanned
    have next : scan levels (c :: (blanks ++ text)) = scan levels (blanks ++ text) := by
      simpa using Reads.blank layout levels (blanks ++ text) code
    rw [List.cons_append, next] at scanned
    intro d member
    rcases List.mem_cons.mp member with rfl | member
    · exact layout
    · exact ih (fun d member => blank d (by simp [member])) scanned d member

omit code in
private theorem trimEnd_prefix (text : List Char) : trimEnd text <+: text := by
  have suffix := List.reverse_prefix.mpr (List.dropWhile_suffix isBlank (l := text.reverse))
  rwa [List.reverse_reverse] at suffix

omit code in
/-- A loose end of a line is made of blanks, and of a comment behind them if there is one. -/
theorem loose_parts {tail : List Char} (loose : isLoose tail = true) :
    ∃ blanks comment, tail = blanks ++ comment ∧ (∀ c ∈ blanks, isBlank c = true) ∧
      (comment = [] ∨ ∃ text, comment = '/' :: '/' :: text) := by
  have parts : tail = tail.takeWhile isBlank ++ skipBlanks tail :=
    List.takeWhile_append_dropWhile.symm
  have start : ∀ c ∈ tail.takeWhile isBlank, isBlank c = true :=
    fun c member => List.all_eq_true.mp List.all_takeWhile c member
  simp only [isLoose] at loose
  split at loose
  next nothing =>
    refine ⟨tail, [], by simp, ?_, Or.inl rfl⟩
    have behind : ∀ c ∈ skipBlanks tail, isBlank c = true := by
      have dropped := List.reverse_eq_nil_iff.mp nothing
      simpa [List.dropWhile_eq_nil_iff] using dropped
    intro c member
    rw [parts] at member
    exact (List.mem_append.mp member).elim (start c) (behind c)
  next text found =>
    obtain ⟨more, whole⟩ := trimEnd_prefix (skipBlanks tail)
    have comment : skipBlanks tail = '/' :: '/' :: (text ++ more) := by
      rw [← whole, show trimEnd (skipBlanks tail) = _ from found]
      rfl
    exact ⟨_, _, parts, start, Or.inr ⟨_, comment⟩⟩
  next => simp at loose

/-- Such an end is skipped, whatever stands on the next line. -/
theorem loose_skipped {tail rest rest' : List Char} (loose : isLoose tail = true)
    (oneLine : ∀ c ∈ tail, c ≠ '\n') (scanned : scan levels (tail ++ rest) ≠ none)
    (ended : rest'.head?.all (· == '\n') = true) :
    scan levels (tail ++ rest') = scan levels rest' := by
  obtain ⟨blanks, comment, rfl, blank, commented⟩ := loose_parts loose
  rw [List.append_assoc] at scanned
  have skipped := Reads.blanks (blanks_layout code blank scanned) levels (comment ++ rest') code
  rw [List.append_assoc, skipped]
  rcases commented with rfl | ⟨text, rfl⟩
  · simp
  · rw [scan_comment (fun c member => oneLine c (by simp [member])) ended code]
    simp

end

private theorem commentLength_noStar {text rest : List Char} (noStar : '*' ∉ text) :
    commentLength? (text ++ rest) = (commentLength? rest).map (· + text.length) := by
  induction text with
  | nil => simp
  | cons c text ih =>
    have other : c ≠ '*' := fun same => noStar (by simp [same])
    rw [List.cons_append, commentLength_cons (Or.inl other),
      ih fun inside => noStar (by simp [inside]), Option.map_map]
    congr 1

/-- A text without stars ends no comment, and leaves apart what could end one around it. -/
theorem commentLength_inserted {before inserted rest : List Char} (noStar : '*' ∉ inserted)
    (noSlash : inserted.head? ≠ some '/') (open' : commentLength? (before ++ rest) = none) :
    commentLength? (before ++ (inserted ++ rest)) = none := by
  induction before with
  | nil =>
    rw [List.nil_append] at open' ⊢
    rw [commentLength_noStar noStar, open']
    rfl
  | cons c before ih =>
    rw [List.cons_append] at open' ⊢
    by_cases ends : c = '*' ∧ (before ++ rest).head? = some '/'
    · obtain ⟨rfl, slash⟩ := ends
      obtain ⟨more, same⟩ := List.head?_eq_some_iff.mp slash
      simp [same, commentLength?] at open'
    · have unmarked : c ≠ '*' ∨ (before ++ rest).head? ≠ some '/' :=
        Classical.not_and_iff_not_or_not.mp ends
      have unmarked' : c ≠ '*' ∨ (before ++ (inserted ++ rest)).head? ≠ some '/' := by
        cases before with
        | cons d before => simpa using unmarked
        | nil =>
          cases inserted with
          | nil => exact unmarked
          | cons d inserted => exact Or.inr noSlash
      rw [commentLength_cons unmarked, Option.map_eq_none_iff] at open'
      rw [commentLength_cons unmarked', ih open']
      rfl

/-- Behind a loose end of a line that is not the last one. -/
theorem loose_continues {levels : List Level} (code : inCode levels = true) {rest : List Char}
    {tokens : List Token} (scanned : scan levels rest = some tokens) (more : tokens ≠ [])
    (loose : isLoose (rest.takeWhile (· != '\n')) = true) :
    ∃ behind, rest = rest.takeWhile (· != '\n') ++ '\n' :: behind ∧
      scan levels behind = some tokens := by
  have oneLine : ∀ c ∈ rest.takeWhile (· != '\n'), c ≠ '\n' := fun c member => by
    simpa using List.all_eq_true.mp List.all_takeWhile c member
  have parts : rest = rest.takeWhile (· != '\n') ++ rest.dropWhile (· != '\n') :=
    List.takeWhile_append_dropWhile.symm
  have stopped := List.head?_dropWhile_not (· != '\n') rest
  have accepted :
      scan levels (rest.takeWhile (· != '\n') ++ rest.dropWhile (· != '\n')) ≠ none := by
    rw [← parts, scanned]
    simp
  cases feed : rest.dropWhile (· != '\n') with
  | nil =>
    -- then nothing but the end of the line would be left
    have nothing := @loose_skipped _ code _ _ [] loose oneLine accepted rfl
    rw [feed] at parts
    rw [← parts, scanned] at nothing
    exact absurd (Option.some.inj nothing) more
  | cons c behind =>
    obtain rfl : c = '\n' := by simpa [feed] using stopped
    refine ⟨behind, by rw [← feed]; exact parts, ?_⟩
    have skipped :=
      loose_skipped code loose oneLine accepted
        (show ('\n' :: behind).head?.all (· == '\n') = true from rfl)
    rw [feed] at parts
    rw [← parts, scanned, show '\n' :: behind = ['\n'] ++ behind from rfl,
      Reads.blank (by decide) levels behind code] at skipped
    simpa using skipped.symm

private theorem newline_gapped {newline : List Char} (isLineBreak : IsLineBreak newline)
    (rest : List Char) : Gapped (newline ++ rest) := by
  rcases isLineBreak with rfl | rfl
  · exact ⟨'\n', by decide, rest, rfl⟩
  · exact ⟨'\r', by decide, '\n' :: rest, rfl⟩

private theorem newline_noStar {newline : List Char} (isLineBreak : IsLineBreak newline) :
    '*' ∉ newline ∧ ∀ rest, (newline ++ rest).head? ≠ some '/' := by
  rcases isLineBreak with rfl | rfl <;> simp

/-- The loose end of a line keeps what follows it apart from the token before. -/
theorem loose_gapped {levels : List Level} (code : inCode levels = true) {tail rest : List Char}
    (loose : isLoose tail = true)
    (scanned : scan levels (tail ++ rest) ≠ none) (rest' : List Char) :
    Gapped (tail ++ '\n' :: rest') := by
  obtain ⟨blanks, comment, rfl, blank, commented⟩ := loose_parts loose
  rw [List.append_assoc] at scanned ⊢
  cases blanks with
  | cons c blanks => exact ⟨c, layout_gap (blanks_layout code blank scanned c (by simp)), _, rfl⟩
  | nil =>
    rcases commented with rfl | ⟨text, rfl⟩
    · exact ⟨'\n', by decide, rest', rfl⟩
    · exact ⟨'/', by decide, _, rfl⟩

section
variable {source : String} {anchor : Anchor} {lines : List String}
  {before after inserted : List Token} {t : Token} {levels : List Level}
  {head rest : List Char} (place : Junction source.toList before t after head rest)
  (here : anchor.offset = t.stop)

include place here

/-- Where lines go: at once behind the token, or behind its line. -/
theorem splice_cases (open' : (before ++ [t]).foldl Level.after [] = levels)
    (code : inCode levels = true) (more : after ≠ []) :
    (isLoose (rest.takeWhile (· != '\n')) = false ∧ splice? source anchor lines =
      some (String.ofList (head ++
        (lineBreak source.toList ++
          block (lineBreak source.toList) anchor.needsSeparator lines ++ rest)))) ∨
    ∃ behind, isLoose (rest.takeWhile (· != '\n')) = true ∧
      rest = rest.takeWhile (· != '\n') ++ '\n' :: behind ∧
      scan levels behind = some (after.map bareToken) ∧ splice? source anchor lines =
        some (String.ofList (head ++ (rest.takeWhile (· != '\n') ++ '\n' ::
          (block (lineBreak source.toList) anchor.needsSeparator lines ++ behind)))) := by
  have cut : cut? anchor.offset source.toList = some (head, rest) := by
    rw [here, place.stop]
    rw [place.source_eq]
    exact cut_append head rest
  cases loose : isLoose (rest.takeWhile (· != '\n')) with
  | false =>
    refine Or.inl ⟨rfl, ?_⟩
    simp [splice?, cut, loose]
  | true =>
    have scanned := place.scanned
    rw [open'] at scanned
    obtain ⟨behind, parts, read⟩ := loose_continues code scanned (by simpa using more) loose
    refine Or.inr ⟨behind, rfl, parts, read, ?_⟩
    have feed : rest.dropWhile (· != '\n') = '\n' :: behind :=
      List.append_cancel_left (List.takeWhile_append_dropWhile.trans parts)
    have ended : endsLine (head ++ (rest.takeWhile (· != '\n') ++ ['\n'])) = true := by
      simp [endsLine]
    simp [splice?, cut, loose, splitLine, feed, ended, String.append_assoc]

/-- Lines put in behind a token are read there. -/
theorem splice_tokens (open' : (before ++ [t]).foldl Level.after [] = levels)
    (code : inCode levels = true) (more : after ≠ [])
    (read : Reads (block (lineBreak source.toList) anchor.needsSeparator lines) inserted)
    (noStar : '*' ∉ block (lineBreak source.toList) anchor.needsSeparator lines)
    (noSlash : (block (lineBreak source.toList) anchor.needsSeparator lines).head? ≠ some '/') :
    ∃ text tokens, splice? source anchor lines = some text ∧ tokens? text.toList = some tokens ∧
      tokens.map bareToken = (before ++ [t]).map bareToken ++
      (inserted ++ after.map bareToken) := by
  have newline := lineBreak_isLineBreak source.toList
  have scanned := place.scanned
  rw [open'] at scanned
  rcases splice_cases place here open' code more with ⟨_, spliced⟩ |
    ⟨behind, loose, parts, next, spliced⟩
  · have kept :=
      @commentLength_inserted []
        (lineBreak source.toList ++ block (lineBreak source.toList) anchor.needsSeparator lines)
        rest (by simp [noStar, (newline_noStar newline).1]) ((newline_noStar newline).2 _)
    rw [List.nil_append, List.nil_append] at kept
    have tokens := place.replaced _ (by rw [List.append_assoc]; exact newline_gapped newline _) kept
    have inner := (reads_newline newline).append read
    rw [open', inner _ _ code, scanned] at tokens
    obtain ⟨all, lexed, same⟩ := Option.map_eq_some_iff.mp tokens
    exact ⟨_, all, spliced, by rw [String.toList_ofList]; exact lexed, by simpa using same⟩
  · have kept := @commentLength_inserted (rest.takeWhile (· != '\n') ++ ['\n'])
      (block (lineBreak source.toList) anchor.needsSeparator lines) behind noStar noSlash
    have whole : ∀ rest', rest.takeWhile (· != '\n') ++ ['\n'] ++ rest' =
        rest.takeWhile (· != '\n') ++ '\n' :: rest' := by simp
    have accepted : scan levels (rest.takeWhile (· != '\n') ++ '\n' :: behind) ≠ none := by
      rw [← parts, scanned]
      simp
    have oneLine : ∀ c ∈ rest.takeWhile (· != '\n'), c ≠ '\n' := fun c member => by
      simpa using List.all_eq_true.mp List.all_takeWhile c member
    rw [whole, whole, ← parts] at kept
    have tokens := place.replaced _ (loose_gapped code loose accepted _) kept
    have inner := (Reads.blank (c := '\n') (by decide)).append read
    have skipped := loose_skipped code loose oneLine accepted
      (show ('\n' ::
        (block (lineBreak source.toList) anchor.needsSeparator lines ++ behind)).head?.all
        (· == '\n') = true from rfl)
    rw [open', skipped, ← List.cons_append, ← List.singleton_append, inner _ _ code, next] at tokens
    obtain ⟨all, lexed, same⟩ := Option.map_eq_some_iff.mp tokens
    exact ⟨_, all, spliced, by rw [String.toList_ofList]; exact lexed, by simpa using same⟩

end

end ClassDiagram.Proofs.SplicedText
