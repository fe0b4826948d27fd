import ClassDiagram.Java.Merge
import ClassDiagram.Proofs.BodyAnchors
import ClassDiagram.Proofs.LexedPlaces

/-! Anchors as places for new lines. The trees tell an anchor as the end of a token, and the text
behind it is looked at again for the end of its line. Both views agree: the lexer comes to the place
where the lines go, with nothing open there but the body of the type, and it meets no token on the
way from the anchor to that place. -/

namespace ClassDiagram.Proofs.SafeAnchors
open Java Java.Tree Java.Outline Text Likeness TokenTrees BareTrees BodyPieces SourceCuts
  ScannedText SplicedText TokenOrder GrownSources BodyAnchors
  LexedPlaces

section
variable {source : String} {anchor : Anchor} {before after : List Token} {t : Token}
  {levels : List Level} {head rest : List Char}
  (place : Junction source.toList before t after head rest) (here : anchor.offset = t.stop)
  (open' : (before ++ [t]).foldl Level.after [] = levels) (code : inCode levels = true)
  (more : after ≠ [])
include place here open' code more

/-- Whatever the lines are, they go behind the same gap. -/
theorem splice_place :
    ∃ gap behind, rest = gap ++ behind ∧ IsGap gap ∧
      scan levels behind = some (after.map bareToken) ∧
    ∀ lines, splice? source anchor lines =
      some (String.ofList (head ++ gap ++ ((if gap = [] then lineBreak source.toList else []) ++
      (block (lineBreak source.toList) anchor.needsSeparator lines ++ behind)))) := by
  have scanned := place.scanned
  rw [open'] at scanned
  cases loose : isLoose (rest.takeWhile (· != '\n')) with
  | false =>
    refine ⟨[], rest, rfl, .none, scanned, fun lines => ?_⟩
    rcases @splice_cases _ _ lines _ _ _ _ _ _ place here open' code more with ⟨_, spliced⟩ |
      ⟨_, loose', _⟩
    · simpa using spliced
    · simp [loose] at loose'
  | true =>
    obtain ⟨behind, parts, read⟩ := loose_continues code scanned (by simpa using more) loose
    have oneLine : '\n' ∉ rest.takeWhile (· != '\n') := fun member => by
      simpa using List.all_eq_true.mp List.all_takeWhile _ member
    obtain ⟨blanks, comment, same, blank, commented⟩ := loose_parts loose
    have accepted : scan levels (blanks ++ (comment ++ '\n' :: behind)) ≠ none := by
      rw [← List.append_assoc, ← same, ← parts, scanned]
      simp
    refine ⟨rest.takeWhile (· != '\n') ++ ['\n'], behind, by rw [List.append_assoc]; exact parts,
      ?_, read, fun lines => ?_⟩
    · rw [same]
      exact .line (blanks_layout code blank accepted) commented (same ▸ oneLine)
    · rcases @splice_cases _ _ lines _ _ _ _ _ _ place here open' code more with ⟨loose', _⟩ |
        ⟨behind', _, parts', _, spliced⟩
      · simp [loose] at loose'
      · obtain rfl : behind' = behind := by
          have whole := parts'.symm.trans parts
          simpa using List.append_cancel_left whole
        simpa using spliced

end

/-- No token stands in the gap. -/
theorem gap_tokenless {levels : List Level} (code : inCode levels = true) {gap behind : List Char}
    (isGap : IsGap gap) {offset : Nat} {after : List Token}
    (lexed : tokensFrom levels false 0 offset (gap ++ behind) = some after)
    (scanned : scan levels behind = some (after.map bareToken)) :
    ∀ u ∈ after, offset + byteLength gap ≤ u.start := by
  obtain ⟨passed, commented, later, whole, read, own⟩ := (isGap.passed code behind).tokens lexed
  obtain rfl := List.append_cancel_right whole
  have same : later.map bareToken = after.map bareToken := by
    rw [scan, tokensFrom_bare _ false commented 0 0 (offset + byteLength gap), read] at scanned
    exact Option.some.inj scanned
  obtain rfl := own.eq_of_length (by simpa using congrArg List.length same)
  intro u member
  simpa [byteLength] using (tokensFrom_ordered read).later u member

/-- Lines go into a source between two lexemes, outside strings, and before the brace that closes a
body. Between the anchor and the place where they go there is at most the end of a line with a
comment. -/
structure SafePlace (source : String) (anchor : Anchor) (closing : Token)
    (head gap rest : List Char) : Prop where
  whole : source.toList = head ++ gap ++ rest
  offset : anchor.offset = byteLength head
  isGap : IsGap gap
  inBody : byteLength (head ++ gap) ≤ closing.start
  reached : Reached source.toList (head ++ gap) [.braces] rest
  apart : ∀ first middle last lexeme, HasLexeme source.toList first middle last lexeme →
    head ++ gap <+: first ∨ first ++ middle <+: head ++ gap
  spliced : ∀ lines, splice? source anchor lines =
    some (String.ofList (head ++ gap ++ ((if gap = [] then lineBreak source.toList else []) ++
    (block (lineBreak source.toList) anchor.needsSeparator lines ++ rest))))

/-- The anchor of a body is the end of one of its own tokens, and lines may go there. -/
structure SafeAnchor (source : String) (found : SourceType) (opening closing : Token)
    (inside : List Tree) : Prop where
  braces : opening.kind = .opening .brace ∧ closing.kind = .closing .brace
  behind : ∃ first second before t, inside = first ++ second ∧
    opening :: allTokens first = before ++ [t] ∧
    IsAnchor found.type.kind opening inside t ∧ found.anchor.offset = t.stop
  bounded : found.anchor.offset ≤ byteLength source.toList
  inBody : found.anchor.offset ≤ closing.start
  place : ∃ head gap rest, SafePlace source found.anchor closing head gap rest

private theorem place_unique {source head head' rest rest' : List Char}
    (whole : source = head ++ rest) (whole' : source = head' ++ rest')
    (same : byteLength head = byteLength head') : head = head' ∧ rest = rest' := by
  have cut := cut_append head rest
  rw [← whole, whole', same, cut_append] at cut
  exact (Prod.mk.inj (Option.some.inj cut)).imp Eq.symm Eq.symm

/-- Lines may go behind a token of a body if nothing but the braces of the body is open there. -/
theorem safe_place {source : String} {anchor : Anchor} {before after : List Token}
    {t closing : Token} (lexed : tokens? source.toList = some (before ++ t :: after))
    (isEdge : IsEdgeToken t) (open' : (before ++ [t]).foldl Level.after [] = [.braces])
    (here : anchor.offset = t.stop) (listed : closing ∈ after) :
    ∃ head gap rest, SafePlace source anchor closing head gap rest := by
  obtain ⟨head, rest, place⟩ := tokens_place lexed isEdge
  obtain ⟨head', rest', reached, stop, read⟩ := tokens_reached lexed
  obtain ⟨rfl, rfl⟩ := place_unique place.source_eq reached.whole (place.stop.symm.trans stop)
  rw [open'] at reached read
  obtain ⟨gap, behind, rfl, isGap, scanned, spliced⟩ :=
    splice_place place here open' rfl (List.ne_nil_of_mem listed)
  have closed := gap_tokenless rfl isGap read scanned closing listed
  have whole : source.toList = head ++ gap ++ behind := by
    rw [List.append_assoc]; exact place.source_eq
  have there : Reached source.toList (head ++ gap) [.braces] behind :=
    ⟨whole, reached.comes.trans (isGap.passed rfl behind)⟩
  refine ⟨head, gap, behind, whole, here.trans place.stop, isGap, ?_, there,
    fun _ _ _ _ isLexeme => there.apart isLexeme, spliced⟩
  rwa [byteLength_append, ← place.stop]

section
variable {source : String} {found : SourceType} {trees : List Tree}
  {earlier later : List (List Tree)} {front inside : List Tree} {rules : List Rule}
  {opening closing : Token}
  (place : DeclaredIn source found trees earlier
  (front ++ [.group .brace rules opening closing inside]) later)
include place

private theorem declared_trees :
    trees = (earlier.flatten ++ front) ++ .group .brace rules opening closing inside ::
      later.flatten := by
  rw [← pieces_flatten trees, place.cut]
  simp

private theorem declared_well :
    AllWellBuilt (earlier.flatten ++ front) ∧
    WellBuilt (.group .brace rules opening closing inside) := by
  have well := place.well
  rw [declared_trees place] at well
  obtain ⟨outside, own, _⟩ := wellBuilt_split.mp well
  exact ⟨outside, own⟩

/-- The tokens of the source around one inside the body. -/
theorem declared_lexed {first second : List Tree} (whole : inside = first ++ second)
    {before : List Token} {t : Token} (ends : opening :: allTokens first = before ++ [t]) :
    tokens? source.toList = some
      (allTokens (earlier.flatten ++ front) ++ before ++ t ::
        (allTokens second ++ closing :: allTokens later.flatten)) := by
  rw [place.lexed, declared_trees place, List.append_assoc _ before, tokens_split ends, whole]
  simp [allTokens, tokensOf]

private theorem declared_ordered :
    inside.Pairwise fun first second => first.stop < second.stop := by
  have within : allTokens inside <:+: allTokens trees :=
    ⟨allTokens (earlier.flatten ++ front) ++ [opening], closing :: allTokens later.flatten,
      by simp [declared_trees place, allTokens, tokensOf]⟩
  exact trees_ordered ((tokens_ordered place.lexed).sublist within.sublist)

section
variable {heading : Kind × String × List Tree}
  (starts : heading? (front ++ [.group .brace rules opening closing inside]) = some heading)
include starts

private theorem declared_derived : derives (bodyRule heading.1) inside = true := by
  obtain ⟨_, _, known, _⟩ := (declared_well place).2
  have taken := declaration_body (place.covered heading starts)
  simp only [known, takes, Bool.and_eq_true, List.contains_iff_mem] at taken
  exact (List.mem_filter.mp taken.2).2

private theorem safe_anchor
    (same : found =
      bodyType (headingClass (front ++ [.group .brace rules opening closing inside]) heading)
      opening.stop inside) : SafeAnchor source found opening closing inside := by
  obtain ⟨wellOutside, opens, closes, _, wellInside⟩ := declared_well place
  have kind := headingClass_kind (front ++ [.group .brace rules opening closing inside]) heading
  generalize headingClass (front ++ [.group .brace rules opening closing inside]) heading = c
    at same kind
  obtain ⟨first, second, before, t, anchors⟩ :=
    body_anchor opens wellInside (declared_ordered place) (kind ▸ declared_derived place starts)
  have here : found.anchor.offset = t.stop := same ▸ anchors.offset
  have isAnchor : IsAnchor found.type.kind opening inside t := by
    rw [same, bodyType_kind]
    exact anchors.isAnchor
  have wellFirst : AllWellBuilt first := by
    rw [anchors.whole] at wellInside
    exact allWellBuilt_iff.mpr fun tree member =>
      allWellBuilt_iff.mp wellInside tree (by simp [member])
  obtain ⟨head, gap, rest, safe⟩ :=
    @safe_place source found.anchor _ _ t closing
      (declared_lexed place anchors.whole anchors.ends) anchors.isEdge
    (levels_body wellOutside wellFirst opens anchors.ends) here (by simp)
  have inBody := safe.inBody
  rw [byteLength_append, ← safe.offset] at inBody
  refine ⟨⟨opens, closes⟩, ⟨first, second, before, t, anchors.whole, anchors.ends, isAnchor, here⟩,
    ?_, by omega, head, gap, rest, safe⟩
  rw [safe.whole, List.append_assoc, byteLength_append, safe.offset]
  exact Nat.le_add_right _ _

end

end

/-- Where a source declares a single type, members that are missing are put in. -/
theorem merge_spliced {source : String} {found : SourceType}
    (accepted : sourceTypes? source = some [found]) {closing : Token} {head gap rest : List Char}
    (safe : SafePlace source found.anchor closing head gap rest) {model : Class}
    (missing : (Missing.between found.type model).isEmpty = false) :
    ∃ text, splice? source found.anchor
      ((Missing.between found.type model).lines model.isInterface) = some text ∧
      merge source model =
        .merged (Missing.between found.type model).fields.length
        (Missing.between found.type model).methods.length text := by
  refine ⟨_, safe.spliced _, ?_⟩
  simp [merge, accepted, missing, safe.spliced]

/-- For every type at the top of an accepted source, the anchor is the end of a token of its own
body and no further than the brace that closes it. The place where lines go from there lies in the
body, outside comments and literals, so that a merge puts in what is missing. -/
theorem anchors_are_safe {source : String} {types : List SourceType}
    (accepted : sourceTypes? source = some types) {found : SourceType} (listed : found ∈ types) :
    ∃ trees front rules opening closing inside, trees? source = some trees ∧
      front ++ [.group .brace rules opening closing inside] ∈ pieces false trees ∧
      sourceType? (front ++ [.group .brace rules opening closing inside]) = some found ∧
      SafeAnchor source found opening closing inside ∧
      (types = [found] → ∀ model, (Missing.between found.type model).isEmpty = false →
        ∃ text, splice? source found.anchor
        ((Missing.between found.type model).lines model.isInterface) = some text ∧
          merge source model =
            .merged (Missing.between found.type model).fields.length
            (Missing.between found.type model).methods.length text) := by
  obtain ⟨trees, earlier, piece, later, place⟩ := exists_declaredIn accepted listed
  obtain ⟨front, rules, opening, closing, inside, heading, rfl, starts, same⟩ :=
    sourceType_cases place.declared
  have safe := safe_anchor place starts same
  refine ⟨trees, front, rules, opening, closing, inside, place.read, by simp [place.cut],
    place.declared, safe, ?_⟩
  rintro rfl model missing
  obtain ⟨head, gap, rest, spot⟩ := safe.place
  exact merge_spliced accepted spot missing

def coastText : String :=
  "\ufeffclass Küste \x7b String s = \"\x7d//\"; // Straße\n class Bucht \x7b int tief; \x7d \x7d\nenum Wind \x7b NORD \x7b int x; \x7d, SÜD /* warm */ \x7d"

def windText : String :=
  "enum Wind \x7b NORD, SÜD, // über\n\x7d\n"

def strongWind : Class where
  name := "Wind"
  kind := .enum
  methods := [{ name := "force", returnType := "int" }]

theorem coast_safe :
    (∃ coast wind, sourceTypes? coastText = some [coast, wind] ∧ coast.anchor.offset = 35 ∧
      wind.anchor.offset = 109 ∧
      (∃ opening closing inside, SafeAnchor coastText coast opening closing inside) ∧
      ∃ opening closing inside, SafeAnchor coastText wind opening closing inside) ∧
    ∃ wind text, sourceTypes? windText = some [wind] ∧ wind.anchor.offset = 23 ∧
      splice? windText wind.anchor ((Missing.between wind.type strongWind).lines false) =
      some text ∧ merge windText strongWind = .merged 0 1 text := by
  constructor
  · have typed :
        ((sourceTypes? coastText).any fun types => types.map (·.anchor.offset) == [35, 109]) =
        true := by decide +kernel
    obtain ⟨types, accepted, offsets⟩ := (Option.any_eq_true _ _).mp typed
    obtain ⟨coast, rest, rfl, first, others⟩ := List.map_eq_cons_iff.mp (beq_iff_eq.mp offsets)
    obtain ⟨wind, rfl, second⟩ := List.map_eq_singleton_iff.mp others
    obtain ⟨_, _, _, opening, closing, inside, _, _, _, safe, _⟩ :=
      @anchors_are_safe _ _ accepted coast (by simp)
    obtain ⟨_, _, _, opening', closing', inside', _, _, _, safe', _⟩ :=
      @anchors_are_safe _ _ accepted wind (by simp)
    exact ⟨coast, wind, accepted, first, second, ⟨opening, closing, inside, safe⟩, opening',
      closing', inside', safe'⟩
  · have typed :
        ((sourceTypes? windText).any fun types =>
          types.map (fun found => (found.anchor.offset, Missing.between found.type strongWind)) ==
        [(23, ⟨[], strongWind.methods⟩)]) = true := by decide +kernel
    obtain ⟨types, accepted, facts⟩ := (Option.any_eq_true _ _).mp typed
    obtain ⟨wind, rfl, same⟩ := List.map_eq_singleton_iff.mp (beq_iff_eq.mp facts)
    obtain ⟨offset, missing⟩ := Prod.mk.inj same
    obtain ⟨_, _, _, _, _, _, _, _, _, _, merges⟩ := @anchors_are_safe _ _ accepted wind (by simp)
    obtain ⟨text, spliced, merged⟩ := merges rfl strongWind (by rw [missing]; rfl)
    rw [missing] at merged
    exact ⟨wind, text, accepted, offset, spliced, merged⟩

end ClassDiagram.Proofs.SafeAnchors
