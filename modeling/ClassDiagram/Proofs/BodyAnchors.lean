import ClassDiagram.Proofs.DecidedReadings
import ClassDiagram.Proofs.EnumBodies

/-! The token of a body behind which its new members go. Whatever the grammar takes for a method, a
constructor, a type or an initializer is never read as fields, so that a piece read as fields ends
with a semicolon. The token then is the brace that opens the body, the semicolon of its last fields
or the one behind its constants, or else it ends the last constant or is the comma behind that. -/

namespace ClassDiagram.Proofs.BodyAnchors
open Java Java.Tree Java.Outline Form Likeness Remainders TokenTrees BareTrees BodyPieces
  LocalReadings DecidedReadings SourceCuts GeneratedMembers
  GrownSources MemberPlaces EnumConstants EnumBodies

/-- How a member starts behind its modifiers if it starts with no type. -/
def keywords : List Form :=
  Grammar.declarationWords.map Form.word ++
    [Form.sym "@interface", .inside .brace .block, Form.sym "<"]

section
variable {fuel : Nat} {piece middle rest : List Tree}

private theorem keyword_unfielded
    (start : middle ∈ endsBy (ends Grammar.form fuel) Grammar.ownModifiers piece) {keyword : Form}
    (listed : keyword ∈ keywords) (next : rest ∈ endsBy (ends Grammar.form fuel) keyword middle)
    (fields : List Field) :
    member piece ≠ .fields fields := by
  have known : ∀ keyword ∈ keywords, isDecided (.seq Grammar.ownModifiers keyword) = true ∧
      solid typeRules keyword = true := by decide +kernel
  have unmodified :=
    after_followed (known keyword listed).1 (by decide +kernel) (known keyword listed).2 start next
  rcases List.mem_append.mp listed with word | other
  · obtain ⟨text, declares, rfl⟩ := List.mem_map.mp word
    obtain ⟨t, rfl, taken⟩ := mem_one_takes next
    obtain ⟨token, rfl, spelled⟩ :=
      word_spelled taken (by rintro rfl; simp [Grammar.declarationWords] at declares)
    have same : token.text = text := (by simpa [Token.isWord] using spelled text : _ ∧ _).2
    simp [member, unmodified, firstText, same, declares]
  · simp only [List.mem_cons, List.not_mem_nil, or_false] at other
    rcases other with rfl | rfl | rfl
    · obtain ⟨t, rfl, taken⟩ := mem_one_takes next
      have symbol : t.isSymbol "@interface" = true :=
        (PlainReadings.takes_sym "@interface" t).symm.trans taken
      simp [member, unmodified, symbol]
    · obtain ⟨_, _, _, _, _, rfl⟩ := mem_inside.mp next
      simp [member, unmodified, isBraces]
    · obtain ⟨t, rfl, taken⟩ := mem_one_takes next
      have symbol : t.isSymbol "<" = true := (PlainReadings.takes_sym "<" t).symm.trans taken
      simp only [member, unmodified, symbol, if_true]
      repeat' split
      all_goals simp

/-- With a type in front it is what stands behind the type that tells. -/
theorem typed_unfielded {first : Tree} {more : List Tree}
    (unmodified : after Grammar.ownModifiers piece = first :: more)
    (typed : ∀ isPrivate fields,
      typedMember isPrivate first (after (Grammar.bareType Grammar.notMemberTypes)
        (first :: more)) ≠ .fields fields)
    (fields : List Field) : member piece ≠ .fields fields := by
  simp only [member, unmodified]
  split
  · simp
  · split
    · repeat' split
      all_goals simp
    · exact typed _ fields

/-- A name and parameters behind the type make a method. -/
theorem parameters_unfielded (isPrivate : Bool) (type : Tree) {name : Token}
    (word : name.kind = .word) (rules : List Rule) (opening closing : Token)
    (inside more : List Tree) (fields : List Field) :
    typedMember isPrivate type (.leaf name :: .group .paren rules opening closing inside :: more) ≠
      .fields fields := by
  have named : (Tree.leaf name).word? = some name.text := by simp [word?, word]
  cases spelled : type.word? with
  | none => simp [typedMember, method?, fields?, named, spelled]
  | some text => simp [typedMember, method?, named, spelled]

/-- Without a name behind the type there are no fields. -/
theorem nameless_unfielded (isPrivate : Bool) (type : Tree) (bracket : Bracket) (rules : List Rule)
    (opening closing : Token) (inside more : List Tree) (fields : List Field) :
    typedMember isPrivate type (.group bracket rules opening closing inside :: more) ≠
      .fields fields := by
  have nameless : (Tree.group bracket rules opening closing inside).word? = none := rfl
  have noMethod :
      method? isPrivate type (.group bracket rules opening closing inside :: more) = none := by
    rw [method?.eq_def]
    split
    next same =>
      obtain ⟨rfl, _⟩ := List.cons.inj same
      simp [nameless]
    next => rfl
  simp [typedMember, noMethod, fields?, nameless]

private theorem typedMethod_unfielded
    (start : middle ∈ endsBy (ends Grammar.form fuel) Grammar.ownModifiers piece)
    (sequel :
      rest ∈ endsBy (ends Grammar.form fuel)
      (.seq (Grammar.bareType Grammar.notMemberTypes) (Grammar.methodRest ["_"])) middle)
    (fields : List Field) : member piece ≠ .fields fields := by
  have tidy := ends_tidy Grammar.form fuel
  obtain ⟨named, type, method⟩ := (mem_seq tidy).mp sequel
  obtain ⟨behind, name, fromParameters⟩ := (mem_seq tidy).mp method
  obtain ⟨_, parameters, _⟩ := (mem_seq tidy).mp fromParameters
  have decided : isDecided (.seq (Grammar.bareType Grammar.notMemberTypes) (.name ["_"])) = true ∧
      isDecided (.seq Grammar.ownModifiers
        (.seq (Grammar.bareType Grammar.notMemberTypes) (.name ["_"]))) = true := by decide +kernel
  have unmodified :=
    after_followed decided.2 (by decide +kernel) (by decide +kernel) start
      ((mem_seq tidy).mpr ⟨named, type, name⟩)
  have untyped :=
    after_followed decided.1 (by decide +kernel) (by decide +kernel) type name
  obtain ⟨token, accepted, rfl⟩ := mem_one.mp name
  obtain ⟨rules, opening, closing, inside, _, rfl⟩ := mem_inside.mp parameters
  have word : token.kind = .word := by
    simp only [Shape.accepts, Bool.and_eq_true, beq_iff_eq] at accepted
    exact accepted.1
  cases middle with
  | nil =>
    obtain ⟨before, whole⟩ := endsBy_within tidy _ _ _ type
    simp at whole
  | cons first more =>
    refine typed_unfielded unmodified (fun isPrivate fields => ?_) fields
    rw [untyped]
    exact parameters_unfielded isPrivate first word rules opening closing inside _ fields

/-- A name alone is a type. -/
theorem name_type {callees : Rule → List Tree → List (List Tree)} (tidy : Tidy callees)
    {excluded : List String}
    (name : rest ∈ endsBy callees (Form.name (Grammar.primitives ++ excluded)) middle) :
    rest ∈ endsBy callees (Grammar.bareType excluded) middle := by
  have none : ∀ {form}, rest ∈ endsBy callees (.opt form) rest :=
    fun {form} => (mem_alt tidy).mpr (Or.inr (by simp [endsBy]))
  have further : ∀ {form}, rest ∈ endsBy callees (.seq (.star form) .empty) rest := fun {form} =>
    (mem_seq tidy).mpr ⟨rest, (mem_star tidy).mpr (.done rest), by simp [endsBy]⟩
  have classType : rest ∈ endsBy callees (Grammar.classType excluded) middle :=
    (mem_seq tidy).mpr ⟨rest, name, (mem_seq tidy).mpr ⟨rest, none, further⟩⟩
  exact (mem_seq tidy).mpr ⟨rest, (mem_alt tidy).mpr (Or.inr classType), none⟩

private theorem namedRegion_unfielded
    (start : middle ∈ endsBy (ends Grammar.form fuel) Grammar.ownModifiers piece)
    {bracket : Bracket} {rule : Rule}
    (listed : Form.inside bracket rule ∈ [Form.inside .paren .parameters, .inside .brace .block])
    {behind : List Tree}
    (name : behind ∈ endsBy (ends Grammar.form fuel)
      (.name (Grammar.primitives ++ Grammar.notMemberTypes)) middle)
    (region : rest ∈ endsBy (ends Grammar.form fuel) (.inside bracket rule) behind)
    (fields : List Field) : member piece ≠ .fields fields := by
  have tidy := ends_tidy Grammar.form fuel
  have known : ∀ region ∈ [Form.inside .paren .parameters, .inside .brace .block],
      isDecided (.seq (Grammar.bareType Grammar.notMemberTypes) region) = true ∧
      solid typeRules region = true := by decide +kernel
  have decided : isDecided
      (.seq Grammar.ownModifiers (.name (Grammar.primitives ++ Grammar.notMemberTypes))) = true := by
    decide +kernel
  have unmodified :=
    after_followed decided (by decide +kernel) (by decide +kernel) start name
  have untyped :=
    after_followed (known _ listed).1 (by decide +kernel) (known _ listed).2
      (name_type tidy name) region
  obtain ⟨token, _, rfl⟩ := mem_one.mp name
  obtain ⟨rules, opening, closing, inside, _, rfl⟩ := mem_inside.mp region
  refine typed_unfielded unmodified (fun isPrivate fields => ?_) fields
  rw [untyped]
  exact nameless_unfielded isPrivate _ bracket rules opening closing inside _ fields

private theorem method_unfielded
    (read : rest ∈ endsBy (ends Grammar.form fuel) Grammar.memberMethod piece)
    (fields : List Field) : member piece ≠ .fields fields := by
  have tidy := ends_tidy Grammar.form fuel
  obtain ⟨middle, start, sequel⟩ := (mem_seq tidy).mp read
  rcases (mem_alt tidy).mp sequel with generic | typed
  · obtain ⟨_, result, _⟩ := (mem_seq tidy).mp generic
    obtain ⟨_, parameters, _⟩ := (mem_seq tidy).mp result
    obtain ⟨_, angle, _⟩ := (mem_seq tidy).mp parameters
    exact keyword_unfielded start (by decide +kernel) angle fields
  · exact typedMethod_unfielded start typed fields

private theorem constructor_unfielded
    (read : rest ∈ endsBy (ends Grammar.form fuel) Grammar.constructor piece)
    (fields : List Field) : member piece ≠ .fields fields := by
  have tidy := ends_tidy Grammar.form fuel
  obtain ⟨middle, start, sequel⟩ := (mem_seq tidy).mp read
  obtain ⟨behind, named, more⟩ := (mem_seq tidy).mp sequel
  rcases (mem_alt tidy).mp named with generic | name
  · obtain ⟨_, parameters, _⟩ := (mem_seq tidy).mp generic
    obtain ⟨_, angle, _⟩ := (mem_seq tidy).mp parameters
    exact keyword_unfielded start (by decide +kernel) angle fields
  · obtain ⟨_, parameters, _⟩ := (mem_seq tidy).mp more
    exact namedRegion_unfielded start (by simp) name parameters fields

private theorem compactConstructor_unfielded
    (read : rest ∈ endsBy (ends Grammar.form fuel) Grammar.compactConstructor piece)
    (fields : List Field) : member piece ≠ .fields fields := by
  have tidy := ends_tidy Grammar.form fuel
  obtain ⟨middle, start, sequel⟩ := (mem_seq tidy).mp read
  obtain ⟨behind, name, more⟩ := (mem_seq tidy).mp sequel
  obtain ⟨_, region, _⟩ := (mem_seq tidy).mp more
  exact namedRegion_unfielded start (by simp) name region fields

/-- A type or an annotation type that is declared by its keyword. -/
theorem declaration_unfielded {keyword more : Form} (listed : keyword ∈ keywords)
    (read : rest ∈ endsBy (ends Grammar.form fuel) (.seq Grammar.ownModifiers (.seq keyword more))
      piece) (fields : List Field) :
    member piece ≠ .fields fields := by
  have tidy := ends_tidy Grammar.form fuel
  obtain ⟨middle, start, sequel⟩ := (mem_seq tidy).mp read
  obtain ⟨_, next, _⟩ := (mem_seq tidy).mp sequel
  exact keyword_unfielded start listed next fields

/-- Some modifiers are modifiers. -/
theorem someModifiers_read
    (read : rest ∈ endsBy (ends Grammar.form fuel) (Form.some1 Grammar.ownModifier) piece) :
    rest ∈ endsBy (ends Grammar.form fuel) Grammar.ownModifiers piece := by
  have deciding := ends_deciding fuel
  obtain ⟨middle, first, others⟩ := (mem_seq deciding.tidy).mp read
  have shorter := endsBy_solid deciding.tidy deciding.solid (by decide +kernel) first
  exact (mem_star deciding.tidy).mpr (.next first shorter ((mem_star deciding.tidy).mp others))

private theorem record_unfielded
    (read : rest ∈ endsBy (ends Grammar.form fuel) (Grammar.recordDeclaration []) piece)
    (fields : List Field) : member piece ≠ .fields fields := by
  have tidy := ends_tidy Grammar.form fuel
  obtain ⟨_, heading, _⟩ := (mem_seq tidy).mp read
  rcases (mem_alt tidy).mp heading with modified | bare
  · obtain ⟨middle, start, sequel⟩ := (mem_seq tidy).mp modified
    obtain ⟨_, keyword, _⟩ := (mem_seq tidy).mp sequel
    exact keyword_unfielded (someModifiers_read start) (by decide +kernel) keyword fields
  · obtain ⟨_, keyword, _⟩ := (mem_seq tidy).mp bare
    exact keyword_unfielded ((mem_star tidy).mpr (.done piece)) (by decide +kernel) keyword fields

private theorem static_modifier
    (static : rest ∈ endsBy (ends Grammar.form fuel) (.word "static") piece) :
    Steps (endsBy (ends Grammar.form fuel) Grammar.ownModifier) piece rest := by
  have tidy := ends_tidy Grammar.form fuel
  obtain ⟨t, accepted, rfl⟩ := mem_one.mp static
  obtain ⟨word, keyword⟩ : t.kind = .word ∧ t.keyword = "static" := by
    simpa [Shape.accepts] using accepted
  have listed :
      (Shape.words (Grammar.modifierWords.filter (· != "non-sealed"))).accepts t = true := by
    simp only [Shape.accepts, word, keyword]
    decide
  have noTag : .leaf t :: rest ∈
      endsBy (ends Grammar.form fuel) (.absent (.sym "@interface")) (.leaf t :: rest) := by
    simp [endsBy, Form.sym, Shape.accepts, word]
  have modifier : rest ∈ endsBy (ends Grammar.form fuel) Grammar.modifier (.leaf t :: rest) :=
    mem_choice tidy (by decide +kernel) (mem_one.mpr ⟨t, listed, rfl⟩)
  exact .next ((mem_seq tidy).mpr ⟨_, noTag, modifier⟩) (by simp) (.done rest)

private theorem initializer_unfielded
    (read : rest ∈ endsBy (ends Grammar.form fuel)
      (.seq (.opt (.word "static")) (.inside .brace .block)) piece)
    (fields : List Field) : member piece ≠ .fields fields := by
  have tidy := ends_tidy Grammar.form fuel
  obtain ⟨middle, start, block⟩ := (mem_seq tidy).mp read
  have modified : middle ∈ endsBy (ends Grammar.form fuel) Grammar.ownModifiers piece := by
    rcases (mem_alt tidy).mp start with static | none
    · exact (mem_star tidy).mpr (static_modifier static)
    · exact List.mem_singleton.mp none ▸ (mem_star tidy).mpr (.done middle)
  exact keyword_unfielded modified (by decide +kernel) block fields

/-- A declaration of fields ends with a semicolon. -/
theorem fields_semicolon {fields : List Field}
    (read : [] ∈ endsBy (ends Grammar.form fuel) Grammar.classMember piece)
    (declared : member piece = .fields fields) :
    ∃ front t, piece = front ++ [.leaf t] ∧ t.isSymbol ";" = true := by
  have tidy := ends_tidy Grammar.form fuel
  have ended : ∀ {form}, endsWith isSemicolon form = true →
      [] ∈ endsBy (ends Grammar.form fuel) form piece →
      ∃ front t, piece = front ++ [.leaf t] ∧ t.isSymbol ";" = true := by
    intro form ends read
    obtain ⟨front, last, whole, atom, semicolon, taken⟩ := endsBy_last tidy ends read
    obtain ⟨t, rfl, symbol⟩ := symbol_leaf (semicolon_taken semicolon taken)
    exact ⟨front, t, whole, symbol⟩
  simp only [Grammar.classMember, Form.any, List.foldl_cons, List.foldl_nil, mem_alt tidy] at read
  rcases read with (((((((((field | method) | constructor) | compact) | class') | record) |
    interface) | annotation') | enum) | initializer) | semicolon
  · exact ended (by decide +kernel) field
  · exact absurd declared (method_unfielded method fields)
  · exact absurd declared (constructor_unfielded constructor fields)
  · exact absurd declared (compactConstructor_unfielded compact fields)
  · exact absurd declared (declaration_unfielded (by decide +kernel) class' fields)
  · exact absurd declared (record_unfielded record fields)
  · exact absurd declared (declaration_unfielded (by decide +kernel) interface fields)
  · exact absurd declared (declaration_unfielded (by decide +kernel) annotation' fields)
  · exact absurd declared (declaration_unfielded (by decide +kernel) enum fields)
  · exact absurd declared (initializer_unfielded initializer fields)
  · exact ended (by decide +kernel) semicolon

end

def Fieldless (members : List (List Tree)) : Prop :=
  ∀ piece ∈ members, ∀ fields, member piece ≠ .fields fields

def EndsFields (members : List (List Tree)) (t : Token) : Prop :=
  ∃ earlier front fields later, members = earlier ++ (front ++ [.leaf t]) :: later ∧
    member (front ++ [.leaf t]) = .fields fields ∧ t.isSymbol ";" = true ∧ Fieldless later

/-- Behind a token that starts a list of members, or behind the semicolon of the last fields. -/
theorem members_anchor {fuel : List Tree → Nat} {trees : List Tree} (closed : AllClosed trees)
    (well : AllWellBuilt trees)
    (read : ∀ piece ∈ pieces false trees, [] ∈
      endsBy (ends Grammar.form (fuel piece)) Grammar.classMember piece)
    {start : Token} (isEdge : IsEdgeToken start) :
    ∃ first second before t, trees = first ++ second ∧ start :: allTokens first = before ++ [t] ∧
      IsEdgeToken t ∧ (lastFieldStop? (pieces false trees)).getD start.stop = t.stop ∧
      (t = start ∧ Fieldless (pieces false trees) ∨ EndsFields (pieces false trees) t) := by
  obtain ⟨first, second, before, t, cut, spelled, edge, stop, place⟩ :=
    members_place closed well isEdge
  refine ⟨first.flatten, second.flatten, before, t, ?_, spelled, edge, stop, ?_⟩
  · rw [← List.flatten_append, ← cut, pieces_flatten]
  · rcases place.behind with rfl | ⟨earlier, piece, fields, rfl, declared⟩
    · have same : t = start := by simpa [allTokens] using (congrArg List.getLast? spelled).symm
      exact Or.inl ⟨same, by rw [cut]; exact place.others⟩
    · obtain ⟨front, semicolon, rfl, symbol⟩ :=
        fields_semicolon (read piece (by simp [cut])) declared
      have same : t = semicolon := by
        have last := congrArg List.getLast? spelled
        simp only [List.flatten_append, List.flatten_singleton, allTokens_append, allTokens,
          tokensOf, List.append_nil, ← List.append_assoc,
          ← List.cons_append, List.getLast?_append_cons, List.getLast?_singleton, Option.some.injEq]
          at last
        exact last.symm
      exact Or.inr ⟨earlier, front, fields, second, by rw [same, cut]; simp, same ▸ declared,
        same ▸ symbol, place.others⟩

def fieldPieces : Kind → List Tree → List (List Tree)
  | .plain, trees => pieces false trees
  | .interface, _ => []
  | .enum, trees => enumMembers trees

/-- The token of a body behind which its new members go. -/
inductive IsAnchor (kind : Kind) (opening : Token) (inside : List Tree) : Token → Prop
  | brace (fieldless : Fieldless (fieldPieces kind inside))
      (bare : kind = .enum → partsOf Grammar.enumConstant inside = [] ∧
        ∀ tree ∈ inside, tree.isSymbol ";" = false) : IsAnchor kind opening inside opening
  | field {t : Token} (ends : EndsFields (fieldPieces kind inside) t) :
    IsAnchor kind opening inside t
  | separator {constants members : List Tree} {t : Token} (isEnum : kind = .enum)
      (whole : inside = constants ++ .leaf t :: members)
      (first : ∀ tree ∈ constants, tree.isSymbol ";" = false) (semicolon : t.isSymbol ";" = true)
      (fieldless : Fieldless (fieldPieces kind inside)) : IsAnchor kind opening inside t
  | constant {front last tail : List Tree} {before : List Token} {t : Token} (isEnum : kind = .enum)
      (whole : inside = front ++ (last ++ tail))
      (unseparated : ∀ tree ∈ inside, tree.isSymbol ";" = false)
      (found : (partsOf Grammar.enumConstant inside).getLast? = some last)
      (ends : allTokens last = before ++ [t]) : IsAnchor kind opening inside t
  | comma {front last tail : List Tree} {t : Token} (isEnum : kind = .enum)
      (whole : inside = front ++ (last ++ .leaf t :: tail))
      (unseparated : ∀ tree ∈ inside, tree.isSymbol ";" = false)
      (found : (partsOf Grammar.enumConstant inside).getLast? = some last)
      (isComma : t.isSymbol "," = true) : IsAnchor kind opening inside t

/-- A place in a body behind some of its trees, and the token before it. -/
structure Anchors (c : Class) (opening : Token) (inside first second : List Tree)
    (before : List Token) (t : Token) : Prop where
  whole : inside = first ++ second
  ends : opening :: allTokens first = before ++ [t]
  isEdge : IsEdgeToken t
  isAnchor : IsAnchor c.kind opening inside t
  offset : (bodyType c opening.stop inside).anchor.offset = t.stop

section
variable {c : Class} {opening : Token} {inside : List Tree} (opens : opening.kind = .opening .brace)
  (well : AllWellBuilt inside)
include opens well

private theorem class_anchor (kind : c.kind = .plain) (derived : derives .classBody inside = true) :
    ∃ first second before t, Anchors c opening inside first second before t := by
  have closed := body_closes rfl derived
  have body : Grammar.isBody .classBody = true := rfl
  simp only [Java.derives, body, if_true, List.all_eq_true] at derived
  have read : ∀ piece ∈ pieces false inside, [] ∈
      endsBy (ends Grammar.form (depth piece)) Grammar.classMember piece := by
    intro piece listed
    have covered := derives_iff.mp (derived piece listed)
    exact covered
  obtain ⟨first, second, before, t, whole, ends, isEdge, stop, either⟩ :=
    members_anchor closed well read (.opening opens)
  refine ⟨first, second, before, t, whole, ends, isEdge, ?_, by simpa [bodyType, kind] using stop⟩
  rcases either with ⟨rfl, fieldless⟩ | ended
  · exact .brace (by rwa [kind]) (by simp [kind])
  · exact .field (by rwa [kind])

omit well in
private theorem interface_anchor (kind : c.kind = .interface) :
    Anchors c opening inside [] inside [] opening :=
  ⟨rfl, rfl, .opening opens, .brace (by simp [kind, fieldPieces, Fieldless]) (by simp [kind]),
    by simp [bodyType, kind]⟩

/-- Without a semicolon the constants tell where members go. -/
theorem open_anchor (kind : c.kind = .enum)
    (ordered : inside.Pairwise fun first second => first.stop < second.stop)
    (unseparated : ∀ t ∈ inside, t.isSymbol ";" = false) (lists : Lists (depth inside) inside) :
    ∃ first second before t, Anchors c opening inside first second before t := by
  have offset : (bodyType c opening.stop inside).anchor.offset =
      (constantStop? (partsOf Grammar.enumConstant inside) inside).getD opening.stop := by
    simp [bodyType, kind, enumType_open _ _ unseparated]
  have none : enumMembers inside = [] := by
    simp [enumMembers, (cut_open unseparated).2, pieces]
  have read := lists (Nat.le_succ _) []
  rw [List.append_nil] at read
  rcases constants_end well ordered read with ⟨constantless, _⟩ |
    ⟨front, tree, second, whole, ⟨tokens, t, spelled, same, edge⟩, ended, stop, _⟩
  · refine ⟨[], inside, [], opening, rfl, rfl, .opening opens, ?_, ?_⟩
    · exact .brace (by simp [kind, fieldPieces, none, Fieldless]) fun _ =>
        ⟨constantless, unseparated⟩
    · rw [offset, constantless]
      rfl
  · refine ⟨front ++ [tree], second, opening :: (allTokens front ++ tokens), t, by simp [whole],
      by simp [allTokens, spelled], edge, ?_, ?_⟩
    · rcases ended with @⟨first, last, rfl, found⟩ | ⟨rfl, found, isComma⟩
      · have split : inside = first ++ (last ++ [tree] ++ second) := by simpa using whole
        have tokens_eq : allTokens (last ++ [tree]) = (allTokens last ++ tokens) ++ [t] := by
          simp [allTokens, spelled]
        exact .constant kind split unseparated found tokens_eq
      · obtain ⟨comma, rfl, symbol⟩ := symbol_leaf isComma
        obtain rfl : comma = t := by simpa [tokensOf] using congrArg List.getLast? spelled
        exact .comma kind (by simpa using whole) unseparated found symbol
    · rw [offset, stop, same]
      rfl

/-- With one they go behind it, or behind the last fields there. -/
theorem enum_anchor (kind : c.kind = .enum)
    (ordered : inside.Pairwise fun first second => first.stop < second.stop)
    (derived : derives .enumBody inside = true) :
    ∃ first second before t, Anchors c opening inside first second before t := by
  obtain ⟨constants, rest, whole, inner, lists, parts⟩ := enumBody_cases derived
  rcases parts with rfl | ⟨separator, members, rfl, semicolon, taken⟩
  · rw [List.append_nil] at whole
    subst whole
    exact open_anchor opens well kind ordered inner lists
  · have isMembers : enumMembers inside = pieces false members := by
      simp [enumMembers, whole, (cut_separated inner semicolon members).2]
    rw [whole] at well
    obtain ⟨_, _, wellMembers⟩ := wellBuilt_split.mp well
    have read : ∀ piece ∈ pieces false members, [] ∈
        endsBy (ends Grammar.form (depth inside)) Grammar.classMember piece := by
      intro piece listed
      simpa using (taken piece listed).taken (Nat.le_refl _) []
    obtain ⟨first, second, before, t, cut, ended, isEdge, stop, either⟩ :=
      members_anchor (fun piece listed => (taken piece listed).closed) wellMembers read
        (separator_edge (by simp) semicolon)
    refine ⟨constants ++ .leaf separator :: first, second,
      opening :: (allTokens constants ++ before), t, by simp [whole, cut], ?_, isEdge, ?_, ?_⟩
    · simp [allTokens, tokensOf, ended]
    · rcases either with ⟨rfl, fieldless⟩ | ended
      · exact .separator kind whole inner semicolon
          (by rw [kind, fieldPieces, isMembers]; exact fieldless)
      · exact .field (by rw [kind, fieldPieces, isMembers]; exact ended)
    · rw [← stop]
      simp [bodyType, kind, whole, enumType_separated _ _ inner semicolon]

/-- Every body that the rule of its kind derives has such a place. -/
theorem body_anchor (ordered : inside.Pairwise fun first second => first.stop < second.stop)
    (derived : derives (bodyRule c.kind) inside = true) :
    ∃ first second before t, Anchors c opening inside first second before t := by
  cases kind : c.kind with
  | plain => exact class_anchor opens well kind (by rwa [kind] at derived)
  | interface => exact ⟨[], inside, [], opening, interface_anchor opens kind⟩
  | enum => exact enum_anchor opens well kind ordered (by rwa [kind] at derived)

end

end ClassDiagram.Proofs.BodyAnchors
