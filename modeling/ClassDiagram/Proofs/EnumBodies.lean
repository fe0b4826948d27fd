import ClassDiagram.Proofs.EnumConstants

/-! Bodies of enums. The constants stand before the first semicolon, and the declarations behind it
are cut apart like those of a class. Without a semicolon new members go behind the constants,
together with one. A comma that is left behind them then makes the body one that no rule derives; in
all other cases the enum grows by the members and by nothing else. -/

namespace ClassDiagram.Proofs.EnumBodies
open Java Java.Tree Java.Outline Form Likeness Remainders TokenTrees BareTrees BodyPieces
  LocalReadings SourceCuts TokenOrder GeneratedText GeneratedMembers
  GrownSources MemberPlaces EnumConstants

/-- How deep calls may nest where the trees are derived. -/
def depth (trees : List Tree) : Nat :=
  (trees.length + 1) * chainLength - 1

private theorem depth_le {trees trees' : List Tree} (longer : trees.length ≤ trees'.length) :
    depth trees ≤ depth trees' := by
  simp only [depth, chainLength]
  omega

/-- Trees that are taken as the constants of an enum with enough fuel, whatever follows. -/
def Lists (fuel : Nat) (constants : List Tree) : Prop :=
  ∀ {fuel'}, fuel ≤ fuel' →
    ∀ rest, rest ∈ endsBy (ends Grammar.form fuel') (Grammar.items Grammar.enumConstant)
    (constants ++ rest)

/-- Constants, and behind them nothing, or a semicolon with members. -/
theorem enumBody_cases {inside : List Tree} (derived : derives .enumBody inside = true) :
    ∃ constants rest, inside = constants ++ rest ∧ (∀ t ∈ constants, t.isSymbol ";" = false) ∧
      Lists (depth inside) constants ∧
      (rest = [] ∨ ∃ separator members, rest = .leaf separator :: members ∧
        separator.isSymbol ";" = true ∧
        ∀ piece ∈ pieces false members, IsMemberPiece (depth inside) piece) := by
  have noBody : Grammar.isBody .enumBody = false := rfl
  simp only [Java.derives, noBody, Bool.false_eq_true, if_false] at derived
  rw [derives_iff] at derived
  have tidy := ends_tidy Grammar.form (depth inside)
  obtain ⟨rest, start, ended⟩ := (mem_seq tidy).mp derived
  have called : ∀ rule trees rest, memberRules rule = true →
      rest ∈ ends Grammar.form (depth inside) rule trees → Taken (avoids ";") trees rest :=
    fun rule trees rest called member => ends_taken memberRules_inner _ called member
  have built : builtFrom (avoids ";") memberRules (Grammar.items Grammar.enumConstant) = true := by
    decide +kernel
  have free : isLocal memberRules (Grammar.items Grammar.enumConstant) = true := by decide +kernel
  obtain ⟨constants, whole, inner⟩ := endsBy_taken tidy called built start
  refine ⟨constants, rest, whole, ?_,
    fun enough behind => form_moves free enough constants rest behind (whole ▸ start), ?_⟩
  · intro t member
    obtain ⟨atom, avoided, taken⟩ := inner t member
    exact avoids_taken avoided taken
  · rcases (mem_alt tidy).mp ended with some | none
    · obtain ⟨members, first, steps⟩ := (mem_seq tidy).mp some
      obtain ⟨separator, taken, rfl⟩ := mem_one.mp first
      exact Or.inr ⟨separator, members, rfl,
        (PlainReadings.takes_sym ";" (.leaf separator)).symm.trans taken,
        members_pieces ((mem_star tidy).mp steps)⟩
    · exact Or.inl (List.mem_singleton.mp none).symm

/-- Such trees make up the body of an enum. -/
theorem enumBody_built {fuel : Nat} {constants : List Tree} (listed : Lists fuel constants)
    {separator : Token} (semicolon : separator.isSymbol ";" = true)
    {all : List (List Tree)} (members : ∀ piece ∈ all, IsMemberPiece fuel piece)
    (enough : fuel ≤ depth (constants ++ .leaf separator :: all.flatten)) :
    derives .enumBody (constants ++ .leaf separator :: all.flatten) = true := by
  have noBody : Grammar.isBody .enumBody = false := rfl
  simp only [Java.derives, noBody, Bool.false_eq_true, if_false]
  rw [derives_iff]
  have tidy := ends_tidy Grammar.form (depth (constants ++ .leaf separator :: all.flatten))
  have taken : takes (Form.sym ";") (.leaf separator) = true :=
    (PlainReadings.takes_sym ";" (.leaf separator)).trans semicolon
  refine (mem_seq tidy).mpr ⟨_, listed enough _, (mem_alt tidy).mpr (Or.inl ?_)⟩
  refine (mem_seq tidy).mpr ⟨all.flatten, mem_one.mpr ⟨separator, taken, rfl⟩, ?_⟩
  exact (mem_star tidy).mpr
    (pieces_steps (fun piece member => (members piece member).closed) fun piece member =>
      (members piece member).taken enough)

def constantNames (trees : List Tree) : List String :=
  (partsOf Grammar.enumConstant trees).filterMap constantName?

section
variable (c : Class) (opening : Nat) {constants : List Tree}
  (inner : ∀ t ∈ constants, t.isSymbol ";" = false)
include inner

theorem cut_separated {separator : Token} (semicolon : separator.isSymbol ";" = true)
    (members : List Tree) :
    (constants ++ .leaf separator :: members).takeWhile (!·.isSymbol ";") = constants ∧
      (constants ++ .leaf separator :: members).dropWhile (!·.isSymbol ";") =
        .leaf separator :: members := by
  have all : ∀ t ∈ constants, (!t.isSymbol ";") = true := fun t member => by simp [inner t member]
  have ends : ∀ t ∈ (Tree.leaf separator :: members).head?, (!t.isSymbol ";") = false :=
    fun t head => by
    obtain rfl : .leaf separator = t := by simpa using head
    simp [Tree.isSymbol, semicolon]
  exact ⟨Blanks.takeWhile_stops all ends, Blanks.dropWhile_stops all ends⟩

theorem cut_open :
    constants.takeWhile (!·.isSymbol ";") = constants ∧
    constants.dropWhile (!·.isSymbol ";") = [] := by
  have all : ∀ t ∈ constants, (!t.isSymbol ";") = true := fun t member => by simp [inner t member]
  exact ⟨List.takeWhile_eq_self_iff.mpr all, List.dropWhile_eq_nil_iff.mpr all⟩

/-- An enum whose constants a semicolon ends has members. -/
theorem enumType_separated {separator : Token} (semicolon : separator.isSymbol ";" = true)
    (members : List Tree) : enumType c opening (constants ++ .leaf separator :: members) =
      { type := addMembers { c with constants := constantNames constants } (pieces false members)
        anchor := { offset := (lastFieldStop? (pieces false members)).getD separator.stop } } := by
  obtain ⟨first, rest⟩ := cut_separated inner semicolon members
  simp only [enumType, first, rest]
  rfl

/-- One without a semicolon has none. -/
theorem enumType_open : enumType c opening constants =
    { type := { c with constants := constantNames constants }
      anchor :=
    { offset := (constantStop? (partsOf Grammar.enumConstant constants) constants).getD opening,
      needsSeparator := true } } := by
  obtain ⟨first, rest⟩ := cut_open inner
  simp only [enumType, first, rest]
  rfl

end

def enumMembers (inside : List Tree) : List (List Tree) :=
  pieces false (inside.dropWhile (!·.isSymbol ";")).tail

section
variable {source : String} {found : SourceType} (sole : Sole source found)
  (kind : found.type.kind = .enum)
include sole

private theorem inside_ordered :
    sole.inside.Pairwise fun first second => first.stop < second.stop := by
  have within : allTokens sole.inside <:+:
      allTokens (sole.earlier.flatten ++
        (sole.front ++ body sole.opening sole.closing sole.inside :: sole.later.flatten)) :=
    ⟨allTokens (sole.earlier.flatten ++ sole.front) ++ [sole.opening],
      sole.closing :: allTokens sole.later.flatten, by simp [allTokens, tokensOf, body]⟩
  exact trees_ordered ((tokens_ordered sole.lexed).sublist within.sublist)

/-- The place behind a tree of the body. -/
theorem anchored_behind {front second : List Tree} {tree : Tree}
    (whole : sole.inside = front ++ tree :: second) (edge : EndsAtEdge tree)
    (offset : found.anchor.offset = tree.stop) : Anchored sole (front ++ [tree]) second := by
  obtain ⟨before, t, spelled, stop, isEdge⟩ := edge
  refine ⟨by simp [whole], sole.opening :: (allTokens front ++ before), t,
    by simp [allTokens, spelled], isEdge, ?_⟩
  rw [offset, stop]

/-- The place behind the brace that opens the body. -/
theorem anchored_start (offset : found.anchor.offset = sole.opening.stop) :
    Anchored sole [] sole.inside :=
  ⟨rfl, [], sole.opening, rfl, .opening sole.opens, offset⟩

include kind

private theorem enum_derived : derives .enumBody sole.inside = true := by
  have derived := sole.derived
  rwa [sole.heading_kind.trans kind] at derived

private theorem bodyType_enum (inside : List Tree) :
    bodyType sole.bare sole.opening.stop inside = enumType sole.bare sole.opening.stop inside := by
  simp only [bodyType, sole.bare_kind, kind]

/-- Without a semicolon members go behind the constants and the comma behind those, unless that
stands alone or a comment hides it. -/
theorem open_place (inner : ∀ t ∈ sole.inside, t.isSymbol ";" = false)
    (lists : Lists (depth sole.inside) sole.inside) :
    ∃ first second, Anchored sole first second ∧
      (second = [] ∨ ∃ comma, second = [.leaf comma] ∧ comma.isSymbol "," = true) := by
  have found_eq := sole.found_eq.trans (bodyType_enum sole kind sole.inside)
  rw [enumType_open _ _ inner] at found_eq
  have offset : found.anchor.offset =
      (constantStop? (partsOf Grammar.enumConstant sole.inside) sole.inside).getD
      sole.opening.stop :=
    congrArg (·.anchor.offset) found_eq
  have atStart : partsOf Grammar.enumConstant sole.inside = [] → Anchored sole [] sole.inside :=
    fun none =>
    anchored_start sole (offset.trans (by rw [none]; rfl))
  have read := lists (Nat.le_succ _) []
  rw [List.append_nil] at read
  rcases constants_end sole.well_inside (inside_ordered sole) read with ⟨none, shape⟩ |
    ⟨front, tree, second, whole, edge, _, stop, shape⟩
  · exact ⟨[], sole.inside, atStart none, shape⟩
  · rw [stop] at offset
    exact ⟨front ++ [tree], second, anchored_behind sole whole edge offset, shape⟩

/-- An enum without a semicolon, and the place behind its constants. A comma may be left behind the
place. -/
structure IsOpen (first second : List Tree) : Prop where
  anchored : Anchored sole first second
  behind : second = [] ∨ ∃ comma, second = [.leaf comma] ∧ comma.isSymbol "," = true
  inner : ∀ t ∈ sole.inside, t.isSymbol ";" = false
  lists : Lists (depth sole.inside) sole.inside
  needed : found.anchor.needsSeparator = true
  type_eq : found.type = { sole.bare with constants := constantNames sole.inside }

/-- An enum with a semicolon, and the place among the members behind it. -/
structure IsSeparated (constants : List Tree) (separator : Token)
    (first second : List (List Tree)) : Prop where
  anchored : Anchored sole (constants ++ .leaf separator :: first.flatten) second.flatten
  isPlace : IsPlace first second
  inner : ∀ t ∈ constants, t.isSymbol ";" = false
  semicolon : separator.isSymbol ";" = true
  lists : Lists (depth sole.inside) constants
  taken : ∀ piece ∈ first ++ second, IsMemberPiece (depth sole.inside) piece
  spared : found.anchor.needsSeparator = false
  type_eq :
    found.type = addMembers { sole.bare with constants := constantNames constants }
    (first ++ second)

/-- Members go behind the constants if there is no semicolon, else behind the last fields or the
semicolon. -/
theorem enum_place :
    (∃ first second, IsOpen sole first second) ∨
      ∃ constants separator first second, IsSeparated sole constants separator first second := by
  have found_eq := sole.found_eq.trans (bodyType_enum sole kind sole.inside)
  obtain ⟨constants, rest, whole, inner, lists, parts⟩ := enumBody_cases (enum_derived sole kind)
  rcases parts with rfl | ⟨separator, members, rfl, semicolon, taken⟩
  · rw [List.append_nil] at whole
    subst whole
    obtain ⟨first, second, place, comma⟩ := open_place sole kind inner lists
    rw [enumType_open _ _ inner] at found_eq
    exact Or.inl ⟨first, second, place, comma, inner, lists,
      congrArg (·.anchor.needsSeparator) found_eq, congrArg SourceType.type found_eq⟩
  · have well := sole.well_inside
    rw [whole, enumType_separated _ _ inner semicolon] at found_eq
    rw [whole] at well
    obtain ⟨_, _, wellMembers⟩ := wellBuilt_split.mp well
    have closed : AllClosed members := fun piece listed => (taken piece listed).closed
    obtain ⟨first, second, before, t, cut, ended, isEdge, stop, place⟩ :=
      members_place closed wellMembers (separator_edge (by simp) semicolon)
    rw [cut] at taken
    refine Or.inr ⟨constants, separator, first, second,
      ⟨?_, sole.opening :: (allTokens constants ++ before), t, ?_, isEdge, ?_⟩, place,
      inner, semicolon, lists, taken, congrArg (·.anchor.needsSeparator) found_eq, ?_⟩
    · rw [whole, ← pieces_flatten members, cut]
      simp
    · simp [allTokens, tokensOf, ended]
    · exact (congrArg (·.anchor.offset) found_eq).trans stop
    · rw [← cut]
      exact congrArg SourceType.type found_eq

end

/-- Member pieces are cut apart again. -/
theorem pieces_members {fuel : Nat} {all : List (List Tree)}
    (members : ∀ piece ∈ all, IsMemberPiece fuel piece) : pieces false all.flatten = all := by
  simpa [pieces] using pieces_append (fun piece member => (members piece member).closed) []

section
variable {missing : Missing} (plain : PlainMembers missing.fields missing.methods)
  (signatureOnly : Bool)
include plain

private theorem memberTrees_pieces (fuel : Nat) :
    ∀ piece ∈ memberTrees signatureOnly missing, IsMemberPiece fuel piece := by
  have body : Grammar.isBody .classBody = true := rfl
  intro piece member
  refine ⟨memberTrees_closed signatureOnly piece member, fun {fuel'} _ rest => ?_⟩
  rcases List.mem_append.mp member with member | member
  · obtain ⟨field, listed, rfl⟩ := List.mem_map.mp member
    exact field_taken body (plain.fields field listed) rest
  · obtain ⟨method, listed, rfl⟩ := List.mem_map.mp member
    exact method_taken body signatureOnly (plain.methods method listed) rest

variable {source : String} {found : SourceType} {sole : Sole source found}
  (kind : found.type.kind = .enum)
include kind

/-- Behind a semicolon the enum grows like a class. -/
theorem separated_grown {constants : List Tree} {separator : Token}
    {first second : List (List Tree)}
    (separated : IsSeparated sole constants separator first second) :
    ∃ text new, splice? source found.anchor (missing.lines signatureOnly) = some text ∧
      sourceTypes? text = some [new] ∧ new.type = { found.type with
        fields := found.type.fields ++ missing.fields
        methods :=
  (first.map member).flatMap methodsOf ++
    (missing.methods ++ (second.map member).flatMap methodsOf) } := by
  obtain ⟨text, new, spliced, isType, _, accepted⟩ :=
    spliced_body signatureOnly plain separated.anchored
  have shape :
      constants ++ .leaf separator :: first.flatten ++
      (separatorTrees found.anchor.needsSeparator ++
      (memberTrees signatureOnly missing).flatten ++ second.flatten) =
      constants ++ .leaf separator ::
      (first ++ (memberTrees signatureOnly missing ++ second)).flatten := by
    rw [separated.spared]
    simp [separatorTrees]
  have all :
      ∀ piece ∈ first ++ (memberTrees signatureOnly missing ++ second),
      IsMemberPiece (depth sole.inside) piece := by
    intro piece member
    rcases List.mem_append.mp member with member | member
    · exact separated.taken piece (by simp [member])
    · rcases List.mem_append.mp member with member | member
      · exact memberTrees_pieces plain signatureOnly _ piece member
      · exact separated.taken piece (by simp [member])
  have enough : depth sole.inside ≤
      depth (constants ++ .leaf separator ::
        (first ++ (memberTrees signatureOnly missing ++ second)).flatten) := by
    apply depth_le
    rw [separated.anchored.whole]
    simp only [List.length_append, List.length_cons, List.flatten_append]
    omega
  rw [shape, sole.heading_kind, kind] at accepted
  refine ⟨text, new, spliced,
    accepted.mp (enumBody_built separated.lists separated.semicolon all enough), ?_⟩
  rw [shape, bodyType_enum sole kind, enumType_separated _ _ separated.inner separated.semicolon,
    pieces_members all] at isType
  rw [isType, separated.type_eq, addMembers_grown signatureOnly plain _ separated.isPlace.fieldless]
  rfl

/-- Behind all that the constants take up it gets its first members. -/
theorem open_grown {first : List Tree} (isOpen : IsOpen sole first []) :
    ∃ text new, splice? source found.anchor (missing.lines signatureOnly) = some text ∧
      sourceTypes? text = some [new] ∧
      new.type = { found.type with fields := missing.fields, methods := missing.methods } := by
  obtain ⟨text, new, spliced, isType, _, accepted⟩ :=
    spliced_body signatureOnly plain isOpen.anchored
  have shape :
      first ++ (separatorTrees found.anchor.needsSeparator ++
        (memberTrees signatureOnly missing).flatten ++ []) =
      sole.inside ++ .leaf (ScannedText.symbolToken ";") ::
      (memberTrees signatureOnly missing).flatten := by
    rw [isOpen.needed, isOpen.anchored.whole]
    simp [separatorTrees, symbolTree]
  have all := memberTrees_pieces plain signatureOnly (depth sole.inside)
  rw [shape, sole.heading_kind, kind] at accepted
  refine ⟨text, new, spliced,
    accepted.mp (enumBody_built isOpen.lists (by decide) all (depth_le (by simp))), ?_⟩
  rw [shape, bodyType_enum sole kind, enumType_separated _ _ isOpen.inner (by decide),
    pieces_members all] at isType
  rw [isType, isOpen.type_eq]
  simp [addMembers, memberTrees_fields signatureOnly plain, memberTrees_methods signatureOnly plain]

/-- What is put in before a comma is followed by a piece that is no member. -/
theorem stranded_refused {first : List Tree} {comma : Token}
    (isOpen : IsOpen sole first [.leaf comma]) (isComma : comma.isSymbol "," = true) :
    ∃ text, splice? source found.anchor (missing.lines signatureOnly) = some text ∧
      sourceTypes? text = none := by
  obtain ⟨text, new, spliced, isType, either, accepted⟩ :=
    spliced_body signatureOnly plain isOpen.anchored
  have shape :
      first ++ (separatorTrees found.anchor.needsSeparator ++
        (memberTrees signatureOnly missing).flatten ++ [.leaf comma]) =
      first ++ .leaf (ScannedText.symbolToken ";") ::
      ((memberTrees signatureOnly missing).flatten ++ [.leaf comma]) := by
    rw [isOpen.needed]
    simp [separatorTrees, symbolTree]
  rw [shape, sole.heading_kind, kind] at accepted
  refine ⟨text, spliced, either.resolve_right fun read => ?_⟩
  obtain ⟨constants, rest, whole, inner, _, parts⟩ := enumBody_cases (accepted.mpr read)
  have own : ∀ t ∈ first, t.isSymbol ";" = false :=
    fun t member => isOpen.inner t (by simp [isOpen.anchored.whole, member])
  rcases parts with rfl | ⟨separator, members, rfl, semicolon, taken⟩
  · rw [List.append_nil] at whole
    have missing := inner (.leaf (ScannedText.symbolToken ";")) (by simp [← whole])
    exact absurd missing (by decide)
  · have same : (memberTrees signatureOnly missing).flatten ++ [.leaf comma] = members := by
      have behind := congrArg (List.dropWhile (!·.isSymbol ";")) whole
      rw [(cut_separated own (by decide) _).2, (cut_separated inner semicolon _).2] at behind
      exact (List.cons.inj behind).2
    have other : comma.isSymbol ";" = false := by
      simp only [Token.isSymbol, Bool.and_eq_true, beq_iff_eq] at isComma
      simp [Token.isSymbol, isComma.2]
    rw [← same, pieces_append (memberTrees_closed signatureOnly)] at taken
    have last :=
      (taken [.leaf comma] (by simp [pieces, Tree.isSymbol, Tree.isBraces, other])).closed
    simp [closes, Tree.isSymbol, Tree.isBraces, other] at last

/-- An enum grows by the members at the place for them, and by nothing else, unless a comma of its
constants is left behind the place: then the source is refused. -/
theorem enum_grown (sole : Sole source found) :
    ∃ text, splice? source found.anchor (missing.lines signatureOnly) = some text ∧
    ((∃ first comma, IsOpen sole first [.leaf comma] ∧ comma.isSymbol "," = true ∧
      sourceTypes? text = none) ∨
      ((found.anchor.needsSeparator = true → ∃ first, IsOpen sole first []) ∧
        ∃ new first second, sourceTypes? text = some [new] ∧
        enumMembers sole.inside = first ++ second ∧ IsPlace first second ∧
        found.type.methods = (first.map member).flatMap methodsOf ++
        (second.map member).flatMap methodsOf ∧
        new.type = { found.type with
          fields := found.type.fields ++ missing.fields
          methods :=
  (first.map member).flatMap methodsOf ++
    (missing.methods ++ (second.map member).flatMap methodsOf) })) := by
  rcases enum_place sole kind with ⟨first, second, isOpen⟩ |
    ⟨constants, separator, first, second, separated⟩
  · rcases isOpen.behind with rfl | ⟨comma, rfl, isComma⟩
    · obtain ⟨text, new, spliced, accepted, grown⟩ := open_grown plain signatureOnly kind isOpen
      obtain ⟨fieldless, methodless⟩ := sole.bare_members
      have fields : found.type.fields = [] := (congrArg Class.fields isOpen.type_eq).trans fieldless
      have methods : found.type.methods = [] :=
        (congrArg Class.methods isOpen.type_eq).trans methodless
      have none : enumMembers sole.inside = [] := by
        simp [enumMembers, (cut_open isOpen.inner).2, pieces]
      exact ⟨text, spliced,
        Or.inr ⟨fun _ => ⟨first, isOpen⟩, new, [], [], accepted, none, ⟨Or.inl rfl, by simp⟩,
          by simp [methods], by simp [grown, fields]⟩⟩
    · obtain ⟨text, spliced, refused⟩ := stranded_refused plain signatureOnly kind isOpen isComma
      exact ⟨text, spliced, Or.inl ⟨first, comma, isOpen, isComma, refused⟩⟩
  · obtain ⟨text, new, spliced, accepted, grown⟩ :=
      separated_grown plain signatureOnly kind separated
    have members : enumMembers sole.inside = first ++ second := by
      have whole : sole.inside = constants ++ .leaf separator :: (first ++ second).flatten := by
        simp [separated.anchored.whole]
      simp only [enumMembers, whole, (cut_separated separated.inner separated.semicolon _).2,
        List.tail_cons, pieces_members separated.taken]
    have spared : found.anchor.needsSeparator = true → ∃ first, IsOpen sole first [] := by
      simp [separated.spared]
    refine ⟨text, spliced,
      Or.inr ⟨spared, new, first, second, accepted, members, separated.isPlace, ?_, grown⟩⟩
    rw [separated.type_eq]
    simp [addMembers]

end

end ClassDiagram.Proofs.EnumBodies
