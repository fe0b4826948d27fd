import ClassDiagram.Proofs.GrownSources
import Mathlib.Data.List.Induction

/-! The place for new members. It lies behind the last fields of a body, or at its start if there
are none, so that new fields become the last ones and new methods stand together among the old. -/

namespace ClassDiagram.Proofs.MemberPlaces
open Java Java.Tree Java.Outline TokenTrees BareTrees BodyPieces SourceCuts GeneratedText
  GeneratedMembers GrownSources

structure PlainMembers (fields : List Field) (methods : List Method) : Prop where
  fields : ∀ field ∈ fields, PlainField field
  methods : ∀ method ∈ methods, PlainMethod method

instance decidablePlainMembers (fields : List Field) (methods : List Method) :
    Decidable (PlainMembers fields methods) :=
  decidable_of_iff ((∀ field ∈ fields, PlainField field) ∧ ∀ method ∈ methods, PlainMethod method)
    ⟨fun both => ⟨both.1, both.2⟩, fun plain => ⟨plain.fields, plain.methods⟩⟩

section
variable {missing : Missing} (signatureOnly : Bool)

theorem memberTrees_closed :
    ∀ piece ∈ memberTrees signatureOnly missing, closes false piece = true := by
  intro piece member
  rcases List.mem_append.mp member with member | member
  · obtain ⟨field, _, rfl⟩ := List.mem_map.mp member
    exact field_closes field
  · obtain ⟨method, _, rfl⟩ := List.mem_map.mp member
    exact method_closes signatureOnly method

variable (plain : PlainMembers missing.fields missing.methods)
include plain

private theorem memberTrees_read : (memberTrees signatureOnly missing).map member =
    missing.fields.map (fun field => .fields [field]) ++ missing.methods.map .method := by
  have fields : ∀ field ∈ missing.fields, member (fieldTrees field) = .fields [field] :=
    fun field listed => field_found (plain.fields field listed)
  have methods : ∀ method ∈ missing.methods, member (methodTrees signatureOnly method) =
      .method method :=
    fun method listed => method_found signatureOnly (plain.methods method listed)
  simp only [memberTrees, List.map_append, List.map_map, Function.comp_def]
  rw [List.map_congr_left fields, List.map_congr_left methods]

theorem memberTrees_fields :
    ((memberTrees signatureOnly missing).map member).flatMap fieldsOf = missing.fields := by
  simp [memberTrees_read signatureOnly plain, List.flatMap_append, List.flatMap_map, fieldsOf]

theorem memberTrees_methods :
    ((memberTrees signatureOnly missing).map member).flatMap methodsOf = missing.methods := by
  simp [memberTrees_read signatureOnly plain, List.flatMap_append, List.flatMap_map, methodsOf]

theorem memberTrees_derived {rule : Rule} (body : Grammar.isBody rule = true) :
    ∀ piece ∈ memberTrees signatureOnly missing, Form.derives Grammar.form rule piece = true := by
  intro piece member
  rcases List.mem_append.mp member with member | member
  · obtain ⟨field, listed, rfl⟩ := List.mem_map.mp member
    exact field_derived body (plain.fields field listed)
  · obtain ⟨method, listed, rfl⟩ := List.mem_map.mp member
    exact method_derived body signatureOnly (plain.methods method listed)

end

private theorem lastFieldStop_append (members : List (List Tree)) (piece : List Tree) :
    lastFieldStop? (members ++ [piece]) =
      match member piece with
      | .fields _ => lastStop? piece
      | _ => lastFieldStop? members := by
  rw [lastFieldStop?, List.foldl_append]
  rfl

/-- The place for new members among declarations: behind the last one of fields, or before all if
there is none. -/
structure IsPlace (first second : List (List Tree)) : Prop where
  behind : first = [] ∨ ∃ front piece fields, first = front ++ [piece] ∧
    member piece = .fields fields
  others : ∀ piece ∈ second, ∀ fields, member piece ≠ .fields fields

theorem IsPlace.fieldless {first second : List (List Tree)} (place : IsPlace first second) :
    ∀ piece ∈ second, fieldsOf (member piece) = [] := by
  intro piece listed
  cases declared : member piece with
  | fields fields => exact absurd declared (place.others piece listed fields)
  | _ => rfl

/-- Either no piece declares fields, or the last one that does gives the place. -/
theorem lastField_cases (members : List (List Tree)) :
    (lastFieldStop? members = none ∧ IsPlace [] members) ∨
      ∃ before piece after, members = (before ++ [piece]) ++ after ∧
      lastFieldStop? members = lastStop? piece ∧ IsPlace (before ++ [piece]) after := by
  induction members using List.reverseRecOn with
  | nil => exact Or.inl ⟨rfl, Or.inl rfl, by simp⟩
  | append_singleton members last ih =>
    rw [lastFieldStop_append]
    cases declared : member last with
    | fields fields =>
      exact Or.inr ⟨members, last, [], by simp, rfl,
        Or.inr ⟨members, last, fields, rfl, declared⟩, by simp⟩
    | _ =>
      rcases ih with ⟨stop, place⟩ | ⟨before, piece, after, whole, stop, place⟩
      · refine Or.inl ⟨stop, place.behind, ?_⟩
        simpa [or_imp, forall_and, declared] using place.others
      · refine Or.inr ⟨before, piece, after ++ [last], by simp [whole], stop, place.behind, ?_⟩
        simpa [or_imp, forall_and, declared] using place.others

def FieldsFirst (members : List Member) : Prop :=
  ∃ (fields : List (List Field)) (others : List Member), members = fields.map .fields ++ others ∧
    ∀ list, Member.fields list ∉ others

/-- Then no method stands before the place for new members. -/
theorem IsPlace.methodless {first second : List (List Tree)} (place : IsPlace first second)
    (fieldsFirst : FieldsFirst ((first ++ second).map member)) :
    (first.map member).flatMap methodsOf = [] := by
  rcases place.behind with rfl | ⟨front, piece, list, rfl, declared⟩
  · rfl
  · obtain ⟨fields, others, whole, apart⟩ := fieldsFirst
    have start : (front ++ [piece]).map member <+: fields.map Member.fields := by
      rw [List.map_append] at whole
      rcases List.append_eq_append_iff.mp whole with ⟨more, same, _⟩ | ⟨more, same, rest⟩
      · exact ⟨more, same.symm⟩
      · -- what is left of the first part ends with the last fields, which are not among the others
        rcases List.eq_nil_or_concat more with rfl | ⟨between, last, rfl⟩
        · exact ⟨[], by simpa using same⟩
        · rw [List.concat_eq_append, ← List.append_assoc, List.map_append] at same
          obtain ⟨_, ends⟩ := List.append_inj' same rfl
          have last_eq : member piece = last := by simpa using ends
          exact absurd (by simp [rest, ← last_eq, declared]) (apart list)
    rw [List.flatMap_eq_nil_iff]
    intro declared listed
    obtain ⟨list, _, rfl⟩ := List.mem_map.mp (start.subset listed)
    rfl

/-- A tree behind which a source may be cut. -/
def EndsAtEdge (tree : Tree) : Prop :=
  ∃ before t, tokensOf tree = before ++ [t] ∧ t.stop = tree.stop ∧ IsEdgeToken t

/-- A tree that ends a piece is one. -/
theorem end_tokens {tree : Tree} (well : WellBuilt tree) (isEnd : IsEnd tree) :
    EndsAtEdge tree := by
  cases tree with
  | leaf t =>
    rcases isEnd with semicolon | braces
    · simp only [isSymbol, Token.isSymbol, Bool.and_eq_true, beq_iff_eq] at semicolon
      exact ⟨[], t, rfl, rfl, .separator semicolon.1 (by simp [semicolon.2])⟩
    · simp [isBraces] at braces
  | group bracket rules opening closing inside =>
    obtain ⟨_, closes, _⟩ := well
    refine ⟨opening :: allTokens inside, closing, rfl, rfl, .closing closes ?_⟩
    rcases isEnd with semicolon | braces
    · simp [isSymbol] at semicolon
    · cases bracket <;> simp_all [isBraces]

/-- A place behind a token that starts a body, or behind the last fields of the body. -/
theorem members_place {trees : List Tree} (closed : AllClosed trees) (well : AllWellBuilt trees)
    {start : Token} (isEdge : IsEdgeToken start) :
    ∃ first second before t, pieces false trees = first ++ second ∧
      start :: allTokens first.flatten = before ++ [t] ∧
      IsEdgeToken t ∧ (lastFieldStop? (pieces false trees)).getD start.stop = t.stop ∧
      IsPlace first second := by
  rcases lastField_cases (pieces false trees) with ⟨none, place⟩ |
    ⟨before, piece, after, whole, stop, place⟩
  · exact ⟨[], pieces false trees, [], start, rfl, rfl, isEdge, by rw [none]; rfl, place⟩
  · have listed : piece ∈ pieces false trees := by simp [whole]
    obtain ⟨front, last, rfl, isEnd⟩ := closes_last (closed piece listed)
    have inside : last ∈ trees := by
      rw [← pieces_flatten trees]
      exact List.mem_flatten.mpr ⟨_, listed, by simp⟩
    obtain ⟨tokens, t, spelled, same, edge⟩ :=
      end_tokens (allWellBuilt_iff.mp well last inside) isEnd
    refine ⟨before ++ [front ++ [last]], after,
      start :: (allTokens before.flatten ++ (allTokens front ++ tokens)), t, whole, ?_, edge,
      ?_, place⟩
    · simp [allTokens, spelled]
    · rw [stop, same]
      simp [lastStop?]

/-- A place of the body behind a token, at which its new members go. -/
structure Anchored {source : String} {found : SourceType} (sole : Sole source found)
    (first second : List Tree) : Prop where
  whole : sole.inside = first ++ second
  edge : ∃ before t, sole.opening :: allTokens first = before ++ [t] ∧ IsEdgeToken t ∧
    found.anchor.offset = t.stop

section
variable {first second : List (List Tree)} {missing : Missing} (signatureOnly : Bool)

theorem pieces_grown {trees : List Tree} (closed : AllClosed trees)
    (parts : pieces false trees = first ++ second) :
    pieces false (first.flatten ++
      ((memberTrees signatureOnly missing).flatten ++ second.flatten)) =
      first ++ (memberTrees signatureOnly missing ++ second) := by
  have own : ∀ piece ∈ first, closes false piece = true :=
    fun piece member => closed piece (by simp [parts, member])
  have others : ∀ piece ∈ second, closes false piece = true :=
    fun piece member => closed piece (by simp [parts, member])
  have rest : pieces false second.flatten = second := by
    simpa [pieces] using pieces_append others []
  rw [pieces_append own, pieces_append (memberTrees_closed signatureOnly), rest]

variable (plain : PlainMembers missing.fields missing.methods)
include plain

/-- A body of declarations is still one. -/
theorem derives_grown {rule : Rule} (body : Grammar.isBody rule = true) {trees : List Tree}
    (derived : derives rule trees = true) (parts : pieces false trees = first ++ second) :
    derives rule (first.flatten ++
      ((memberTrees signatureOnly missing).flatten ++ second.flatten)) = true := by
  have closed := body_closes body derived
  simp only [Java.derives, body, if_true, List.all_eq_true] at derived ⊢
  rw [parts] at derived
  rw [pieces_grown signatureOnly closed parts]
  intro piece member
  rcases List.mem_append.mp member with member | member
  · exact derived piece (by simp [member])
  · rcases List.mem_append.mp member with member | member
    · exact memberTrees_derived signatureOnly plain body piece member
    · exact derived piece (by simp [member])

/-- New fields are the last ones, and new methods stand together. -/
theorem addMembers_grown (c : Class) (others : ∀ piece ∈ second, fieldsOf (member piece) = []) :
    addMembers c (first ++ (memberTrees signatureOnly missing ++ second)) =
      { c with
        fields := (addMembers c (first ++ second)).fields ++ missing.fields
        methods :=
  (first.map member).flatMap methodsOf ++
    (missing.methods ++ (second.map member).flatMap methodsOf) } := by
  have none : (second.map member).flatMap fieldsOf = [] := by
    rw [List.flatMap_eq_nil_iff]
    intro declared member
    obtain ⟨piece, listed, rfl⟩ := List.mem_map.mp member
    exact others piece listed
  simp only [addMembers, List.map_append, List.flatMap_append,
    memberTrees_fields signatureOnly plain,
    memberTrees_methods signatureOnly plain, none, List.append_nil]

/-- What a source with a single type is read as if members are put into its body. -/
theorem spliced_body {source : String} {found : SourceType} {sole : Sole source found}
    {first second : List Tree} (place : Anchored sole first second) :
    ∃ text new, splice? source found.anchor (missing.lines signatureOnly) = some text ∧
      new.type =
      (bodyType sole.bare sole.opening.stop (first ++ (separatorTrees found.anchor.needsSeparator ++
        (memberTrees signatureOnly missing).flatten ++ second))).type ∧
      (sourceTypes? text = none ∨ sourceTypes? text = some [new]) ∧
      (derives (bodyRule sole.heading.1) (first ++ (separatorTrees found.anchor.needsSeparator ++
        (memberTrees signatureOnly missing).flatten ++ second)) = true ↔
        sourceTypes? text = some [new]) := by
  have newline := lineBreak_isLineBreak source.toList
  have fields := fun field listed => (plain.fields field listed).spelled
  have methods := fun method listed => (plain.methods method listed).spelled
  have read := reads_block fields methods newline found.anchor.needsSeparator signatureOnly
  have well :
      AllWellBuilt (separatorTrees found.anchor.needsSeparator ++
        (memberTrees signatureOnly missing).flatten) := by
    have members := memberTrees_wellBuilt signatureOnly missing
    cases found.anchor.needsSeparator with
    | false => exact members
    | true => exact ⟨symbolTree_wellBuilt ";", members⟩
  obtain ⟨before, t, ended, isEdge, here⟩ := place.edge
  obtain ⟨text, spliced, new, isType, either, accepted⟩ :=
    sole.spliced place.whole ended isEdge well here read
    (block_noStar newline _ (written_lines fields methods signatureOnly))
    (block_head newline _ signatureOnly missing)
  exact ⟨text, new, spliced, isType, either, accepted⟩

end

end ClassDiagram.Proofs.MemberPlaces
