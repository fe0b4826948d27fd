import ClassDiagram.Proofs.PlainReadings

/-! New members as the grammar and the outline see them. Each is a declaration of its own that a
body may hold, and what the outline finds in it is the very member that it was written for. -/

namespace ClassDiagram.Proofs.GeneratedMembers
open Java Java.Outline Form Likeness Remainders BodyPieces ScannedText GeneratedText PlainReadings

theorem derives_iff {rule : Rule} {trees : List Tree} :
    Form.derives Grammar.form rule trees = true ↔
    [] ∈ endsBy (ends Grammar.form ((trees.length + 1) * chainLength - 1))
    (Grammar.form rule) trees := by
  have positive : (trees.length + 1) * chainLength =
      ((trees.length + 1) * chainLength - 1) + 1 := by
    simp only [chainLength]
    omega
  have unfolded : remainders Grammar.form (.call rule) trees =
      endsBy (ends Grammar.form ((trees.length + 1) * chainLength - 1))
      (Grammar.form rule) trees := by
    simp only [remainders, endsBy]
    rw [positive, ends]
    simp
  simp [Form.derives, covers, unfolded, List.isEmpty_iff]

def choices : Form → List Form
  | .alt left right => choices left ++ choices right
  | form => [form]

theorem mem_choice {callees : Rule → List Tree → List (List Tree)} (tidy : Tidy callees)
    {form choice : Form} (listed : choice ∈ choices form) {trees rest : List Tree}
    (member : rest ∈ endsBy callees choice trees) :
    rest ∈ endsBy callees form trees := by
  induction form with
  | alt left right one two =>
    rcases List.mem_append.mp listed with listed | listed
    · exact (mem_alt tidy).mpr (Or.inl (one listed))
    · exact (mem_alt tidy).mpr (Or.inr (two listed))
  | _ => exact List.mem_singleton.mp listed ▸ member

private theorem longest_one {form : Form} {trees rest : List Tree}
    (one : ∀ fuel, endsBy (ends Grammar.form fuel) form trees = [rest]) :
    form.longest? Grammar.form trees = some rest := by
  simp [longest?, remainders, one]

theorem after_one {form : Form} {trees rest : List Tree}
    (one : ∀ fuel, endsBy (ends Grammar.form fuel) form trees = [rest]) :
    after form trees = rest := by
  simp [after, longest_one one]

theorem before_append (front rest : List Tree) : before rest (front ++ rest) = front := by
  simp [before]

def commaTrees {α : Type} (item : α → List Tree) (more : List α) : List Tree :=
  more.flatMap fun x => symbolTree "," :: item x

/-- What may stand behind an item: the comma before a further one, or what stands behind the
list. -/
def Follows (rest behind : List Tree) : Prop :=
  behind = rest ∨ ∃ others, behind = symbolTree "," :: others

theorem Follows.plain {rest behind : List Tree} (follows : Follows rest behind)
    (plain : PlainNext rest) : PlainNext behind := by
  rcases follows with rfl | ⟨others, rfl⟩
  · exact plain
  · exact fun t head => Option.some.inj head ▸ separator_plain (by simp)

section
variable {α : Type} {item : α → List Tree} {form : Form} {rest : List Tree}

private theorem commas_follow (more : List α) : Follows rest (commaTrees item more ++ rest) := by
  cases more with
  | nil => exact Or.inl rfl
  | cons x more => exact Or.inr ⟨_, rfl⟩

private theorem commas_cons (x : α) (more : List α) :
    commaTrees item (x :: more) ++ rest =
      symbolTree "," :: (item x ++ (commaTrees item more ++ rest)) := by
  simp [commaTrees]

private theorem commas_read {fuel : Nat} {more : List α}
    (read : ∀ x ∈ more, ∀ behind, Follows rest behind →
      behind ∈ endsBy (ends Grammar.form fuel) form (item x ++ behind)) :
    rest ∈ endsBy (ends Grammar.form fuel) (.star (.seq (Form.sym ",") form))
      (commaTrees item more ++ rest) := by
  have tidy := ends_tidy Grammar.form fuel
  rw [mem_star tidy]
  induction more with
  | nil => exact .done rest
  | cons x more ih =>
    have comma :
        endsBy (ends Grammar.form fuel) (Form.sym ",")
        (symbolTree "," :: (item x ++ (commaTrees item more ++ rest))) =
        [item x ++ (commaTrees item more ++ rest)] :=
      one_taken ((takes_sym "," _).trans (by decide)) _
    rw [commas_cons]
    refine @Steps.next _ _ (commaTrees item more ++ rest) _ ?_ ?_
      (ih fun y member => read y (by simp [member]))
    · rw [seq_one tidy comma]
      exact read x (by simp) _ (commas_follow more)
    · simp only [List.length_cons, List.length_append]
      omega

theorem list1_read {fuel : Nat} {x : α} {more : List α}
    (read : ∀ y ∈ x :: more, ∀ behind, Follows rest behind →
      behind ∈ endsBy (ends Grammar.form fuel) form (item y ++ behind)) :
    rest ∈ endsBy (ends Grammar.form fuel) (Form.list1 form)
      (item x ++ (commaTrees item more ++ rest)) :=
  (mem_seq (ends_tidy Grammar.form fuel)).mpr ⟨commaTrees item more ++ rest,
    read x (by simp) _ (commas_follow more), commas_read fun y member => read y (by simp [member])⟩

section
variable {x : α} {more : List α}
  (longest : ∀ y ∈ x :: more, ∀ behind, Follows rest behind →
  form.longest? Grammar.form (item y ++ behind) = some behind)
  (alone : ∀ t ∈ rest.head?, t.isSymbol "," = false)
include longest alone

private theorem listed_commas {fuel : Nat} (enough : more.length < fuel) :
    listed form fuel (item x ++ (commaTrees item more ++ rest)) = (x :: more).map item := by
  induction more generalizing x fuel with
  | nil =>
    obtain ⟨fuel, rfl⟩ : ∃ less, fuel = less + 1 := ⟨fuel - 1, by omega⟩
    have all : commaTrees item ([] : List α) ++ rest = rest := rfl
    rw [all, listed, longest x (by simp) rest (Or.inl rfl)]
    simp only [before_append, List.map_cons, List.map_nil, List.cons.injEq, true_and]
    cases rest with
    | nil => rfl
    | cons t rest => simp [alone t rfl]
  | cons y more ih =>
    obtain ⟨fuel, rfl⟩ : ∃ less, fuel = less + 1 := ⟨fuel - 1, by omega⟩
    have comma : (symbolTree ",").isSymbol "," = true := by decide
    have others :=
      @ih y (fun z member => longest z (List.mem_cons_of_mem x member)) fuel (by simpa using enough)
    rw [listed, longest x (by simp) _ (commas_follow (y :: more))]
    simp only [before_append, commas_cons, comma, if_true, others, List.map_cons]

/-- The parts of a list are its items. -/
theorem parts_commas :
    partsOf form (item x ++ (commaTrees item more ++ rest)) = (x :: more).map item := by
  have size : more.length ≤ (commaTrees item more).length := by
    clear longest
    induction more with
    | nil => simp
    | cons y more ih =>
      simp only [commaTrees, List.flatMap_cons, List.length_append, List.length_cons] at ih ⊢
      omega
  refine listed_commas longest alone ?_
  simp only [List.length_append]
  omega

end

end

structure PlainParameter (parameter : Parameter) : Prop where
  type : IsPlainType parameter.type
  name : IsPlainName parameter.name

instance decidablePlainParameter (parameter : Parameter) : Decidable (PlainParameter parameter) :=
  decidable_of_iff (IsPlainType parameter.type ∧ IsPlainName parameter.name)
    ⟨fun both => ⟨both.1, both.2⟩, fun plain => ⟨plain.type, plain.name⟩⟩

def parameterTree (p : Parameter) : List Tree :=
  [wordTree p.type, wordTree p.name]

private theorem parameterTrees_cons (p : Parameter) (more : List Parameter) :
    parameterTrees (p :: more) = parameterTree p ++ (commaTrees parameterTree more ++ []) := by
  induction more generalizing p with
  | nil => rfl
  | cons q more ih => simp [parameterTrees, ih, commaTrees, parameterTree]

private theorem nothing_plain : PlainNext [] := by
  intro t head
  simp at head

private theorem parameters_derived {parameters : List Parameter}
    (plain : ∀ p ∈ parameters, PlainParameter p) :
    derives .parameters (parameterTrees parameters) = true := by
  have noBody : Grammar.isBody .parameters = false := rfl
  have none : .empty ∈ choices (Grammar.form .parameters) := by decide +kernel
  have some : .seq (Grammar.firstParameter []) (.star (.seq (Form.sym ",") Grammar.parameter)) ∈
      choices (Grammar.form .parameters) := by decide +kernel
  simp only [Java.derives, noBody, Bool.false_eq_true, if_false]
  rw [derives_iff]
  generalize (parameterTrees parameters).length = length
  generalize (length + 1) * chainLength - 1 = fuel
  have tidy := ends_tidy Grammar.form fuel
  cases parameters with
  | nil => exact mem_choice tidy none (by simp [parameterTrees, endsBy])
  | cons p more =>
    have first := plain p (by simp)
    have behind := (@commas_follow _ parameterTree [] more).plain nothing_plain
    rw [parameterTrees_cons]
    refine mem_choice tidy some ((mem_seq tidy).mpr ⟨commaTrees parameterTree more ++ [], ?_, ?_⟩)
    · exact firstParameter_read behind first.type first.name
    · refine commas_read fun q member behind follows => ?_
      rw [parameterTree, List.cons_append, List.cons_append, List.nil_append,
        parameter_read (follows.plain nothing_plain) (plain q (by simp [member])).type]
      simp

private theorem parameter_found {p : Parameter} (plain : PlainParameter p) :
    parameter? (after Grammar.modifiers (parameterTree p)) = some p := by
  have next : PlainNext [wordTree p.name] :=
    fun t head => Option.some.inj head ▸ wordTree_plain p.name
  have unmodified : after Grammar.modifiers [wordTree p.type, wordTree p.name] =
      [wordTree p.type, wordTree p.name] :=
    after_one fun fuel => star_none (modifier_refused plain.type)
  have behind : after (Grammar.bareType Grammar.modifierWords) [wordTree p.type, wordTree p.name] =
      [wordTree p.name] :=
    after_one fun fuel => bareType_read next plain.type modifiers_excluded
  simp only [parameterTree, unmodified, parameter?, behind]
  rfl

private theorem parts_found {ps : List Parameter} (plain : ∀ p ∈ ps, PlainParameter p) :
    ((ps.map parameterTree).map (after Grammar.modifiers)).filterMap parameter? = ps := by
  induction ps with
  | nil => rfl
  | cons p more ih =>
    have own := parameter_found (plain p (by simp))
    have others := ih fun q member => plain q (by simp [member])
    rw [List.map_cons, List.map_cons, List.filterMap_cons_some own, others]

private theorem parameters_found {ps : List Parameter} (plain : ∀ p ∈ ps, PlainParameter p) :
    parameters (parameterTrees ps) = ps := by
  cases ps with
  | nil => decide +kernel
  | cons p more =>
    have parts : partsOf (.alt Grammar.parameter Grammar.receiver) (parameterTrees (p :: more)) =
        (p :: more).map parameterTree := by
      rw [parameterTrees_cons]
      refine parts_commas (fun q member behind follows => ?_) (by simp)
      exact longest_one fun fuel =>
        parameterOrReceiver_read (follows.plain nothing_plain) (plain q member).type
          (plain q member).name
    have noReceiver :
        startsWithReceiver (parameterTree p) (parameterTrees (p :: more)) = false := by
      have other : (wordTree p.name).isWord "this" = false := by
        have free := (plain p (by simp)).name.notIn this_reserved
        simpa [wordTree, wordToken, Tree.isWord, Token.isWord] using free
      simp [startsWithReceiver, parameterTree, other]
    simp only [parameters, parts, List.map_cons, noReceiver, Bool.false_eq_true, if_false]
    exact parts_found plain

structure PlainField (field : Field) : Prop where
  type : IsPlainType field.type
  name : IsPlainName field.name

structure PlainMethod (method : Method) : Prop where
  returnType : IsPlainType method.returnType
  name : IsPlainName method.name
  parameters : ∀ p ∈ method.parameters, PlainParameter p

instance decidablePlainField (field : Field) : Decidable (PlainField field) :=
  decidable_of_iff (IsPlainType field.type ∧ IsPlainName field.name)
    ⟨fun both => ⟨both.1, both.2⟩, fun plain => ⟨plain.type, plain.name⟩⟩

instance decidablePlainMethod (method : Method) : Decidable (PlainMethod method) :=
  decidable_of_iff (IsPlainType method.returnType ∧ IsPlainName method.name ∧
    ∀ p ∈ method.parameters, PlainParameter p)
    ⟨fun all => ⟨all.1, all.2.1, all.2.2⟩,
      fun plain => ⟨plain.returnType, plain.name, plain.parameters⟩⟩

theorem PlainField.spelled {field : Field} (plain : PlainField field) : SpelledField field :=
  ⟨plain.type.identifier, plain.name.identifier⟩

theorem PlainMethod.spelled {method : Method} (plain : PlainMethod method) : SpelledMethod method :=
  ⟨plain.returnType.identifier, plain.name.identifier,
    fun p member =>
      ⟨(plain.parameters p member).type.identifier, (plain.parameters p member).name.identifier⟩⟩

/-- Behind the access word a member starts with its type. -/
theorem ownModifiers_after (isPrivate : Bool) {type : String} (typed : IsPlainType type)
    (trees : List Tree) :
    after Grammar.ownModifiers (wordTree (access isPrivate) :: wordTree type :: trees) =
      wordTree type :: trees := by
  simp [after, longest?, remainders, ownModifiers_read isPrivate typed]

private theorem isPrivate_found (isPrivate : Bool) (trees : List Tree) :
    hasModifier "private" (before trees (wordTree (access isPrivate) :: trees)) = isPrivate := by
  have taken : (wordTree (access isPrivate) :: trees).length - trees.length = 1 := by
    simp only [List.length_cons]
    omega
  rw [before, taken]
  cases isPrivate <;> rfl

/-- A member is what stands behind its type. -/
theorem member_typed (isPrivate : Bool) {type : String} (typed : IsPlainType type)
    {trees : List Tree} (plain : PlainNext trees) :
    member (wordTree (access isPrivate) :: wordTree type :: trees) =
      typedMember isPrivate (wordTree type) trees := by
  have noDeclaration : Grammar.declarationWords.contains (wordTree type).firstText = false :=
    typed.notIn declarations_excluded
  have behind : after (Grammar.bareType Grammar.notMemberTypes) (wordTree type :: trees) = trees :=
    after_one fun fuel => memberType_read plain typed
  have isSymbol : ∀ text, (wordTree type).isSymbol text = false := fun text => rfl
  have braces : (wordTree type).isBraces = false := rfl
  simp only [member, ownModifiers_after isPrivate typed, isPrivate_found, noDeclaration, isSymbol,
    braces, behind, Bool.or_self, Bool.false_eq_true, if_false]

theorem field_found {field : Field} (plain : PlainField field) :
    member (fieldTrees field) = .fields [field] := by
  have ended : PlainNext [symbolTree ";"] :=
    fun t head => Option.some.inj head ▸ separator_plain (by simp)
  have named : PlainNext [wordTree field.name, symbolTree ";"] :=
    fun t head => Option.some.inj head ▸ wordTree_plain field.name
  have noMethod :
      method? field.isPrivate (wordTree field.type) [wordTree field.name, symbolTree ";"] = none :=
    rfl
  have longest :
      (Grammar.declarator []).longest? Grammar.form [wordTree field.name, symbolTree ";"] =
      some [symbolTree ";"] :=
    longest_one fun fuel => declarator_read ended field.name
  have names : declaredNames [wordTree field.name, symbolTree ";"] = [field.name] := by
    have noComma : (symbolTree ";").isSymbol "," = false := by decide
    simp only [declaredNames, partsOf, List.length_cons, List.length_nil, listed, longest, noComma,
      Bool.false_eq_true, if_false]
    rfl
  rw [fieldTrees, member_typed field.isPrivate plain.type named, typedMember, noMethod]
  simp only [fields?, names]
  rfl

theorem method_found (signatureOnly : Bool) {method : Method} (plain : PlainMethod method) :
    member (methodTrees signatureOnly method) = .method method := by
  have named :
      PlainNext [wordTree method.name, region .paren "(" ")" (parameterTrees method.parameters),
      methodEnd signatureOnly method] := fun t head =>
        Option.some.inj head ▸ wordTree_plain method.name
  have found : method? method.isPrivate (wordTree method.returnType) [wordTree method.name,
      region .paren "(" ")" (parameterTrees method.parameters), methodEnd signatureOnly method] =
      some method := by
    simp only [method?, region, parameters_found plain.parameters]
    rfl
  rw [methodTrees, member_typed method.isPrivate plain.returnType named, typedMember, found]

theorem field_closes (field : Field) : closes false (fieldTrees field) = true := by
  rfl

theorem method_closes (signatureOnly : Bool) (method : Method) :
    closes false (methodTrees signatureOnly method) = true := by
  cases signatureOnly <;> rfl

private theorem block_derived (method : Method) : derives .block (bodyTrees method) = true := by
  simp only [bodyTrees]
  split
  · decide +kernel
  · decide +kernel

theorem region_takes {bracket : Bracket} {rule : Rule} (own : rule ∈ bracket.rules)
    {opening closing : String} {inside : List Tree} (derived : derives rule inside = true) :
    takes (.inside bracket rule) (region bracket opening closing inside) = true := by
  simp [takes, region, own, derived]

section
variable {rule : Rule} (body : Grammar.isBody rule = true) {fuel : Nat}
include body

theorem field_taken {field : Field} (plain : PlainField field) (rest : List Tree) :
    rest ∈ endsBy (ends Grammar.form fuel) (Grammar.form rule) (fieldTrees field ++ rest) := by
  have listed : Grammar.fieldDeclaration ∈ choices (Grammar.form rule) := by
    cases rule with
    | classBody => decide +kernel
    | interfaceBody => decide +kernel
    | _ => simp [Grammar.isBody] at body
  exact mem_choice (ends_tidy Grammar.form fuel) listed
    (field_read field.isPrivate plain.type field.name)

theorem method_taken (signatureOnly : Bool) {method : Method} (plain : PlainMethod method)
    (rest : List Tree) :
    rest ∈ endsBy (ends Grammar.form fuel) (Grammar.form rule)
      (methodTrees signatureOnly method ++ rest) := by
  have listed : Grammar.memberMethod ∈ choices (Grammar.form rule) := by
    cases rule with
    | classBody => decide +kernel
    | interfaceBody => decide +kernel
    | _ => simp [Grammar.isBody] at body
  have allowed : method.name ≠ "_" := by
    intro same
    exact plain.name.free (same ▸ by decide +kernel)
  have list :=
    @region_takes .paren .parameters (by decide) "(" ")" _ (parameters_derived plain.parameters)
  refine mem_choice (ends_tidy Grammar.form fuel) listed
    (method_read method.isPrivate plain.returnType allowed list ?_ ?_ ?_)
  · cases signatureOnly with
    | true => exact Or.inr (rfl)
    | false => exact Or.inl (region_takes (by decide) (block_derived method))
  · cases signatureOnly with
    | true => exact separator_plain (by simp)
    | false => exact region_plain (by simp)
  · cases signatureOnly <;> rfl

end

theorem field_derived {rule : Rule} (body : Grammar.isBody rule = true) {field : Field}
    (plain : PlainField field) : Form.derives Grammar.form rule (fieldTrees field) = true :=
  derives_iff.mpr (by simpa using field_taken body plain [])

theorem method_derived {rule : Rule} (body : Grammar.isBody rule = true) (signatureOnly : Bool)
    {method : Method} (plain : PlainMethod method) :
    Form.derives Grammar.form rule (methodTrees signatureOnly method) = true :=
  derives_iff.mpr (by simpa using method_taken body signatureOnly plain [])

end ClassDiagram.Proofs.GeneratedMembers
