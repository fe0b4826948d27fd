import ClassDiagram.Proofs.EnumBodies
import ClassDiagram.Proofs.SkeletonText

/-! New files are read back. The heading of a new file gives the kind, the name and the supertypes
of its class, the body gives the members and constants, and for every shape that a source can give a
class the grammar accepts the whole. -/

namespace ClassDiagram.Proofs.Skeletons
open Java Java.Tree Java.Outline Form Likeness Remainders BodyPieces ScannedText GeneratedText
  PlainReadings GeneratedMembers DottedNames
  LocalReadings GrownSources MemberPlaces EnumBodies SkeletonText

def bodyTree (c : Class) : Tree :=
  region .brace "\x7b" "\x7d" (insideTrees c)

private theorem body_plain (c : Class) : IsPlain (bodyTree c) :=
  region_plain (by simp)

section
variable {words : List String}
  (listed : ∀ word ∈ words, word ∈ Grammar.modifierWords.filter (· != "non-sealed"))
  {name : String} (outside : name ∉ Grammar.modifierWords) {rest : List Tree}
include listed outside

private theorem modifiers_steps {fuel : Nat} {trees : List Tree}
    (steps : Steps (endsBy (ends Grammar.form fuel) Grammar.ownModifier)
      (words.map wordTree ++ wordTree name :: rest) trees) :
    (wordTree name :: rest).length ≤ trees.length := by
  induction words with
  | nil =>
    cases steps with
    | done => exact Nat.le_refl _
    | next step => simp [ownModifier_eq, modifier_other outside] at step
  | cons word words ih =>
    cases steps with
    | done =>
      simp only [List.length_append, List.length_map, List.length_cons]
      omega
    | next step _ more =>
      rw [List.map_cons, List.cons_append, ownModifier_eq, modifier_word (listed word (by simp)),
        List.mem_singleton] at step
      exact ih (fun other member => listed other (by simp [member])) (step ▸ more)

omit outside in
private theorem modifiers_taken (fuel : Nat) (rest : List Tree) :
    Steps (endsBy (ends Grammar.form fuel) Grammar.ownModifier)
      (words.map wordTree ++ rest) rest := by
  induction words with
  | nil => exact .done rest
  | cons word words ih =>
    refine @Steps.next _ _ (words.map wordTree ++ rest) _ ?_ (by simp)
      (ih fun other member => listed other (by simp [member]))
    rw [List.map_cons, List.cons_append, ownModifier_eq, modifier_word (listed word (by simp))]
    simp

/-- All modifiers before a word that is none are taken. -/
theorem modifiers_after :
    after Grammar.ownModifiers (words.map wordTree ++ wordTree name :: rest) =
      wordTree name :: rest := by
  have longest :
      Grammar.ownModifiers.longest? Grammar.form (words.map wordTree ++ wordTree name :: rest) =
      some (wordTree name :: rest) := by
    refine longest_least ((mem_star (ends_tidy _ _)).mpr (modifiers_taken listed _ _))
      fun other read => ?_
    exact modifiers_steps listed outside ((mem_star (ends_tidy _ _)).mp read)
  simp [after, longest]

end

private theorem modifiersOf_listed (c : Class) :
    ∀ word ∈ modifiersOf c, word ∈ Grammar.modifierWords.filter (· != "non-sealed") := by
  simp only [modifiersOf]
  split <;> decide

private theorem kindText_unmodified (kind : Kind) : kindText kind ∉ Grammar.modifierWords := by
  cases kind <;> decide

private theorem kind_found (kind : Kind) : kind? (wordTree (kindText kind)) = some kind := by
  cases kind <;> decide

section
variable (c : Class)

private theorem skeleton_parts : skeletonTrees c =
    (modifiersOf c).map wordTree ++ wordTree (kindText c.kind) :: wordTree c.name ::
      (clauseTrees c ++ [bodyTree c]) := by
  simp [skeletonTrees, headTrees, bodyTree]

private theorem skeleton_after : after Grammar.ownModifiers (skeletonTrees c) =
    wordTree (kindText c.kind) :: wordTree c.name :: (clauseTrees c ++ [bodyTree c]) := by
  rw [skeleton_parts]
  exact modifiers_after (modifiersOf_listed c) (kindText_unmodified c.kind)

theorem skeleton_heading :
    heading? (skeletonTrees c) = some (c.kind, c.name, clauseTrees c ++ [bodyTree c]) := by
  have named : (wordTree c.name).word? = some c.name := rfl
  simp only [heading?, skeleton_after, kind_found, named]

private theorem skeleton_abstract :
    hasModifier "abstract" (before (after Grammar.ownModifiers (skeletonTrees c))
      (skeletonTrees c)) = c.isAbstract := by
  have modifiers : before (after Grammar.ownModifiers (skeletonTrees c)) (skeletonTrees c) =
      (modifiersOf c).map wordTree := by
    rw [skeleton_after, skeleton_parts, before_append]
  have untagged : ∀ t ∈ (modifiersOf c).map wordTree, t.startsTag = false := by
    intro t member
    obtain ⟨word, _, rfl⟩ := List.mem_map.mp member
    rfl
  rw [modifiers, hasModifier, withoutAnnotations_none untagged]
  cases abstract' : c.isAbstract with
  | true => simp [modifiersOf, abstract', wordTree, wordToken, Tree.isWord, Token.isWord]
  | false => simp [modifiersOf, abstract', wordTree, wordToken, Tree.isWord, Token.isWord]

private theorem implements_plain : PlainNext (implementsTrees c.interfaces ++ [bodyTree c]) := by
  intro t head
  cases shape : c.interfaces with
  | nil =>
    rw [shape] at head
    exact Option.some.inj head ▸ body_plain c
  | cons first more =>
    rw [shape] at head
    exact Option.some.inj head ▸ wordTree_plain "implements"

private theorem clauses_plain : PlainNext (clauseTrees c ++ [bodyTree c]) := by
  intro t head
  cases shape : c.superclass with
  | none =>
    rw [clauseTrees, shape] at head
    exact implements_plain c t head
  | some name =>
    rw [clauseTrees, shape] at head
    exact Option.some.inj head ▸ wordTree_plain "extends"

end

section
variable {c : Class} (plain : PlainClass c)
include plain

private theorem implements_found :
    implemented (implementsTrees c.interfaces ++ [bodyTree c]) = c.interfaces := by
  cases shape : c.interfaces with
  | nil => rfl
  | cons first more =>
    have dotted : ∀ name ∈ first :: more, IsDottedName name :=
      fun name member => plain.interfaces name (shape ▸ member)
    have next : PlainNext [bodyTree c] := fun t head => Option.some.inj head ▸ body_plain c
    have found := supertypes_found dotted next fun t head => Option.some.inj head ▸ rfl
    have word : (wordTree "implements").isWord "implements" = true := by decide
    simp only [implementsTrees, List.cons_append, implemented, word, if_true, found]

private theorem supertypes_of :
    supertypes (clauseTrees c ++ [bodyTree c]) = (c.superclass, c.interfaces) := by
  have behind := implements_found plain
  cases shape : c.superclass with
  | none =>
    have unextended : extended (implementsTrees c.interfaces ++ [bodyTree c]) =
        (none, implementsTrees c.interfaces ++ [bodyTree c]) := by
      cases interfaces : c.interfaces with
      | nil => rfl
      | cons first more =>
        have word : (wordTree "implements").isWord "extends" = false := by decide
        simp [implementsTrees, extended, word]
    simp only [clauseTrees, shape, extendsTrees, List.nil_append, supertypes, unextended, behind]
  | some name =>
    have dotted := plain.superclass name shape
    have word : (wordTree "extends").isWord "extends" = true := by decide
    have rest :
        after Grammar.type (supertypeTrees name ++ (implementsTrees c.interfaces ++ [bodyTree c])) =
        implementsTrees c.interfaces ++ [bodyTree c] := by
      simp [after, supertype_longest dotted (implements_plain c)]
    simp only [clauseTrees, shape, extendsTrees, List.cons_append, List.append_assoc, supertypes,
      extended, word, if_true, rest, before_append, supertype_named dotted, behind]

private theorem header_found : header .plain c.isAbstract c.name (clauseTrees c ++ [bodyTree c]) =
    { name := c.name, isAbstract := c.isAbstract, superclass := c.superclass,
      interfaces := c.interfaces } := by
  have unparametrised : after Grammar.typeParameters (clauseTrees c ++ [bodyTree c]) =
      clauseTrees c ++ [bodyTree c] := by
    have none :
        remainders Grammar.form Grammar.typeParameters (clauseTrees c ++ [bodyTree c]) = [] :=
      seq_none (symbol_refused fun t head => (clauses_plain c t head).angle)
    simp [after, longest?, none]
  simp only [header, unparametrised, supertypes_of plain]

end

def headerOf (c : Class) : Class :=
  header c.kind c.isAbstract c.name (clauseTrees c ++ [bodyTree c])

theorem headerOf_kind (c : Class) : (headerOf c).kind = c.kind := by
  simp only [headerOf, header]
  split <;> simp_all

theorem skeleton_declared (c : Class) :
    sourceType? (skeletonTrees c) = some (bodyType (headerOf c) 0 (insideTrees c)) := by
  have modified : headingClass (skeletonTrees c) (c.kind, c.name, clauseTrees c ++ [bodyTree c]) =
      headerOf c := by
    rw [headingClass, skeleton_abstract]
    rfl
  exact (sourceType_of (skeleton_heading c)).trans
    (congrArg (fun head => some (bodyType head 0 (insideTrees c))) modified)

/-- The constructor of an enum is neither a field nor a method. -/
theorem constructor_found {name : String} (named : IsPlainName name) :
    member (callTrees name ++ [region .brace "\x7b" "\x7d" []]) = .other := by
  have unmodified :
      after Grammar.ownModifiers [wordTree name, region .paren "(" ")" [],
        region .brace "\x7b" "\x7d" []] =
      [wordTree name, region .paren "(" ")" [], region .brace "\x7b" "\x7d" []] :=
    @modifiers_after [] (by simp) name
      (by simpa using IsPlainType.notIn (.inl named) modifiers_excluded) _
  have noDeclaration : Grammar.declarationWords.contains (wordTree name).firstText = false :=
    IsPlainType.notIn (.inl named) declarations_excluded
  have next : PlainNext [region .paren "(" ")" [], region .brace "\x7b" "\x7d" []] :=
    fun t head => Option.some.inj head ▸ region_plain (by simp)
  have behind :
      after (Grammar.bareType Grammar.notMemberTypes) [wordTree name, region .paren "(" ")" [],
        region .brace "\x7b" "\x7d" []] =
      [region .paren "(" ")" [], region .brace "\x7b" "\x7d" []] :=
    after_one fun fuel => memberType_read next (Or.inl named)
  have isSymbol : ∀ text, (wordTree name).isSymbol text = false := fun text => rfl
  have braces : (wordTree name).isBraces = false := rfl
  simp only [member, callTrees, List.cons_append, List.nil_append, unmodified, noDeclaration,
    isSymbol, braces, behind, Bool.or_self, Bool.false_eq_true, if_false]
  rfl

theorem constructorTrees_eq {c : Class} (enum : c.isEnum = true) :
    constructorTrees c = callTrees c.name ++ [region .brace "\x7b" "\x7d" []] := by
  simp [constructorTrees, enum]

private theorem memberPieces_closed (c : Class) :
    ∀ piece ∈ memberPieces c, closes false piece = true := by
  intro piece listed
  rcases List.mem_append.mp listed with listed | listed
  · obtain ⟨field, _, rfl⟩ := List.mem_map.mp listed
    exact field_closes field
  · rcases List.mem_append.mp listed with listed | listed
    · split at listed
      next enum =>
        rw [List.mem_singleton.mp listed, constructorTrees_eq enum]
        rfl
      next => simp at listed
    · obtain ⟨method, _, rfl⟩ := List.mem_map.mp listed
      exact method_closes c.isInterface method

theorem memberPieces_cut (c : Class) : pieces false (memberPieces c).flatten = memberPieces c := by
  simpa [pieces] using pieces_append (memberPieces_closed c) []

section
variable {c : Class} (plain : PlainClass c)
include plain

theorem memberPieces_read : (memberPieces c).map member =
    c.fields.map (fun field => .fields [field]) ++
      ((if c.isEnum then [.other] else []) ++ c.methods.map .method) := by
  have constructor : (if c.isEnum then [constructorTrees c] else []).map member = if c.isEnum then
      [.other] else [] := by
    split
    next enum => rw [List.map_singleton, constructorTrees_eq enum, constructor_found plain.name]
    next => rfl
  have fields : ∀ field ∈ c.fields, member (fieldTrees field) = .fields [field] :=
    fun field listed => field_found (plain.members.fields field listed)
  have methods : ∀ method ∈ c.methods, member (methodTrees c.isInterface method) = .method method :=
    fun method listed => method_found c.isInterface (plain.members.methods method listed)
  simp only [memberPieces, List.map_append, List.map_map, Function.comp_def, constructor]
  rw [List.map_congr_left fields, List.map_congr_left methods]

theorem addMembers_pieces (c' : Class) :
    addMembers c' (memberPieces c) = { c' with fields := c.fields, methods := c.methods } := by
  have fields : ((memberPieces c).map member).flatMap fieldsOf = c.fields := by
    rw [memberPieces_read plain, List.flatMap_append, List.flatMap_append]
    split <;> simp [List.flatMap_map, fieldsOf]
  have methods : ((memberPieces c).map member).flatMap methodsOf = c.methods := by
    rw [memberPieces_read plain, List.flatMap_append, List.flatMap_append]
    split <;> simp [List.flatMap_map, methodsOf]
  simp only [addMembers, fields, methods]

end

private theorem arguments_taken :
    takes (.inside .paren .arguments) (region .paren "(" ")" []) = true := by
  decide +kernel

section
variable {name : String} (named : IsPlainName name) {behind : List Tree}
include named

theorem constant_unmodified {fuel : Nat} :
    endsBy (ends Grammar.form fuel) Grammar.modifiers (callTrees name ++ behind) =
      [callTrees name ++ behind] :=
  star_none (modifier_other (by simpa using IsPlainType.notIn (.inl named) modifiers_excluded))

theorem constant_read {fuel : Nat} {rest : List Tree} :
    rest ∈ endsBy (ends Grammar.form fuel) Grammar.enumConstant (callTrees name ++ behind) ↔
    ∃ middle ∈ [region .paren "(" ")" [] :: behind, behind], rest ∈
      endsBy (ends Grammar.form fuel) (Form.opt (.inside .brace .classBody)) middle := by
  have tidy := ends_tidy Grammar.form fuel
  have free : Grammar.modifierWords.contains name = false :=
    IsPlainType.notIn (.inl named) modifiers_excluded
  have arguments : ∀ middle, middle ∈
      endsBy (ends Grammar.form fuel) (Form.opt Grammar.arguments)
      (region .paren "(" ")" [] :: behind) ↔
      middle ∈ [region .paren "(" ")" [] :: behind, behind] := by
    intro middle
    rw [Form.opt, mem_alt tidy, Grammar.arguments, inside_taken arguments_taken]
    simp [endsBy, or_comm]
  rw [Grammar.enumConstant, Form.all, List.foldr_cons, seq_one tidy (constant_unmodified named),
    List.foldr_cons, callTrees, List.cons_append,
    seq_one tidy (name_taken free), List.cons_append, List.nil_append,
    List.foldr_cons, mem_seq tidy]
  refine exists_congr fun middle => and_congr (arguments middle) ?_
  rw [List.foldr_cons, List.foldr_nil, mem_seq tidy]
  simp [endsBy]

private theorem constant_taken {fuel : Nat} :
    behind ∈ endsBy (ends Grammar.form fuel) Grammar.enumConstant (callTrees name ++ behind) :=
  (constant_read named).mpr ⟨behind, by simp,
    (mem_alt (ends_tidy _ _)).mpr (Or.inr (by simp [endsBy]))⟩

/-- A constant is read through its arguments, if no body follows. -/
theorem constant_longest (alone : ∀ t ∈ behind.head?, t.isBraces = false) :
    Grammar.enumConstant.longest? Grammar.form (callTrees name ++ behind) = some behind := by
  refine longest_least (constant_taken named) fun other read => ?_
  obtain ⟨middle, listed, body⟩ := (constant_read named).mp read
  have unbraced : ∀ t ∈ middle.head?, takes (.inside .brace .classBody) t = false := by
    intro t head
    have noBraces : t.isBraces = false := by
      simp only [List.mem_cons, List.not_mem_nil, or_false] at listed
      rcases listed with rfl | rfl
      · exact Option.some.inj head ▸ rfl
      · exact alone t head
    cases t with
    | leaf => rfl
    | group bracket => cases bracket <;> simp_all [takes, isBraces]
  rw [opt_none (inside_refused unbraced), List.mem_singleton] at body
  rw [body]
  simp only [List.mem_cons, List.not_mem_nil, or_false] at listed
  rcases listed with rfl | rfl <;> simp

private theorem constant_named : constantName? (callTrees name) = some name := by
  have unmodified : after Grammar.modifiers (callTrees name) = callTrees name :=
    after_one fun fuel => by simpa using @constant_unmodified name named [] fuel
  rw [constantName?, unmodified]
  rfl

end

section
variable {first : String} {more : List String} (named : ∀ name ∈ first :: more, IsPlainName name)
include named

private theorem constants_found :
    constantNames (callTrees first ++ commaTrees callTrees more) = first :: more := by
  have parts : partsOf Grammar.enumConstant (callTrees first ++ (commaTrees callTrees more ++ [])) =
      (first :: more).map callTrees := by
    refine parts_commas (fun name member behind follows =>
      constant_longest (named name member) ?_) (by simp)
    rcases follows with rfl | ⟨others, rfl⟩
    · simp
    · exact fun t head => Option.some.inj head ▸ rfl
  rw [List.append_nil] at parts
  have same : ∀ name ∈ first :: more, constantName? (callTrees name) = some name :=
    fun name member => constant_named (named name member)
  simp only [constantNames, parts, List.filterMap_map, Function.comp_def]
  rw [List.filterMap_congr same, List.filterMap_some]

omit named in
theorem constants_inner :
    ∀ t ∈ callTrees first ++ commaTrees callTrees more, t.isSymbol ";" = false := by
  intro t member
  have call : ∀ name, ∀ t ∈ callTrees name, t.isSymbol ";" = false := by
    intro name t member
    simp only [callTrees, List.mem_cons, List.not_mem_nil, or_false] at member
    rcases member with rfl | rfl <;> rfl
  rcases List.mem_append.mp member with member | member
  · exact call first t member
  · obtain ⟨name, _, inside⟩ := List.mem_flatMap.mp member
    rcases List.mem_cons.mp inside with rfl | inside
    · decide
    · exact call name t inside

end

private theorem opt_skip {fuel : Nat} (form : Form) (trees : List Tree) :
    trees ∈ endsBy (ends Grammar.form fuel) (Form.opt form) trees :=
  (mem_alt (ends_tidy _ _)).mpr (Or.inr (by simp [endsBy]))

private theorem word_taken {fuel : Nat} (text : String) (trees : List Tree) :
    endsBy (ends Grammar.form fuel) (Form.word text) (wordTree text :: trees) = [trees] :=
  one_taken ((takes_words [text] text).trans (by simp)) trees

private theorem constructor_taken {fuel : Nat} {name : String} (named : IsPlainName name)
    (rest : List Tree) :
    rest ∈ endsBy (ends Grammar.form fuel) Grammar.classMember
      (callTrees name ++ [region .brace "\x7b" "\x7d" []] ++ rest) := by
  have tidy := ends_tidy Grammar.form fuel
  have listed : Grammar.constructor ∈ choices Grammar.classMember := by decide +kernel
  have free : (Grammar.primitives ++ Grammar.notMemberTypes).contains name = false :=
    named.notIn (List.subset_append_left _ _)
  have parameters : takes (.inside .paren .parameters) (region .paren "(" ")" []) = true :=
    region_takes (by decide) (by decide +kernel)
  have block : takes (.inside .brace .constructorBlock) (region .brace "\x7b" "\x7d" []) = true :=
    region_takes (by decide) (by decide +kernel)
  refine mem_choice tidy listed ((mem_seq tidy).mpr ⟨_, (mem_star tidy).mpr (.done _), ?_⟩)
  refine (mem_seq tidy).mpr ⟨region .paren "(" ")" [] :: region .brace "\x7b" "\x7d" [] :: rest,
    (mem_alt tidy).mpr (Or.inr ?_), ?_⟩
  · have taken :=
      @name_taken fuel _ name (region .paren "(" ")" [] :: region .brace "\x7b" "\x7d" [] :: rest)
        free
    exact taken ▸ List.mem_singleton.mpr rfl
  · rw [List.foldr_cons, seq_one tidy (inside_taken parameters _)]
    refine (mem_seq tidy).mpr ⟨_, opt_skip _ _, ?_⟩
    rw [List.foldr_cons, seq_one tidy (inside_taken block _)]
    simp [endsBy]

section
variable {c : Class} (plain : PlainClass c)
include plain

/-- The body of a class or an interface. -/
theorem body_derived {rule : Rule} (body : Grammar.isBody rule = true) (noEnum : c.isEnum = false)
    (noConstants : c.constants = []) : derives rule (insideTrees c) = true := by
  have inside : insideTrees c = (memberPieces c).flatten := by
    simp [insideTrees, noConstants, constantTrees]
  have members : memberPieces c = memberTrees c.isInterface ⟨c.fields, c.methods⟩ := by
    simp [memberPieces, noEnum, memberTrees]
  simp only [Java.derives, body, if_true, List.all_eq_true]
  rw [inside, memberPieces_cut, members]
  exact memberTrees_derived c.isInterface plain.members body

private theorem memberPieces_taken {fuel : Nat} : ∀ piece ∈ memberPieces c, ∀ rest,
    rest ∈ endsBy (ends Grammar.form fuel) Grammar.classMember (piece ++ rest) := by
  have body : Grammar.isBody .classBody = true := rfl
  intro piece listed rest
  rcases List.mem_append.mp listed with listed | listed
  · obtain ⟨field, own, rfl⟩ := List.mem_map.mp listed
    exact field_taken body (plain.members.fields field own) rest
  · rcases List.mem_append.mp listed with listed | listed
    · split at listed
      next enum =>
        rw [List.mem_singleton.mp listed, constructorTrees_eq enum]
        exact constructor_taken plain.name rest
      next => simp at listed
    · obtain ⟨method, own, rfl⟩ := List.mem_map.mp listed
      exact method_taken body c.isInterface (plain.members.methods method own) rest

/-- The body of an enum with constants. -/
theorem enumBody_derived (some : c.constants ≠ []) : derives .enumBody (insideTrees c) = true := by
  obtain ⟨first, more, shape⟩ := List.exists_cons_of_ne_nil some
  have inside : insideTrees c =
      (callTrees first ++ commaTrees callTrees more) ++ .leaf (ScannedText.symbolToken ";") ::
      (memberPieces c).flatten := by
    simp [insideTrees, shape, constantTrees, symbolTree]
  have listed : Lists 0 (callTrees first ++ commaTrees callTrees more) := by
    intro fuel _ rest
    have tidy := ends_tidy Grammar.form fuel
    rw [List.append_assoc]
    have all := list1_read fun name member behind (_ : Follows rest behind) =>
      @constant_taken _ (plain.constants name (shape ▸ member)) behind fuel
    exact (mem_seq tidy).mpr ⟨_, (mem_alt tidy).mpr (Or.inl all), opt_skip _ _⟩
  have members : ∀ piece ∈ memberPieces c, IsMemberPiece 0 piece := fun piece member =>
    ⟨memberPieces_closed c piece member, fun _ => memberPieces_taken plain piece member⟩
  rw [inside]
  exact enumBody_built listed (by decide) members (Nat.zero_le _)

private theorem extends_read {fuel : Nat} :
    implementsTrees c.interfaces ++ [bodyTree c] ∈
      endsBy (ends Grammar.form fuel) Grammar.extendsType (clauseTrees c ++ [bodyTree c]) := by
  cases shape : c.superclass with
  | none =>
    simp only [clauseTrees, shape, extendsTrees, List.nil_append]
    exact opt_skip _ _
  | some name =>
    have tidy := ends_tidy Grammar.form fuel
    simp only [clauseTrees, shape, extendsTrees, List.cons_append, List.append_assoc]
    refine (mem_alt tidy).mpr (Or.inl ?_)
    rw [seq_one tidy (word_taken _ _)]
    exact supertype_read (plain.superclass name shape) (implements_plain c)

private theorem implements_read {fuel : Nat} :
    [bodyTree c] ∈ endsBy (ends Grammar.form fuel) (Grammar.typeList "implements")
    (implementsTrees c.interfaces ++ [bodyTree c]) := by
  cases shape : c.interfaces with
  | nil => exact opt_skip _ _
  | cons first more =>
    have tidy := ends_tidy Grammar.form fuel
    have next : PlainNext [bodyTree c] := fun t head => Option.some.inj head ▸ body_plain c
    simp only [implementsTrees, List.cons_append]
    refine (mem_alt tidy).mpr (Or.inl ?_)
    rw [seq_one tidy (word_taken _ _)]
    exact supertypes_read (fun name member => plain.interfaces name (shape ▸ member)) next

omit plain in
/-- A declaration through the name of its type. -/
theorem skeleton_starts {fuel : Nat} {form : Form} {rest : List Tree}
    (read : rest ∈ endsBy (ends Grammar.form fuel) form (clauseTrees c ++ [bodyTree c])) :
    rest ∈ endsBy (ends Grammar.form fuel)
      (.seq Grammar.ownModifiers (.seq (Form.word (kindText c.kind)) (.seq (Form.name []) form)))
      (skeletonTrees c) := by
  have tidy := ends_tidy Grammar.form fuel
  rw [skeleton_parts]
  refine (mem_seq tidy).mpr ⟨_,
    (mem_star tidy).mpr (modifiers_taken (modifiersOf_listed c) fuel _), ?_⟩
  rw [seq_one tidy (word_taken _ _), seq_one tidy (name_taken rfl)]
  exact read

omit plain in
/-- A declaration from its body on. -/
theorem body_read {fuel : Nat} {rule : Rule} (listed : rule ∈ Bracket.brace.rules)
    (derived : derives rule (insideTrees c) = true) :
    [] ∈ endsBy (ends Grammar.form fuel) (.seq (.inside .brace rule) .empty) [bodyTree c] := by
  have taken : takes (.inside .brace rule) (bodyTree c) = true := region_takes listed derived
  rw [seq_one (ends_tidy _ _) (inside_taken taken [])]
  simp [endsBy]

end

/-- The shapes that a source gives its classes: only enums have constants, at least one, and only
classes have supertypes or are abstract; an interface has public methods and nothing else. -/
def HasShape (c : Class) : Prop :=
  match c.kind with
  | .plain => c.constants = []
  | .interface => c.superclass = none ∧ c.interfaces = [] ∧ c.fields = [] ∧ c.constants = [] ∧
      (∀ method ∈ c.methods, method.isPrivate = false) ∧ c.isAbstract = false
  | .enum => c.constants ≠ [] ∧ c.superclass = none ∧ c.interfaces = [] ∧ c.isAbstract = false

section
variable {c : Class} (plain : PlainClass c)
include plain

private theorem skeleton_covered (shape : HasShape c) :
    (declaration c.kind).covers Grammar.form (skeletonTrees c) = true := by
  rw [covers_mem, remainders]
  generalize ((skeletonTrees c).length + 1) * chainLength = fuel
  have tidy := ends_tidy Grammar.form fuel
  cases kind : c.kind with
  | plain =>
    simp only [HasShape, kind] at shape
    have derived := @body_derived c plain .classBody rfl (by simp [Class.isEnum, kind]) shape
    have start := @skeleton_starts c fuel
    rw [kind] at start
    refine start ((mem_seq tidy).mpr ⟨_, opt_skip _ _, ?_⟩)
    refine (mem_seq tidy).mpr ⟨_, extends_read plain, ?_⟩
    refine (mem_seq tidy).mpr ⟨_, implements_read plain, ?_⟩
    exact (mem_seq tidy).mpr ⟨_, opt_skip _ _, body_read (by decide) derived⟩
  | interface =>
    simp only [HasShape, kind] at shape
    obtain ⟨superclass, interfaces, _, noConstants, _, _⟩ := shape
    have derived :=
      @body_derived c plain .interfaceBody rfl (by simp [Class.isEnum, kind]) noConstants
    have clauses : clauseTrees c = [] := by
      simp [clauseTrees, superclass, interfaces, extendsTrees, implementsTrees]
    have start := @skeleton_starts c fuel
    rw [kind, clauses] at start
    refine start ((mem_seq tidy).mpr ⟨_, opt_skip _ _, ?_⟩)
    refine (mem_seq tidy).mpr ⟨_, opt_skip _ _, ?_⟩
    exact (mem_seq tidy).mpr ⟨_, opt_skip _ _, body_read (by decide) derived⟩
  | enum =>
    simp only [HasShape, kind] at shape
    obtain ⟨some, superclass, interfaces, _⟩ := shape
    have derived := enumBody_derived plain some
    have clauses : clauseTrees c = [] := by
      simp [clauseTrees, superclass, interfaces, extendsTrees, implementsTrees]
    have start := @skeleton_starts c fuel
    rw [kind, clauses] at start
    refine start ((mem_seq tidy).mpr ⟨_, opt_skip _ _, ?_⟩)
    exact body_read (by decide) derived

private theorem skeleton_body (shape : HasShape c) :
    (bodyType (headerOf c) 0 (insideTrees c)).type = { c with contained := [] } := by
  obtain ⟨name, kind, isAbstract, superclass, interfaces, fields, methods, constants, contained⟩ :=
    c
  cases kind with
  | plain =>
    obtain rfl : constants = [] := shape
    rw [headerOf, header_found plain]
    simp only [bodyType, insideTrees, constantTrees, List.nil_append, memberPieces_cut,
      addMembers_pieces plain]
  | interface =>
    obtain ⟨rfl, rfl, rfl, rfl, shown, rfl⟩ := shape
    have same : methods.map ({ · with isPrivate := false }) = methods := by
      conv_rhs => rw [← List.map_id methods]
      refine List.map_congr_left fun method listed => ?_
      rw [← shown method listed]
      rfl
    simp only [headerOf, header, bodyType, insideTrees, constantTrees, List.nil_append,
      memberPieces_cut, addMembers_pieces plain, publicMethods, same]
  | enum =>
    obtain ⟨some, rfl, rfl, rfl⟩ := shape
    obtain ⟨first, more, rfl⟩ := List.exists_cons_of_ne_nil some
    have separated :=
      @enumType_separated
        (headerOf ⟨name, .enum, false, none, [], fields, methods, first :: more, contained⟩) 0
      (callTrees first ++ commaTrees callTrees more) constants_inner (symbolToken ";") (by decide)
      (memberPieces ⟨name, .enum, false, none, [], fields, methods, first :: more,
        contained⟩).flatten
    have inside :
        insideTrees ⟨name, .enum, false, none, [], fields, methods, first :: more, contained⟩ =
        callTrees first ++ commaTrees callTrees more ++ .leaf (symbolToken ";") ::
          (memberPieces ⟨name, .enum, false, none, [], fields, methods, first :: more,
            contained⟩).flatten := by
      simp [insideTrees, constantTrees, symbolTree]
    rw [inside]
    simp only [bodyType, headerOf_kind, separated, constants_found plain.constants,
      memberPieces_cut, addMembers_pieces plain]
    simp only [headerOf, header]

/-- A new file is accepted and holds its class, without the containment that is inferred later. -/
theorem skeleton_read (shape : HasShape c) :
    ∃ anchor, sourceTypes? (skeletonText c) = some [⟨{ c with contained := [] }, anchor⟩] := by
  obtain ⟨types, declared, read⟩ := skeleton_types plain
  have empty : derives .program [] = true := by decide +kernel
  have accepted : areProgram [] [skeletonTrees c] = true := by
    simp only [areProgram, skeleton_heading, empty, skeleton_covered plain shape, Bool.and_self]
  rw [List.filterMap_cons_some (skeleton_declared c), List.filterMap_nil, List.map_singleton,
    skeleton_body plain shape] at declared
  obtain ⟨found, rfl, type⟩ := List.map_eq_singleton_iff.mp declared
  rw [read, if_pos accepted]
  exact ⟨found.anchor, by rw [← type]⟩

end

/-- A class that a source could have declared is what its own new file declares. -/
theorem skeleton_parses_back {c : Class} (plain : PlainClass c) (shape : HasShape c)
    (uncontained : c.contained = []) :
    ∃ anchor, sourceTypes? (skeletonText c) = some [⟨c, anchor⟩] := by
  obtain ⟨anchor, read⟩ := skeleton_read plain shape
  rw [← uncontained] at read
  exact ⟨anchor, read⟩

def coin : Class :=
  { name := "Coin", kind := .enum, constants := ["PENNY", "DIME"],
    fields :=
    [{ name := "worth", type := "int", isPrivate := true }, { name := "face", type := "Face" }],
    methods :=
    [{ name := "pay", returnType := "void",
       parameters := [{ name := "till", type := "Till" }, { name := "times", type := "int" }] },
      { name := "worth", returnType := "int", isPrivate := true }] }

theorem coin_parses_back : PlainClass coin ∧ HasShape coin ∧ coin.contained = [] ∧
    ∃ anchor, sourceTypes? (skeletonText coin) = some [⟨coin, anchor⟩] := by
  have members : PlainMembers coin.fields coin.methods := ⟨by decide +kernel, by decide +kernel⟩
  have plain : PlainClass coin :=
    ⟨by decide +kernel, by simp [coin], by simp [coin], by decide +kernel, members⟩
  have shape : HasShape coin := ⟨by simp [coin], rfl, rfl, rfl⟩
  exact ⟨plain, shape, rfl, skeleton_parses_back plain shape rfl⟩

end ClassDiagram.Proofs.Skeletons
