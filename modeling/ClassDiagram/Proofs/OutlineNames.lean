import ClassDiagram.Proofs.CleanProject
import ClassDiagram.Proofs.DiagramBlocks
import ClassDiagram.Proofs.Remainders
import ClassDiagram.Proofs.TokenTrees
import ClassDiagram.Java.Outline

/-! What texts an outline can hold. Every name and every type is a word of the source, and every
supertype is words joined by dots, so a source with plain words has a type that a diagram can hold
unless one of its names is reserved. -/

namespace ClassDiagram.Proofs.OutlineNames
open Java Java.Outline Java.Tree TokenTrees
open Text (isQualifiedChar)

private theorem after_suffix (form : Form) (trees : List Tree) : after form trees <:+ trees := by
  simp only [after]
  cases longest : form.longest? Grammar.form trees with
  | none => exact List.suffix_rfl
  | some rest => exact Remainders.longest_suffix longest

private theorem after_subset (form : Form) (trees : List Tree) : after form trees ⊆ trees :=
  (after_suffix form trees).subset

private theorem before_subset (rest trees : List Tree) : before rest trees ⊆ trees :=
  List.take_subset _ _

private theorem pieces_subset {assigned : Bool} {trees piece : List Tree}
    (member : piece ∈ pieces assigned trees) : piece ⊆ trees := by
  induction trees generalizing assigned piece with
  | nil => simp [pieces] at member
  | cons t rest ih =>
    simp only [pieces] at member
    split at member
    · rcases List.mem_cons.mp member with rfl | member
      · simp
      · exact List.subset_cons_of_subset t (ih member)
    · split at member
      next first more same =>
        rcases List.mem_cons.mp member with rfl | member
        · exact List.cons_subset_cons t (ih (by rw [same]; simp))
        · exact List.subset_cons_of_subset t (ih (by rw [same]; simp [member]))
      next =>
        rw [List.mem_singleton.mp member]
        simp

private theorem listed_subset {form : Form} {fuel : Nat} {trees part : List Tree}
    (member : part ∈ listed form fuel trees) : part ⊆ trees := by
  induction fuel generalizing trees with
  | zero => simp [listed] at member
  | succ fuel ih =>
    simp only [listed] at member
    split at member
    · simp at member
    next rest longest =>
      rcases List.mem_cons.mp member with rfl | member
      · exact before_subset rest trees
      · split at member
        next t rest _ =>
          split at member
          · have inside : rest ⊆ trees :=
              ((List.suffix_cons t rest).trans (Remainders.longest_suffix longest)).subset
            exact List.Subset.trans (ih member) inside
          · simp at member
        · simp at member

private theorem partsOf_subset {form : Form} {trees part : List Tree}
    (member : part ∈ partsOf form trees) : part ⊆ trees :=
  listed_subset member

private theorem withoutAnnotations_subset (fuel : Nat) (trees : List Tree) :
    withoutAnnotations fuel trees ⊆ trees := by
  fun_induction withoutAnnotations fuel trees with
  | case1 => simp
  | case2 => simp
  | case3 fuel t rest tag ih => exact List.Subset.trans ih (after_subset _ _)
  | case4 fuel t rest plain ih => exact List.cons_subset_cons t ih

def Spelled (trees : List Tree) : Prop :=
  ∀ t ∈ allTokens trees, t.kind = .word → IsMemberName t.text

theorem Spelled.part {trees part : List Tree} (spelled : Spelled trees) (inside : part ⊆ trees) :
    Spelled part := by
  intro t member
  obtain ⟨tree, present, member⟩ := mem_allTokens.mp member
  exact spelled t (mem_allTokens.mpr ⟨tree, inside present, member⟩)

theorem Spelled.inside {trees inner : List Tree} {bracket : Bracket} {rules : List Rule}
    {opening closing : Token} (spelled : Spelled trees)
    (member : .group bracket rules opening closing inner ∈ trees) :
    Spelled inner := by
  intro t present
  exact spelled t (mem_allTokens.mpr ⟨_, member, by simp [tokensOf, present]⟩)

theorem Spelled.leaf {trees : List Tree} {t : Token} (spelled : Spelled trees)
    (member : .leaf t ∈ trees) (word : t.kind = .word) : IsMemberName t.text :=
  spelled t (mem_allTokens.mpr ⟨_, member, by simp [tokensOf]⟩) word

theorem Spelled.word {trees : List Tree} {tree : Tree} {name : String} (spelled : Spelled trees)
    (member : tree ∈ trees) (named : tree.word? = some name) : IsMemberName name := by
  cases tree with
  | leaf t =>
    simp only [Tree.word?] at named
    split at named
    next word => exact Option.some.inj named ▸ spelled.leaf member word
    next => simp at named
  | group => simp [Tree.word?] at named

private theorem nameChain_spelled {trees : List Tree} (spelled : Spelled trees) :
    ∀ name ∈ nameChain trees, IsMemberName name := by
  fun_induction nameChain trees with
  | case1 => simp
  | case2 name => simpa using fun text named => spelled.word (by simp) named
  | case3 name dot rest text named ih =>
    have own := spelled.word (by simp) named
    have others := ih (spelled.part (by intro tree present; simp [present]))
    split
    · simpa using ⟨own, others⟩
    · simpa using own
  | case4 => simp

private theorem typeChain_spelled {depth : Nat} {chain : List String} {trees : List Tree}
    (spelled : Spelled trees) (named : ∀ name ∈ chain, IsMemberName name) :
    ∀ name ∈ typeChain depth chain trees, IsMemberName name := by
  induction trees generalizing depth chain with
  | nil => simpa [typeChain] using named
  | cons t rest ih =>
    have below : Spelled rest := spelled.part (List.subset_cons_self t rest)
    simp only [typeChain]
    split
    · exact ih below named
    · split
      · apply ih below
        split
        · simp
        · exact named
      · split
        · apply ih below
          intro name member
          rcases List.mem_append.mp member with member | member
          · exact named name member
          · exact spelled.word (by simp) (Option.mem_toList.mp member)
        · exact ih below named

/-- The keyword of a declaration of annotations may name an annotation, too. -/
theorem annotationChain_spelled {trees : List Tree} (spelled : Spelled trees) :
    ∀ name ∈ annotationChain trees, IsMemberName name := by
  cases trees with
  | nil => simp [annotationChain]
  | cons t rest =>
    have below : Spelled rest := spelled.part (List.subset_cons_self _ _)
    have tail : Spelled rest.tail := below.part (List.tail_suffix rest).subset
    simp only [annotationChain]
    split
    · have keyword : IsMemberName "interface" := by decide
      split
      · simpa using ⟨keyword, nameChain_spelled tail⟩
      · simpa using keyword
    · exact nameChain_spelled below

structure IsQualifiedName (name : String) : Prop where
  nonempty : name ≠ ""
  qualified : ∀ c ∈ name.toList, isQualifiedChar c = true

private theorem joined_qualified {names : List String} (named : ∀ name ∈ names, IsMemberName name) :
    ∀ name ∈ joined names, IsQualifiedName name := by
  cases names with
  | nil => simp [joined]
  | cons first more =>
    simp only [joined, Option.mem_def, Option.some.injEq, forall_eq']
    constructor
    · intro empty
      have own := MemberLines.toList_ne_nil (named first (by simp)).nonempty
      have none := congrArg String.toList empty
      cases more <;> simp_all
    · intro c member
      rw [String.toList_intercalate] at member
      rcases JoinedTexts.mem_intercalate member with dot | ⟨part, present, inside⟩
      · have same : c = '.' := by simpa using dot
        exact same ▸ by decide
      · obtain ⟨name, listed, rfl⟩ := List.mem_map.mp present
        simp [isQualifiedChar, (named name listed).word c inside]

private theorem supertypeName_qualified {type : List Tree} (spelled : Spelled type) :
    ∀ name ∈ supertypeName? type, IsQualifiedName name := by
  cases type with
  | nil => simp [supertypeName?]
  | cons t rest =>
    simp only [supertypeName?]
    split
    · exact joined_qualified (annotationChain_spelled spelled)
    · split
      · apply joined_qualified (annotationChain_spelled (spelled.part _))
        exact ((List.dropWhile_suffix _).trans (List.suffix_cons t rest)).subset
      · apply joined_qualified (typeChain_spelled (spelled.part _) (by simp))
        exact withoutAnnotations_subset _ _

private theorem memberName_solid {name : String} (clean : IsMemberName name) :
    ∀ c ∈ name.toList, Text.isBlank c = false :=
  fun c member => Blanks.name_not_blank (clean.word c member)

private theorem memberName_line {name : String} (clean : IsMemberName name) : IsLineText name where
  nonempty := clean.nonempty
  trimmed := Blanks.trim_solid (memberName_solid clean)
  oneLine := DiagramBlocks.name_lacks (by decide) clean
  noBrace := DiagramBlocks.name_lacks (by decide) clean

/-- A lone name has neither a colon nor a parenthesis behind it. -/
theorem memberName_constant {name : String} (clean : IsMemberName name) : IsConstantText name := by
  have start : ∀ c ∈ name.toList.head?, Text.isNameChar c = true := fun c member =>
    clean.word c (List.mem_of_mem_head? member)
  have unsigned : Diagram.visibility name.toList = (false, name.toList) := by
    simp only [Diagram.visibility]
    split
    next same => exact absurd (start '-' (by simp [same])) (by decide)
    next same => exact absurd (start '+' (by simp [same])) (by decide)
    next => rfl
  have skipped : Text.skipBlanks name.toList = name.toList := by
    have solid := @Blanks.skip_to_solid [] name.toList (by simp) fun c member =>
      Blanks.name_not_blank (start c member)
    simpa using solid
  have named := @MemberLines.name_read name [] clean (by simp)
  have ended : Text.skipBlanks [] = [] := rfl
  rw [List.append_nil, ended] at named
  refine ⟨memberName_line clean, ?_, ?_⟩
  · simp [Diagram.method?, unsigned, skipped, named]
  · simp [Diagram.field?, unsigned, skipped, named, Diagram.afterColon?, ended]

private theorem parameter_clean {typed : List Tree} (spelled : Spelled typed) :
    ∀ found ∈ parameter? typed, found.Clean := by
  intro found read
  simp only [parameter?, Option.mem_def] at read
  split at read
  next type _ name rest behind =>
    have inside : name ∈ type :: _ := after_subset _ _ (by rw [behind]; simp)
    split at read
    · simp at read
    · split at read
      next nameText typeText named typed =>
        have named := spelled.word inside named
        have typed := spelled.word (by simp) typed
        obtain rfl := Option.some.inj read
        exact ⟨named, memberName_line typed, DiagramBlocks.name_lacks (by decide) typed⟩
      next => simp at read
  next => simp at read

private theorem parameters_clean {trees : List Tree} (spelled : Spelled trees) :
    ∀ found ∈ parameters trees, found.Clean := by
  intro found read
  have one : ∀ part ∈ partsOf (.alt Grammar.parameter Grammar.receiver) trees,
      ∀ found ∈ parameter? (after Grammar.modifiers part), found.Clean := by
    intro part member
    exact parameter_clean ((spelled.part (partsOf_subset member)).part (after_subset _ _))
  simp only [parameters] at read
  split at read
  · simp at read
  next first rest parts =>
    simp only [List.mem_filterMap, List.mem_map] at read
    obtain ⟨typed, ⟨part, member, rfl⟩, read⟩ := read
    apply one part _ found read
    rw [parts]
    split at member
    · exact List.mem_cons_of_mem first member
    · exact member

private theorem method_clean {isPrivate : Bool} {type : Tree} {trees : List Tree}
    (spelled : Spelled (type :: trees)) : ∀ found ∈ method? isPrivate type trees, found.Clean := by
  intro found read
  simp only [method?, Option.mem_def] at read
  split at read
  next name rules opening closing inside rest =>
    split at read
    next nameText typeText named typed =>
      have named := spelled.word (by simp) named
      have typed := spelled.word (by simp) typed
      have group : Tree.group .paren rules opening closing inside ∈
          type :: name :: .group .paren rules opening closing inside :: rest := by simp
      have inside := parameters_clean (spelled.inside group)
      obtain rfl := Option.some.inj read
      exact ⟨named, memberName_line typed, DiagramBlocks.name_lacks (by decide) typed, inside⟩
    next => simp at read
  next => simp at read

private theorem declaredNames_clean {declarators : List Tree} (spelled : Spelled declarators) :
    ∀ name ∈ declaredNames declarators, IsMemberName name := by
  intro name member
  obtain ⟨part, present, named⟩ := List.mem_filterMap.mp member
  obtain ⟨tree, first, word⟩ := Option.bind_eq_some_iff.mp named
  exact (spelled.part (partsOf_subset present)).word (List.mem_of_mem_head? first) word

private theorem fields_clean {isPrivate : Bool} {type : Tree} {trees : List Tree}
    (spelled : Spelled (type :: trees)) :
    ∀ all ∈ fields? isPrivate type trees, ∀ found ∈ all, found.Clean := by
  intro all read found member
  simp only [fields?, Option.mem_def] at read
  split at read
  next typeText _ typed _ =>
    have typed := spelled.word (by simp) typed
    have names := declaredNames_clean (spelled.part (List.subset_cons_self type trees))
    obtain rfl := Option.some.inj read
    obtain ⟨name, listed, rfl⟩ := List.mem_map.mp member
    exact ⟨names name listed, memberName_line typed⟩
  next => simp at read

structure CleanMember (found : Member) : Prop where
  fields : ∀ field ∈ fieldsOf found, field.Clean
  methods : ∀ method ∈ methodsOf found, method.Clean

private theorem other_clean : CleanMember .other :=
  ⟨by simp [fieldsOf], by simp [methodsOf]⟩

private theorem typedMember_clean {isPrivate : Bool} {type : Tree} {trees : List Tree}
    (spelled : Spelled (type :: trees)) : CleanMember (typedMember isPrivate type trees) := by
  simp only [typedMember]
  split
  next method read =>
    exact ⟨by simp [fieldsOf], by simpa [methodsOf] using method_clean spelled method read⟩
  next =>
    split
    next fields read => exact ⟨fields_clean spelled fields read, by simp [methodsOf]⟩
    next => exact other_clean

private theorem member_clean {piece : List Tree} (spelled : Spelled piece) :
    CleanMember (member piece) := by
  have rest : Spelled (after Grammar.ownModifiers piece) := spelled.part (after_subset _ _)
  simp only [member]
  split
  next => exact other_clean
  next t more same =>
    rw [same] at rest
    -- a type and what stands behind it are words of what they were cut from
    have typed : ∀ {type : Tree} {from' : List Tree} (form : Form), Spelled from' → type ∈ from' →
        Spelled (type :: after form from') := fun form spelled inside =>
      spelled.part (List.cons_subset.mpr ⟨inside, after_subset form _⟩)
    split
    · exact other_clean
    · split
      · split
        next type behind generic =>
          have inner : Spelled (type :: behind) := generic ▸ rest.part (after_subset _ _)
          split
          next method read =>
            have clean := method_clean (typed _ inner (by simp)) method read
            exact ⟨by simp [fieldsOf], by simpa [methodsOf] using clean⟩
          next => exact other_clean
        next => exact other_clean
      · exact typedMember_clean (typed _ rest (by simp))

private theorem addMembers_clean {c : Class} {trees : List Tree} (spelled : Spelled trees) :
    (∀ field ∈ (addMembers c (pieces false trees)).fields, field.Clean) ∧
      ∀ method ∈ (addMembers c (pieces false trees)).methods, method.Clean := by
  have one : ∀ piece ∈ pieces false trees, CleanMember (member piece) := fun piece listed =>
    member_clean (spelled.part (pieces_subset listed))
  simp only [addMembers, List.mem_flatMap, List.mem_map]
  constructor
  · rintro field ⟨_, ⟨piece, listed, rfl⟩, present⟩
    exact (one piece listed).fields field present
  · rintro method ⟨_, ⟨piece, listed, rfl⟩, present⟩
    exact (one piece listed).methods method present

def typeNames (c : Class) : List String :=
  c.name :: (c.superclass.toList ++ c.interfaces)

/-- A class is clean but for names that may be reserved. -/
structure Readable (c : Class) : Prop where
  names : ∀ name ∈ typeNames c, IsQualifiedName name
  fields : ∀ field ∈ c.fields, field.Clean
  methods : ∀ method ∈ c.methods, method.Clean
  constants : ∀ constant ∈ c.constants, IsConstantText constant
  isAbstract : c.isAbstract = true → c.kind = .plain

theorem Readable.clean {c : Class} (readable : Readable c)
    (unreserved : ∀ name ∈ typeNames c, name ∉ reservedWords) : c.Clean := by
  have type : ∀ name ∈ typeNames c, IsTypeName name := fun name listed =>
    ⟨(readable.names name listed).nonempty, (readable.names name listed).qualified,
      unreserved name listed⟩
  simp only [typeNames, List.mem_cons, List.mem_append, Option.mem_toList] at type
  exact ⟨type _ (Or.inl rfl), fun name listed => type name (Or.inr (Or.inl listed)),
    fun name listed => type name (Or.inr (Or.inr listed)), readable.fields, readable.methods,
    readable.constants, readable.isAbstract⟩

private theorem extended_qualified {trees : List Tree} (spelled : Spelled trees) :
    (∀ name ∈ (extended trees).1, IsQualifiedName name) ∧ (extended trees).2 ⊆ trees := by
  cases trees with
  | nil => simp [extended]
  | cons t more =>
    have behind : Spelled more := spelled.part (List.subset_cons_self t more)
    simp only [extended]
    split
    · exact ⟨supertypeName_qualified (behind.part (before_subset _ _)),
        List.Subset.trans (after_subset _ _) (List.subset_cons_self t more)⟩
    · simp

private theorem implemented_qualified {trees : List Tree} (spelled : Spelled trees) :
    ∀ name ∈ implemented trees, IsQualifiedName name := by
  cases trees with
  | nil => simp [implemented]
  | cons t more =>
    have behind : Spelled more := spelled.part (List.subset_cons_self t more)
    simp only [implemented]
    split
    · intro name member
      obtain ⟨type, present, named⟩ := List.mem_filterMap.mp member
      exact supertypeName_qualified (behind.part (partsOf_subset present)) name named
    · simp

private theorem supertypes_qualified {trees : List Tree} (spelled : Spelled trees) :
    (∀ name ∈ (supertypes trees).1, IsQualifiedName name) ∧
      ∀ name ∈ (supertypes trees).2, IsQualifiedName name := by
  have above := extended_qualified spelled
  exact ⟨above.1, implemented_qualified (spelled.part above.2)⟩

private theorem header_readable {kind : Kind} {isAbstract : Bool} {name : String}
    {trees : List Tree} (named : IsMemberName name) (spelled : Spelled trees) :
    Readable (header kind isAbstract name trees) := by
  have own : IsQualifiedName name :=
    ⟨named.nonempty, fun c inside => by simp [isQualifiedChar, named.word c inside]⟩
  have above := supertypes_qualified (spelled.part (after_subset Grammar.typeParameters trees))
  cases kind with
  | plain =>
    refine ⟨?_, by simp [header], by simp [header], by simp [header], by simp [header]⟩
    simpa [header, typeNames, or_imp, forall_and] using ⟨own, by simpa using above.1, above.2⟩
  | interface =>
    exact ⟨by simpa [header, typeNames] using own, by simp [header], by simp [header],
      by simp [header], by simp [header]⟩
  | enum =>
    exact ⟨by simpa [header, typeNames] using own, by simp [header], by simp [header],
      by simp [header], by simp [header]⟩

private theorem constants_clean {trees : List Tree} (spelled : Spelled trees) :
    ∀ name ∈ (partsOf Grammar.enumConstant trees).filterMap constantName?, IsConstantText name := by
  intro name member
  obtain ⟨part, present, named⟩ := List.mem_filterMap.mp member
  obtain ⟨tree, first, word⟩ := Option.bind_eq_some_iff.mp named
  have inside : Spelled (after Grammar.modifiers part) :=
    (spelled.part (partsOf_subset present)).part (after_subset _ _)
  exact memberName_constant (inside.word (List.mem_of_mem_head? first) word)

private theorem enumType_readable {c : Class} {opening : Nat} {inside : List Tree}
    (readable : Readable c) (spelled : Spelled inside) :
    Readable (enumType c opening inside).type := by
  have constants := constants_clean (spelled.part (List.takeWhile_prefix (!·.isSymbol ";")).subset)
  simp only [enumType]
  split
  · exact ⟨readable.names, readable.fields, readable.methods, constants, readable.isAbstract⟩
  next separator rest same =>
    have behind : Spelled rest := by
      apply spelled.part
      have suffix := List.dropWhile_suffix (l := inside) (!·.isSymbol ";")
      rw [same] at suffix
      exact ((List.suffix_cons separator rest).trans suffix).subset
    exact ⟨readable.names, (addMembers_clean behind).1, (addMembers_clean behind).2, constants,
      readable.isAbstract⟩

private theorem bodyType_readable {c : Class} {opening : Nat} {inside : List Tree}
    (readable : Readable c) (spelled : Spelled inside) :
    Readable (bodyType c opening inside).type := by
  have members := @addMembers_clean c inside spelled
  simp only [bodyType]
  split
  · exact enumType_readable readable spelled
  · refine ⟨readable.names, by simp [publicMethods], ?_, readable.constants, readable.isAbstract⟩
    intro method member
    obtain ⟨hidden, listed, rfl⟩ := List.mem_map.mp member
    have clean := members.2 hidden listed
    exact ⟨clean.name, clean.returnType, clean.noParen, clean.parameters⟩
  · exact ⟨readable.names, members.1, members.2, readable.constants, readable.isAbstract⟩

private theorem heading_named {piece more : List Tree} {kind : Kind} {name : String}
    (spelled : Spelled piece) (headed : heading? piece = some (kind, name, more)) :
    IsMemberName name ∧ Spelled more := by
  have rest : Spelled (after Grammar.ownModifiers piece) := spelled.part (after_subset _ _)
  simp only [heading?] at headed
  split at headed
  next keyword nameTree behind same =>
    rw [same] at rest
    split at headed
    next kind' nameText _ named =>
      simp only [Option.some.injEq, Prod.mk.injEq] at headed
      obtain ⟨_, rfl, rfl⟩ := headed
      exact ⟨rest.word (by simp) named, rest.part (by intro tree present; simp [present])⟩
    next => simp at headed
  next => simp at headed

private theorem sourceType_readable {piece : List Tree} (spelled : Spelled piece) :
    ∀ found ∈ sourceType? piece, Readable found.type := by
  intro found read
  simp only [sourceType?, Option.mem_def] at read
  split at read
  next kind name more _ opening _ inside headed last =>
    obtain rfl := Option.some.inj read
    obtain ⟨named, behind⟩ := heading_named spelled headed
    exact bodyType_readable (header_readable named behind)
      (spelled.inside (List.mem_of_getLast? last))
  next => simp at read

/-- Every type of a source has a heading and a body. -/
theorem sourceTypes_headed {source : String} {types : List SourceType}
    (read : sourceTypes? source = some types) {found : SourceType}
    (listed : found ∈ types) : ∃ kind isAbstract name more opening inside,
      found = bodyType (header kind isAbstract name more) opening inside := by
  obtain ⟨trees, _, rfl⟩ := Option.map_eq_some_iff.mp read
  obtain ⟨piece, _, declared⟩ := List.mem_filterMap.mp listed
  simp only [sourceType?] at declared
  split at declared
  · exact ⟨_, _, _, _, _, _, (Option.some.inj declared).symm⟩
  · simp at declared

/-- All words of a source are written in ASCII. -/
def AsciiWords (source : String) : Prop :=
  ∀ tokens ∈ tokens? source.toList, ∀ t ∈ tokens, t.kind = .word →
    ∀ c ∈ t.text.toList, c.toNat < 128

instance (source : String) : Decidable (AsciiWords source) :=
  inferInstanceAs (Decidable (∀ tokens ∈ tokens? source.toList, ∀ t ∈ tokens, t.kind = .word →
    ∀ c ∈ t.text.toList, c.toNat < 128))

private theorem namePart_ascii {c : Char} (small : c.toNat < 128) (part : isNamePart c = true) :
    Text.isNameChar c = true :=
  Blanks.ascii (P := fun c => isNamePart c = true → Text.isNameChar c = true) (by decide) small part

theorem sourceTypes_readable {source : String} (ascii : AsciiWords source) {types : List SourceType}
    (read : sourceTypes? source = some types) : ∀ found ∈ types, Readable found.type := by
  obtain ⟨trees, accepted, rfl⟩ := Option.map_eq_some_iff.mp read
  simp only [trees?, Option.bind_eq_bind, Option.bind_eq_some_iff] at accepted
  obtain ⟨tokens, lexed, built, isBuilt, derived⟩ := accepted
  split at derived
  next =>
    obtain rfl := Option.some.inj derived
    have spelled : Spelled built := by
      intro t member word
      have flat := build_allTokens isBuilt
      simp only [framesTokens, List.reverse_nil, allTokens, List.nil_append] at flat
      rw [flat] at member
      have text := tokens_words lexed t member word
      exact ⟨text.nonempty, fun c inside =>
        namePart_ascii (ascii tokens lexed t member word c inside) (text.named c inside)⟩
    intro found member
    obtain ⟨piece, listed, declared⟩ := List.mem_filterMap.mp member
    exact sourceType_readable (spelled.part (pieces_subset listed)) found declared
  next => simp at derived

end ClassDiagram.Proofs.OutlineNames
