import ClassDiagram.Proofs.ClassTypes
import ClassDiagram.Proofs.GrownSources
import ClassDiagram.Proofs.PathPlaces

/-! The supertypes of a class. The heading of an accepted class is cut where the grammar cuts it, so
that every listed type is taken as a whole and in its place. What is recorded of a class type are
all its names, unless type arguments stand inside it or an annotation stands in front of it with
other names. -/

namespace ClassDiagram.Proofs.SupertypeNames
open Java Java.Tree Java.Outline Form Likeness Remainders TokenTrees BodyPieces LocalReadings
  DecidedReadings ClassTypes GrownSources

/-- The declaration of a class. Each supertype comes with the word or the comma before it; the rest
are the permitted classes and the body. -/
structure ClassHeading where
  modifiers : List Tree
  keyword : Token
  name : Token
  parameters : List Tree
  superclass : Option (Token × List Tree)
  interfaces : List (Token × List Tree)
  rest : List Tree
  modified : Grammar.ownModifiers.covers Grammar.form modifiers = true
  declares : keyword.isWord "class" = true
  named : name.kind = .word
  generic : (Form.opt Grammar.typeParameters).covers Grammar.form parameters = true
  extended : ∀ part ∈ superclass, part.1.isWord "extends" = true ∧
    Grammar.type.covers Grammar.form part.2 = true
  implemented : ∀ part ∈ interfaces, Grammar.type.covers Grammar.form part.2 = true
  introduced : ∀ part ∈ interfaces.head?, part.1.isWord "implements" = true
  separated : ∀ part ∈ interfaces.tail, part.1.isSymbol "," = true
  ended : (Form.seq (Grammar.typeList "permits") (.inside .brace .classBody)).covers
    Grammar.form rest = true

namespace ClassHeading

def supertypes (h : ClassHeading) : List (Token × List Tree) :=
  h.superclass.toList ++ h.interfaces

def trees (h : ClassHeading) : List Tree :=
  h.modifiers ++ .leaf h.keyword :: .leaf h.name ::
    (h.parameters ++ (markedTrees h.supertypes ++ h.rest))

end ClassHeading

/-- Where other things come next, a keyword does not. -/
theorem word_absent {words : List String} {bracket : Bracket} {rule : Rule} {trees : List Tree}
    (like : StartsLike (words.map Form.word ++ [.inside bracket rule]) trees) {text : String}
    (plain : "non-sealed" ∉ words) (other : text ∉ words) :
    ∀ t ∈ trees.head?, t.isWord text = false := by
  obtain ⟨t, head, atom, listed, taken⟩ := like
  intro t' head'
  obtain rfl := Option.some.inj (head.symm.trans head')
  rcases List.mem_append.mp listed with listed | listed
  · obtain ⟨word, member, rfl⟩ := List.mem_map.mp listed
    obtain ⟨token, rfl, spelled⟩ := word_spelled taken fun same => plain (same ▸ member)
    have different : word ≠ text := fun same => other (same ▸ member)
    simpa [isWord, spelled] using different
  · obtain rfl := List.mem_singleton.mp listed
    cases t with
    | leaf => simp [takes] at taken
    | group => rfl

section
variable {fuel : Nat} {trees middle rest : List Tree}

/-- The superclass, as it is found and as it is written. -/
theorem extended_read (start : middle ∈ endsBy (ends Grammar.form fuel) Grammar.extendsType trees)
    (sequel : rest ∈ endsBy (ends Grammar.form fuel)
      (Form.all [Grammar.typeList "implements", Grammar.typeList "permits",
        .inside .brace .classBody]) middle) :
    ∃ superclass : Option (Token × List Tree), trees = markedTrees superclass.toList ++ middle ∧
      (∀ part ∈ superclass, part.1.isWord "extends" = true ∧
        Grammar.type.covers Grammar.form part.2 = true) ∧
      Outline.extended trees = (superclass.bind fun part => supertypeName? part.2, middle) := by
  have tidy := ends_tidy Grammar.form fuel
  rcases (mem_alt tidy).mp start with present | left
  · obtain ⟨typed, keyword, type⟩ := (mem_seq tidy).mp present
    obtain ⟨t, rfl, taken⟩ := mem_one_takes keyword
    obtain ⟨token, rfl, spelled⟩ := word_spelled taken (by decide)
    have cut := after_followed (show isDecided (.seq Grammar.type
      (Form.all [Grammar.typeList "implements", Grammar.typeList "permits",
        .inside .brace .classBody])) = true by decide +kernel)
      (by decide +kernel) (by decide +kernel) type sequel
    obtain ⟨part, rfl⟩ := endsBy_within tidy _ _ _ type
    have covered : Grammar.type.covers Grammar.form part = true :=
      covers_part (by decide +kernel) (by decide +kernel) type
    refine ⟨some (token, part), by simp [markedTrees], by simpa [spelled] using covered, ?_⟩
    simp [Outline.extended, isWord, spelled, cut, GeneratedMembers.before_append]
  · obtain rfl := List.mem_singleton.mp left
    have deciding := ends_deciding fuel
    have like :=
      starts_like deciding (by decide +kernel) sequel
        (endsBy_solid tidy deciding.solid (by decide +kernel) sequel)
    have absent :=
      @word_absent ["implements", "permits"] .brace .classBody middle
        (like.mono (by decide +kernel)) "extends" (by decide) (by decide)
    refine ⟨none, rfl, by simp, ?_⟩
    cases middle with
    | nil => rfl
    | cons t more => simp [Outline.extended, absent t rfl]

/-- The interfaces, as they are found and as they are written. -/
theorem implemented_read
    (start : middle ∈ endsBy (ends Grammar.form fuel) (Grammar.typeList "implements") trees)
    (sequel :
      rest ∈ endsBy (ends Grammar.form fuel)
      (Form.all [Grammar.typeList "permits", .inside .brace .classBody]) middle) :
    ∃ interfaces : List (Token × List Tree), trees = markedTrees interfaces ++ middle ∧
      (∀ part ∈ interfaces, Grammar.type.covers Grammar.form part.2 = true) ∧
        (∀ part ∈ interfaces.head?, part.1.isWord "implements" = true) ∧
      (∀ part ∈ interfaces.tail, part.1.isSymbol "," = true) ∧
      Outline.implemented trees = interfaces.filterMap fun part => supertypeName? part.2 := by
  have tidy := ends_tidy Grammar.form fuel
  have deciding := ends_deciding fuel
  have like :=
    starts_like deciding (by decide +kernel) sequel
      (endsBy_solid tidy deciding.solid (by decide +kernel) sequel)
  rcases (mem_alt tidy).mp start with present | left
  · obtain ⟨typed, keyword, list⟩ := (mem_seq tidy).mp present
    obtain ⟨t, rfl, taken⟩ := mem_one_takes keyword
    obtain ⟨token, rfl, spelled⟩ := word_spelled taken (by decide)
    have stopped : ¬StartsLike (continues (Form.list1 Grammar.type)) middle :=
      fun further => further.apart (by decide +kernel) like
    obtain ⟨part, parts, rfl, covered, all, cut⟩ :=
      partsOf_list (by decide +kernel) (by decide +kernel) (by decide +kernel) list stopped
    refine ⟨(token, part) :: parts, by simp [markedTrees], ?_, by simp [spelled],
      fun other member => (all other member).1, ?_⟩
    · simpa [covered] using fun mark type listed => (all (mark, type) listed).2
    · simp [Outline.implemented, isWord, spelled, cut, List.filterMap_cons, List.filterMap_map]
  · obtain rfl := List.mem_singleton.mp left
    have absent :=
      @word_absent ["permits"] .brace .classBody middle (like.mono (by decide +kernel)) "implements"
        (by decide) (by decide)
    refine ⟨[], rfl, by simp, by simp, by simp, ?_⟩
    cases middle with
    | nil => rfl
    | cons t more => simp [Outline.implemented, absent t rfl]

end

/-- The heading of an accepted class is read as it is written. -/
theorem heading_parts {piece more : List Tree} {name : String}
    (covered : Grammar.classDeclaration.covers Grammar.form piece = true)
    (starts : heading? piece = some (.plain, name, more)) :
    ∃ h : ClassHeading, h.trees = piece ∧ ∀ isAbstract, header .plain isAbstract name more =
      { name := h.name.text, kind := .plain, isAbstract,
        superclass := h.superclass.bind fun part => supertypeName? part.2,
        interfaces := h.interfaces.filterMap fun part => supertypeName? part.2 } := by
  have read := covers_mem.mp covered
  simp only [remainders] at read
  generalize (piece.length + 1) * chainLength = fuel at read
  have tidy := ends_tidy Grammar.form fuel
  obtain ⟨declared, modifiers, fromKeyword⟩ := (mem_seq tidy).mp read
  have cut :=
    after_followed (by decide +kernel) (by decide +kernel) (by decide +kernel) modifiers fromKeyword
  obtain ⟨named, keyword, fromName⟩ := (mem_seq tidy).mp fromKeyword
  obtain ⟨behind, word, fromParameters⟩ := (mem_seq tidy).mp fromName
  obtain ⟨t, rfl, taken⟩ := mem_one_takes keyword
  obtain ⟨class', rfl, spelled⟩ := word_spelled taken (by decide)
  obtain ⟨own, accepted, rfl⟩ := mem_one.mp word
  have isName : own.kind = .word := by
    simp only [Shape.accepts, Bool.and_eq_true, beq_iff_eq] at accepted
    exact accepted.1
  obtain ⟨clauses, parameters, fromExtends⟩ := (mem_seq tidy).mp fromParameters
  have generic :=
    after_optional (by decide +kernel) (by decide +kernel) (by decide +kernel) (by decide +kernel)
      parameters fromExtends
  obtain ⟨later, extends', fromImplements⟩ := (mem_seq tidy).mp fromExtends
  obtain ⟨last, implements', fromPermits⟩ := (mem_seq tidy).mp fromImplements
  obtain ⟨superclass, rfl, extended, isSuperclass⟩ := extended_read extends' fromImplements
  obtain ⟨interfaces, rfl, implemented, introduced, separated, areInterfaces⟩ :=
    implemented_read implements' fromPermits
  obtain ⟨front, rfl⟩ := endsBy_within tidy _ _ _ modifiers
  obtain ⟨arguments, rfl⟩ := endsBy_within tidy _ _ _ parameters
  have modified : Grammar.ownModifiers.covers Grammar.form front = true :=
    covers_part (by decide +kernel) (by decide +kernel) modifiers
  have parameterised : (Form.opt Grammar.typeParameters).covers Grammar.form arguments = true :=
    covers_part (by decide +kernel) (by decide +kernel) parameters
  have ended :
      (Form.seq (Grammar.typeList "permits") (.inside .brace .classBody)).covers Grammar.form
      last = true := by
    obtain ⟨_, permits, fromBody⟩ := (mem_seq tidy).mp fromPermits
    obtain ⟨_, body, done⟩ := (mem_seq tidy).mp fromBody
    obtain rfl := List.mem_singleton.mp done
    exact covers_mem.mpr
      (steady_remainders (by decide +kernel) ((mem_seq tidy).mpr ⟨_, permits, body⟩))
  refine ⟨⟨front, class', own, arguments, superclass, interfaces, last, modified, by simp [spelled],
    isName, parameterised, extended, implemented,
    introduced, separated, ended⟩,
    by simp [ClassHeading.trees, ClassHeading.supertypes, markedTrees], fun isAbstract => ?_⟩
  simp only [heading?, cut, kind?, isWord, spelled, word?, isName] at starts
  obtain ⟨rfl, rfl⟩ : own.text = name ∧
      arguments ++ (markedTrees superclass.toList ++ (markedTrees interfaces ++ last)) = more := by
    simpa using starts
  simp only [header, generic, Outline.supertypes, isSuperclass, areInterfaces]

/-- The only word that may be read as more than itself. -/
theorem tokensFrom_glued {levels : List Level} {commented : Bool} {skip offset : Nat}
    {text : List Char} {tokens : List Token}
    (lexed : tokensFrom levels commented skip offset text = some tokens) :
    ∀ t ∈ tokens, t.kind = .word → t.glued = true → t.text = "non" := by
  fun_induction tokensFrom levels commented skip offset text generalizing tokens with
  | case1 => simp_all
  | case2 _ _ _ _ _ _ ih => exact ih lexed
  | case3 => simp at lexed
  | case4 levels commented offset c rest length next kind text token found =>
    rename_i ih
    obtain ⟨more, tail, rfl⟩ := Option.map_eq_some_iff.mp lexed
    intro t member word glued
    rcases List.mem_cons.mp member with rfl | member
    · obtain rfl : kind = .word := word
      have noAngle : c ≠ '>' := by
        rintro rfl
        exact absurd (lexeme_word found).1 (by decide +kernel)
      have parts : text = "non".toList := by
        simp only [token, isGlued, List.head?_cons, splitModifier, Bool.and_eq_true, beq_iff_eq,
          Option.some.injEq, noAngle, if_false] at glued
        exact glued.1.1
      simp only [token, parts]
      exact String.ofList_toList
    · exact ih tail t member word glued
  | case5 =>
    rename_i ih
    exact ih lexed

private theorem tokens_glued {source : List Char} {tokens : List Token}
    (lexed : tokens? source = some tokens) :
    ∀ t ∈ tokens, t.kind = .word → t.glued = true → t.text = "non" := by
  simp only [tokens?] at lexed
  split at lexed
  · exact tokensFrom_glued lexed
  · exact tokensFrom_glued lexed

/-- Names without dots are told apart when they are joined. -/
theorem joined_inj {names others : List String} (some : names ≠ []) (some' : others ≠ [])
    (whole : ∀ name ∈ names, '.' ∉ name.toList) (whole' : ∀ name ∈ others, '.' ∉ name.toList)
    (same : ".".intercalate names = ".".intercalate others) : names = others := by
  have cut : ∀ {names : List String}, names ≠ [] → (∀ name ∈ names, '.' ∉ name.toList) →
      Text.pieces '.' (".".intercalate names).toList = names.map String.toList := by
    intro names some whole
    rw [String.toList_intercalate]
    exact PathPlaces.pieces_intercalate (by simpa using some) (by simpa using whole)
  have parts :=
    (cut some whole).symm.trans
      ((congrArg (fun text => Text.pieces '.' text.toList) same).trans (cut some' whole'))
  exact (List.map_injective_iff.mpr fun _ _ => String.toList_inj.mp) parts

structure Records (h : ClassHeading) (recorded : Class) : Prop where
  none : h.superclass = none → recorded.superclass = none
  superclass : ∀ mark type, h.superclass = some (mark, ClassType.trees type) →
    recorded.superclass = some type.recordedName
  interfaces : ∀ types : List ClassType, h.interfaces.map Prod.snd = types.map ClassType.trees →
    recorded.interfaces = types.map ClassType.recordedName
  classTypes : ∀ part ∈ h.supertypes, annotatedClassType.covers Grammar.form part.2 = true →
    ∃ type : ClassType, type.trees = part.2
  whole : ∀ part ∈ h.supertypes, ∀ type : ClassType, type.trees = part.2 →
    (type.recordedName = type.writtenName ↔ type.IsCalledWhole)

private theorem heading_records {h : ClassHeading} {tokens : List Token} {source : List Char}
    (lexed : tokens? source = some tokens) (inside : ∀ t, .leaf t ∈ h.trees → t ∈ tokens)
    {recorded : Class}
    (superclass : recorded.superclass = h.superclass.bind fun part => supertypeName? part.2)
    (interfaces : recorded.interfaces = h.interfaces.filterMap fun part => supertypeName? part.2) :
    Records h recorded := by
  have within : ∀ part ∈ h.supertypes, ∀ t, .leaf t ∈ part.2 → t ∈ tokens := by
    intro part listed t member
    apply inside
    have marked : .leaf t ∈ markedTrees h.supertypes :=
      List.mem_flatMap.mpr ⟨part, listed, by simp [member]⟩
    simp [ClassHeading.trees, marked]
  refine ⟨fun none => by simp [superclass, none], ?_, ?_, ?_, ?_⟩
  · intro mark type present
    rw [superclass, present, Option.bind_some, supertypeName_called]
  · intro types listed
    have each : (types.map ClassType.trees).filterMap supertypeName? =
        types.map ClassType.recordedName := by
      rw [List.filterMap_map]
      exact List.filterMap_eq_map_iff_forall_eq_some.mpr fun type _ => supertypeName_called type
    rw [interfaces, ← each, ← listed, List.filterMap_map]
    rfl
  · intro part listed covered
    refine classType_spelled covered fun t member word glued => ?_
    rw [tokens_glued lexed t (within part listed t member) word glued]
    decide
  · intro part listed type same
    have dotless : ∀ t, .leaf t ∈ type.trees → t.kind = .word → '.' ∉ t.text.toList := by
      intro t member word dot
      have part := (tokens_words lexed t (within part listed t (same ▸ member)) word).named '.' dot
      exact absurd part (by decide +kernel)
    rw [← called_eq_iff]
    refine ⟨joined_inj (called_ne_nil type) (by simp [ClassType.names, ClassType.segments]) ?_ ?_,
      fun same => congrArg _ same⟩
    · intro name called
      rcases called_word called with rfl | ⟨t, member, word, rfl⟩
      · decide
      · exact dotless t member word
    · intro name member
      obtain ⟨s, listed, rfl⟩ := List.mem_map.mp member
      exact dotless s.name (segment_listed listed) s.named

/-- Of every accepted class the superclass and the interfaces are recorded, one for one and in their
order, each by all its names if the type is called whole and otherwise not. -/
theorem supertypes_recorded {source : String} {types : List SourceType}
    (accepted : sourceTypes? source = some types) {found : SourceType}
    (listed : found ∈ types) (isClass : found.type.kind = .plain) :
    ∃ trees, trees? source = some trees ∧ ∃ h :
    ClassHeading, h.trees ∈ pieces false trees ∧ sourceType? h.trees = some found ∧
    Records h found.type := by
  obtain ⟨trees, earlier, piece, later, place⟩ := exists_declaredIn accepted listed
  obtain ⟨front, rules, opening, closing, inside, ⟨kind, name, more⟩, _, starts, same⟩ :=
    sourceType_cases place.declared
  obtain rfl : kind = .plain := by
    have kinds : found.type.kind = kind := by rw [same, bodyType_kind, headingClass_kind]
    exact kinds.symm.trans isClass
  obtain ⟨h, rfl, headed_eq⟩ := heading_parts (place.covered _ starts) starts
  have member : h.trees ∈ pieces false trees := by simp [place.cut]
  refine ⟨trees, place.read, h, member, place.declared,
    heading_records place.lexed (fun t own => ?_) ?_ ?_⟩
  · have inside : .leaf t ∈ trees := by
      rw [← pieces_flatten trees]
      exact List.mem_flatten.mpr ⟨_, member, own⟩
    exact mem_allTokens.mpr ⟨_, inside, by simp [tokensOf]⟩
  · rw [same]
    simp [headingClass, headed_eq, bodyType, addMembers]
  · rw [same]
    simp [headingClass, headed_eq, bodyType, addMembers]

def shelfText : String :=
  "class Shelf extends Room<Oak>.Wall // left\n.Board implements shop.@Old Stand<Tin>, @New(1) Frame \x7b\x7d"

theorem shelf_recorded :
    ∃ types found, sourceTypes? shelfText = some types ∧ found ∈ types ∧ found.type.kind = .plain ∧
    found.type.superclass = some "Wall.Board" ∧ found.type.interfaces = ["shop.Stand", "New"] ∧
    ∃ trees, trees? shelfText = some trees ∧ ∃ h :
    ClassHeading, h.trees ∈ pieces false trees ∧ sourceType? h.trees = some found ∧
    Records h found.type := by
  have typed :
      ((sourceTypes? shelfText).any fun types =>
        types.map (fun found => (found.type.kind, found.type.superclass, found.type.interfaces)) ==
      [(.plain, some "Wall.Board", ["shop.Stand", "New"])]) = true := by decide +kernel
  obtain ⟨types, accepted, facts⟩ := (Option.any_eq_true _ _).mp typed
  obtain ⟨found, rfl, same⟩ := List.map_eq_singleton_iff.mp (beq_iff_eq.mp facts)
  simp only [Prod.mk.injEq] at same
  exact ⟨[found], found, accepted, by simp, same.1, same.2.1, same.2.2,
    supertypes_recorded accepted (by simp) same.1⟩

end ClassDiagram.Proofs.SupertypeNames
