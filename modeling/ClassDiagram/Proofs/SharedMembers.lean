import ClassDiagram.Proofs.MemberReadings
import ClassDiagram.Proofs.SharedParts

/-! Members, bodies and headings that two sources of the same tokens share. -/

namespace ClassDiagram.Proofs.SharedMembers
open Java Java.Tree Java.Outline Form Likeness OutlineLikeness Remainders BareTrees BodyPieces
  LocalReadings DecidedReadings TreeShapes GeneratedMembers
  GrownSources EnumBodies SharedReadings CommaCuts SharedParts MemberReadings
open List (Forall₂)

private theorem paren_shared {first second : Tree} (same : SameShape first second)
    (paren : ∃ rules opening closing inside, first = .group .paren rules opening closing inside) :
    ∃ rules opening closing inside, second = .group .paren rules opening closing inside := by
  obtain ⟨rules, opening, closing, inside, rfl⟩ := paren
  rcases same.cases with ⟨_, _, one, _⟩ | ⟨_, _, _, _, _, _, _, _, _, one, two, _⟩
  · simp at one
  · obtain ⟨rfl, _⟩ := Tree.group.inj one
    exact ⟨_, _, _, _, two⟩

/-- Without a name or a type there is neither a method nor a field. -/
theorem untyped_member (isPrivate : Bool) {type : Tree} {trees : List Tree}
    (none : type.word? = none ∨ trees.head?.bind word? = none) :
    typedMember isPrivate type trees = .other := by
  have noMethod : method? isPrivate type trees = .none := by
    simp only [method?]
    split
    · rcases none with none | none
      · split
        · simp_all
        · rfl
      · split
        · simp_all
        · rfl
    · rfl
  have noFields : fields? isPrivate type trees = .none := by
    rcases none with none | none
    · simp [fields?, none]
    · cases type.word? <;> simp [fields?, none]
  simp only [typedMember, noMethod, noFields]

section
variable {type type' : Tree} {named named' : List Tree} (first : SameShape type type')
  (same : Forall₂ SameShape named named')
  (lexed : AllLexed named) (lexed' : AllLexed named') (isNamed : Named named)
  (isNamed' : Named named') (isPrivate : Bool)
include first same lexed lexed' isNamed isNamed'

/-- A method of the one source is one of the other, with the same parameters. -/
theorem method_shared : method? isPrivate type named = method? isPrivate type' named' := by
  cases same with
  | nil => rfl
  | @cons name name' more more' sameName behind =>
    cases behind with
    | nil => rfl
    | @cons second second' others others' sameSecond _ =>
      rcases sameSecond.cases with ⟨_, _, rfl, rfl, _⟩ |
        ⟨bracket, _, _, _, _, _, _, _, _, rfl, rfl, _, inner⟩
      · rfl
      · cases bracket with
        | paren =>
          simp only [method?, sameName.twin.word, first.twin.word]
          cases word : name'.word? with
          | none => rfl
          | some text =>
            have derived := isNamed.derived (by simp [sameName.twin.word, word])
            have derived' := isNamed'.derived (by simp [word])
            have lexedInner := lexed.inside (List.mem_cons_of_mem _ List.mem_cons_self)
            have lexedInner' := lexed'.inside (List.mem_cons_of_mem _ List.mem_cons_self)
            simp only [parameters_shared inner lexedInner lexedInner' derived derived']
        | _ => rfl

private theorem typedMember_shared :
    typedMember isPrivate type named = typedMember isPrivate type' named' := by
  have methods := method_shared first same lexed lexed' isNamed isNamed' isPrivate
  obtain ⟨name, more, rfl⟩ := isNamed.exists_cons
  obtain ⟨name', more', sameName, behind, rfl⟩ := List.forall₂_cons_left_iff.mp same
  have words : name.word? = name'.word? := sameName.twin.word
  have types : type.word? = type'.word? := first.twin.word
  cases typed : type.word? with
  | none =>
    rw [untyped_member isPrivate (Or.inl typed),
      untyped_member isPrivate (Or.inl (types.symm.trans typed))]
  | some typeText =>
    cases word : name.word? with
    | none =>
      rw [untyped_member isPrivate (Or.inr (by simpa using word)),
        untyped_member isPrivate (Or.inr (by simpa using words.symm.trans word))]
    | some text =>
      by_cases call : ∃ rules opening closing inside, more.head? =
        some (.group .paren rules opening closing inside)
      · obtain ⟨rules, opening, closing, inside, head⟩ := call
        obtain ⟨others, rfl⟩ := List.head?_eq_some_iff.mp head
        have isMethod :
            ∃ method, method? isPrivate type
            (name :: .group .paren rules opening closing inside :: others) = some method := by
          simp [method?, word, typed]
        obtain ⟨method, found⟩ := isMethod
        rw [found] at methods
        simp only [typedMember, found, ← methods]
      · have uncalled : ∀ rules opening closing inside, more.head? ≠
            some (.group .paren rules opening closing inside) :=
          fun rules opening closing inside head => call ⟨rules, opening, closing, inside, head⟩
        have uncalled' : ∀ rules opening closing inside, more'.head? ≠
            some (.group .paren rules opening closing inside) := by
          intro rules opening closing inside head
          obtain ⟨others', rfl⟩ := List.head?_eq_some_iff.mp head
          obtain ⟨second, others, shape, _, rfl⟩ := List.forall₂_cons_right_iff.mp behind
          obtain ⟨rules, opening, closing, inside, rfl⟩ :=
            paren_shared shape.symm ⟨rules, opening, closing, inside, rfl⟩
          exact uncalled rules opening closing inside rfl
        obtain ⟨fuel, list⟩ := isNamed.listed (by simp [word]) uncalled
        obtain ⟨fuel', list'⟩ := isNamed'.listed (by simp [← words, word]) uncalled'
        have fields : fields? isPrivate type (name :: more) =
            fields? isPrivate type' (name' :: more') := by
          simp only [fields?, types, List.head?_cons, Option.bind_some, words,
            declaredNames_shared same list list']
        simp only [typedMember, methods, fields]

end

section
variable {t t' : Tree} {more more' : List Tree} (pair : Paired (t :: more) (t' :: more'))
  (isPrivate : Bool)
include pair

private theorem generic_shared {typed typed' named named' : List Tree}
    (parameters : Stops (.seq Grammar.typeParameters Grammar.annotations) (t :: more) typed)
    (parameters' : Stops (.seq Grammar.typeParameters Grammar.annotations) (t' :: more') typed')
    (some : typed ≠ []) (type : Stops (Grammar.bareType []) typed named)
    (type' : Stops (Grammar.bareType []) typed' named') (rest : Named named)
    (rest' : Named named') :
    ∃ u u' others others', typed = u :: others ∧ typed' = u' :: others' ∧
      method? isPrivate u (after (Grammar.bareType []) typed) =
      method? isPrivate u' (after (Grammar.bareType []) typed') := by
  have headType : isHead (Grammar.bareType []) = true := by decide +kernel
  have typedPair := pair.rest (by decide +kernel) parameters parameters'
  have namedPair := typedPair.rest headType type type'
  rw [type.after_eq headType, type'.after_eq headType]
  cases typedPair.same with
  | nil => exact absurd rfl some
  | cons first _ =>
    exact ⟨_, _, _, _, rfl, rfl,
      method_shared first namedPair.same namedPair.lexed namedPair.lexed' rest rest' isPrivate⟩

private theorem typed_shared {named named' : List Tree}
    (type : Stops (Grammar.bareType Grammar.notMemberTypes) (t :: more) named)
    (type' : Stops (Grammar.bareType Grammar.notMemberTypes) (t' :: more') named')
    (rest : Named named) (rest' : Named named') :
    typedMember isPrivate t (after (Grammar.bareType Grammar.notMemberTypes) (t :: more)) =
      typedMember isPrivate t' (after (Grammar.bareType Grammar.notMemberTypes) (t' :: more')) := by
  have headType : isHead (Grammar.bareType Grammar.notMemberTypes) = true := by decide +kernel
  have namedPair := pair.rest headType type type'
  obtain ⟨first, _⟩ := List.forall₂_cons.mp pair.same
  rw [type.after_eq headType, type'.after_eq headType]
  exact typedMember_shared first namedPair.same namedPair.lexed namedPair.lexed' rest
    rest' isPrivate

end

/-- Behind its modifiers a member goes on in the same way in both sources. -/
theorem member_shared {piece piece' : List Tree} (pair : Paired piece piece')
    (isMember : IsMember piece) (isMember' : IsMember piece') : member piece = member piece' := by
  obtain ⟨rest, stops, parts⟩ := isMember
  obtain ⟨rest', stops', parts'⟩ := isMember'
  have head : isHead Grammar.ownModifiers = true := by decide +kernel
  have modifiers := pair.taken head stops stops'
  have behind := pair.rest head stops stops'
  simp only [member, stops.after_eq head, stops'.after_eq head,
    hasModifier_like likewise_veiled "private" modifiers]
  cases behind.same with
  | nil => rfl
  | @cons t t' more more' first others =>
    have starts : startsDeclaration t = startsDeclaration t' := by
      simp only [startsDeclaration, first.twin.firstText, first.twin.symbol, first.twin.braces]
    have angles := first.twin.symbol "<"
    have words := first.twin.word
    change (if startsDeclaration t then _ else _) = if startsDeclaration t' then _ else _
    rw [starts, angles]
    split
    · rfl
    next undeclared =>
      split
      next angle =>
        cases parts with
        | declared isStart => exact absurd (starts.symm.trans isStart) undeclared
        | typed noAngle => simp [← angles, noAngle] at angle
        | alone noAngle => simp [← angles, noAngle] at angle
        | generic _ parameters some type isNamed =>
          cases parts' with
          | declared isStart => exact absurd isStart undeclared
          | typed noAngle => simp [noAngle] at angle
          | alone noAngle => simp [noAngle] at angle
          | generic _ parameters' _ type' isNamed' =>
            have headParameters :
                isHead (.seq Grammar.typeParameters Grammar.annotations) = true := by decide +kernel
            obtain ⟨u, u', others, others', rfl, rfl, methods⟩ := generic_shared behind
              (hasModifier "private" (before (t' :: more') piece')) parameters parameters' some type
              type' isNamed isNamed'
            simp only [parameters.after_eq headParameters,
              parameters'.after_eq headParameters, methods]
      next noAngle =>
        cases parts with
        | declared isStart => exact absurd (starts.symm.trans isStart) undeclared
        | generic angle => exact absurd (angles.symm.trans angle) noAngle
        | alone _ noWord =>
          rw [untyped_member _ (Or.inl noWord), untyped_member _ (Or.inl (words.symm.trans noWord))]
        | typed _ type isNamed =>
          cases parts' with
          | declared isStart => exact absurd isStart undeclared
          | generic angle => exact absurd angle noAngle
          | alone _ noWord =>
            rw [untyped_member _ (Or.inl noWord), untyped_member _ (Or.inl (words.trans noWord))]
          | typed _ type' isNamed' => exact typed_shared behind _ type type' isNamed isNamed'

theorem piece_wellBuilt {trees piece : List Tree} (well : AllWellBuilt trees)
    (listed : piece ∈ pieces false trees) : AllWellBuilt piece := by
  refine allWellBuilt_iff.mpr fun t member => allWellBuilt_iff.mp well t ?_
  rw [← pieces_flatten trees]
  exact List.mem_flatten.mpr ⟨piece, listed, member⟩

private theorem memberPiece_read {fuel : Nat} {members piece : List Tree}
    (taken : ∀ piece ∈ pieces false members, IsMemberPiece fuel piece)
    (listed : piece ∈ pieces false members) :
    ∃ fuel, [] ∈ endsBy (ends Grammar.form fuel) Grammar.classMember piece := by
  have read := (taken piece listed).taken (Nat.le_refl _) []
  rw [List.append_nil] at read
  exact ⟨fuel, read⟩

section
variable {inside inside' : List Tree} (same : Forall₂ SameShape inside inside')
  (lexed : AllLexed inside) (lexed' : AllLexed inside')
  (well : AllWellBuilt inside) (well' : AllWellBuilt inside')
include same lexed lexed' well well'

/-- The members of two bodies are the same one by one. -/
theorem members_shared
    (read : ∀ piece ∈ pieces false inside, ∃ fuel, [] ∈
      endsBy (ends Grammar.form fuel) Grammar.classMember piece)
    (read' : ∀ piece ∈ pieces false inside', ∃ fuel, [] ∈
      endsBy (ends Grammar.form fuel) Grammar.classMember piece) (c : Class) :
    addMembers c (pieces false inside) = addMembers c (pieces false inside') := by
  have isMember : ∀ {inside piece : List Tree}, AllWellBuilt inside → piece ∈ pieces false inside →
      (∃ fuel, [] ∈ endsBy (ends Grammar.form fuel) Grammar.classMember piece) →
      IsMember piece := by
    rintro inside piece well listed ⟨_, read⟩
    exact isMember_read (piece_wellBuilt well listed) read
  have pairs :=
    twofold_of (pieces_shape same)
      (fun piece listed => ⟨pieces_lexed lexed piece listed, read piece listed⟩)
    fun piece listed => ⟨pieces_lexed lexed' piece listed, read' piece listed⟩
  have members := fun piece listed => isMember well listed (read piece listed)
  have members' := fun piece listed => isMember well' listed (read' piece listed)
  have all : (pieces false inside).map member = (pieces false inside').map member := by
    generalize pieces false inside = here, pieces false inside' = there at pairs members members'
    clear read read'
    induction pairs with
    | nil => rfl
    | cons first _ ih =>
      rw [List.map_cons, List.map_cons,
        member_shared (first.paired (by decide +kernel)) (members _ List.mem_cons_self)
        (members' _ List.mem_cons_self),
        ih (fun piece listed => members piece (List.mem_cons_of_mem _ listed)) fun piece listed =>
          members' piece (List.mem_cons_of_mem _ listed)]
  simp only [addMembers, all]

private theorem enumType_shared (derived : Java.derives .enumBody inside = true)
    (derived' : Java.derives .enumBody inside' = true) (c : Class)
    (opening opening' : Nat) :
    (enumType c opening inside).type = (enumType c opening' inside').type := by
  obtain ⟨first, behind⟩ := cut_like (fun _ _ same => SameShape.twin same) same ";"
  obtain ⟨constants, rest, rfl, inner, lists, parts⟩ := enumBody_cases derived
  obtain ⟨constants', rest', rfl, inner', lists', parts'⟩ := enumBody_cases derived'
  have names : AllLexed constants → AllLexed constants' → Forall₂ SameShape constants constants' →
      constantNames constants = constantNames constants' := by
    intro own own' shapes
    have read := lists (Nat.le_refl _) []
    have read' := lists' (Nat.le_refl _) []
    rw [List.append_nil] at read read'
    exact constantNames_shared shapes own own' read read'
  rcases parts with rfl | ⟨separator, members, rfl, semicolon, taken⟩
  · rcases parts' with rfl | ⟨separator', members', rfl, semicolon', taken'⟩
    · simp only [List.append_nil] at same lexed lexed' ⊢
      rw [enumType_open _ _ inner, enumType_open _ _ inner', names lexed lexed' same]
    · rw [List.append_nil, (cut_open inner).2, (cut_separated inner' semicolon' members').2]
        at behind
      cases behind
  · rcases parts' with rfl | ⟨separator', members', rfl, semicolon', taken'⟩
    · rw [List.append_nil, (cut_open inner').2, (cut_separated inner semicolon members).2] at behind
      cases behind
    · rw [(cut_separated inner semicolon members).1, (cut_separated inner' semicolon' members').1]
        at first
      rw [(cut_separated inner semicolon members).2, (cut_separated inner' semicolon' members').2]
        at behind
      obtain ⟨_, others⟩ := List.forall₂_cons.mp behind
      rw [enumType_separated _ _ inner semicolon, enumType_separated _ _ inner' semicolon',
        names (lexed.separated semicolon) (lexed'.separated semicolon') first]
      exact members_shared others lexed.behind.2.2 lexed'.behind.2.2 (AllWellBuilt.behind well).2
        (AllWellBuilt.behind well').2
        (fun _ listed => memberPiece_read taken listed)
        (fun _ listed => memberPiece_read taken' listed) _

/-- The body of a type declares the same in both sources. -/
theorem bodyType_shared {c : Class} (derived : Java.derives (bodyRule c.kind) inside = true)
    (derived' : Java.derives (bodyRule c.kind) inside' = true)
    (opening opening' : Nat) :
    (bodyType c opening inside).type = (bodyType c opening' inside').type := by
  have member : ∀ {rule : Rule} {inside piece : List Tree}, Grammar.isBody rule = true →
      (∀ choice ∈ choices (Grammar.form rule), choice ∈ choices Grammar.classMember) →
      Java.derives rule inside = true → piece ∈ pieces false inside →
      ∃ fuel, [] ∈ endsBy (ends Grammar.form fuel) Grammar.classMember piece := by
    intro rule inside piece isBody known derived listed
    simp only [Java.derives, isBody, if_true, List.all_eq_true] at derived
    obtain ⟨choice, choice_listed, read⟩ :=
      exists_choice (ends_tidy _ _) (derives_iff.mp (derived piece listed))
    exact ⟨_, mem_choice (ends_tidy _ _) (known choice choice_listed) read⟩
  simp only [bodyType]
  cases kind : c.kind with
  | plain =>
    rw [kind] at derived derived'
    exact members_shared same lexed lexed' well well'
      (fun _ listed => member rfl (by decide +kernel) derived listed)
      (fun _ listed => member rfl (by decide +kernel) derived' listed) c
  | interface =>
    rw [kind] at derived derived'
    have members :=
      members_shared same lexed lexed' well well'
        (fun _ listed => member rfl (by decide +kernel) derived listed)
      (fun _ listed => member rfl (by decide +kernel) derived' listed) c
    simp only [members]
  | enum =>
    rw [kind] at derived derived'
    exact enumType_shared same lexed lexed' well well' derived derived' c opening opening'

end

/-- Of a declaration all trees are known but the body that ends it. -/
theorem declaration_seen {kind : Kind} {piece : List Tree}
    (covered : (declaration kind).covers Grammar.form piece = true) :
    ∀ t ∈ piece, t.isSymbol "=" = false ∧ Seen t := by
  have rules : ∀ rule, typeRules rule = true →
      builtFrom (fun atom => headAtoms atom || isRegion atom) typeRules
      (Grammar.form rule) = true := by
    intro rule called
    cases rule with
    | tag => decide +kernel
    | typeArguments => decide +kernel
    | _ => simp [typeRules] at called
  have built :
      builtFrom (fun atom => headAtoms atom || isRegion atom) typeRules
      (declaration kind) = true := by
    cases kind <;> decide +kernel
  obtain ⟨taken, whole, atoms⟩ :=
    endsBy_taken (ends_tidy Grammar.form _)
      (fun _ _ _ called read => ends_taken rules _ called read) built (covers_mem.mp covered)
  obtain rfl : piece = taken := by simpa using whole
  intro t member
  obtain ⟨atom, known, own⟩ := atoms t member
  have avoided : avoids "=" atom = true := by
    rcases Bool.or_eq_true_iff.mp known with isHead | region
    · cases atom with
      | one shape =>
        cases shape with
        | angle => simp [headAtoms] at isHead
        | symbols => exact isHead
        | _ => rfl
      | _ => rfl
    · cases atom with
      | inside => rfl
      | _ => simp [isRegion] at region
  exact ⟨avoids_taken avoided own, seen_taken known own⟩

private theorem declaration_paired {kind kind' : Kind} {piece piece' : List Tree}
    (same : Forall₂ SameShape piece piece') (lexed : AllLexed piece)
    (lexed' : AllLexed piece') (covered : (declaration kind).covers Grammar.form piece = true)
    (covered' : (declaration kind').covers Grammar.form piece' = true) :
    Forall₂ Likewise piece piece' := by
  have isTightForm : ∀ kind, isTight (declaration kind) = true := by
    intro kind
    cases kind <;> decide +kernel
  have matched :=
    matched_tight same lexed lexed' (form_tight (isTightForm kind) (covers_mem.mp covered))
    (form_tight (isTightForm kind') (covers_mem.mp covered'))
  exact (@likewise_front piece piece' [] [] same (by simpa using matched) (declaration_seen covered)
    (declaration_seen covered')).1

/-- The body that ends a declaration. -/
theorem declaration_last {kind : Kind} {piece : List Tree} (well : AllWellBuilt piece)
    (covered : (declaration kind).covers Grammar.form piece = true) :
    ∃ front rules opening closing inside, piece =
      front ++ [.group .brace rules opening closing inside] ∧ AllWellBuilt inside ∧
      Java.derives (bodyRule kind) inside = true := by
  obtain ⟨front, last, rfl, atom, body, taken⟩ :=
    endsBy_last (ends_tidy _ _) (declaration_ended kind) (covers_mem.mp covered)
  have own := bodyOf_taken body taken
  cases last with
  | leaf => simp [takes] at own
  | group bracket rules opening closing inside =>
    simp only [takes, Bool.and_eq_true, decide_eq_true_eq, List.contains_iff_mem] at own
    obtain ⟨rfl, listed⟩ := own
    obtain ⟨_, _, filtered, inner⟩ :=
      allWellBuilt_iff.mp well (.group .brace rules opening closing inside) (by simp)
    rw [filtered] at listed
    exact ⟨front, rules, opening, closing, inside, rfl, inner, (List.mem_filter.mp listed).2⟩

/-- A type that both sources declare is the same. -/
theorem sourceType_shared {piece piece' : List Tree} (same : Forall₂ SameShape piece piece')
    (lexed : AllLexed piece) (lexed' : AllLexed piece') (well : AllWellBuilt piece)
    (well' : AllWellBuilt piece') {heading heading' : Kind × String × List Tree}
    (starts : heading? piece = some heading) (starts' : heading? piece' = some heading')
    (covered : (declaration heading.1).covers Grammar.form piece = true)
    (covered' : (declaration heading'.1).covers Grammar.form piece' = true) :
    (sourceType? piece).map SourceType.type = (sourceType? piece').map SourceType.type := by
  have like := declaration_paired same lexed lexed' covered covered'
  have related := heading_like likewise_veiled like
  rw [starts, starts'] at related
  cases related with
  | some pair =>
    obtain ⟨kind, name, behind⟩ := pair
    have bare : headingClass piece heading = headingClass piece' heading' := by
      simp only [headingClass, isModified_like likewise_veiled "abstract" like, kind, name,
        header_like likewise_veiled _ _ _ behind]
    obtain ⟨front, rules, opening, closing, inside, rfl, inner, derived⟩ :=
      declaration_last well covered
    obtain ⟨front', rules', opening', closing', inside', rfl, inner', derived'⟩ :=
      declaration_last well' covered'
    have lasts := last_like same
    rw [List.getLast?_concat, List.getLast?_concat] at lasts
    cases lasts with
    | some ends =>
      rcases ends.cases with ⟨_, _, leaf, _⟩ | ⟨_, _, _, _, _, _, _, _, _, one, two, _, insides⟩
      · simp at leaf
      · obtain ⟨rfl, rfl, rfl, rfl, rfl⟩ := Tree.group.inj one
        obtain ⟨_, rfl, rfl, rfl, rfl⟩ := Tree.group.inj two
        rw [sourceType_of starts, sourceType_of starts', Option.map_some, Option.map_some, bare]
        rw [← headingClass_kind (front ++ [.group .brace rules opening closing inside]) heading,
          bare] at derived
        rw [← headingClass_kind (front' ++ [.group .brace rules' opening' closing' inside'])
          heading'] at derived'
        exact congrArg some
          (bodyType_shared insides (lexed.inside (List.mem_append_right _ List.mem_cons_self))
          (lexed'.inside (List.mem_append_right _ List.mem_cons_self)) inner inner'
          derived derived' _ _)

end ClassDiagram.Proofs.SharedMembers
