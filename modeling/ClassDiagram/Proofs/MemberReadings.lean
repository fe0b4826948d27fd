import ClassDiagram.Proofs.CommaCuts
import ClassDiagram.Proofs.GrownSources
import ClassDiagram.Proofs.SharedReadings

/-! What the members of a body are made of. Behind its modifiers each member goes on in one of a few
ways, and its modifiers, its type parameters and its type are read as far as they go, whichever of
the forms for members has taken it. -/

namespace ClassDiagram.Proofs.MemberReadings
open Java Java.Tree Java.Outline Form Likeness OutlineLikeness Remainders BareTrees BodyPieces
  LocalReadings DecidedReadings GeneratedMembers GrownSources
  SharedReadings CommaCuts

/-- What follows a type: a method's name with its parameters, the names of fields, or no name at all
behind the name of a constructor. -/
inductive Named : List Tree → Prop where
  | method {name : Tree} {rules : List Rule} {opening closing : Token} {inside more : List Tree}
      (derived : Java.derives .parameters inside = true) :
      Named (name :: .group .paren rules opening closing inside :: more)
  | fields {fuel : Nat} {name : Tree} {more : List Tree}
      (list : Listed fuel (Grammar.declarator []) (name :: more))
      (uncalled : ∀ rules opening closing inside, more.head? ≠
        some (.group .paren rules opening closing inside)) : Named (name :: more)
  | nameless {t : Tree} {more : List Tree} (noWord : t.word? = none) : Named (t :: more)

theorem Named.exists_cons {trees : List Tree} (isNamed : Named trees) :
    ∃ name more, trees = name :: more := by
  cases isNamed with
  | method => exact ⟨_, _, rfl⟩
  | fields => exact ⟨_, _, rfl⟩
  | nameless => exact ⟨_, _, rfl⟩

theorem Named.derived {name : Tree} {rules : List Rule} {opening closing : Token}
    {inside more : List Tree}
    (isNamed : Named (name :: .group .paren rules opening closing inside :: more))
    (word : name.word? ≠ none) : Java.derives .parameters inside = true := by
  cases isNamed with
  | method derived => exact derived
  | fields _ uncalled => exact absurd rfl (uncalled rules opening closing inside)
  | nameless noWord => exact absurd noWord word

theorem Named.listed {name : Tree} {more : List Tree} (isNamed : Named (name :: more))
    (word : name.word? ≠ none)
    (uncalled : ∀ rules opening closing inside, more.head? ≠
      some (.group .paren rules opening closing inside)) :
    ∃ fuel, Listed fuel (Grammar.declarator []) (name :: more) := by
  cases isNamed with
  | method => exact absurd rfl (uncalled _ _ _ _)
  | fields list => exact ⟨_, list⟩
  | nameless noWord => exact absurd noWord word

def startsDeclaration (t : Tree) : Bool :=
  Grammar.declarationWords.contains t.firstText || t.isSymbol "@interface" || t.isBraces

/-- What follows the modifiers of a member: another declaration, type parameters and a type, a type
alone, or a semicolon. -/
inductive MemberRest : List Tree → Prop where
  | declared {t : Tree} {more : List Tree} (starts : startsDeclaration t = true) :
    MemberRest (t :: more)
  | generic {t : Tree} {more typed named : List Tree} (angle : t.isSymbol "<" = true)
      (parameters : Stops (.seq Grammar.typeParameters Grammar.annotations) (t :: more) typed)
      (some : typed ≠ [])
      (type : Stops (Grammar.bareType []) typed named) (rest : Named named) : MemberRest (t :: more)
  | typed {t : Tree} {more named : List Tree} (noAngle : t.isSymbol "<" = false)
      (type : Stops (Grammar.bareType Grammar.notMemberTypes) (t :: more) named)
      (rest : Named named) : MemberRest (t :: more)
  | alone {t : Tree} {more : List Tree} (noAngle : t.isSymbol "<" = false)
    (noWord : t.word? = none) : MemberRest (t :: more)

private theorem region_derived {callees : Rule → List Tree → List (List Tree)} {bracket : Bracket}
    {rule : Rule} {trees rest : List Tree} (well : AllWellBuilt trees)
    (read : rest ∈ endsBy callees (.inside bracket rule) trees) :
    ∃ rules opening closing inside, trees = .group bracket rules opening closing inside :: rest ∧
      Java.derives rule inside = true := by
  obtain ⟨rules, opening, closing, inside, listed, rfl⟩ := mem_inside.mp read
  obtain ⟨⟨_, _, rfl, _⟩, _⟩ := well
  exact ⟨_, opening, closing, inside, rfl, (List.mem_filter.mp listed).2⟩

theorem AllWellBuilt.behind {first second : List Tree} (well : AllWellBuilt (first ++ second)) :
    AllWellBuilt second :=
  allWellBuilt_iff.mpr fun t member =>
    allWellBuilt_iff.mp well t (List.mem_append_right first member)

theorem exists_choice {callees : Rule → List Tree → List (List Tree)} (tidy : Tidy callees)
    {form : Form} {trees rest : List Tree} (read : rest ∈ endsBy callees form trees) :
    ∃ choice ∈ choices form, rest ∈ endsBy callees choice trees := by
  induction form with
  | alt left right one two =>
    rcases (mem_alt tidy).mp read with read | read
    · obtain ⟨choice, listed, read⟩ := one read
      exact ⟨choice, List.mem_append_left _ listed, read⟩
    · obtain ⟨choice, listed, read⟩ := two read
      exact ⟨choice, List.mem_append_right _ listed, read⟩
  | _ => exact ⟨_, List.mem_singleton_self _, read⟩

section
variable {fuel : Nat} {trees rest : List Tree}

/-- The parameters of a method stand behind its name. -/
theorem methodRest_named {excluded : List String} (well : AllWellBuilt trees)
    (read : rest ∈ endsBy (ends Grammar.form fuel) (Grammar.methodRest excluded) trees) :
    (∃ behind, behind ∈ endsBy (ends Grammar.form fuel) (.name excluded) trees) ∧ Named trees := by
  have tidy := ends_tidy Grammar.form fuel
  obtain ⟨middle, name, sequel⟩ := (mem_seq tidy).mp read
  obtain ⟨_, region, _⟩ := (mem_seq tidy).mp sequel
  refine ⟨⟨middle, name⟩, ?_⟩
  obtain ⟨t, rfl, _⟩ := mem_one_takes name
  obtain ⟨_, _, _, _, rfl, derived⟩ := region_derived well.2 region
  exact .method derived

def isUncalled : Form → Bool
  | .one _ => true
  | .inside bracket _ => bracket != .paren
  | _ => false

private theorem uncalled_taken {atom : Form} {t : Tree} (uncalled : isUncalled atom = true)
    (taken : takes atom t = true) (rules : List Rule)
    (opening closing : Token) (inside : List Tree) :
    t ≠ .group .paren rules opening closing inside := by
  rintro rfl
  cases atom with
  | inside bracket rule => simp_all [takes, isUncalled]
  | _ => simp [takes] at taken

/-- Behind the name of a field no parameters come. -/
theorem declarators_uncalled {t : Tree} {more middle : List Tree}
    (read : middle ∈ endsBy (ends Grammar.form fuel) (Grammar.declarators []) (t :: more))
    (ended : rest ∈ endsBy (ends Grammar.form fuel) (.sym ";") middle) (rules : List Rule)
    (opening closing : Token) (inside : List Tree) :
    more.head? ≠ some (.group .paren rules opening closing inside) := by
  have tidy := ends_tidy Grammar.form fuel
  have deciding := ends_deciding fuel
  have single : ∀ {atom : Form} {trees : List Tree}, isUncalled atom = true →
      (∃ t, trees.head? = some t ∧ takes atom t = true) →
      trees.head? ≠ some (.group .paren rules opening closing inside) := by
    rintro atom trees uncalled ⟨t, head, taken⟩ same
    exact uncalled_taken uncalled taken rules opening closing inside
      (Option.some.inj (head.symm.trans same))
  have symbol : ∀ {text : String} {trees rest : List Tree}, rest ∈
      endsBy (ends Grammar.form fuel) (.sym text) trees →
      trees.head? ≠ some (.group .paren rules opening closing inside) := by
    intro text trees rest read
    obtain ⟨t, rfl, taken⟩ := mem_one_takes read
    exact @single (.sym text) _ rfl ⟨t, rfl, taken⟩
  obtain ⟨behind, first, others⟩ := (mem_seq tidy).mp read
  obtain ⟨valued, declared, value⟩ := (mem_seq tidy).mp first
  obtain ⟨_, name, dimensions⟩ := (mem_seq tidy).mp declared
  obtain ⟨_, same, _⟩ := mem_one_takes name
  obtain ⟨_, rfl⟩ := List.cons.inj same
  rcases (mem_alt tidy).mp dimensions with some | none
  · have less :=
      endsBy_solid tidy deciding.solid
        (show solid typeRules Grammar.dimensions = true by decide +kernel) some
    obtain ⟨t, head, atom, listed, taken⟩ := starts_like deciding (by decide +kernel) some less
    have all : ∀ atom ∈ starts Grammar.dimensions, isUncalled atom = true := by decide +kernel
    exact single (all atom listed) ⟨t, head, taken⟩
  · obtain rfl := List.mem_singleton.mp none
    rcases (mem_alt tidy).mp value with some | none
    · obtain ⟨_, equals, _⟩ := (mem_seq tidy).mp some
      exact symbol equals
    · obtain rfl := List.mem_singleton.mp none
      cases (mem_star tidy).mp others with
      | done => exact symbol ended
      | next step =>
        obtain ⟨_, comma, _⟩ := (mem_seq tidy).mp step
        exact symbol comma

private theorem fields_named
    (read : rest ∈ endsBy (ends Grammar.form fuel)
      (.all [Grammar.declarators [], .sym ";"]) trees) :
    (∃ behind, behind ∈ endsBy (ends Grammar.form fuel) (.name []) trees) ∧ Named trees := by
  have tidy := ends_tidy Grammar.form fuel
  obtain ⟨middle, list, sequel⟩ := (mem_seq tidy).mp read
  obtain ⟨_, semicolon, _⟩ := (mem_seq tidy).mp sequel
  obtain ⟨_, first, _⟩ := (mem_seq tidy).mp list
  obtain ⟨_, declared, _⟩ := (mem_seq tidy).mp first
  obtain ⟨behind, name, _⟩ := (mem_seq tidy).mp declared
  refine ⟨⟨behind, name⟩, ?_⟩
  obtain ⟨t, rfl, _⟩ := mem_one_takes name
  obtain ⟨last, same, taken⟩ := mem_one_takes semicolon
  have closed : Closes middle := by
    intro u head
    obtain rfl : last = u := by simpa [same] using head
    exact (PlainReadings.takes_sym ";" last).symm.trans taken
  exact .fields (declarators_listed list closed) (declarators_uncalled list semicolon)

private theorem region_named {bracket : Bracket} {rule : Rule}
    (read : rest ∈ endsBy (ends Grammar.form fuel) (.inside bracket rule) trees) : Named trees := by
  obtain ⟨_, _, _, _, _, rfl⟩ := mem_inside.mp read
  exact .nameless rfl

private theorem typed_rest {next : Form} {typed named : List Tree}
    (type : named ∈ endsBy (ends Grammar.form fuel) (Grammar.bareType Grammar.notMemberTypes) typed)
    (sequel : rest ∈ endsBy (ends Grammar.form fuel) next named)
    (parted : endedBy (Grammar.bareType Grammar.notMemberTypes) next = true)
    (isNamed : Named named) : MemberRest typed := by
  have deciding := ends_deciding fuel
  have some :=
    endsBy_solid deciding.tidy deciding.solid
      (show solid typeRules (Grammar.bareType Grammar.notMemberTypes) = true by decide +kernel) type
  obtain ⟨t, head, atom, listed, taken⟩ := starts_like deciding (by decide +kernel) type some
  obtain ⟨more, rfl⟩ := List.head?_eq_some_iff.mp head
  have all : ∀ atom ∈ starts (Grammar.bareType Grammar.notMemberTypes), avoids "<" atom = true := by
    decide +kernel
  exact .typed (avoids_taken (all atom listed) taken) (stops_before type sequel parted) isNamed

private theorem generic_rest {next : Form} {generic middle typed named : List Tree}
    (parameters : middle ∈ endsBy (ends Grammar.form fuel) Grammar.typeParameters generic)
    (annotations : typed ∈ endsBy (ends Grammar.form fuel) Grammar.annotations middle)
    (type : named ∈ endsBy (ends Grammar.form fuel) (Grammar.bareType []) typed)
    (sequel : rest ∈ endsBy (ends Grammar.form fuel) next named)
    (parted : endedBy (Grammar.bareType []) next = true) (isNamed : Named named) :
    MemberRest generic := by
  have tidy := ends_tidy Grammar.form fuel
  have some :=
    endsBy_solid tidy (ends_deciding fuel).solid
      (show solid typeRules (Grammar.bareType []) = true by decide +kernel) type
  obtain ⟨_, opening, _⟩ := (mem_seq tidy).mp parameters
  obtain ⟨t, rfl, taken⟩ := mem_one_takes opening
  refine .generic ((PlainReadings.takes_sym "<" t).symm.trans taken)
    (stops_before ((mem_seq tidy).mpr ⟨middle, parameters, annotations⟩) type (by decide +kernel))
    ?_ (stops_before type sequel parted) isNamed
  rintro rfl
  simp at some

def isOpening : Form → Bool
  | .one (.words texts) => texts.all Grammar.declarationWords.contains
  | .one (.symbols texts) => texts == ["@interface"]
  | .inside .brace _ => true
  | _ => false

private theorem opening_starts {atom : Form} (opening : isOpening atom = true) {t : Tree}
    (taken : takes atom t = true) : startsDeclaration t = true := by
  cases t with
  | leaf token =>
    cases atom with
    | one shape =>
      cases shape with
      | words texts =>
        simp only [isOpening, List.all_eq_true] at opening
        simp only [takes, Shape.accepts, Bool.and_eq_true, List.contains_iff_mem] at taken
        have declares := opening _ taken.2
        have plain : token.keyword ≠ "non-sealed" := by
          intro same
          rw [same] at declares
          exact absurd declares (by decide)
        have spelled : token.keyword = token.text := by
          simp only [Token.keyword] at plain ⊢
          split at plain
          · exact absurd rfl plain
          · simp_all
        simp only [startsDeclaration, firstText, ← spelled, declares, Bool.true_or]
      | symbols texts =>
        obtain rfl : texts = ["@interface"] := by simpa [isOpening] using opening
        have symbol := (PlainReadings.takes_sym "@interface" (.leaf token)).symm.trans taken
        simp [startsDeclaration, symbol]
      | _ => simp [isOpening] at opening
    | _ => simp [takes] at taken
  | group bracket =>
    cases atom with
    | inside found rule =>
      obtain rfl : bracket = found := by simp_all [takes]
      cases bracket with
      | brace => simp [startsDeclaration, isBraces]
      | _ => simp [isOpening] at opening
    | _ => simp [takes] at taken

/-- What modifiers leave of a member. -/
def IsMember (piece : List Tree) : Prop :=
  ∃ rest, Stops Grammar.ownModifiers piece rest ∧ MemberRest rest

private theorem declared_member {atom : Form} {piece : List Tree}
    (modifiers : trees ∈ endsBy (ends Grammar.form fuel) Grammar.ownModifiers piece)
    (start : rest ∈ endsBy (ends Grammar.form fuel) atom trees)
    (opening : (isOpening atom && endedBy Grammar.ownModifiers atom) = true) : IsMember piece := by
  simp only [Bool.and_eq_true] at opening
  refine ⟨trees, stops_before modifiers start opening.2, ?_⟩
  cases atom with
  | one shape =>
    obtain ⟨t, rfl, taken⟩ := mem_one_takes start
    exact .declared (opening_starts opening.1 taken)
  | inside bracket rule =>
    obtain ⟨t, rfl, taken⟩ := mem_inside_takes start
    exact .declared (opening_starts opening.1 taken)
  | _ => simp [isOpening] at opening

/-- No modifiers are modifiers, too. -/
theorem unmodified (trees : List Tree) :
    trees ∈ endsBy (ends Grammar.form fuel) Grammar.ownModifiers trees :=
  (mem_star (ends_tidy Grammar.form fuel)).mpr (.done trees)

private theorem method_member {piece : List Tree} (well : AllWellBuilt piece)
    (read : rest ∈ endsBy (ends Grammar.form fuel) Grammar.memberMethod piece) :
    IsMember piece := by
  have tidy := ends_tidy Grammar.form fuel
  obtain ⟨middle, modifiers, sequel⟩ := (mem_seq tidy).mp read
  obtain ⟨front, rfl⟩ := endsBy_within tidy _ _ _ modifiers
  rcases (mem_alt tidy).mp sequel with generic | plain
  · obtain ⟨named, result, method⟩ := (mem_seq tidy).mp generic
    obtain ⟨tagged, parameters, sequel⟩ := (mem_seq tidy).mp result
    obtain ⟨typed, annotations, sequel⟩ := (mem_seq tidy).mp sequel
    obtain ⟨behind, type, done⟩ := (mem_seq tidy).mp sequel
    obtain rfl := List.mem_singleton.mp done
    obtain ⟨front', whole⟩ := endsBy_within tidy _ _ _ result
    obtain ⟨⟨_, name⟩, isNamed⟩ :=
      methodRest_named (AllWellBuilt.behind (whole.symm ▸ AllWellBuilt.behind well)) method
    exact ⟨middle, stops_before modifiers parameters (by decide +kernel),
      generic_rest parameters annotations type name (by decide +kernel) isNamed⟩
  · obtain ⟨named, type, method⟩ := (mem_seq tidy).mp plain
    obtain ⟨front', whole⟩ := endsBy_within tidy _ _ _ type
    obtain ⟨⟨_, name⟩, isNamed⟩ :=
      methodRest_named (AllWellBuilt.behind (whole.symm ▸ AllWellBuilt.behind well)) method
    exact ⟨middle, stops_before modifiers type (by decide +kernel),
      typed_rest type name (by decide +kernel) isNamed⟩

private theorem constructor_member {piece : List Tree}
    (read : rest ∈ endsBy (ends Grammar.form fuel) Grammar.constructor piece) : IsMember piece := by
  have tidy := ends_tidy Grammar.form fuel
  obtain ⟨middle, modifiers, sequel⟩ := (mem_seq tidy).mp read
  obtain ⟨behind, start, sequel⟩ := (mem_seq tidy).mp sequel
  obtain ⟨_, region, _⟩ := (mem_seq tidy).mp sequel
  rcases (mem_alt tidy).mp start with generic | plain
  · obtain ⟨typed, parameters, name⟩ := (mem_seq tidy).mp generic
    have type : behind ∈ endsBy (ends Grammar.form fuel) (Grammar.bareType []) typed :=
      simple_bare (name_type name)
    have annotations : typed ∈ endsBy (ends Grammar.form fuel) Grammar.annotations typed :=
      (mem_star tidy).mpr (.done typed)
    exact ⟨middle, stops_before modifiers parameters (by decide +kernel),
      generic_rest parameters annotations type region (by decide +kernel) (region_named region)⟩
  · have type := simple_bare (name_type plain)
    exact ⟨middle, stops_before modifiers type (by decide +kernel),
      typed_rest type region (by decide +kernel) (region_named region)⟩

private theorem compact_member {piece : List Tree}
    (read : rest ∈ endsBy (ends Grammar.form fuel) Grammar.compactConstructor piece) :
    IsMember piece := by
  have tidy := ends_tidy Grammar.form fuel
  obtain ⟨middle, modifiers, sequel⟩ := (mem_seq tidy).mp read
  obtain ⟨behind, name, sequel⟩ := (mem_seq tidy).mp sequel
  obtain ⟨_, region, _⟩ := (mem_seq tidy).mp sequel
  have type := simple_bare (name_type name)
  exact ⟨middle, stops_before modifiers type (by decide +kernel),
    typed_rest type region (by decide +kernel) (region_named region)⟩

private theorem field_member {piece : List Tree}
    (read : rest ∈ endsBy (ends Grammar.form fuel) Grammar.fieldDeclaration piece) :
    IsMember piece := by
  have tidy := ends_tidy Grammar.form fuel
  obtain ⟨middle, modifiers, sequel⟩ := (mem_seq tidy).mp read
  obtain ⟨named, type, names⟩ := (mem_seq tidy).mp sequel
  obtain ⟨⟨_, name⟩, isNamed⟩ := fields_named names
  exact ⟨middle, stops_before modifiers type (by decide +kernel),
    typed_rest type name (by decide +kernel) isNamed⟩

private theorem record_member {piece : List Tree}
    (read : rest ∈ endsBy (ends Grammar.form fuel) (Grammar.recordDeclaration []) piece) :
    IsMember piece := by
  have tidy := ends_tidy Grammar.form fuel
  obtain ⟨_, start, _⟩ := (mem_seq tidy).mp read
  rcases (mem_alt tidy).mp start with modified | plain
  · obtain ⟨middle, modifiers, sequel⟩ := (mem_seq tidy).mp modified
    obtain ⟨_, keyword, _⟩ := (mem_seq tidy).mp sequel
    obtain ⟨second, first, others⟩ := (mem_seq tidy).mp modifiers
    have less :=
      endsBy_solid tidy (ends_deciding fuel).solid
        (show solid typeRules Grammar.ownModifier = true by decide +kernel) first
    exact declared_member ((mem_star tidy).mpr (.next first less ((mem_star tidy).mp others)))
      keyword (by decide +kernel)
  · obtain ⟨_, keyword, _⟩ := (mem_seq tidy).mp plain
    exact declared_member (unmodified piece) keyword (by decide +kernel)

private theorem block_member {piece : List Tree}
    (read : rest ∈ endsBy (ends Grammar.form fuel)
      (.seq (.opt (.word "static")) (.inside .brace .block)) piece) : IsMember piece := by
  have tidy := ends_tidy Grammar.form fuel
  obtain ⟨middle, start, region⟩ := (mem_seq tidy).mp read
  refine declared_member ?_ region (by decide +kernel)
  rcases (mem_alt tidy).mp start with static | none
  · obtain ⟨t, taken, rfl⟩ := mem_one.mp static
    simp only [Shape.accepts, Bool.and_eq_true, beq_iff_eq, List.contains_iff_mem,
      List.mem_singleton] at taken
    have modifier :
        middle ∈ endsBy (ends Grammar.form fuel) Grammar.modifier (.leaf t :: middle) := by
      refine (mem_alt tidy).mpr (Or.inl ((mem_alt tidy).mpr (Or.inr (mem_one.mpr ⟨t, ?_, rfl⟩))))
      simp [Shape.accepts, taken, Grammar.modifierWords]
    have absent : .leaf t :: middle ∈
        endsBy (ends Grammar.form fuel) (.absent (.sym "@interface")) (.leaf t :: middle) := by
      refine mem_absent.mpr ⟨rfl, ?_⟩
      simp [Form.sym, endsBy_one, takes, Shape.accepts, taken]
    exact (mem_star tidy).mpr
      (.next ((mem_seq tidy).mpr ⟨_, absent, modifier⟩) (by simp) (.done middle))
  · exact List.mem_singleton.mp none ▸ unmodified middle

/-- Each member has its modifiers first. -/
theorem isMember_read {piece : List Tree} (well : AllWellBuilt piece)
    (read : rest ∈ endsBy (ends Grammar.form fuel) Grammar.classMember piece) : IsMember piece := by
  have tidy := ends_tidy Grammar.form fuel
  have declaration : ∀ {word behind}, rest ∈
      endsBy (ends Grammar.form fuel) (.seq Grammar.ownModifiers (.seq word behind)) piece →
      (isOpening word && endedBy Grammar.ownModifiers word) = true → IsMember piece := by
    intro word behind read opening
    obtain ⟨_, modifiers, sequel⟩ := (mem_seq tidy).mp read
    obtain ⟨_, keyword, _⟩ := (mem_seq tidy).mp sequel
    exact declared_member modifiers keyword opening
  obtain ⟨choice, listed, read⟩ := exists_choice tidy read
  have known : choices Grammar.classMember =
    [Grammar.fieldDeclaration, Grammar.memberMethod, Grammar.constructor,
      Grammar.compactConstructor,
    Grammar.classDeclaration, Grammar.recordDeclaration [], Grammar.interfaceDeclaration,
    Grammar.annotationDeclaration, Grammar.enumDeclaration,
    .seq (.opt (.word "static")) (.inside .brace .block), .sym ";"] := rfl
  simp only [known, List.mem_cons, List.not_mem_nil, or_false] at listed
  rcases listed with rfl | rfl | rfl | rfl | rfl | rfl | rfl | rfl | rfl | rfl | rfl
  · exact field_member read
  · exact method_member well read
  · exact constructor_member read
  · exact compact_member read
  · exact declaration read (by decide +kernel)
  · exact record_member read
  · exact declaration read (by decide +kernel)
  · exact declaration read (by decide +kernel)
  · exact declaration read (by decide +kernel)
  · exact block_member read
  · obtain ⟨t, same, taken⟩ := mem_one_takes read
    subst same
    have semicolon : t.isSymbol ";" = true := (PlainReadings.takes_sym ";" t).symm.trans taken
    refine ⟨t :: rest, stops_before (unmodified _) read (by decide +kernel),
      .alone (TreeShapes.isSymbol_other semicolon (by decide)) ?_⟩
    cases t with
    | leaf t =>
      simp only [Tree.isSymbol, Token.isSymbol, Bool.and_eq_true, beq_iff_eq] at semicolon
      simp [word?, semicolon.1]
    | group => rfl

end

end ClassDiagram.Proofs.MemberReadings
