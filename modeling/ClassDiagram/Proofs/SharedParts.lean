import ClassDiagram.Proofs.CommaCuts
import ClassDiagram.Proofs.EnumBodies
import ClassDiagram.Proofs.SharedReadings

/-! Parameters, declared names and constants that two sources of the same tokens share. Their lists
are cut alike, and each part is read by its modifiers and its type, which do not see what only the
one source derives. A part with a value is no exception: the value comes last. -/

namespace ClassDiagram.Proofs.SharedParts
open Java Java.Tree Java.Outline Form Likeness OutlineLikeness Remainders BodyPieces LocalReadings
  DecidedReadings TreeShapes SharedReadings CommaCuts
open List (Forall₂)

/-- What a list is cut into is read part by part. -/
theorem cuts_read {form : Form} (free : isLocal memberRules form = true) {trees part : List Tree}
    (cut : partsOf form trees = cuts trees) (member : part ∈ cuts trees) :
    ∃ fuel, [] ∈ endsBy (ends Grammar.form fuel) form part := by
  rw [← cut] at member
  obtain ⟨rest, _, read⟩ := EnumConstants.listed_read member
  have alone := form_moves free (Nat.le_refl _) part rest [] read
  rw [List.append_nil] at alone
  exact ⟨_, alone⟩

structure Twofold (form : Form) (part part' : List Tree) : Prop where
  shape : Forall₂ SameShape part part'
  lexed : AllLexed part
  lexed' : AllLexed part'
  read : ∃ fuel, [] ∈ endsBy (ends Grammar.form fuel) form part
  read' : ∃ fuel, [] ∈ endsBy (ends Grammar.form fuel) form part'

theorem Twofold.paired {form : Form} {part part' : List Tree} (both : Twofold form part part')
    (isTightForm : isTight form = true) : Paired part part' := by
  obtain ⟨_, read⟩ := both.read
  obtain ⟨_, read'⟩ := both.read'
  exact ⟨both.shape, both.lexed, both.lexed',
    matched_tight both.shape both.lexed both.lexed' (form_tight isTightForm read)
    (form_tight isTightForm read')⟩

theorem twofold_of {form : Form} {all all' : List (List Tree)}
    (shapes : Forall₂ (Forall₂ SameShape) all all')
    (own : ∀ part ∈ all, AllLexed part ∧ ∃ fuel, [] ∈ endsBy (ends Grammar.form fuel) form part)
    (own' : ∀ part ∈ all', AllLexed part ∧ ∃ fuel, [] ∈ endsBy (ends Grammar.form fuel) form part) :
    Forall₂ (Twofold form) all all' := by
  induction shapes with
  | nil => exact .nil
  | cons first _ ih =>
    have one := own _ List.mem_cons_self
    have other := own' _ List.mem_cons_self
    exact .cons ⟨first, one.1, other.1, one.2, other.2⟩
      (ih (fun part member => own part (List.mem_cons_of_mem _ member)) fun part member =>
        own' part (List.mem_cons_of_mem _ member))

private theorem parts_twofold {form : Form} (free : isLocal memberRules form = true)
    {trees trees' : List Tree} (same : Forall₂ SameShape trees trees')
    (lexed : AllLexed trees) (lexed' : AllLexed trees') (cut : partsOf form trees = cuts trees)
    (cut' : partsOf form trees' = cuts trees') :
    Forall₂ (Twofold form) (partsOf form trees) (partsOf form trees') := by
  rw [cut, cut']
  exact twofold_of (cuts_shape same)
    (fun _ member => ⟨cuts_lexed lexed member, cuts_read free cut member⟩)
    fun _ member => ⟨cuts_lexed lexed' member, cuts_read free cut' member⟩

private theorem shape_word {trees trees' : List Tree} (same : Forall₂ SameShape trees trees') :
    trees.head?.bind word? = trees'.head?.bind word? :=
  head_word (same.imp fun _ _ same => same.twin)

/-- Declared names start their parts. -/
theorem declaredNames_shared {trees trees' : List Tree} (same : Forall₂ SameShape trees trees')
    {fuel fuel' : Nat} (list : Listed fuel (Grammar.declarator []) trees)
    (list' : Listed fuel' (Grammar.declarator []) trees') :
    declaredNames trees = declaredNames trees' := by
  rw [declaredNames, declaredNames, partsOf_cuts declarator_part list,
    partsOf_cuts declarator_part list']
  exact filterMap_like shape_word (cuts_shape same)

/-- Constants are cut apart at commas, also if a comma stands alone. -/
theorem constants_cut {fuel : Nat} {trees : List Tree}
    (read : [] ∈ endsBy (ends Grammar.form fuel) (Grammar.items Grammar.enumConstant) trees) :
    partsOf Grammar.enumConstant trees = cuts trees := by
  rcases constants_listed read with list | ⟨comma, rfl, isComma⟩
  · exact partsOf_cuts constant_part list
  · have none : cuts [comma] = [] := by
      simp [cuts, commaParts, isComma, sinks, isSymbol_other isComma (show "," ≠ ";" by decide)]
    rw [none, partsOf]
    cases parts : listed Grammar.enumConstant ([comma].length + 1) [comma] with
    | nil => rfl
    | cons part more =>
      exfalso
      obtain ⟨rest, within, read⟩ := EnumConstants.listed_read (parts ▸ List.mem_cons_self)
      obtain ⟨taken, whole, some, _⟩ := part_unclosed constant_part read
      obtain rfl := List.append_cancel_right whole
      have sunk := form_sunk constant_part.commas read
      obtain ⟨t, part, rfl⟩ := List.exists_cons_of_ne_nil some
      obtain ⟨rfl, rfl, rfl⟩ : t = comma ∧ part = [] ∧ rest = [] := by
        have size := within.length_le
        simp only [List.cons_append, List.length_cons, List.length_append, List.length_nil] at size
        have part_nil : part = [] := List.length_eq_zero_iff.mp (by omega)
        have rest_nil : rest = [] := List.length_eq_zero_iff.mp (by omega)
        subst part_nil rest_nil
        simpa using within.eq_of_length rfl
      cases sunk with
      | next sinks _ => simpa [CommaCuts.sinks] using sinks isComma

theorem constantNames_shared {trees trees' : List Tree} (same : Forall₂ SameShape trees trees')
    (lexed : AllLexed trees) (lexed' : AllLexed trees') {fuel fuel' : Nat}
    (read : [] ∈ endsBy (ends Grammar.form fuel) (Grammar.items Grammar.enumConstant) trees)
    (read' : [] ∈ endsBy (ends Grammar.form fuel') (Grammar.items Grammar.enumConstant) trees') :
    EnumBodies.constantNames trees = EnumBodies.constantNames trees' := by
  have named :
      ∀ {part : List Tree},
      (∃ fuel, [] ∈ endsBy (ends Grammar.form fuel) Grammar.enumConstant part) →
      ∃ rest, Stops Grammar.modifiers part rest := by
    rintro part ⟨fuel, read⟩
    obtain ⟨middle, modifiers, sequel⟩ := (mem_seq (ends_tidy _ _)).mp read
    obtain ⟨_, name, _⟩ := (mem_seq (ends_tidy _ _)).mp sequel
    exact ⟨middle, stops_before modifiers name (by decide +kernel)⟩
  have each : ∀ part part', Twofold Grammar.enumConstant part part' →
      constantName? part = constantName? part' := by
    intro part part' both
    obtain ⟨rest, stops⟩ := named both.read
    obtain ⟨rest', stops'⟩ := named both.read'
    have head : isHead Grammar.modifiers = true := by decide +kernel
    rw [constantName?, constantName?, stops.after_eq head, stops'.after_eq head]
    exact shape_word ((both.paired (by decide +kernel)).rest head stops stops').same
  have parts :=
    parts_twofold (by decide +kernel) same lexed lexed' (constants_cut read) (constants_cut read')
  simp only [EnumBodies.constantNames]
  generalize partsOf Grammar.enumConstant trees = here,
    partsOf Grammar.enumConstant trees' = there at parts
  induction parts with
  | nil => rfl
  | cons first _ ih => simp only [List.filterMap_cons, each _ _ first, ih]

def valuelessName : Form :=
  .alt (Grammar.declared []) (.seq (.sym "...") (Grammar.declared []))

def valuelessParameter : Form :=
  .alt (.alt (.all [.some1 Grammar.modifier, Grammar.bareType Grammar.modifierWords, valuelessName])
    (.seq (Grammar.bareType Grammar.modifierWords) valuelessName)) Grammar.receiver

/-- A parameter with a value takes any number of arguments. -/
structure Valued (part : List Tree) : Prop where
  spread : ∃ typed dots more, Stops Grammar.modifiers part typed ∧
    Stops (Grammar.bareType Grammar.modifierWords) typed (dots :: more) ∧ dots.isSymbol "..." = true
  value : ∃ t ∈ part, t.isSymbol "=" = true

section
variable {fuel : Nat} {trees : List Tree}

private theorem parameterName_cases
    (read : [] ∈ endsBy (ends Grammar.form fuel) (Grammar.parameterName []) trees) :
    [] ∈ endsBy (ends Grammar.form fuel) valuelessName trees ∨
      ∃ dots more, trees = dots :: more ∧ dots.isSymbol "..." = true ∧
      ∃ t ∈ more, t.isSymbol "=" = true := by
  have tidy := ends_tidy Grammar.form fuel
  rcases (mem_alt tidy).mp read with name | read
  · exact Or.inl ((mem_alt tidy).mpr (Or.inl name))
  · obtain ⟨middle, dots, sequel⟩ := (mem_seq tidy).mp read
    obtain ⟨valued, name, value⟩ := (mem_seq tidy).mp sequel
    rcases (mem_alt tidy).mp value with some | none
    · obtain ⟨_, equals, _⟩ := (mem_seq tidy).mp some
      obtain ⟨t, rfl, taken⟩ := mem_one_takes equals
      obtain ⟨u, rfl, taken'⟩ := mem_one_takes dots
      obtain ⟨front, rfl⟩ := endsBy_within tidy _ _ _ name
      exact Or.inr ⟨u, _, rfl, (PlainReadings.takes_sym "..." u).symm.trans taken', t, by simp,
        (PlainReadings.takes_sym "=" t).symm.trans taken⟩
    · obtain rfl := List.mem_singleton.mp none
      exact Or.inl ((mem_alt tidy).mpr (Or.inr ((mem_seq tidy).mpr ⟨middle, dots, name⟩)))

/-- Before the dots of a parameter its modifiers and its type are read as far as they go. -/
theorem valued_of {typed named : List Tree}
    (modifiers : typed ∈ endsBy (ends Grammar.form fuel) Grammar.modifiers trees)
    (type : named ∈ endsBy (ends Grammar.form fuel) (Grammar.bareType Grammar.modifierWords) typed)
    {dots : Tree} {more : List Tree} (same : named = dots :: more)
    (symbol : dots.isSymbol "..." = true) (value : ∃ t ∈ more, t.isSymbol "=" = true) :
    Valued trees := by
  subst same
  obtain ⟨front, whole⟩ := endsBy_within (ends_tidy _ _) _ _ _ modifiers
  obtain ⟨front', whole'⟩ := endsBy_within (ends_tidy _ _) _ _ _ type
  have dotted : more ∈ endsBy (ends Grammar.form fuel) (.sym "...") (dots :: more) := by
    rw [atom_read ((PlainReadings.takes_sym "..." dots).trans symbol)]
    simp
  refine ⟨⟨typed, dots, more, stops_before modifiers type (by decide +kernel),
    stops_before type dotted (by decide +kernel), symbol⟩, ?_⟩
  obtain ⟨t, member, equals⟩ := value
  exact ⟨t, by simp [← whole, ← whole', member], equals⟩

private theorem parameter_cases (read : [] ∈ endsBy (ends Grammar.form fuel) parameterForm trees) :
    [] ∈ endsBy (ends Grammar.form fuel) valuelessParameter trees ∨ Valued trees := by
  have tidy := ends_tidy Grammar.form fuel
  rcases (mem_alt tidy).mp read with parameter | receiver
  · rcases (mem_alt tidy).mp parameter with modified | plain
    · obtain ⟨typed, modifiers, sequel⟩ := (mem_seq tidy).mp modified
      obtain ⟨named, type, name⟩ := (mem_seq tidy).mp sequel
      obtain ⟨behind, name, done⟩ := (mem_seq tidy).mp name
      obtain rfl := List.mem_singleton.mp done
      rcases parameterName_cases name with valueless | ⟨dots, more, same, symbol, value⟩
      · refine Or.inl ((mem_alt tidy).mpr (Or.inl ((mem_alt tidy).mpr (Or.inl ?_))))
        exact (mem_seq tidy).mpr ⟨typed, modifiers,
          (mem_seq tidy).mpr ⟨named, type, (mem_seq tidy).mpr ⟨[], valueless, done⟩⟩⟩
      · obtain ⟨second, first, others⟩ := (mem_seq tidy).mp modifiers
        have less := endsBy_solid tidy (fun _ _ _ called read => ends_solid fuel called read)
          (show solid memberRules Grammar.modifier = true by decide +kernel) first
        have starred : typed ∈ endsBy (ends Grammar.form fuel) Grammar.modifiers trees :=
          (mem_star tidy).mpr (.next first less ((mem_star tidy).mp others))
        exact Or.inr (valued_of starred type same symbol value)
    · obtain ⟨named, type, name⟩ := (mem_seq tidy).mp plain
      rcases parameterName_cases name with valueless | ⟨dots, more, same, symbol, value⟩
      · exact Or.inl
          ((mem_alt tidy).mpr
            (Or.inl ((mem_alt tidy).mpr (Or.inr ((mem_seq tidy).mpr ⟨named, type, valueless⟩)))))
      · exact Or.inr (valued_of ((mem_star tidy).mpr (.done trees)) type same symbol value)
  · exact Or.inl ((mem_alt tidy).mpr (Or.inr receiver))

end

private theorem any_shape {trees trees' : List Tree} (same : Forall₂ SameShape trees trees')
    (text : String) :
    (∃ t ∈ trees, t.isSymbol text = true) → ∃ t ∈ trees', t.isSymbol text = true := by
  induction same with
  | nil => simp
  | cons first _ ih =>
    simp only [List.mem_cons, exists_eq_or_imp]
    exact Or.imp ((first.twin.symbol text).symm.trans ·) ih

private theorem parameter_shared {part part' : List Tree}
    (both : Twofold parameterForm part part') : SameParameter part part' := by
  have pair := both.paired (by decide +kernel)
  obtain ⟨fuel, read⟩ := both.read
  obtain ⟨fuel', read'⟩ := both.read'
  have built : builtFrom headAtoms typeRules valuelessParameter = true := by decide +kernel
  -- a value shows in both
  rcases parameter_cases read with valueless | valued
  · obtain ⟨taken, whole, seen⟩ := head_taken built valueless
    obtain rfl : part = taken := by simpa using whole
    rcases parameter_cases read' with valueless' | valued'
    · obtain ⟨taken', whole', seen'⟩ := head_taken built valueless'
      obtain rfl : part' = taken' := by simpa using whole'
      have like :=
        (@likewise_front part part' [] [] both.shape (by simpa using pair.matched) seen seen').1
      exact sameParameter_like likewise_veiled (by decide +kernel) (by decide +kernel) like
    · obtain ⟨t, member, equals⟩ := any_shape (shapes_symm both.shape) "=" valued'.value
      simp [(seen t member).1] at equals
  · rcases parameter_cases read' with valueless' | valued'
    · obtain ⟨taken', whole', seen'⟩ := head_taken built valueless'
      obtain rfl : part' = taken' := by simpa using whole'
      obtain ⟨t, member, equals⟩ := any_shape both.shape "=" valued.value
      simp [(seen' t member).1] at equals
    · obtain ⟨typed, dots, more, modifiers, type, symbol⟩ := valued.spread
      obtain ⟨typed', dots', more', modifiers', type', symbol'⟩ := valued'.spread
      have headModifiers : isHead Grammar.modifiers = true := by decide +kernel
      have headType : isHead (Grammar.bareType Grammar.modifierWords) = true := by decide +kernel
      have behind := (pair.rest headModifiers modifiers modifiers').same
      have nameless :
          ∀ {typed dots more}, Stops (Grammar.bareType Grammar.modifierWords) typed (dots :: more) →
          dots.isSymbol "..." = true → parameter? typed = none := by
        intro typed dots more type symbol
        have noWord : dots.word? = none := by
          cases dots with
          | leaf t =>
            simp only [Tree.isSymbol, Token.isSymbol, Bool.and_eq_true, beq_iff_eq] at symbol
            simp [word?, symbol.1]
          | group => rfl
        simp only [parameter?, type.after_eq headType]
        cases typed with
        | nil => rfl
        | cons => simp [noWord]
      refine ⟨last_word (both.shape.imp fun _ _ same => same.twin) "this", ?_, ?_⟩
      · rw [modifiers.after_eq headModifiers, modifiers'.after_eq headModifiers, behind.length_eq,
          both.shape.length_eq]
      · rw [modifiers.after_eq headModifiers, modifiers'.after_eq headModifiers,
          nameless type symbol, nameless type' symbol']

/-- Parameters that both sources derive are the same. -/
theorem parameters_shared {trees trees' : List Tree} (same : Forall₂ SameShape trees trees')
    (lexed : AllLexed trees) (lexed' : AllLexed trees')
    (derived : Java.derives .parameters trees = true)
    (derived' : Java.derives .parameters trees' = true) : parameters trees = parameters trees' := by
  have cut : ∀ {trees : List Tree}, Java.derives .parameters trees = true →
      partsOf parameterForm trees = cuts trees := by
    intro trees derived
    have noBody : Grammar.isBody .parameters = false := rfl
    simp only [Java.derives, noBody, Bool.false_eq_true, if_false] at derived
    exact partsOf_cuts parameter_part (parameters_listed (GeneratedMembers.derives_iff.mp derived))
  refine parameters_parts (same.imp fun _ _ same => same.twin) ?_
  exact (parts_twofold (by decide +kernel) same lexed lexed' (cut derived) (cut derived')).imp
    fun _ _ both => parameter_shared both

end ClassDiagram.Proofs.SharedParts
