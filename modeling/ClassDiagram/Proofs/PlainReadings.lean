import ClassDiagram.Proofs.BodyPieces
import ClassDiagram.Proofs.GeneratedText

/-! How the grammar reads plain declarations: types and names of one word each, with nothing that a
longer type, an annotation or an array could go on with. Every form has exactly one reading
there. -/

namespace ClassDiagram.Proofs.PlainReadings
open Java Java.Outline Form Likeness Remainders ScannedText GeneratedText

section
variable {callees : Rule → List Tree → List (List Tree)} {trees middle : List Tree}
  {first second : Form}

private theorem merge_nil {all : List (List Tree)} (falling : Falling all) :
    Form.merge all [] = all := by
  induction all with
  | nil => rfl
  | cons rest all ih =>
    obtain ⟨below, sorted⟩ := List.pairwise_cons.mp falling
    rw [show Form.merge (rest :: all) [] = Form.insert rest (Form.merge all []) from rfl, ih sorted]
    cases all with
    | nil => rfl
    | cons next all => simp [Form.insert, below next (by simp)]

theorem seq_none (none : endsBy callees first trees = []) :
    endsBy callees (.seq first second) trees = [] := by
  simp [endsBy, none]

theorem seq_one (tidy : Tidy callees) (one : endsBy callees first trees = [middle]) :
    endsBy callees (.seq first second) trees = endsBy callees second middle := by
  simp only [endsBy, one, List.foldr_cons, List.foldr_nil]
  exact merge_nil (endsBy_falling tidy second middle)

private theorem alt_left (tidy : Tidy callees) (none : endsBy callees second trees = []) :
    endsBy callees (.alt first second) trees = endsBy callees first trees := by
  simp only [endsBy, none]
  exact merge_nil (endsBy_falling tidy first trees)

theorem alt_right (none : endsBy callees first trees = []) :
    endsBy callees (.alt first second) trees = endsBy callees second trees := by
  simp [endsBy, none, Form.merge]

theorem opt_none (none : endsBy callees first trees = []) :
    endsBy callees (.opt first) trees = [trees] :=
  alt_right none

theorem star_none (none : endsBy callees first trees = []) :
    endsBy callees (.star first) trees = [trees] := by
  simp [endsBy, Form.closure, none, Form.merge]
  cases trees.length <;> rfl

theorem star_once {t : Tree} (one : endsBy callees first (t :: trees) = [trees])
    (none : endsBy callees first trees = []) :
    endsBy callees (.star first) (t :: trees) = [t :: trees, trees] := by
  simp [endsBy, Form.closure, one, none, Form.merge, Form.insert]
  cases trees.length <;> rfl

end

theorem takes_sym (text : String) (t : Tree) : takes (Form.sym text) t = t.isSymbol text := by
  cases t with
  | leaf t => simp [takes, Form.sym, Shape.accepts, Tree.isSymbol, Token.isSymbol, beq_eq_decide]
  | group => rfl

theorem takes_words (texts : List String) (text : String) :
    takes (.one (.words texts)) (wordTree text) = texts.contains text := by
  simp [takes, wordTree, wordToken, Shape.accepts, Token.keyword]

theorem takes_name (excluded : List String) (text : String) :
    takes (Form.name excluded) (wordTree text) = !excluded.contains text := by
  simp [takes, wordTree, wordToken, Form.name, Shape.accepts, Token.keyword]

theorem one_taken {callees : Rule → List Tree → List (List Tree)} {shape : Shape} {t : Tree}
    (taken : takes (.one shape) t = true) (rest : List Tree) :
    endsBy callees (.one shape) (t :: rest) = [rest] := by
  rw [endsBy_one, if_pos taken]

theorem one_refused {callees : Rule → List Tree → List (List Tree)} {shape : Shape}
    {trees : List Tree} (refused : ∀ t ∈ trees.head?, takes (.one shape) t = false) :
    endsBy callees (.one shape) trees = [] := by
  cases trees with
  | nil => rfl
  | cons t rest =>
    rw [endsBy_one, refused t rfl]
    rfl

theorem inside_taken {callees : Rule → List Tree → List (List Tree)} {bracket : Bracket}
    {rule : Rule} {t : Tree} (taken : takes (.inside bracket rule) t = true) (rest : List Tree) :
    endsBy callees (.inside bracket rule) (t :: rest) = [rest] := by
  rw [endsBy_inside, if_pos taken]

theorem inside_refused {callees : Rule → List Tree → List (List Tree)} {bracket : Bracket}
    {rule : Rule} {trees : List Tree}
    (refused : ∀ t ∈ trees.head?, takes (.inside bracket rule) t = false) :
    endsBy callees (.inside bracket rule) trees = [] := by
  cases trees with
  | nil => rfl
  | cons t rest =>
    rw [endsBy_inside, refused t rfl]
    rfl

/-- The tree goes on with neither the arguments nor the dimensions of a type, and is no
annotation. -/
structure IsApart (t : Tree) : Prop where
  tag : t.startsTag = false
  angle : t.isSymbol "<" = false
  square : takes (.inside .square .nothing) t = false

/-- The tree continues neither a type nor a declared name. -/
structure IsPlain (t : Tree) : Prop extends IsApart t where
  dot : t.isSymbol "." = false
  dots : t.isSymbol "..." = false
  equals : t.isSymbol "=" = false

def ApartNext (trees : List Tree) : Prop :=
  ∀ t ∈ trees.head?, IsApart t

/-- The trees are at an end, or go on with something plain. -/
def PlainNext (trees : List Tree) : Prop :=
  ∀ t ∈ trees.head?, IsPlain t

theorem PlainNext.apart {trees : List Tree} (plain : PlainNext trees) : ApartNext trees :=
  fun t head => (plain t head).toIsApart

theorem wordTree_plain (text : String) : IsPlain (wordTree text) :=
  ⟨⟨rfl, rfl, rfl⟩, rfl, rfl, rfl⟩

theorem separator_plain {text : String} (listed : text ∈ [";", ","]) :
    IsPlain (symbolTree text) := by
  simp only [List.mem_cons, List.not_mem_nil, or_false] at listed
  rcases listed with rfl | rfl
  · exact ⟨⟨by decide, by decide, rfl⟩, by decide, by decide, by decide⟩
  · exact ⟨⟨by decide, by decide, rfl⟩, by decide, by decide, by decide⟩

theorem region_plain {bracket : Bracket} {opening closing : String} {inside : List Tree}
    (noSquare : bracket ≠ .square) : IsPlain (region bracket opening closing inside) :=
  ⟨⟨rfl, rfl, by simp [takes, region, noSquare]⟩, rfl, rfl, rfl⟩

section
variable {fuel : Nat} {trees : List Tree}

theorem symbol_refused {text : String} (other : ∀ t ∈ trees.head?, t.isSymbol text = false) :
    endsBy (ends Grammar.form fuel) (Form.sym text) trees = [] :=
  one_refused fun t head => (takes_sym text t).trans (other t head)

variable (apart : ApartNext trees)
include apart

private theorem tag_refused : ends Grammar.form fuel .tag trees = [] := by
  cases fuel with
  | zero => rfl
  | succ fuel =>
    have none : ∀ t ∈ trees.head?, t.isSymbol "@" = false ∧ t.isSymbol "@interface" = false :=
      fun t head =>
      Bool.or_eq_false_iff.mp (apart t head).tag
    have at' : endsBy (ends Grammar.form fuel) (Form.sym "@") trees = [] :=
      symbol_refused fun t head => (none t head).1
    have declared : endsBy (ends Grammar.form fuel) (Form.sym "@interface") trees = [] :=
      symbol_refused fun t head => (none t head).2
    exact seq_none ((alt_right (seq_none at')).trans declared)

theorem typeArguments_refused : ends Grammar.form fuel .typeArguments trees = [] := by
  cases fuel with
  | zero => rfl
  | succ fuel =>
    exact seq_none (symbol_refused fun t head => (apart t head).angle)

theorem annotations_nothing : endsBy (ends Grammar.form fuel) Grammar.annotations trees = [trees] :=
  star_none (tag_refused apart)

private theorem dimensions_refused :
    endsBy (ends Grammar.form fuel) Grammar.dimensions trees = [] := by
  apply seq_none
  rw [seq_one (ends_tidy Grammar.form fuel) (annotations_nothing apart)]
  exact inside_refused fun t head => (apart t head).square

theorem noDimensions :
    endsBy (ends Grammar.form fuel) (Form.opt Grammar.dimensions) trees = [trees] :=
  opt_none (dimensions_refused apart)

end

/-- The words that may not stand for a plain name where a member is declared. -/
def reserved : List String :=
  Grammar.primitives ++ Grammar.notMemberTypes ++ ["this", "_"]

/-- A plain identifier: a word, and none of those that a declaration is read by. -/
structure IsPlainName (name : String) : Prop where
  identifier : isIdentifier name = true
  free : name ∉ reserved

def IsPlainType (type : String) : Prop :=
  IsPlainName type ∨ type ∈ Grammar.primitives

instance decidablePlainName (name : String) : Decidable (IsPlainName name) :=
  decidable_of_iff (isIdentifier name = true ∧ name ∉ reserved)
    ⟨fun both => ⟨both.1, both.2⟩, fun plain => ⟨plain.identifier, plain.free⟩⟩

instance decidablePlainType (type : String) : Decidable (IsPlainType type) :=
  inferInstanceAs (Decidable (IsPlainName type ∨ type ∈ Grammar.primitives))

theorem IsPlainType.identifier {type : String} (plain : IsPlainType type) :
    isIdentifier type = true := by
  rcases plain with plain | primitive
  · exact plain.identifier
  · have all : ∀ type ∈ Grammar.primitives, isIdentifier type = true := by decide +kernel
    exact all type primitive

theorem primitives_reserved : Grammar.primitives ⊆ reserved :=
  List.subset_append_of_subset_left _ (List.subset_append_left _ _)

private theorem excluded_reserved : Grammar.notMemberTypes ⊆ reserved :=
  List.subset_append_of_subset_left _ (List.subset_append_right _ _)

theorem this_reserved : ["this"] ⊆ reserved :=
  List.subset_append_of_subset_right _ (by simp)

theorem modifiers_excluded : Grammar.modifierWords ⊆ Grammar.notMemberTypes :=
  List.subset_append_left _ _

theorem declarations_excluded : Grammar.declarationWords ⊆ Grammar.notMemberTypes :=
  List.subset_append_right _ _

theorem IsPlainName.notIn {name : String} (plain : IsPlainName name) {words : List String}
    (known : words ⊆ reserved) : words.contains name = false := by
  simpa using fun member => plain.free (known member)

theorem IsPlainType.notIn {type : String} (plain : IsPlainType type) {words : List String}
    (known : words ⊆ Grammar.notMemberTypes) : words.contains type = false := by
  rcases plain with plain | primitive
  · exact plain.notIn (List.Subset.trans known excluded_reserved)
  · have apart : ∀ word ∈ Grammar.notMemberTypes, word ∉ Grammar.primitives := by decide +kernel
    simpa using fun member => apart type (known member) primitive

section
variable {fuel : Nat} {trees : List Tree} (plain : PlainNext trees) {type : String}
  (typed : IsPlainType type)
include plain typed

private theorem simpleType_read {excluded : List String}
    (known : excluded ⊆ Grammar.notMemberTypes) :
    endsBy (ends Grammar.form fuel) (Grammar.simpleType excluded) (wordTree type :: trees) =
      [trees] := by
  have tidy := ends_tidy Grammar.form fuel
  by_cases primitive : type ∈ Grammar.primitives
  · have taken :
        endsBy (ends Grammar.form fuel) (.one (.words Grammar.primitives))
        (wordTree type :: trees) = [trees] :=
      one_taken (by simpa [takes_words] using primitive) trees
    have refused :
        endsBy (ends Grammar.form fuel) (Form.name (Grammar.primitives ++ excluded))
        (wordTree type :: trees) = [] :=
      one_refused fun t head => by
        obtain rfl := Option.some.inj head
        exact (takes_name _ _).trans (by simp [primitive])
    exact (alt_left tidy (seq_none refused)).trans taken
  · have outside := typed.notIn known
    have refused :
        endsBy (ends Grammar.form fuel) (.one (.words Grammar.primitives))
        (wordTree type :: trees) = [] :=
      one_refused fun t head => by
        obtain rfl := Option.some.inj head
        simpa [takes_words] using primitive
    have taken :
        endsBy (ends Grammar.form fuel) (Form.name (Grammar.primitives ++ excluded))
        (wordTree type :: trees) = [trees] :=
      one_taken ((takes_name _ _).trans (by simp_all)) trees
    have noArguments :
        endsBy (ends Grammar.form fuel) (Form.opt (.call .typeArguments)) trees = [trees] :=
      opt_none (typeArguments_refused plain.apart)
    have noDot : endsBy (ends Grammar.form fuel) (Form.sym ".") trees = [] :=
      symbol_refused fun t head => (plain t head).dot
    rw [Grammar.simpleType, alt_right refused, Grammar.classType]
    simp only [Form.all, List.foldr_cons, List.foldr_nil]
    rw [seq_one tidy taken, seq_one tidy noArguments, seq_one tidy (star_none (seq_none noDot))]
    rfl

theorem bareType_read {excluded : List String} (known : excluded ⊆ Grammar.notMemberTypes) :
    endsBy (ends Grammar.form fuel) (Grammar.bareType excluded) (wordTree type :: trees) =
      [trees] := by
  rw [Grammar.bareType, seq_one (ends_tidy Grammar.form fuel) (simpleType_read plain typed known)]
  exact noDimensions plain.apart

end

theorem words_refused {fuel : Nat} {words : List String} {text : String} {trees : List Tree}
    (outside : words.contains text = false) :
    endsBy (ends Grammar.form fuel) (.one (.words words)) (wordTree text :: trees) = [] :=
  one_refused fun t head => by
    obtain rfl := Option.some.inj head
    exact (takes_words words text).trans outside

theorem name_taken {fuel : Nat} {excluded : List String} {text : String} {trees : List Tree}
    (allowed : excluded.contains text = false) :
    endsBy (ends Grammar.form fuel) (Form.name excluded) (wordTree text :: trees) = [trees] :=
  one_taken ((takes_name excluded text).trans (by rw [allowed]; rfl)) trees

section
variable {fuel : Nat} {trees : List Tree}

theorem word_apart (text : String) : ApartNext (wordTree text :: trees) :=
  fun _ head => Option.some.inj head ▸ (wordTree_plain text).toIsApart

theorem modifier_other {text : String} (outside : text ∉ Grammar.modifierWords) :
    endsBy (ends Grammar.form fuel) Grammar.modifier (wordTree text :: trees) = [] := by
  have tag : endsBy (ends Grammar.form fuel) (.call .tag) (wordTree text :: trees) = [] :=
    tag_refused (word_apart text)
  have word : ∀ {words : List String}, words ⊆ Grammar.modifierWords →
      endsBy (ends Grammar.form fuel) (.one (.words words)) (wordTree text :: trees) = [] :=
    fun {words} listed =>
    words_refused (by simpa using fun member => outside (listed member))
  rw [Grammar.modifier, Form.any, List.foldl_cons, List.foldl_cons, List.foldl_nil, alt_right]
  · exact seq_none (word (by decide))
  · exact (alt_right tag).trans (word (by decide))

theorem modifier_word {text : String}
    (listed : text ∈ Grammar.modifierWords.filter (· != "non-sealed")) :
    endsBy (ends Grammar.form fuel) Grammar.modifier (wordTree text :: trees) = [trees] := by
  have tag : endsBy (ends Grammar.form fuel) (.call .tag) (wordTree text :: trees) = [] :=
    tag_refused (word_apart text)
  have unsplit : text ≠ "non-sealed" := by simpa using (List.mem_filter.mp listed).2
  have split :
      endsBy (ends Grammar.form fuel)
      (Form.all [Form.word "non-sealed", Form.sym "-", Form.word "sealed"])
      (wordTree text :: trees) = [] := seq_none (words_refused (by simpa using unsplit))
  rw [Grammar.modifier, Form.any, List.foldl_cons, List.foldl_cons, List.foldl_nil,
    alt_left (ends_tidy Grammar.form fuel) split, alt_right tag]
  exact one_taken ((takes_words _ _).trans (by simpa using listed)) trees

theorem modifier_refused {type : String} (typed : IsPlainType type) :
    endsBy (ends Grammar.form fuel) Grammar.modifier (wordTree type :: trees) = [] := by
  have outside := typed.notIn modifiers_excluded
  exact modifier_other (by simpa using outside)

theorem modifier_taken (isPrivate : Bool) :
    endsBy (ends Grammar.form fuel) Grammar.modifier (wordTree (access isPrivate) :: trees) =
      [trees] :=
  modifier_word (by cases isPrivate <;> decide)

theorem ownModifier_eq (text : String) :
    endsBy (ends Grammar.form fuel) Grammar.ownModifier (wordTree text :: trees) =
    endsBy (ends Grammar.form fuel) Grammar.modifier (wordTree text :: trees) := by
  have absent :
      endsBy (ends Grammar.form fuel) (.absent (Form.sym "@interface")) (wordTree text :: trees) =
      [wordTree text :: trees] := rfl
  rw [Grammar.ownModifier, seq_one (ends_tidy Grammar.form fuel) absent]

theorem ownModifiers_read (isPrivate : Bool) {type : String} (typed : IsPlainType type) :
    endsBy (ends Grammar.form fuel) Grammar.ownModifiers
      (wordTree (access isPrivate) :: wordTree type :: trees) =
      [wordTree (access isPrivate) :: wordTree type :: trees, wordTree type :: trees] :=
  star_once ((ownModifier_eq _).trans (modifier_taken isPrivate))
    ((ownModifier_eq _).trans (modifier_refused typed))

theorem memberType_read (plain : PlainNext trees) {type : String} (typed : IsPlainType type) :
    endsBy (ends Grammar.form fuel) (Grammar.bareType Grammar.notMemberTypes)
      (wordTree type :: trees) = [trees] :=
  bareType_read plain typed (List.Subset.refl _)

private theorem declared_read (plain : PlainNext trees) {name : String} {excluded : List String}
    (allowed : excluded.contains name = false) :
    endsBy (ends Grammar.form fuel) (Grammar.declared excluded) (wordTree name :: trees) =
      [trees] := by
  rw [Grammar.declared, seq_one (ends_tidy Grammar.form fuel) (name_taken allowed)]
  exact noDimensions plain.apart

theorem declarator_read (plain : PlainNext trees) (name : String) :
    endsBy (ends Grammar.form fuel) (Grammar.declarator []) (wordTree name :: trees) = [trees] := by
  have noValue : endsBy (ends Grammar.form fuel) (Form.sym "=") trees = [] :=
    symbol_refused fun t head => (plain t head).equals
  rw [Grammar.declarator, seq_one (ends_tidy Grammar.form fuel) (declared_read plain rfl)]
  exact opt_none (seq_none noValue)

private theorem semicolon_taken (trees : List Tree) :
    endsBy (ends Grammar.form fuel) (Form.sym ";") (symbolTree ";" :: trees) = [trees] :=
  one_taken ((takes_sym ";" _).trans (by decide)) trees

/-- A field of one name. -/
theorem field_read (isPrivate : Bool) {type : String} (typed : IsPlainType type) (name : String) :
    trees ∈ endsBy (ends Grammar.form fuel) Grammar.fieldDeclaration
      (wordTree (access isPrivate) :: wordTree type :: wordTree name ::
        symbolTree ";" :: trees) := by
  have tidy := ends_tidy Grammar.form fuel
  have ended : PlainNext (symbolTree ";" :: trees) :=
    fun t head => Option.some.inj head ▸ separator_plain (by simp)
  have named : PlainNext (wordTree name :: symbolTree ";" :: trees) :=
    fun t head => Option.some.inj head ▸ wordTree_plain name
  have alone : endsBy (ends Grammar.form fuel) (Form.sym ",") (symbolTree ";" :: trees) = [] :=
    one_refused fun t head => by
      obtain rfl := Option.some.inj head
      exact (takes_sym "," _).trans (by decide)
  have declarators :
      endsBy (ends Grammar.form fuel) (Grammar.declarators [])
      (wordTree name :: symbolTree ";" :: trees) = [symbolTree ";" :: trees] := by
    rw [Grammar.declarators, seq_one tidy (declarator_read ended name)]
    exact star_none (seq_none alone)
  refine (mem_seq tidy).mpr ⟨wordTree type :: wordTree name :: symbolTree ";" :: trees, ?_, ?_⟩
  · rw [ownModifiers_read isPrivate typed]
    simp
  · rw [List.foldr_cons, seq_one tidy (memberType_read named typed), List.foldr_cons,
      seq_one tidy declarators, List.foldr_cons, seq_one tidy (semicolon_taken trees)]
    simp [endsBy]

/-- A method with a body or without one. -/
theorem method_read (isPrivate : Bool) {type : String} (typed : IsPlainType type) {name : String}
    (allowed : name ≠ "_") {parameters last : Tree}
    (list : takes (.inside .paren .parameters) parameters = true)
    (ended : takes (.inside .brace .block) last = true ∨ last.isSymbol ";" = true)
    (isPlain : IsPlain last) (noWord : takes (Form.word "throws") last = false) :
    trees ∈ endsBy (ends Grammar.form fuel) Grammar.memberMethod
      (wordTree (access isPrivate) :: wordTree type :: wordTree name :: parameters ::
        last :: trees) := by
  have tidy := ends_tidy Grammar.form fuel
  have named : PlainNext (wordTree name :: parameters :: last :: trees) :=
    fun t head => Option.some.inj head ▸ wordTree_plain name
  have single : PlainNext (last :: trees) := fun t head => Option.some.inj head ▸ isPlain
  have noThrows : endsBy (ends Grammar.form fuel) Grammar.throws (last :: trees) =
      [last :: trees] :=
    opt_none (seq_none (one_refused fun t head => Option.some.inj head ▸ noWord))
  have finish :
      trees ∈ endsBy (ends Grammar.form fuel) (.alt (.inside .brace .block) (Form.sym ";"))
      (last :: trees) := by
    rw [mem_alt tidy]
    rcases ended with block | semicolon
    · exact Or.inl (by simp [inside_taken block])
    · have taken : takes (Form.sym ";") last = true := (takes_sym ";" last).trans semicolon
      exact Or.inr (by rw [Form.sym, one_taken taken]; simp)
  refine (mem_seq tidy).mpr ⟨wordTree type :: wordTree name :: parameters :: last :: trees, ?_, ?_⟩
  · rw [ownModifiers_read isPrivate typed]
    simp
  · refine (mem_alt tidy).mpr (Or.inr ?_)
    rw [seq_one tidy (memberType_read named typed), Grammar.methodRest]
    simp only [Form.all, List.foldr_cons, List.foldr_nil]
    rw [seq_one tidy (name_taken (by simpa using allowed)),
      seq_one tidy (inside_taken list (last :: trees)),
      seq_one tidy (noDimensions single.apart), seq_one tidy noThrows]
    exact (mem_seq tidy).mpr ⟨trees, finish, by simp [endsBy]⟩

end

section
variable {fuel : Nat} {trees : List Tree} (plain : PlainNext trees) {type : String}
  (typed : IsPlainType type)
include plain typed

theorem parameter_read (name : String) :
    endsBy (ends Grammar.form fuel) Grammar.parameter (wordTree type :: wordTree name :: trees) =
      [trees] := by
  have tidy := ends_tidy Grammar.form fuel
  have next : PlainNext (wordTree name :: trees) :=
    fun t head => Option.some.inj head ▸ wordTree_plain name
  have unmodified :
      endsBy (ends Grammar.form fuel) Grammar.modifiedParameter
      (wordTree type :: wordTree name :: trees) = [] :=
    seq_none (seq_none (modifier_refused typed))
  have single : endsBy (ends Grammar.form fuel) (Form.sym "...") (wordTree name :: trees) = [] :=
    symbol_refused fun t head => (next t head).dots
  rw [Grammar.parameter, alt_right unmodified,
    seq_one tidy (bareType_read next typed modifiers_excluded),
    Grammar.parameterName, alt_left tidy (seq_none single)]
  exact declared_read plain rfl

/-- In the path of a receiver a dot follows every name. -/
theorem receiver_refused {name : String} (named : IsPlainName name) :
    endsBy (ends Grammar.form fuel) Grammar.receiver (wordTree type :: wordTree name :: trees) =
      [] := by
  have tidy := ends_tidy Grammar.form fuel
  have first : PlainNext (wordTree type :: wordTree name :: trees) :=
    fun t head => Option.some.inj head ▸ wordTree_plain type
  have next : PlainNext (wordTree name :: trees) :=
    fun t head => Option.some.inj head ▸ wordTree_plain name
  have noThis : endsBy (ends Grammar.form fuel) (Form.word "this") (wordTree name :: trees) = [] :=
    words_refused (named.notIn this_reserved)
  have untagged : endsBy (ends Grammar.form fuel) (Grammar.annotatedType Grammar.modifierWords)
      (wordTree type :: wordTree name :: trees) = [] := seq_none (tag_refused first.apart)
  have noDot : endsBy (ends Grammar.form fuel) (Form.sym ".") trees = [] :=
    symbol_refused fun t head => (plain t head).dot
  have noPath : ∀ {excluded : List String} {path : Form},
      endsBy (ends Grammar.form fuel) (Form.all [Form.name excluded, Form.sym ".", path])
      (wordTree name :: trees) = [] := by
    intro excluded path
    cases listed : excluded.contains name with
    | true =>
      refine seq_none (one_refused fun t head => ?_)
      obtain rfl := Option.some.inj head
      exact (takes_name excluded name).trans (by rw [listed]; rfl)
    | false =>
      rw [Form.all, List.foldr_cons, seq_one tidy (name_taken listed)]
      exact seq_none noDot
  have typed := @bareType_read fuel _ next _ typed _ modifiers_excluded
  rw [Grammar.receiver,
    seq_one tidy
    ((alt_right (seq_none untagged)).trans ((seq_one tidy typed).trans (opt_none noPath)))]
  exact noThis

/-- A parameter where a receiver could stand as well. -/
theorem parameterOrReceiver_read {name : String} (named : IsPlainName name) :
    endsBy (ends Grammar.form fuel) (.alt Grammar.parameter Grammar.receiver)
      (wordTree type :: wordTree name :: trees) = [trees] :=
  (alt_left (ends_tidy Grammar.form fuel) (receiver_refused plain typed named)).trans
    (parameter_read plain typed name)

theorem firstParameter_read {name : String} (named : IsPlainName name) :
    trees ∈ endsBy (ends Grammar.form fuel) (Grammar.firstParameter [])
      (wordTree type :: wordTree name :: trees) := by
  have tidy := ends_tidy Grammar.form fuel
  have next : PlainNext (wordTree name :: trees) :=
    fun t head => Option.some.inj head ▸ wordTree_plain name
  have rest :
      trees ∈ endsBy (ends Grammar.form fuel) (Grammar.parameterName ["this"])
      (wordTree name :: trees) := by
    refine (mem_alt tidy).mpr (Or.inl ?_)
    rw [declared_read plain (named.notIn this_reserved)]
    simp
  refine (mem_alt tidy).mpr (Or.inr ?_)
  rw [Grammar.typeThen, mem_alt tidy]
  by_cases primitive : type ∈ Grammar.primitives
  · refine Or.inr
      ((mem_seq tidy).mpr ⟨wordTree name :: trees, (mem_alt tidy).mpr (Or.inl ?_), rest⟩)
    refine (mem_seq tidy).mpr ⟨wordTree name :: trees, (mem_alt tidy).mpr (Or.inl ?_), ?_⟩
    · rw [one_taken (by simpa [takes_words] using primitive)]
      simp
    · rw [noDimensions next.apart]
      simp
  · refine Or.inl ((mem_seq tidy).mpr ⟨wordTree name :: trees, ?_, rest⟩)
    have outside : Grammar.modifierWords.contains type = false := typed.notIn modifiers_excluded
    rw [name_taken (by simp_all)]
    simp

end

end ClassDiagram.Proofs.PlainReadings
