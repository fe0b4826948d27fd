import ClassDiagram.Proofs.GeneratedMembers
import ClassDiagram.Proofs.Walks

/-! Names joined by dots, as supertypes are written. A dot before a name is a token of its own, the
joined names are one type, and the type is named by them again. -/

namespace ClassDiagram.Proofs.DottedNames
open Java Java.Outline Text Form Likeness Remainders LexemeLocality TokenTrees BareTrees ScannedText
  GeneratedText PlainReadings GeneratedMembers

def begins (c : Char) : Pattern → Bool
  | .never => false
  | .empty => false
  | .one accepts => accepts c
  | .seq first second => begins c first || (first.isNullable && begins c second)
  | .alt left right => begins c left || begins c right
  | .star body => begins c body

private theorem derive_unbegun {c : Char} {p : Pattern} (none : begins c p = false) :
    p.derive c = .never := by
  induction p with
  | never => rfl
  | empty => rfl
  | one accepts => simpa [begins, Pattern.derive] using none
  | seq first second one two =>
    simp only [begins, Bool.or_eq_false_iff, Bool.and_eq_false_iff] at none
    simp only [Pattern.derive, one none.1, Pattern.thenMatch]
    split
    next nullable => rw [two (none.2.resolve_left (by simp [nullable]))]; rfl
    next => rfl
  | alt left right one two =>
    simp only [begins, Bool.or_eq_false_iff] at none
    simp [Pattern.derive, one none.1, two none.2, Pattern.orMatch]
  | star body ih => simp [Pattern.derive, ih none, Pattern.thenMatch]

/-- Behind a dot a number goes on with a digit. -/
theorem noNumber_dot {c : Char} (noDigit : c.isDigit = false) (rest : List Char) :
    Number.pattern.longest? ('.' :: c :: rest) = none := by
  have behind : Number.pattern.derive '.' =
      .seq Number.grouped
      (Pattern.all [Pattern.opt Number.exponent, Pattern.opt Number.floatSuffix]) := rfl
  have stuck : begins c (Number.pattern.derive '.') = false := by
    simp [behind, begins, Number.grouped, Number.digits, Pattern.separated, Pattern.some1,
      Pattern.isNullable, noDigit]
  have open' : (Number.pattern.derive '.').isNullable = false := by decide +kernel
  have start : Number.pattern.isNullable = false := by decide +kernel
  simp [Pattern.longest?, derive_unbegun stuck, Pattern.isNever, open', start]

private theorem nameStart_undotted {c : Char} (starts : isNameStart c = true) :
    c.isDigit = false ∧ c ≠ '.' := by
  refine ⟨Bool.eq_false_iff.mpr fun digit => ?_, ?_⟩
  · have small : c.toNat < 128 := by
      simp only [Char.isDigit, Bool.and_eq_true, decide_eq_true_eq, ge_iff_le] at digit
      have upper : c.toNat ≤ '9'.toNat := digit.2
      exact Nat.lt_of_le_of_lt upper (by decide)
    have none :=
      Blanks.ascii (P := fun c => c.isDigit = true → isNameStart c = false) (by decide) small digit
    simp [none] at starts
  · rintro rfl
    exact absurd starts (by decide +kernel)

private theorem dot_lexeme {c : Char} (starts : isNameStart c = true) (rest : List Char) :
    codeLexeme? false ('.' :: c :: rest) = some (1, .token .symbol) := by
  obtain ⟨noDigit, noDot⟩ := nameStart_undotted starts
  have symbol : symbolLength? ('.' :: c :: rest) = some 1 := by
    have skipped : symbols = "@interface".toList :: "...".toList :: symbols.drop 2 := by decide
    have found : (symbols.drop 2).find? (·.isPrefixOf ('.' :: c :: rest)) = some ['.'] := rfl
    rw [symbolLength?, skipped, List.find?_cons_of_neg (by simp),
      List.find?_cons_of_neg (by simp [noDot.symm]), found]
    rfl
  have noMark : '.' ∉ marks := by decide
  have noLayout : isLayout '.' = false := by decide
  have noStart : isNameStart '.' = false := by decide +kernel
  rw [codeLexeme_plain noMark, simpleLexeme?, noLayout, noStart, noNumber_dot noDigit, symbol]
  rfl

private theorem reads_dot {c : Char} (starts : isNameStart c = true) {text : List Char}
    {tokens : List Token} (behind : Reads (c :: text) tokens) :
    Reads ('.' :: c :: text) (symbolToken "." :: tokens) := by
  intro levels rest code
  have found : lexeme? levels ('.' :: (c :: text ++ rest)) = some (1, .token .symbol) :=
    (lexeme_code code _).trans (dot_lexeme starts (text ++ rest))
  rw [List.cons_append, scan_mark (by decide) found]
  have same : Level.after levels ⟨.symbol, String.singleton '.', 0, 0, false, false⟩ = levels := rfl
  rw [same, behind levels rest code, Option.map_map]
  rfl

def chainTrees (first : String) (more : List String) : List Tree :=
  wordTree first :: more.flatMap fun name => [symbolTree ".", wordTree name]

private theorem identifier_start {name : String} (named : isIdentifier name = true) :
    ∃ c rest, name.toList = c :: rest ∧ isNameStart c = true := by
  simp only [isIdentifier] at named
  split at named
  next => simp at named
  next c rest spelled =>
    simp only [Bool.and_eq_true] at named
    exact ⟨c, rest, spelled, named.1⟩

theorem intercalate_cons (separator first second : String) (more : List String) :
    (separator.intercalate (first :: second :: more)).toList =
      first.toList ++ (separator.toList ++ (separator.intercalate (second :: more)).toList) := by
  simp [String.toList_intercalate]

/-- Joined names are read as a chain. -/
theorem reads_chain {first : String} {more : List String}
    (named : ∀ name ∈ first :: more, isIdentifier name = true) {stop : Char}
    (ended : stop ∈ stops) {text : List Char} {tokens : List Token}
    (behind : Reads (stop :: text) tokens) :
    Reads ((".".intercalate (first :: more)).toList ++ stop :: text)
      (allTokens (chainTrees first more) ++ tokens) := by
  induction more generalizing first with
  | nil =>
    have all := Reads.word (named first (by simp)) ended behind
    simpa [String.toList_intercalate, chainTrees, allTokens, tokensOf, wordTree] using all
  | cons second more ih =>
    have rest := @ih second fun name member => named name (List.mem_cons_of_mem first member)
    obtain ⟨c, spelled, start, starts⟩ := identifier_start (named second (by simp))
    obtain ⟨joined, shape⟩ : ∃ joined, (".".intercalate (second :: more)).toList ++ stop :: text =
        c :: joined := by
      cases more with
      | nil => exact ⟨_, by simp [start]; rfl⟩
      | cons third more => exact ⟨_, by rw [intercalate_cons, start]; rfl⟩
    rw [shape] at rest
    have all :=
      @Reads.word first (named first (by simp)) '.' (by decide) _ _ (reads_dot starts rest)
    rw [← shape] at all
    rw [intercalate_cons]
    simpa [chainTrees, allTokens, tokensOf, wordTree, symbolTree] using all

/-- What the names behind the first one leave off a chain. -/
def dotTrees (names : List String) : List Tree :=
  names.flatMap fun name => [symbolTree ".", wordTree name]

private theorem chainTrees_eq (first : String) (more : List String) :
    chainTrees first more = wordTree first :: dotTrees more := rfl

private theorem dot_apart : IsApart (symbolTree ".") :=
  ⟨by decide, by decide, rfl⟩

private theorem dotTrees_apart {rest : List Tree} (plain : PlainNext rest) (names : List String) :
    ApartNext (dotTrees names ++ rest) := by
  cases names with
  | nil => exact plain.apart
  | cons name names =>
    intro t head
    obtain rfl : symbolTree "." = t := by simpa [dotTrees] using head
    exact dot_apart

def furtherName : Form :=
  Form.all [Form.sym ".", Grammar.annotations, Form.name [], Form.opt (.call .typeArguments)]

section
variable {fuel : Nat} {rest : List Tree} (plain : PlainNext rest)
include plain

private theorem furtherName_read (name : String) (names : List String) :
    endsBy (ends Grammar.form fuel) furtherName (dotTrees (name :: names) ++ rest) =
      [dotTrees names ++ rest] := by
  have tidy := ends_tidy Grammar.form fuel
  have dot : endsBy (ends Grammar.form fuel) (Form.sym ".") (dotTrees (name :: names) ++ rest) =
      [wordTree name :: (dotTrees names ++ rest)] :=
    one_taken ((takes_sym "." _).trans (by decide)) _
  have noArguments :
      endsBy (ends Grammar.form fuel) (Form.opt (.call .typeArguments)) (dotTrees names ++ rest) =
      [dotTrees names ++ rest] :=
    opt_none (typeArguments_refused (dotTrees_apart plain names))
  rw [furtherName, Form.all, List.foldr_cons, seq_one tidy dot, List.foldr_cons,
    seq_one tidy (annotations_nothing (word_apart name)),
    List.foldr_cons, seq_one tidy (name_taken rfl), List.foldr_cons, seq_one tidy noArguments]
  rfl

private theorem furtherName_refused : endsBy (ends Grammar.form fuel) furtherName rest = [] :=
  seq_none (symbol_refused fun t head => (plain t head).dot)

/-- Further names are taken one by one, from the left. -/
theorem furtherNames_steps {names : List String} {trees : List Tree} :
    Steps (endsBy (ends Grammar.form fuel) furtherName) (dotTrees names ++ rest) trees →
    ∃ left, trees = dotTrees left ++ rest := by
  intro steps
  induction names with
  | nil =>
    cases steps with
    | done => exact ⟨[], rfl⟩
    | next step => simp [dotTrees, furtherName_refused plain] at step
  | cons name names ih =>
    cases steps with
    | done => exact ⟨name :: names, rfl⟩
    | next step _ more =>
      rw [furtherName_read plain, List.mem_singleton] at step
      exact ih (step ▸ more)

private theorem furtherNames_taken (names : List String) :
    Steps (endsBy (ends Grammar.form fuel) furtherName) (dotTrees names ++ rest) rest := by
  induction names with
  | nil => exact .done rest
  | cons name names ih =>
    refine @Steps.next _ _ (dotTrees names ++ rest) _ ?_ ?_ ih
    · rw [furtherName_read plain]
      simp
    · simp only [dotTrees, List.flatMap_cons, List.length_append, List.length_cons]
      omega

variable {first : String} (named : IsPlainName first) (more : List String)
include named

private theorem simpleType_eq :
    endsBy (ends Grammar.form fuel) (Grammar.simpleType []) (chainTrees first more ++ rest) =
    endsBy (ends Grammar.form fuel) (.seq (.star furtherName) .empty) (dotTrees more ++ rest) := by
  have tidy := ends_tidy Grammar.form fuel
  have noPrimitive : Grammar.primitives.contains first = false := named.notIn primitives_reserved
  have noArguments :
      endsBy (ends Grammar.form fuel) (Form.opt (.call .typeArguments)) (dotTrees more ++ rest) =
      [dotTrees more ++ rest] :=
    opt_none (typeArguments_refused (dotTrees_apart plain more))
  rw [chainTrees_eq, List.cons_append, Grammar.simpleType, alt_right (words_refused noPrimitive),
    Grammar.classType, Form.all,
    List.foldr_cons, seq_one tidy (name_taken (by simpa using noPrimitive)), List.foldr_cons,
    seq_one tidy noArguments]
  rfl

omit plain named in
private theorem type_eq :
    endsBy (ends Grammar.form fuel) Grammar.type (chainTrees first more ++ rest) =
    endsBy (ends Grammar.form fuel) (Grammar.bareType []) (chainTrees first more ++ rest) :=
  seq_one (ends_tidy Grammar.form fuel) (annotations_nothing (word_apart first))

/-- A chain is a type. -/
theorem type_read :
    rest ∈ endsBy (ends Grammar.form fuel) Grammar.type (chainTrees first more ++ rest) := by
  have tidy := ends_tidy Grammar.form fuel
  rw [type_eq more, Grammar.bareType, mem_seq tidy]
  refine ⟨rest, ?_, ?_⟩
  · rw [simpleType_eq plain named more, mem_seq tidy]
    exact ⟨rest, (mem_star tidy).mpr (furtherNames_taken plain more), by simp [endsBy]⟩
  · rw [noDimensions plain.apart]
    simp

/-- Readings of less than the chain leave some of its names. -/
theorem type_parts {trees : List Tree}
    (read : trees ∈ endsBy (ends Grammar.form fuel) Grammar.type (chainTrees first more ++ rest)) :
    ∃ left, trees = dotTrees left ++ rest := by
  have tidy := ends_tidy Grammar.form fuel
  rw [type_eq more, Grammar.bareType, mem_seq tidy] at read
  obtain ⟨middle, simple, ended⟩ := read
  rw [simpleType_eq plain named more, mem_seq tidy] at simple
  obtain ⟨middle', steps, done⟩ := simple
  obtain rfl := List.mem_singleton.mp done
  obtain ⟨left, rfl⟩ := furtherNames_steps plain ((mem_star tidy).mp steps)
  rw [noDimensions (dotTrees_apart plain left)] at ended
  exact ⟨left, List.mem_singleton.mp ended⟩

end

private theorem type_longest {rest : List Tree} (plain : PlainNext rest) {first : String}
    (named : IsPlainName first) (more : List String) :
    Grammar.type.longest? Grammar.form (chainTrees first more ++ rest) = some rest := by
  refine longest_least (type_read plain named more) fun other read => ?_
  obtain ⟨left, rfl⟩ := type_parts plain named more read
  simp

def nameParts (name : String) : List String :=
  (pieces '.' name.toList).map String.ofList

/-- Plain identifiers joined by dots. -/
def IsDottedName (name : String) : Prop :=
  ∀ part ∈ nameParts name, IsPlainName part

instance decidableDottedName (name : String) : Decidable (IsDottedName name) :=
  inferInstanceAs (Decidable (∀ part ∈ nameParts name, IsPlainName part))

theorem nameParts_cons (name : String) :
    ∃ first more, nameParts name = first :: more ∧ ".".intercalate (first :: more) = name := by
  obtain ⟨first, more, shape⟩ := List.exists_cons_of_ne_nil (Walks.pieces_ne_nil '.' name.toList)
  refine ⟨String.ofList first, more.map String.ofList, by simp [nameParts, shape], ?_⟩
  apply String.toList_inj.mp
  have joined := Walks.intercalate_pieces '.' name.toList
  rw [shape] at joined
  simpa [String.toList_intercalate, Function.comp_def] using joined

def supertypeTrees (name : String) : List Tree :=
  match nameParts name with
  | [] => []
  | first :: more => chainTrees first more

theorem supertypeTrees_eq {name first : String} {more : List String}
    (parts : nameParts name = first :: more) : supertypeTrees name = chainTrees first more := by
  simp only [supertypeTrees, parts]

section
variable {first : String} {more : List String}

private theorem chain_untagged : ∀ tree ∈ chainTrees first more, tree.startsTag = false := by
  intro tree member
  rcases List.mem_cons.mp member with rfl | member
  · rfl
  · obtain ⟨name, _, inside⟩ := List.mem_flatMap.mp member
    simp only [List.mem_cons, List.not_mem_nil, or_false] at inside
    rcases inside with rfl | rfl
    · decide
    · rfl

theorem withoutAnnotations_none {fuel : Nat} {trees : List Tree}
    (untagged : ∀ tree ∈ trees, tree.startsTag = false) :
    withoutAnnotations fuel trees = trees := by
  induction trees generalizing fuel with
  | nil => cases fuel <;> rfl
  | cons tree trees ih =>
    cases fuel with
    | zero => rfl
    | succ fuel =>
      rw [withoutAnnotations, untagged tree (by simp),
        ih fun other member => untagged other (by simp [member])]
      rfl

private theorem typeChain_dots (chain names : List String) :
    typeChain 0 chain (dotTrees names) = chain ++ names := by
  induction names generalizing chain with
  | nil => simp [dotTrees, typeChain]
  | cons name names ih =>
    have word : ∀ text, (wordTree name).isSymbol text = false := fun _ => rfl
    have dot : (symbolTree ".").isSymbol "<" = false ∧ (symbolTree ".").isSymbol ">" = false ∧
        (symbolTree ".").word? = none := by decide
    have named : (wordTree name).word? = some name := rfl
    have unfolded : dotTrees (name :: names) = symbolTree "." :: wordTree name :: dotTrees names :=
      rfl
    simp [unfolded, typeChain, dot, word, named, ih]

/-- A chain is named by its names. -/
theorem chain_named (named : IsPlainName first) :
    supertypeName? (chainTrees first more) = some (".".intercalate (first :: more)) := by
  have noPrimitive : Grammar.primitives.contains (wordTree first).firstText = false :=
    named.notIn primitives_reserved
  have untagged : (wordTree first).startsTag = false := rfl
  have whole :
      withoutAnnotations (wordTree first :: dotTrees more).length
      (wordTree first :: dotTrees more) = wordTree first :: dotTrees more :=
    withoutAnnotations_none (@chain_untagged first more)
  have word : ∀ text, (wordTree first).isSymbol text = false := fun _ => rfl
  have names : typeChain 0 [] (wordTree first :: dotTrees more) = first :: more := by
    simp only [typeChain, word, Bool.false_eq_true, if_false, if_true, typeChain_dots]
    rfl
  rw [chainTrees_eq]
  simp only [supertypeName?, untagged, noPrimitive, Bool.false_eq_true, if_false, whole, names]
  rfl

end

theorem IsDottedName.parts {name : String} (dotted : IsDottedName name) :
    ∃ first more, nameParts name = first :: more ∧
    ".".intercalate (first :: more) = name ∧ IsPlainName first ∧
    ∀ part ∈ first :: more, isIdentifier part = true := by
  obtain ⟨first, more, parts, joined⟩ := nameParts_cons name
  have plain : ∀ part ∈ first :: more, IsPlainName part :=
    fun part member => dotted part (parts ▸ member)
  exact ⟨first, more, parts, joined, plain first (by simp),
    fun part member => (plain part member).identifier⟩

section
variable {name : String} (dotted : IsDottedName name)
include dotted

theorem reads_supertype {stop : Char} (ended : stop ∈ stops) {text : List Char}
    {tokens : List Token} (behind : Reads (stop :: text) tokens) :
    Reads (name.toList ++ stop :: text) (allTokens (supertypeTrees name) ++ tokens) := by
  obtain ⟨first, more, parts, joined, _, named⟩ := dotted.parts
  rw [supertypeTrees_eq parts]
  have read := reads_chain named ended behind
  rwa [joined] at read

theorem supertype_read {fuel : Nat} {rest : List Tree} (plain : PlainNext rest) :
    rest ∈ endsBy (ends Grammar.form fuel) Grammar.type (supertypeTrees name ++ rest) := by
  obtain ⟨first, more, parts, _, named, _⟩ := dotted.parts
  rw [supertypeTrees_eq parts]
  exact type_read plain named more

theorem supertype_longest {rest : List Tree} (plain : PlainNext rest) :
    Grammar.type.longest? Grammar.form (supertypeTrees name ++ rest) = some rest := by
  obtain ⟨first, more, parts, _, named, _⟩ := dotted.parts
  rw [supertypeTrees_eq parts]
  exact type_longest plain named more

theorem supertype_named : supertypeName? (supertypeTrees name) = some name := by
  obtain ⟨first, more, parts, joined, named, _⟩ := dotted.parts
  rw [supertypeTrees_eq parts, chain_named named, joined]

end

def supertypesTrees (first : String) (more : List String) : List Tree :=
  supertypeTrees first ++ commaTrees supertypeTrees more

section
variable {first : String} {more : List String} (dotted : ∀ name ∈ first :: more, IsDottedName name)
include dotted

theorem reads_supertypes {stop : Char} (ended : stop ∈ stops) {text : List Char}
    {tokens : List Token} (behind : Reads (stop :: text) tokens) :
    Reads ((", ".intercalate (first :: more)).toList ++ stop :: text)
      (allTokens (supertypesTrees first more) ++ tokens) := by
  induction more generalizing first with
  | nil =>
    simpa [supertypesTrees, commaTrees] using reads_supertype (dotted first (by simp)) ended behind
  | cons second more ih =>
    have rest := @ih second fun name member => dotted name (List.mem_cons_of_mem first member)
    have comma : Reads [',', ' '] [symbolToken ","] :=
      (Reads.symbol (c := ',') (by decide)).append (.blank (by decide))
    have all := reads_supertype (dotted first (by simp)) (by decide) (comma.append rest)
    rw [intercalate_cons]
    simpa [supertypesTrees, commaTrees, allTokens, tokensOf, symbolTree] using all

variable {rest : List Tree} (plain : PlainNext rest)
include plain

/-- They are a list of types. -/
theorem supertypes_read {fuel : Nat} :
    rest ∈ endsBy (ends Grammar.form fuel) (Form.list1 Grammar.type)
      (supertypesTrees first more ++ rest) := by
  rw [supertypesTrees, List.append_assoc]
  exact list1_read fun name member behind follows =>
    supertype_read (dotted name member) (follows.plain plain)

/-- The outline finds each of them. -/
theorem supertypes_found (alone : ∀ t ∈ rest.head?, t.isSymbol "," = false) :
    (partsOf Grammar.type (supertypesTrees first more ++ rest)).filterMap supertypeName? =
      first :: more := by
  rw [supertypesTrees, List.append_assoc,
    parts_commas (fun name member behind follows =>
      supertype_longest (dotted name member) (follows.plain plain)) alone, List.filterMap_map]
  have same : ∀ name ∈ first :: more, (supertypeName? ∘ supertypeTrees) name = some name :=
    fun name member => supertype_named (dotted name member)
  rw [List.filterMap_congr same, List.filterMap_some]

end

end ClassDiagram.Proofs.DottedNames
