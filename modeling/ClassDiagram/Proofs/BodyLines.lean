import ClassDiagram.Diagram.Reader
import ClassDiagram.Proofs.MemberLines
import ClassDiagram.Proofs.PathPlaces

/-! What the lines of a class body say. The grammar of a line is written down by its parts: a sign,
a name, parameters in parentheses, a colon and a type, with blanks between them. A line may be taken
apart as a method in several ways, and then the one with the longest parameters counts; as a field
it can be taken apart in one way at most. -/

namespace ClassDiagram.Diagram
open Text

def AreBlanks (text : List Char) : Prop :=
  ∀ c ∈ text, isBlank c = true

/-- The sign of a member, which may be missing, and whether it says private. -/
inductive IsSign : Bool → List Char → Prop where
  | missing : IsSign false []
  | plus : IsSign false ['+']
  | minus : IsSign true ['-']

structure IsTypeText (type : String) : Prop where
  first : ∃ c, type.toList.head? = some c ∧ isBlank c = false
  last : ∃ c, type.toList.getLast? = some c ∧ isBlank c = false

/-- The text is a sign, a name and the rest, with blanks behind the sign and the name. -/
def Opens (text : List Char) (isPrivate : Bool) (name : String) (rest : List Char) : Prop :=
  ∃ sign blanks more, IsSign isPrivate sign ∧ AreBlanks blanks ∧ IsMemberName name ∧
    AreBlanks more ∧ text = sign ++ blanks ++ name.toList ++ more ++ rest

def Types (text : List Char) (type : String) : Prop :=
  ∃ blanks, AreBlanks blanks ∧ IsTypeText type ∧ text = ':' :: (blanks ++ type.toList)

/-- The text is that of a method with something inside its parentheses. -/
def IsMethodText (text : List Char) (isPrivate : Bool) (name : String) (inside : List Char)
    (type : String) : Prop :=
  ∃ blanks rest, Opens text isPrivate name ('(' :: (inside ++ ')' :: (blanks ++ rest))) ∧
    AreBlanks blanks ∧ Types rest type

def IsFieldText (text : List Char) (isPrivate : Bool) (name type : String) : Prop :=
  ∃ rest, Opens text isPrivate name rest ∧ Types rest type

/-- The text is a name and a colon, with blanks before each, and behind them there is more than
blanks. -/
def IsParameterText (text : List Char) (parameter : Parameter) : Prop :=
  ∃ blanks more rest, AreBlanks blanks ∧ IsMemberName parameter.name ∧ AreBlanks more ∧
    text = blanks ++ parameter.name.toList ++ more ++ ':' :: rest ∧
    trim rest = parameter.type.toList ∧ parameter.type ≠ ""

/-- Texts with the parameters among them, in order; texts that are no parameters are left out. -/
inductive AreParameters : List (List Char) → List Parameter → Prop where
  | nil : AreParameters [] []
  | kept {text texts parameter parameters} : IsParameterText text parameter →
      AreParameters texts parameters → AreParameters (text :: texts) (parameter :: parameters)
  | left {text texts parameters} : (∀ parameter, ¬IsParameterText text parameter) →
      AreParameters texts parameters → AreParameters (text :: texts) parameters

/-- Texts without commas that make up the whole when they are joined by commas. -/
structure CutAtCommas (whole : List Char) (texts : List (List Char)) : Prop where
  some : texts ≠ []
  noComma : ∀ text ∈ texts, ',' ∉ text
  joined : [','].intercalate texts = whole

end ClassDiagram.Diagram

namespace ClassDiagram.Proofs.BodyLines
open Text Diagram Blanks MemberLines

private theorem skip_splits (text : List Char) :
    ∃ blanks, AreBlanks blanks ∧ text = blanks ++ skipBlanks text ∧
      ∀ c ∈ (skipBlanks text).head?, isBlank c = false := by
  refine ⟨text.takeWhile isBlank,
    fun c member => List.all_eq_true.mp List.all_takeWhile c member, ?_, ?_⟩
  · exact (List.takeWhile_append_dropWhile).symm
  · intro c first
    have stops := List.head?_dropWhile_not isBlank text
    rw [skipBlanks, Option.mem_def] at first
    simpa [first] using stops

private theorem trimEnd_splits (text : List Char) :
    ∃ blanks, AreBlanks blanks ∧ text = trimEnd text ++ blanks ∧
      ∀ c ∈ (trimEnd text).getLast?, isBlank c = false := by
  obtain ⟨blanks, blank, split, stops⟩ := skip_splits text.reverse
  refine ⟨blanks.reverse, fun c member => blank c (by simpa using member), ?_, ?_⟩
  · have whole := congrArg List.reverse split
    rwa [List.reverse_reverse, List.reverse_append] at whole
  · intro c last
    rw [trimEnd, List.getLast?_reverse] at last
    exact stops c last

/-- A text is what trimming leaves of it, between blanks. -/
theorem trim_splits (text : List Char) :
    ∃ before after, AreBlanks before ∧ AreBlanks after ∧ text = before ++ trim text ++ after ∧
    (∀ c ∈ (trim text).head?, isBlank c = false) ∧
      ∀ c ∈ (trim text).getLast?, isBlank c = false := by
  obtain ⟨before, blank, split, starts⟩ := skip_splits text
  obtain ⟨after, blank', split', stops⟩ := trimEnd_splits (skipBlanks text)
  refine ⟨before, after, blank, blank', ?_, ?_, stops⟩
  · rw [List.append_assoc, trim, ← split', ← split]
  · intro c first
    apply starts c
    rw [split', ← trim, List.head?_append, Option.mem_def.mp first]
    rfl

/-- Blanks behind a text that ends with something else are none. -/
theorem no_blanks_behind {text blanks : List Char} (blank : AreBlanks blanks)
    (solid : ∀ c ∈ (text ++ blanks).getLast?, isBlank c = false) : blanks = [] := by
  cases last : blanks.getLast? with
  | none => exact List.getLast?_eq_none_iff.mp last
  | some c =>
    have same : isBlank c = false := solid c (by simp [last])
    simp [blank c (List.mem_of_getLast? last)] at same

/-- No blank ends what stands at the end of a text that no blank ends. -/
theorem solid_suffix {text rest : List Char} (solid : ∀ c ∈ text.getLast?, isBlank c = false)
    (behind : rest <:+ text) : ∀ c ∈ rest.getLast?, isBlank c = false := by
  obtain ⟨front, rfl⟩ := behind
  intro c last
  exact solid c (by rw [List.getLast?_append, Option.mem_def.mp last]; rfl)

theorem typeText_nonempty {type : String} (typed : IsTypeText type) : type ≠ "" := by
  obtain ⟨c, first, _⟩ := typed.first
  rintro rfl
  simp at first

theorem typeText_trimmed {type : String} (typed : IsTypeText type) :
    trim type.toList = type.toList := by
  obtain ⟨first, starts, start⟩ := typed.first
  obtain ⟨last, ends, stop⟩ := typed.last
  exact trim_of_ends start stop starts ends

theorem typeText_of_trim {text : List Char} {type : String} (left : trim text = type.toList)
    (some : type ≠ "") : IsTypeText type := by
  obtain ⟨_, _, _, _, _, starts, stops⟩ := trim_splits text
  rw [left] at starts stops
  constructor
  · cases first : type.toList.head? with
    | none => exact absurd (List.head?_eq_none_iff.mp first) (toList_ne_nil some)
    | some c => exact ⟨c, rfl, starts c first⟩
  · cases last : type.toList.getLast? with
    | none => exact absurd (List.getLast?_eq_none_iff.mp last) (toList_ne_nil some)
    | some c => exact ⟨c, rfl, stops c last⟩

/-- A type is read behind a colon, with blanks before the colon and around the type. -/
theorem afterColon_iff {text : List Char} {type : String} : afterColon? text = some type ↔
    ∃ blanks rest, AreBlanks blanks ∧ text = blanks ++ ':' :: rest ∧ trim rest = type.toList ∧
      type ≠ "" := by
  constructor
  · intro read
    obtain ⟨blanks, blank, split, _⟩ := skip_splits text
    simp only [afterColon?] at read
    split at read
    next rest shape =>
      split at read
      · simp at read
      next some =>
        obtain rfl := Option.some.inj read
        exact ⟨blanks, rest, blank, by rw [split, shape], by simp, by simpa using some⟩
    · simp at read
  · rintro ⟨blanks, rest, blank, rfl, left, some⟩
    have colon : isBlank ':' = false := by decide
    have skipped : skipBlanks (blanks ++ ':' :: rest) = ':' :: rest :=
      skip_to_solid blank (by simp [colon])
    simp only [afterColon?, skipped, left]
    cases shape : type.toList with
    | nil => exact absurd shape (toList_ne_nil some)
    | cons c more => simp only [← shape, String.ofList_toList]

/-- In a text that does not end with a blank, a type that is read behind a colon reaches to the
end. -/
theorem afterColon_typed {text : List Char} {type : String}
    (solid : ∀ c ∈ text.getLast?, isBlank c = false) :
    afterColon? text = some type ↔ ∃ blanks rest, AreBlanks blanks ∧ text = blanks ++ rest ∧
      Types rest type := by
  rw [afterColon_iff]
  constructor
  · rintro ⟨blanks, rest, blank, rfl, left, some⟩
    obtain ⟨before, after, blank', behind, split, _⟩ := trim_splits rest
    have none : after = [] := by
      apply @no_blanks_behind (blanks ++ ':' :: (before ++ trim rest)) _ behind
      intro c last
      apply solid c
      rw [split]
      simpa using last
    refine ⟨blanks, ':' :: rest, blank, rfl, before, blank', typeText_of_trim left some, ?_⟩
    rw [split, none, List.append_nil, left]
  · rintro ⟨blanks, _, blank, rfl, before, blank', typed, rfl⟩
    exact ⟨blanks, before ++ type.toList, blank, rfl,
      (trim_pad blank').trans (typeText_trimmed typed), typeText_nonempty typed⟩

private theorem name_iff {text rest : List Char} {name : String} :
    name? text = some (name, rest) ↔
      ∃ tail, IsMemberName name ∧ text = name.toList ++ tail ∧ rest = skipBlanks tail ∧
      ∀ c ∈ tail.head?, isNameChar c = false := by
  constructor
  · intro read
    simp only [name?] at read
    split at read
    · simp at read
    next run some =>
      obtain ⟨rfl, rfl⟩ := Prod.mk.inj (Option.some.inj read)
      refine ⟨text.dropWhile isNameChar, ⟨by simpa using some, ?_⟩, by simp, rfl, ?_⟩
      · intro c member
        rw [String.toList_ofList] at member
        exact List.all_eq_true.mp List.all_takeWhile c member
      · intro c first
        have stops := List.head?_dropWhile_not isNameChar text
        rw [Option.mem_def] at first
        simpa [first] using stops
  · rintro ⟨tail, named, rfl, rfl, stops⟩
    exact name_read named stops

private theorem visibility_splits (text : List Char) :
    ∃ sign, IsSign (visibility text).1 sign ∧ text = sign ++ (visibility text).2 := by
  fun_cases visibility text with
  | case1 rest => exact ⟨['-'], .minus, rfl⟩
  | case2 rest => exact ⟨['+'], .plus, rfl⟩
  | case3 => exact ⟨[], .missing, rfl⟩

private theorem sign_taken {isPrivate : Bool} {sign rest : List Char}
    (signed : IsSign isPrivate sign) (unsigned : ∀ c ∈ rest.head?, c ≠ '+' ∧ c ≠ '-') :
    visibility (sign ++ rest) = (isPrivate, rest) := by
  cases signed with
  | plus => rfl
  | minus => rfl
  | missing =>
    cases rest with
    | nil => rfl
    | cons c rest =>
      obtain ⟨plus, minus⟩ := unsigned c rfl
      rw [List.nil_append, visibility]
      · rintro _ ⟨⟩
        exact minus rfl
      · rintro _ ⟨⟩
        exact plus rfl

/-- Behind its sign a text starts with a blank or a letter. -/
theorem name_unsigned {blanks rest : List Char} {name : String} (blank : AreBlanks blanks)
    (named : IsMemberName name) :
    ∀ c ∈ (blanks ++ (name.toList ++ rest)).head?, c ≠ '+' ∧ c ≠ '-' := by
  intro c first
  have either : isBlank c = true ∨ isNameChar c = true := by
    cases blanks with
    | cons b blanks =>
      obtain rfl : b = c := by simpa using first
      exact Or.inl (blank b (by simp))
    | nil =>
      cases shape : name.toList with
      | nil => exact absurd shape (toList_ne_nil named.nonempty)
      | cons d more =>
        obtain rfl : d = c := by simpa [shape] using first
        exact Or.inr (named.word d (by simp [shape]))
  constructor <;> rintro rfl <;> exact absurd either (by decide)

/-- Blanks and what is no part of a name end a name before them. -/
theorem blanks_stop {blanks rest : List Char} {c : Char} (blank : AreBlanks blanks)
    (noName : isNameChar c = false) : ∀ d ∈ (blanks ++ c :: rest).head?, isNameChar d = false := by
  intro d first
  cases blanks with
  | nil =>
    obtain rfl : c = d := by simpa using first
    exact noName
  | cons b blanks =>
    obtain rfl : b = d := by simpa using first
    cases part : isNameChar b with
    | false => rfl
    | true => exact absurd (blank b (by simp)) (by simp [name_not_blank part])

private theorem opens_of_read {text rest : List Char} {name : String}
    (read : name? (skipBlanks (visibility text).2) = some (name, rest)) :
    Opens text (visibility text).1 name rest := by
  obtain ⟨sign, signed, split⟩ := visibility_splits text
  obtain ⟨blanks, blank, split', _⟩ := skip_splits (visibility text).2
  obtain ⟨tail, named, whole, behind, _⟩ := name_iff.mp read
  obtain ⟨more, blank', split'', _⟩ := skip_splits tail
  refine ⟨sign, blanks, more, signed, blank, named, blank', ?_⟩
  rw [behind, List.append_assoc, ← split'', List.append_assoc, ← whole, List.append_assoc,
    ← split', ← split]

/-- Before a character that is neither a blank nor part of a name, sign and name are read in one
way. -/
theorem opens_iff {text rest : List Char} {c : Char} {isPrivate : Bool} {name : String}
    (solid : isBlank c = false) (noName : isNameChar c = false) :
    Opens text isPrivate name (c :: rest) ↔
      (visibility text).1 = isPrivate ∧
      name? (skipBlanks (visibility text).2) = some (name, c :: rest) := by
  constructor
  · rintro ⟨sign, blanks, more, signed, blank, named, blank', rfl⟩
    have taken : visibility (sign ++ blanks ++ name.toList ++ more ++ c :: rest) =
        (isPrivate, blanks ++ (name.toList ++ (more ++ c :: rest))) := by
      simp only [List.append_assoc]
      exact sign_taken signed (name_unsigned blank named)
    have skipped : skipBlanks (more ++ c :: rest) = c :: rest :=
      skip_to_solid blank' (by simp [solid])
    rw [taken]
    refine ⟨rfl, ?_⟩
    rw [skip_to_solid blank (name_starts named _),
      name_read named (blanks_stop blank' noName), skipped]
  · rintro ⟨rfl, read⟩
    exact opens_of_read read

theorem opens_suffix {text rest : List Char} {isPrivate : Bool} {name : String}
    (opens : Opens text isPrivate name rest) : rest <:+ text := by
  obtain ⟨sign, blanks, more, _, _, _, _, rfl⟩ := opens
  exact List.suffix_append _ _

/-- A parenthesis that a type follows is found, or one behind it. -/
theorem closing_found {other rest : List Char} {type : String}
    (typed : afterColon? rest = some type) :
    ∃ inside last, closing? (other ++ ')' :: rest) = some (inside, last) := by
  induction other with
  | nil =>
    rw [List.nil_append, closing?]
    cases closing? rest with
    | none => exact ⟨[], type, by simp [typed]⟩
    | some found => exact ⟨')' :: found.1, found.2, rfl⟩
  | cons c other ih =>
    obtain ⟨inside, last, found⟩ := ih
    exact ⟨c :: inside, last, by simp [closing?, found]⟩

/-- What is found ends at a parenthesis that a type follows, and no such parenthesis stands behind
it. -/
theorem closing_sound {text inside : List Char} {type : String}
    (found : closing? text = some (inside, type)) :
    (∃ rest, text = inside ++ ')' :: rest ∧ afterColon? rest = some type) ∧
      ∀ other rest type, text = other ++ ')' :: rest → afterColon? rest = some type →
      other.length ≤ inside.length := by
  induction text generalizing inside with
  | nil => simp [closing?] at found
  | cons c text ih =>
    rw [closing?] at found
    split at found
    next inner last behind =>
      obtain ⟨rfl, rfl⟩ := Prod.mk.inj (Option.some.inj found)
      obtain ⟨⟨rest, rfl, typed⟩, longest⟩ := ih behind
      refine ⟨⟨rest, rfl, typed⟩, fun other rest' type' whole typed' => ?_⟩
      cases other with
      | nil => simp
      | cons d other =>
        rw [List.cons_append] at whole
        exact Nat.succ_le_succ (longest other rest' type' (List.cons.inj whole).2 typed')
    next none =>
      split at found
      next closes =>
        obtain ⟨last, typed, same⟩ := Option.map_eq_some_iff.mp found
        obtain ⟨rfl, rfl⟩ := Prod.mk.inj same
        refine ⟨⟨text, by simp [closes], typed⟩, fun other rest' type' whole typed' => ?_⟩
        cases other with
        | nil => simp
        | cons d other =>
          -- a parenthesis further behind would have been found first
          rw [List.cons_append] at whole
          obtain ⟨inside, last, earlier⟩ := @closing_found other rest' type' typed'
          rw [← (List.cons.inj whole).2, none] at earlier
          cases earlier
      · simp at found

/-- Parameters reach to the last parenthesis that a type follows. -/
theorem closing_iff {text inside : List Char} {type : String} :
    closing? text = some (inside, type) ↔
    (∃ rest, text = inside ++ ')' :: rest ∧ afterColon? rest = some type) ∧
      ∀ other rest type, text = other ++ ')' :: rest → afterColon? rest = some type →
      other.length ≤ inside.length := by
  constructor
  · exact closing_sound
  · rintro ⟨⟨rest, rfl, typed⟩, longest⟩
    obtain ⟨inside', type', found⟩ := closing_found typed
    obtain ⟨⟨rest', whole, typed'⟩, longest'⟩ := closing_sound found
    have same : inside.length = inside'.length :=
      Nat.le_antisymm (longest' inside rest type rfl typed)
        (longest inside' rest' type' whole typed')
    obtain ⟨rfl, behind⟩ := List.append_inj whole same
    obtain ⟨_, rfl⟩ := List.cons.inj behind
    obtain rfl : type = type' := Option.some.inj (typed.symm.trans typed')
    exact found

section
variable {text : List Char} (solid : ∀ c ∈ text.getLast?, isBlank c = false)
include solid

theorem methodText_iff {isPrivate : Bool} {name type : String} {inside : List Char} :
    IsMethodText text isPrivate name inside type ↔
    ∃ rest, Opens text isPrivate name ('(' :: (inside ++ ')' :: rest)) ∧
      afterColon? rest = some type := by
  have own : ∀ {rest}, Opens text isPrivate name ('(' :: (inside ++ ')' :: rest)) →
      ∀ c ∈ rest.getLast?, isBlank c = false := by
    intro rest opens
    have within : rest <:+ '(' :: (inside ++ ')' :: rest) := ⟨'(' :: (inside ++ [')']), by simp⟩
    exact solid_suffix solid (within.trans (opens_suffix opens))
  constructor
  · rintro ⟨blanks, rest, opens, blank, types⟩
    exact ⟨blanks ++ rest, opens,
      (afterColon_typed (own opens)).mpr ⟨blanks, rest, blank, rfl, types⟩⟩
  · rintro ⟨rest, opens, typed⟩
    obtain ⟨blanks, tail, blank, rfl, types⟩ := (afterColon_typed (own opens)).mp typed
    exact ⟨blanks, tail, opens, blank, types⟩

/-- A method is read where the text is that of one, and its parentheses are as far apart as they can
be. -/
theorem method_iff {method : Method} : method? text = some method ↔
    ∃ inside, IsMethodText text method.isPrivate method.name inside method.returnType ∧
      (∀ isPrivate name other type, IsMethodText text isPrivate name other type →
        other.length ≤ inside.length) ∧
      method.parameters = parameters inside := by
  have paren : isBlank '(' = false ∧ isNameChar '(' = false := by decide
  constructor
  · intro read
    simp only [method?, Option.bind_eq_bind, Option.bind_eq_some_iff] at read
    obtain ⟨⟨name, rest⟩, named, read⟩ := read
    split at read
    next rest shape =>
      obtain ⟨⟨inside, type⟩, closed, made⟩ := Option.bind_eq_some_iff.mp read
      obtain rfl := Option.some.inj made
      obtain rfl : _ = '(' :: rest := shape
      obtain ⟨⟨tail, rfl, typed⟩, longest⟩ := closing_iff.mp closed
      refine ⟨inside,
        (methodText_iff solid).mpr ⟨tail, (opens_iff paren.1 paren.2).mpr ⟨rfl, named⟩, typed⟩, ?_,
        rfl⟩
      intro isPrivate name' other type' isMethod
      obtain ⟨tail', opens, typed'⟩ := (methodText_iff solid).mp isMethod
      -- the parameters start at the same place in every way to take the text apart
      have again := ((opens_iff paren.1 paren.2).mp opens).2
      obtain ⟨_, same⟩ := Prod.mk.inj (Option.some.inj (again.symm.trans named))
      exact longest other tail' type' (List.cons.inj same).2.symm typed'
    · cases read
  · rintro ⟨inside, isMethod, longest, listed⟩
    obtain ⟨tail, opens, typed⟩ := (methodText_iff solid).mp isMethod
    obtain ⟨sign, named⟩ := (opens_iff paren.1 paren.2).mp opens
    have closed : closing? (inside ++ ')' :: tail) = some (inside, method.returnType) := by
      refine closing_iff.mpr ⟨⟨tail, rfl, typed⟩, fun other rest type whole typed' => ?_⟩
      exact longest _ _ other type ((methodText_iff solid).mpr ⟨rest, by rwa [← whole], typed'⟩)
    simp only [method?, Option.bind_eq_bind, named, Option.bind_some, closed, sign]
    cases method
    simp_all

private theorem method_none_iff :
    method? text = none ↔ ∀ isPrivate name inside type,
      ¬IsMethodText text isPrivate name inside type := by
  have paren : isBlank '(' = false ∧ isNameChar '(' = false := by decide
  constructor
  · intro none isPrivate name inside type isMethod
    obtain ⟨tail, opens, typed⟩ := (methodText_iff solid).mp isMethod
    obtain ⟨_, named⟩ := (opens_iff paren.1 paren.2).mp opens
    obtain ⟨longest, last, closed⟩ := @closing_found inside tail type typed
    simp [method?, named, closed] at none
  · intro noMethod
    cases read : method? text with
    | none => rfl
    | some method =>
      obtain ⟨inside, isMethod, _⟩ := (method_iff solid).mp read
      exact absurd isMethod (noMethod _ _ _ _)

/-- A field is read where the text is that of one. -/
theorem field_iff {field : Field} :
    field? text = some field ↔ IsFieldText text field.isPrivate field.name field.type := by
  have colon : isBlank ':' = false ∧ isNameChar ':' = false := by decide
  constructor
  · intro read
    simp only [field?, Option.bind_eq_bind, Option.bind_eq_some_iff] at read
    obtain ⟨⟨name, rest⟩, named, type, typed, made⟩ := read
    obtain rfl := Option.some.inj made
    have opens := opens_of_read named
    obtain ⟨blanks, tail, blank, rfl, types⟩ :=
      (afterColon_typed (solid_suffix solid (opens_suffix opens))).mp typed
    obtain ⟨sign, spaces, more, signed, blank', named, blank'', whole⟩ := opens
    refine ⟨tail, ⟨sign, spaces, more ++ blanks, signed, blank', named, ?_, by simp [whole]⟩, types⟩
    exact fun c member => (List.mem_append.mp member).elim (blank'' c) (blank c)
  · rintro ⟨rest, opens, types⟩
    obtain ⟨blanks, blank, typed, rfl⟩ := types
    have read : afterColon? (':' :: (blanks ++ field.type.toList)) = some field.type :=
      (afterColon_typed (solid_suffix solid (opens_suffix opens))).mpr
        ⟨[], _, fun _ member => absurd member (by simp), rfl, blanks, blank, typed, rfl⟩
    obtain ⟨sign, named⟩ := (opens_iff colon.1 colon.2).mp opens
    simp only [field?, Option.bind_eq_bind, named, Option.bind_some, read, sign]
    cases field
    rfl

private theorem field_none_iff :
    field? text = none ↔ ∀ isPrivate name type, ¬IsFieldText text isPrivate name type := by
  rw [Option.eq_none_iff_forall_ne_some]
  constructor
  · exact fun none isPrivate name type isField =>
      none { name, type, isPrivate } ((field_iff solid).mpr isField)
  · exact fun noField field read => noField _ _ _ ((field_iff solid).mp read)

end

theorem parameter_iff {text : List Char} {parameter : Parameter} :
    parameter? text = some parameter ↔ IsParameterText text parameter := by
  constructor
  · intro read
    simp only [parameter?, Option.bind_eq_bind, Option.bind_eq_some_iff] at read
    obtain ⟨⟨name, rest⟩, named, type, typed, made⟩ := read
    obtain rfl := Option.some.inj made
    obtain ⟨blanks, blank, split, _⟩ := skip_splits text
    obtain ⟨tail, clean, whole, behind, _⟩ := name_iff.mp named
    obtain ⟨more, blank', split', _⟩ := skip_splits tail
    obtain ⟨spaces, rest', blank'', shape, left, some⟩ := afterColon_iff.mp typed
    refine ⟨blanks, more ++ spaces, rest', blank, clean, ?_, ?_, left, some⟩
    · exact fun c member => (List.mem_append.mp member).elim (blank' c) (blank'' c)
    · change rest = spaces ++ ':' :: rest' at shape
      rw [split, whole, split', ← behind, shape]
      simp
  · rintro ⟨blanks, more, rest, blank, named, blank', rfl, left, some⟩
    have colon : isBlank ':' = false := by decide
    have stops := @blanks_stop more rest ':' blank' (by decide)
    have skipped : skipBlanks (more ++ ':' :: rest) = ':' :: rest :=
      skip_to_solid blank' (by simp [colon])
    have read : afterColon? (':' :: rest) = .some parameter.type :=
      afterColon_iff.mpr ⟨[], rest, fun _ member => absurd member (by simp), rfl, left, some⟩
    simp only [parameter?, List.append_assoc, skip_to_solid blank (name_starts named _),
      name_read named stops, skipped, Option.bind_eq_bind, Option.bind_some, read]
    rfl

private theorem areParameters_iff {texts : List (List Char)} {found : List Parameter} :
    AreParameters texts found ↔ texts.filterMap parameter? = found := by
  constructor
  · intro listed
    induction listed with
    | nil => rfl
    | kept isParameter _ ih => rw [List.filterMap_cons_some (parameter_iff.mpr isParameter), ih]
    | left noParameter _ ih =>
      rw [List.filterMap_cons_none, ih]
      exact Option.eq_none_iff_forall_ne_some.mpr fun parameter read =>
        noParameter parameter (parameter_iff.mp read)
  · rintro rfl
    induction texts with
    | nil => exact .nil
    | cons text texts ih =>
      cases read : parameter? text with
      | some parameter =>
        rw [List.filterMap_cons_some read]
        exact .kept (parameter_iff.mp read) ih
      | none =>
        rw [List.filterMap_cons_none read]
        exact .left (fun parameter isParameter =>
          by simp [parameter_iff.mpr isParameter] at read) ih

private theorem cutAtCommas_iff {whole : List Char} {texts : List (List Char)} :
    CutAtCommas whole texts ↔ texts = pieces ',' whole := by
  constructor
  · rintro ⟨some, noComma, rfl⟩
    exact (PathPlaces.pieces_intercalate some noComma).symm
  · rintro rfl
    exact ⟨Walks.pieces_ne_nil ',' whole, fun text => PathPlaces.pieces_whole,
      Walks.intercalate_pieces ',' whole⟩

private theorem parameters_iff {inside : List Char} {found : List Parameter} :
    found = parameters inside ↔ ∃ texts, CutAtCommas inside texts ∧ AreParameters texts found := by
  simp only [cutAtCommas_iff, exists_eq_left, areParameters_iff, parameters, eq_comm]

/-- What a line is read as, by what its text is read as. -/
theorem entry_cases (line : List Char) :
    (entryOf? line = none ↔ trim line = []) ∧
    (∀ method, entryOf? line = some (.method method) ↔ method? (trim line) = some method) ∧
    (∀ field, entryOf? line = some (.field field) ↔ method? (trim line) = none ∧
      field? (trim line) = some field) ∧
    ∀ constant, entryOf? line = some (.constant constant) ↔
      (constant ≠ "" ∧ constant.toList = trim line) ∧ method? (trim line) = none ∧
      field? (trim line) = none := by
  by_cases blank : trim line = []
  · have nothing : entryOf? line = none := by simp [entryOf?, blank]
    have noMethod : method? [] = none := rfl
    have noField : field? [] = none := rfl
    simp [nothing, blank, noMethod, noField]
  · rw [entry_trimmed rfl blank]
    have constant : ∀ text : String, String.ofList (trim line) = text ↔ text ≠ "" ∧
        text.toList = trim line := by
      intro text
      constructor
      · rintro rfl
        simpa using blank
      · rintro ⟨_, same⟩
        simp [← same]
    cases asMethod : method? (trim line) with
    | some method => simp [blank]
    | none =>
      cases asField : field? (trim line) with
      | some field => simp [blank]
      | none => simp [blank, constant]

def memberCount (c : Class) : Nat :=
  c.fields.length + c.methods.length + c.constants.length

private theorem addTo_count (c : Class) (entry : Entry) :
    memberCount (entry.addTo c) = memberCount c + 1 := by
  cases entry <;>
    simp only [Entry.addTo, Class.addField, Class.addMethod, Class.addConstant, memberCount,
      List.length_append, List.length_singleton] <;> omega

private theorem addLine_count (c : Class) (line : List Char) :
    memberCount (addLine c line) = memberCount c + if trim line = [] then 0 else 1 := by
  rw [addLine]
  split
  next entry read =>
    have some : trim line ≠ [] := fun blank => by simp [(entry_cases line).1.mpr blank] at read
    rw [addTo_count, if_neg some]
  next none => rw [if_pos ((entry_cases line).1.mp none), Nat.add_zero]

/-- A line says nothing if it is blank. Otherwise it is a method if its text can be taken apart as
one, with parameters as long as possible; if it cannot, it is a field if its text can be taken apart
as that; and it is a constant in all other cases. So it adds one member to a class, unless it is
blank. -/
theorem body_line_grammar (line : List Char) :
    (entryOf? line = none ↔ trim line = []) ∧
    ((∃ method, entryOf? line = some (.method method)) ↔
      ∃ isPrivate name inside type, IsMethodText (trim line) isPrivate name inside type) ∧
    (∀ method, entryOf? line = some (.method method) ↔ ∃ inside texts,
      IsMethodText (trim line) method.isPrivate method.name inside method.returnType ∧
      (∀ isPrivate name other type, IsMethodText (trim line) isPrivate name other type →
        other.length ≤ inside.length) ∧
      CutAtCommas inside texts ∧ AreParameters texts method.parameters) ∧
    (∀ field, entryOf? line = some (.field field) ↔
      (∀ isPrivate name inside type, ¬IsMethodText (trim line) isPrivate name inside type) ∧
      IsFieldText (trim line) field.isPrivate field.name field.type) ∧
    (∀ constant, entryOf? line = some (.constant constant) ↔ constant ≠ "" ∧
      constant.toList = trim line ∧
      (∀ isPrivate name inside type, ¬IsMethodText (trim line) isPrivate name inside type) ∧
      ∀ isPrivate name type, ¬IsFieldText (trim line) isPrivate name type) ∧
    ∀ c, memberCount (addLine c line) = memberCount c + if trim line = [] then 0 else 1 := by
  obtain ⟨_, _, _, _, _, _, solid⟩ := trim_splits line
  obtain ⟨nothing, isMethod, isField, isConstant⟩ := entry_cases line
  refine ⟨nothing, ?_, fun method => ?_, fun field => ?_, fun constant => ?_,
    (addLine_count · line)⟩
  · have found : (∃ method, method? (trim line) = some method) ↔ ¬method? (trim line) = none := by
      rw [← Option.isSome_iff_exists, Option.isSome_iff_ne_none]
    simp only [isMethod, found, method_none_iff solid, Classical.not_forall, Classical.not_not]
  · simp only [isMethod, method_iff solid, parameters_iff, exists_and_left]
  · rw [isField, method_none_iff solid, field_iff solid]
  · rw [isConstant, method_none_iff solid, field_none_iff solid, and_assoc]

example : entryOf? "  - f (a : int, b, c: g(x)): T (y) : U ".toList =
    some (.method { name := "f", returnType := "U",
                    parameters := [⟨"a", "int"⟩, ⟨"c", "g(x)): T (y"⟩], isPrivate := true }) := by
  decide +kernel

end ClassDiagram.Proofs.BodyLines
