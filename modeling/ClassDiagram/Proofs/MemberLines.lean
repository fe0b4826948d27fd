import ClassDiagram.Diagram.Writer
import ClassDiagram.Proofs.Blanks
import ClassDiagram.Proofs.CleanProject
import ClassDiagram.Proofs.JoinedTexts

/-! The line that is written for a member is read as that member, behind any indentation. A name
ends where its colon or parenthesis stands; the last closing parenthesis of a method is the one
before its return type, since that type holds none. -/

namespace ClassDiagram
open Text Diagram

/-- A method whose line says where its parameters end: it is the last parenthesis that a type
follows. -/
structure Method.Legible (method : Method) : Prop where
  name : IsMemberName method.name
  returnType : IsLineText method.returnType
  closed : ∀ inside, closing? (inside ++ ')' :: ':' :: ' ' :: method.returnType.toList) =
    some (inside, method.returnType)
  parameters : ∀ parameter ∈ method.parameters, parameter.Clean

/-- Each member of the class is read from its line. -/
structure Class.Legible (c : Class) : Prop where
  fields : ∀ field ∈ c.fields, field.Clean
  methods : ∀ method ∈ c.methods, method.Legible
  constants : ∀ constant ∈ c.constants, IsConstantText constant

end ClassDiagram

namespace ClassDiagram.Proofs.MemberLines
open Text Diagram Blanks JoinedTexts

theorem toList_ne_nil {text : String} (nonempty : text ≠ "") : text.toList ≠ [] := by
  simpa using nonempty

theorem name_starts {name : String} (clean : IsMemberName name) (tail : List Char) :
    ∀ c ∈ (name.toList ++ tail).head?, isBlank c = false := by
  intro c first
  cases shape : name.toList with
  | nil => exact absurd shape (toList_ne_nil clean.nonempty)
  | cons d rest =>
    obtain rfl : d = c := by simpa [shape] using first
    exact name_not_blank (clean.word d (by simp [shape]))

theorem name_read {name : String} {tail : List Char} (clean : IsMemberName name)
    (stops : ∀ c ∈ tail.head?, isNameChar c = false) :
    name? (name.toList ++ tail) = some (name, skipBlanks tail) := by
  simp only [name?, takeWhile_stops clean.word stops, dropWhile_stops clean.word stops]
  cases shape : name.toList with
  | nil => exact absurd shape (toList_ne_nil clean.nonempty)
  | cons c rest => simp only [← shape, String.ofList_toList]

theorem text_ends {text : String} (clean : IsLineText text) {before : List Char} {c : Char}
    (last : (before ++ text.toList).getLast? = some c) : isBlank c = false := by
  cases ending : text.toList.getLast? with
  | none => exact absurd (List.getLast?_eq_none_iff.mp ending) (toList_ne_nil clean.nonempty)
  | some d =>
    obtain rfl : d = c := by simpa [ending] using last
    obtain ⟨init, same⟩ := List.getLast?_eq_some_iff.mp ending
    exact trimmed_last (same ▸ clean.trimmed)

theorem colon_read {text : String} (clean : IsLineText text) :
    afterColon? (':' :: ' ' :: text.toList) = some text := by
  have trimmed : trim (' ' :: text.toList) = text.toList :=
    (@trim_pad [' '] _ (by decide)).trans clean.trimmed
  simp only [afterColon?, skip_solid (c := ':') (by decide), trimmed]
  cases shape : text.toList with
  | nil => exact absurd shape (toList_ne_nil clean.nonempty)
  | cons c rest => simp only [← shape, String.ofList_toList]

private theorem sign_read (isPrivate : Bool) (rest : List Char) :
    visibility ((sign isPrivate).toList ++ rest) = (isPrivate, ' ' :: rest) := by
  cases isPrivate <;> rfl

/-- A line that starts with a sign and ends in a clean text is trimmed already. -/
theorem signed_trimmed {isPrivate : Bool} {middle : List Char} {text : String}
    (clean : IsLineText text) :
    trim ((sign isPrivate).toList ++ middle ++ text.toList) =
      (sign isPrivate).toList ++ middle ++ text.toList := by
  cases last : ((sign isPrivate).toList ++ middle ++ text.toList).getLast? with
  | none => cases isPrivate <;> simp [sign] at last
  | some c =>
    cases isPrivate with
    | false => exact @trim_of_ends '+' _ _ (by decide) (text_ends clean last) rfl last
    | true => exact @trim_of_ends '-' _ _ (by decide) (text_ends clean last) rfl last

/-- What a line with something on it is read as. -/
theorem entry_trimmed {line text : List Char} (trimmed : trim line = text) (some : text ≠ []) :
    entryOf? line =
      match method? text with
      | .some method => .some (.method method)
      | none =>
        match field? text with
        | .some field => .some (.field field)
        | none => .some (.constant (String.ofList text)) := by
  cases text with
  | nil => exact absurd rfl some
  | cons c rest =>
    cases asMethod : method? (c :: rest) <;> cases asField : field? (c :: rest) <;>
      simp only [entryOf?, trimmed, asMethod, asField]

theorem fieldLine_toList (field : Field) : (fieldLine field).toList =
    (sign field.isPrivate).toList ++ (field.name.toList ++ [':', ' ']) ++ field.type.toList := by
  simp [fieldLine]

private theorem field_rest (field : Field) (clean : field.Clean) :
    name? (skipBlanks (' ' :: (field.name.toList ++ ':' :: ' ' :: field.type.toList))) =
      some (field.name, ':' :: ' ' :: field.type.toList) := by
  have skipped :=
    @skip_to_solid [' '] _ (by decide) (name_starts clean.name (':' :: ' ' :: field.type.toList))
  rw [List.singleton_append] at skipped
  rw [skipped, name_read clean.name (by simp; decide), skip_solid (by decide)]

theorem field_read {spaces : List Char} (blank : ∀ c ∈ spaces, isBlank c = true) (field : Field)
    (clean : field.Clean) :
    entryOf? (spaces ++ (fieldLine field).toList) = some (.field field) := by
  have noMethod : method? (fieldLine field).toList = none := by
    simp [method?, fieldLine_toList, sign_read, field_rest field clean]
  have isField : field? (fieldLine field).toList = some field := by
    simp [field?, fieldLine_toList, sign_read, field_rest field clean, colon_read clean.type]
  have trimmed : trim (spaces ++ (fieldLine field).toList) = (fieldLine field).toList := by
    rw [trim_pad blank, fieldLine_toList, signed_trimmed clean.type]
  have some : (fieldLine field).toList ≠ [] := by simp [fieldLine]
  simp only [entry_trimmed trimmed some, noMethod, isField]

theorem constant_read {spaces : List Char} (blank : ∀ c ∈ spaces, isBlank c = true) {text : String}
    (clean : IsConstantText text) : entryOf? (spaces ++ text.toList) = some (.constant text) := by
  have trimmed : trim (spaces ++ text.toList) = text.toList := by
    rw [trim_pad blank, clean.line.trimmed]
  simp only [entry_trimmed trimmed (toList_ne_nil clean.line.nonempty),
    clean.noMethod, clean.noField, String.ofList_toList]

private theorem closing_none {text : List Char} (noParen : ')' ∉ text) : closing? text = none := by
  induction text with
  | nil => rfl
  | cons c text ih =>
    have other : c ≠ ')' := fun same => noParen (by simp [same])
    simp [closing?, ih fun member => noParen (by simp [member]), other]

/-- The last closing parenthesis ends the parameters, whatever parentheses stand among them. -/
theorem closing_last {inside rest : List Char} {type : String} (noParen : ')' ∉ rest)
    (typed : afterColon? rest = some type) :
    closing? (inside ++ ')' :: rest) = some (inside, type) := by
  induction inside with
  | nil => simp [closing?, closing_none noParen, typed]
  | cons c inside ih => simp [closing?, ih]

private theorem parameter_read {spaces : List Char} (blank : ∀ c ∈ spaces, isBlank c = true)
    (parameter : Parameter) (clean : parameter.Clean) :
    parameter? (spaces ++ (parameterText parameter).toList) = some parameter := by
  have skipped := skip_to_solid blank (name_starts clean.name (':' :: ' ' :: parameter.type.toList))
  have named := @name_read _ (':' :: ' ' :: parameter.type.toList) clean.name (by simp; decide)
  simp [parameter?, parameterText, skipped, named, skip_solid (c := ':') (by decide),
    colon_read clean.type]

private theorem parameter_noComma {parameter : Parameter} (clean : parameter.Clean) :
    ',' ∉ (parameterText parameter).toList := by
  have name : ',' ∉ parameter.name.toList :=
    fun member => absurd (clean.name.word ',' member) (by decide)
  simp [parameterText, name, clean.noComma]

private theorem filterMap_written {written : Parameter → List Char} {all : List Parameter}
    (read : ∀ parameter ∈ all, parameter? (written parameter) = some parameter) :
    (all.map written).filterMap parameter? = all := by
  induction all with
  | nil => rfl
  | cons first more ih =>
    rw [List.map_cons, List.filterMap_cons_some (read first (by simp)),
      ih fun parameter member => read parameter (by simp [member])]

private theorem parameters_read {all : List Parameter}
    (clean : ∀ parameter ∈ all, parameter.Clean) :
    parameters ((", ".intercalate (all.map parameterText)).toList) = all := by
  rw [String.toList_intercalate]
  cases all with
  | nil => rfl
  | cons first more =>
    have split :=
      @pieces_join ',' ' ' (parameterText first).toList ((more.map parameterText).map String.toList)
        (by decide) (by
        intro piece member
        simp only [List.map_map, List.mem_cons, List.mem_map, Function.comp_apply] at member
        rcases member with rfl | ⟨parameter, member, rfl⟩
        · exact parameter_noComma (clean first (by simp))
        · exact parameter_noComma (clean parameter (by simp [member])))
    have rest :
        (((more.map parameterText).map String.toList).map (' ' :: ·)).filterMap parameter? =
        more := by
      simp only [List.map_map]
      apply filterMap_written
      intro parameter member
      exact @parameter_read [' '] (by decide) parameter (clean parameter (by simp [member]))
    have head := @parameter_read [] (by simp) first (clean first (by simp))
    rw [List.nil_append] at head
    simp only [parameters, List.map_cons]
    erw [split]
    rw [List.filterMap_cons_some head, rest]

theorem methodLine_toList (method : Method) : (methodLine method).toList =
    (sign method.isPrivate).toList ++ (method.name.toList ++ '(' ::
      ((", ".intercalate (method.parameters.map parameterText)).toList ++ [')', ':', ' '])) ++
      method.returnType.toList := by
  simp [methodLine]

/-- A method is read from its line with what is read between its parentheses. -/
theorem method_read_listed {spaces : List Char} (blank : ∀ c ∈ spaces, isBlank c = true)
    (method : Method) (name : IsMemberName method.name) (returnType : IsLineText method.returnType)
    {found : List Parameter}
    (closed : ∀ inside, closing? (inside ++ ')' :: ':' :: ' ' :: method.returnType.toList) =
      some (inside, method.returnType))
    (listed : parameters (", ".intercalate (method.parameters.map parameterText)).toList = found) :
    entryOf? (spaces ++ (methodLine method).toList) =
      some (.method { method with parameters := found }) := by
  let inside := (", ".intercalate (method.parameters.map parameterText)).toList
  let tail := '(' :: (inside ++ ')' :: ':' :: ' ' :: method.returnType.toList)
  have skipped := @skip_to_solid [' '] _ (by decide) (name_starts name tail)
  rw [List.singleton_append] at skipped
  have named := @name_read _ tail name (by simp [tail]; decide)
  rw [skip_solid (c := '(') (by decide)] at named
  have isMethod : method? (methodLine method).toList =
      some { method with parameters := found } := by
    simp only [methodLine_toList, List.append_assoc, List.cons_append, List.nil_append,
      method?, sign_read]
    erw [skipped, named]
    simp only [Option.bind_eq_bind, Option.bind_some]
    erw [closed inside]
    simp only [Option.bind_some, inside, listed]
    rfl
  have trimmed : trim (spaces ++ (methodLine method).toList) = (methodLine method).toList := by
    rw [trim_pad blank, methodLine_toList, signed_trimmed returnType]
  have some : (methodLine method).toList ≠ [] := by simp [methodLine]
  simp only [entry_trimmed trimmed some, isMethod]

theorem method_read {spaces : List Char} (blank : ∀ c ∈ spaces, isBlank c = true) (method : Method)
    (legible : method.Legible) :
    entryOf? (spaces ++ (methodLine method).toList) = some (.method method) :=
  method_read_listed blank method legible.name legible.returnType legible.closed
    (parameters_read legible.parameters)

private theorem clean_legible {method : Method} (clean : method.Clean) : method.Legible where
  name := clean.name
  returnType := clean.returnType
  closed inside := closing_last (by simpa using clean.noParen) (colon_read clean.returnType)
  parameters := clean.parameters

theorem members_legible {c : Class} (clean : c.Clean) : c.Legible where
  fields := clean.fields
  methods method member := clean_legible (clean.methods method member)
  constants := clean.constants

end ClassDiagram.Proofs.MemberLines
