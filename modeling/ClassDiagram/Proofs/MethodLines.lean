import ClassDiagram.Proofs.BodyLines
import ClassDiagram.Proofs.ScannedText
import Mathlib.Data.List.TakeWhile

/-! Lines of methods whose types are of any form. A line keeps a type as it is spelled, and
parameters are cut at every comma, also at those between type arguments. What is cut off has no
colon in it, so it is no parameter and is left out: each parameter keeps its name and its place, and
of its type what stands before the first comma. -/

namespace ClassDiagram.Java
open Proofs.ScannedText

inductive TypePart where
  | qualifier
  | className
  | type
  | argument
  | arguments
  deriving DecidableEq, Repr

/-- Spellings of types: names, which may be qualified and may have type arguments at every segment,
and arrays. Primitive types are names. -/
inductive IsSpelling : TypePart → String → Prop where
  | unqualified : IsSpelling .qualifier ""
  | within {outer} : IsSpelling .className outer → IsSpelling .qualifier (outer ++ ".")
  | plain {before name} : IsSpelling .qualifier before → isIdentifier name = true →
    IsSpelling .className (before ++ name)
  | applied {before name list} : IsSpelling .qualifier before → isIdentifier name = true →
      IsSpelling .arguments list → IsSpelling .className (before ++ (name ++ "<" ++ list ++ ">"))
  | named {name} : IsSpelling .className name → IsSpelling .type name
  | array {element} : IsSpelling .type element → IsSpelling .type (element ++ "[]")
  | exactly {type} : IsSpelling .type type → IsSpelling .argument type
  | wildcard : IsSpelling .argument "?"
  | upTo {bound} : IsSpelling .type bound → IsSpelling .argument ("? extends " ++ bound)
  | downTo {bound} : IsSpelling .type bound → IsSpelling .argument ("? super " ++ bound)
  | last {argument} : IsSpelling .argument argument → IsSpelling .arguments argument
  | further {argument more} : IsSpelling .argument argument → IsSpelling .arguments more →
    IsSpelling .arguments (argument ++ ", " ++ more)

end ClassDiagram.Java

namespace ClassDiagram

/-- The parameter with no more of its type than stands before the first comma. -/
def Parameter.cutAtComma (parameter : Parameter) : Parameter :=
  { parameter with type := String.ofList (Text.trim (parameter.type.toList.takeWhile (· != ','))) }

end ClassDiagram

namespace ClassDiagram.Proofs.MethodLines
open Text Diagram Blanks JoinedTexts MemberLines BodyLines ScannedText
open Java (IsSpelling TypePart)

def isTypeChar (c : Char) : Bool :=
  Java.isNamePart c || ".<>[]?, ".toList.contains c

/-- A text with something other than a blank at its ends, and no comma at its start. -/
structure IsEdged (text : String) : Prop where
  first : ∃ c, text.toList.head? = some c ∧ isBlank c = false ∧ c ≠ ','
  last : ∃ c, text.toList.getLast? = some c ∧ isBlank c = false

theorem IsEdged.typeText {text : String} (edged : IsEdged text) : IsTypeText text := by
  obtain ⟨c, first, solid, _⟩ := edged.first
  exact ⟨⟨c, first, solid⟩, edged.last⟩

private theorem edged_between {first last : String} (starts : IsEdged first) (ends : IsEdged last)
    (middle : String) : IsEdged (first ++ middle ++ last) := by
  obtain ⟨c, head, solid⟩ := starts.first
  obtain ⟨d, tail, solid'⟩ := ends.last
  exact ⟨⟨c, by simp [head], solid⟩, ⟨d, by simp [tail], solid'⟩⟩

private theorem namePart_not_blank {c : Char} (part : Java.isNamePart c = true) :
    isBlank c = false := by
  by_cases small : c.toNat < 128
  · exact ascii (P := fun c => Java.isNamePart c = true → isBlank c = false) (by decide) small part
  · cases blank : isBlank c with
    | false => rfl
    | true =>
      simp only [isBlank, small, ite_false] at blank
      have starts := @apart_excludes _ nameStarts _ (by decide +kernel) blank
      have tails := @apart_excludes _ nameTails _ (by decide +kernel) blank
      have cent := @apart_excludes _ [(0xa2, 0xa2)] _ (by decide +kernel) blank
      have other : c.toNat ≠ 0xa2 := by
        intro same
        simp [Ranges.has, same] at cent
      simp [Java.isNamePart, small, starts, tails, other] at part

private theorem identifier_parts {name : String} (isName : isIdentifier name = true) :
    name ≠ "" ∧ ∀ c ∈ name.toList, Java.isNamePart c = true := by
  simp only [isIdentifier] at isName
  split at isName
  · cases isName
  next c rest shape =>
    simp only [Bool.and_eq_true, List.all_eq_true] at isName
    refine ⟨fun empty => by simp [empty] at shape, fun d member => ?_⟩
    rcases List.mem_cons.mp (shape ▸ member) with rfl | member
    · exact TokenTrees.namePart_of_nameStart isName.1
    · exact isName.2 d member

private theorem edged_of_identifier {name : String} (isName : isIdentifier name = true) :
    IsEdged name := by
  obtain ⟨nonempty, parts⟩ := identifier_parts isName
  have some := toList_ne_nil nonempty
  have noPart : Java.isNamePart ',' = false := by decide +kernel
  constructor
  · refine ⟨_, List.head?_eq_some_head some, namePart_not_blank (parts _ (List.head_mem some)), ?_⟩
    intro comma
    have part := parts _ (List.head_mem some)
    rw [comma, noPart] at part
    cases part
  · exact ⟨_, List.getLast?_eq_some_getLast some,
      namePart_not_blank (parts _ (List.getLast_mem some))⟩

private theorem spelling_chars {part : TypePart} {text : String} (spelled : IsSpelling part text) :
    ∀ c ∈ text.toList, isTypeChar c = true := by
  have name : ∀ {name : String}, isIdentifier name = true →
      ∀ c ∈ name.toList, isTypeChar c = true := by
    intro name isName c member
    simp [isTypeChar, (identifier_parts isName).2 c member]
  have marks :
      ∀ mark ∈ ["", ".", "<", ">", "[]", "?", "? extends ", "? super ", ", "], ∀ c ∈ mark.toList,
      isTypeChar c = true := by
    decide +kernel
  induction spelled with
  | unqualified => exact marks "" (by decide)
  | named _ same => exact same
  | exactly _ same => exact same
  | last _ same => exact same
  | wildcard => exact marks "?" (by decide)
  | within _ outer =>
    rw [String.toList_append, List.forall_mem_append]
    exact ⟨outer, marks "." (by decide)⟩
  | plain _ isName before =>
    rw [String.toList_append, List.forall_mem_append]
    exact ⟨before, name isName⟩
  | applied _ isName _ before list =>
    simp only [String.toList_append, List.forall_mem_append]
    exact ⟨before, ⟨⟨name isName, marks "<" (by decide)⟩, list⟩, marks ">" (by decide)⟩
  | array _ element =>
    rw [String.toList_append, List.forall_mem_append]
    exact ⟨element, marks "[]" (by decide)⟩
  | upTo _ bound =>
    rw [String.toList_append, List.forall_mem_append]
    exact ⟨marks "? extends " (by decide), bound⟩
  | downTo _ bound =>
    rw [String.toList_append, List.forall_mem_append]
    exact ⟨marks "? super " (by decide), bound⟩
  | further _ _ first more =>
    simp only [String.toList_append, List.forall_mem_append]
    exact ⟨⟨first, marks ", " (by decide)⟩, more⟩

/-- A qualifier may be missing. All other parts have something at both ends. -/
theorem spelling_edged {part : TypePart} {text : String} (spelled : IsSpelling part text) :
    text = "" ∧ part = .qualifier ∨ IsEdged text := by
  have closing : ∀ {last : String} {c : Char}, last.toList.getLast? = some c → isBlank c = false →
      ∀ {first}, IsEdged first → IsEdged (first ++ last) := by
    intro last c ends solid first edged
    obtain ⟨d, head, start⟩ := edged.first
    exact ⟨⟨d, by simp [head], start⟩, ⟨c, by simp [ends], solid⟩⟩
  have behind : ∀ {before last : String}, before = "" ∨ IsEdged before → IsEdged last →
      IsEdged (before ++ last) := by
    rintro before last (rfl | first) edged
    · simpa using edged
    · simpa using edged_between first edged ""
  have bounded : ∀ {mark bound : String}, mark.toList.head? = some '?' → IsEdged bound →
      IsEdged (mark ++ bound) := by
    intro mark bound head edged
    obtain ⟨c, ends, solid⟩ := edged.last
    exact ⟨⟨'?', by simp [head], by decide⟩, ⟨c, by simp [ends], solid⟩⟩
  induction spelled with
  | unqualified => exact Or.inl ⟨rfl, rfl⟩
  | named _ same => exact Or.inr (by simpa using same)
  | exactly _ same => exact Or.inr (by simpa using same)
  | last _ same => exact Or.inr (by simpa using same)
  | wildcard => exact Or.inr ⟨⟨'?', rfl, by decide⟩, ⟨'?', rfl, by decide⟩⟩
  | within _ outer => exact Or.inr (@closing "." '.' rfl (by decide) _ (by simpa using outer))
  | plain _ isName before =>
    exact Or.inr (behind (before.imp_left And.left) (edged_of_identifier isName))
  | applied _ isName _ before list =>
    refine Or.inr (behind (before.imp_left And.left) (@closing ">" '>' rfl (by decide) _ ?_))
    exact edged_between (edged_of_identifier isName) (by simpa using list) "<"
  | array _ element => exact Or.inr (@closing "[]" ']' rfl (by decide) _ (by simpa using element))
  | upTo _ bound => exact Or.inr (bounded rfl (by simpa using bound))
  | downTo _ bound => exact Or.inr (bounded rfl (by simpa using bound))
  | further _ _ first more =>
    exact Or.inr (edged_between (by simpa using first) (by simpa using more) ", ")

/-- A spelled type fits into a line, and has neither a colon nor a parenthesis in it. -/
theorem spelled_lineText {type : String} (spelled : IsSpelling .type type) :
    IsLineText type ∧ IsEdged type ∧ ':' ∉ type.toList ∧ ')' ∉ type.toList := by
  have edged : IsEdged type := by simpa using spelling_edged spelled
  have lacks : ∀ {c : Char}, isTypeChar c = false → c ∉ type.toList := by
    intro c other member
    rw [spelling_chars spelled c member] at other
    cases other
  refine ⟨⟨typeText_nonempty edged.typeText, typeText_trimmed edged.typeText, lacks ?_, lacks ?_⟩,
    edged, lacks ?_, lacks ?_⟩ <;> decide +kernel

private theorem spelling_name {name : String} (isName : isIdentifier name = true) :
    IsSpelling .type name := by
  simpa using IsSpelling.named (.plain .unqualified isName)

private theorem parameter_colon {text : List Char} (noColon : ':' ∉ text) :
    parameter? text = none := by
  refine Option.eq_none_iff_forall_ne_some.mpr fun parameter read => ?_
  obtain ⟨_, _, _, _, _, _, rfl, _⟩ := parameter_iff.mp read
  exact noColon (by simp)

/-- A parameter is read from the part of its type before the first comma. -/
theorem cut_read {spaces : List Char} (blank : AreBlanks spaces) {parameter : Parameter}
    (name : IsMemberName parameter.name) (edged : IsEdged parameter.type) :
    parameter? (spaces ++ parameter.name.toList ++ ':' :: ' ' ::
      parameter.type.toList.takeWhile (· != ',')) = some parameter.cutAtComma := by
  obtain ⟨c, first, solid, noComma⟩ := edged.first
  have some : trim (parameter.type.toList.takeWhile (· != ',')) ≠ [] := by
    obtain ⟨type, shape⟩ := List.head?_eq_some_iff.mp first
    intro nothing
    obtain ⟨_, _, blank, blank', whole, _⟩ :=
      trim_splits (parameter.type.toList.takeWhile (· != ','))
    have inside : c ∈ parameter.type.toList.takeWhile (· != ',') := by simp [shape, noComma]
    rw [whole, nothing, List.append_nil] at inside
    have isBlank := (List.mem_append.mp inside).elim (blank c) (blank' c)
    simp [solid] at isBlank
  refine parameter_iff.mpr ⟨spaces, [], ' ' :: parameter.type.toList.takeWhile (· != ','), blank,
    name, ?_, ?_, ?_, ?_⟩
  · exact fun _ member => absurd member (by simp)
  · simp [Parameter.cutAtComma]
  · rw [Parameter.cutAtComma, String.toList_ofList]
    exact @trim_pad [' '] _ (by decide)
  · simpa [Parameter.cutAtComma] using some

/-- The text of one parameter is cut into pieces of which the first is a parameter and the others
are none. -/
theorem parameter_pieces {spaces : List Char} (blank : AreBlanks spaces) {parameter : Parameter}
    (name : IsMemberName parameter.name) (edged : IsEdged parameter.type)
    (noColon : ':' ∉ parameter.type.toList) :
    (pieces ',' (spaces ++ (parameterText parameter).toList)).filterMap parameter? =
      [parameter.cutAtComma] := by
  have read := cut_read blank name edged
  have whole := List.takeWhile_append_dropWhile (p := (· != ',')) (l := parameter.type.toList)
  have spelled : spaces ++ (parameterText parameter).toList =
      (spaces ++ parameter.name.toList ++ ':' :: ' ' ::
        parameter.type.toList.takeWhile (· != ',')) ++
        parameter.type.toList.dropWhile (· != ',') := by
    simp [parameterText]
  have noComma :
      ',' ∉ spaces ++ parameter.name.toList ++ ':' :: ' ' ::
      parameter.type.toList.takeWhile (· != ',') := by
    simp only [List.mem_append, List.mem_cons, not_or]
    refine ⟨⟨fun member => absurd (blank _ member) (by decide),
      fun member => absurd (name.word _ member) (by decide)⟩, by decide, by decide, ?_⟩
    intro member
    simpa using List.all_eq_true.mp List.all_takeWhile _ member
  rw [spelled]
  cases behind : parameter.type.toList.dropWhile (· != ',') with
  | nil =>
    rw [List.append_nil, pieces_last noComma, List.filterMap_cons_some read, List.filterMap_nil]
  | cons d rest =>
    obtain rfl : d = ',' := by
      have stops := List.head?_dropWhile_not (· != ',') parameter.type.toList
      simpa [behind] using stops
    have others : (pieces ',' rest).filterMap parameter? = [] := by
      refine List.filterMap_eq_nil_iff.mpr fun piece listed =>
        parameter_colon fun colon => noColon ?_
      rw [← whole, behind]
      simp [piece_subset listed colon]
    rw [pieces_cons noComma, List.filterMap_cons_some read, others]

/-- Parameters in a line are read one by one, each with its type cut. -/
theorem parameters_cut {all : List Parameter}
    (typed : ∀ parameter ∈ all, IsMemberName parameter.name ∧ IsEdged parameter.type ∧
      ':' ∉ parameter.type.toList) :
    parameters (", ".intercalate (all.map parameterText)).toList =
      all.map Parameter.cutAtComma := by
  -- the first parameter stands behind blanks or none, and all others stand behind one blank
  have behind : ∀ (spaces : List Char), AreBlanks spaces → all ≠ [] →
      (pieces ',' (spaces ++ (", ".intercalate (all.map parameterText)).toList)).filterMap
      parameter? = all.map Parameter.cutAtComma := by
    induction all with
    | nil => exact fun _ _ some => absurd rfl some
    | cons first more ih =>
      intro spaces blank _
      obtain ⟨name, edged, noColon⟩ := typed first (by simp)
      have own := parameter_pieces blank name edged noColon
      cases more with
      | nil => simpa using own
      | cons next more =>
        have others := ih (fun parameter member => typed parameter (by simp [member])) [' ']
          (fun c member => by simp [List.mem_singleton.mp member, isBlank]) (by simp)
        have shape :
            spaces ++ (", ".intercalate ((first :: next :: more).map parameterText)).toList =
            (spaces ++ (parameterText first).toList) ++ ',' ::
            ([' '] ++ (", ".intercalate ((next :: more).map parameterText)).toList) := by
          simp [String.intercalate_cons_cons]
        rw [shape, PathPlaces.pieces_append, List.filterMap_append, own, others]
        rfl
  cases all with
  | nil => rfl
  | cons first more => exact behind [] (fun _ member => absurd member (by simp)) (by simp)

/-- Nothing is cut off a parameter that has no comma in its type. -/
theorem cutAtComma_eq_iff {parameter : Parameter} (edged : IsEdged parameter.type) :
    parameter.cutAtComma = parameter ↔ ',' ∉ parameter.type.toList := by
  constructor
  · intro same comma
    have type : trim (parameter.type.toList.takeWhile (· != ',')) = parameter.type.toList := by
      simpa [Parameter.cutAtComma] using congrArg (String.toList ∘ Parameter.type) same
    obtain ⟨_, _, _, _, whole, _⟩ := trim_splits (parameter.type.toList.takeWhile (· != ','))
    have inside : ',' ∈ parameter.type.toList.takeWhile (· != ',') := by
      rw [whole, type]
      simp [comma]
    simpa using List.all_eq_true.mp List.all_takeWhile _ inside
  · intro noComma
    have taken : parameter.type.toList.takeWhile (· != ',') = parameter.type.toList := by
      refine List.takeWhile_eq_self_iff.mpr fun c member => ?_
      simp only [bne_iff_ne, ne_eq]
      rintro rfl
      exact noComma member
    simp [Parameter.cutAtComma, taken, typeText_trimmed edged.typeText]

/-- The line of a method whose types are spelled in any way is read as that method, with all of it
but what follows the first comma in the type of a parameter. So it is read as just that method if
and only if no parameter has a type with several type arguments side by side. -/
theorem method_line_kept (method : Method) (name : IsMemberName method.name)
    (returnType : IsSpelling .type method.returnType)
    (parameters : ∀ parameter ∈ method.parameters, IsMemberName parameter.name ∧
      IsSpelling .type parameter.type) :
    entryOf? (methodLine method).toList =
      some (.method { method with parameters := method.parameters.map Parameter.cutAtComma }) ∧
      (entryOf? (methodLine method).toList = some (.method method) ↔
        ∀ parameter ∈ method.parameters, ',' ∉ parameter.type.toList) := by
  obtain ⟨isLine, _, _, noParen⟩ := spelled_lineText returnType
  have spelled : ∀ parameter ∈ method.parameters, IsMemberName parameter.name ∧
      IsEdged parameter.type ∧ ':' ∉ parameter.type.toList := by
    intro parameter member
    obtain ⟨named, typed⟩ := parameters parameter member
    obtain ⟨_, edged, noColon, _⟩ := spelled_lineText typed
    exact ⟨named, edged, noColon⟩
  have read := @method_read_listed [] (by simp) method name isLine _
    (fun inside => closing_last (by simpa using noParen) (colon_read isLine))
    (parameters_cut spelled)
  rw [List.nil_append] at read
  refine ⟨read, ?_⟩
  have same :
      ({ method with parameters := method.parameters.map Parameter.cutAtComma } : Method) = method ↔
      ∀ parameter ∈ method.parameters, parameter.cutAtComma = parameter := by
    have kept := @List.map_inj_left _ _ method.parameters Parameter.cutAtComma id
    rw [List.map_id] at kept
    cases method
    simpa using kept
  rw [read]
  simp only [Option.some.injEq, Entry.method.injEq, same]
  exact forall₂_congr fun parameter member => cutAtComma_eq_iff (spelled parameter member).2.1

def load : Method where
  name := "load"
  returnType := "Map<K, V>"
  parameters :=
    [⟨"stock", "Map<String, List<? extends a.Crate<C>.Lid[]>>"⟩, ⟨"by", "List<List<int[]>>"⟩]
  isPrivate := true

theorem load_kept : IsMemberName load.name ∧ IsSpelling .type load.returnType ∧
    (∀ parameter ∈ load.parameters, IsMemberName parameter.name ∧ IsSpelling .type parameter.type) ∧
    entryOf? (methodLine load).toList =
      some (.method { load with parameters :=
                                  [⟨"stock", "Map<String"⟩, ⟨"by", "List<List<int[]>>"⟩] }) ∧
    (entryOf? (methodLine load).toList = some (.method load) ↔
      ∀ parameter ∈ load.parameters, ',' ∉ parameter.type.toList) := by
  have returnType : IsSpelling .type "Map<K, V>" := by
    simpa using IsSpelling.named (.applied .unqualified (by decide : isIdentifier "Map" = true)
      (.further (.exactly (spelling_name (by decide : isIdentifier "K" = true)))
        (.last (.exactly (spelling_name (by decide : isIdentifier "V" = true))))))
  have lid : IsSpelling .type "a.Crate<C>.Lid[]" := by
    have crate :=
      IsSpelling.applied (.within (.plain .unqualified (by decide : isIdentifier "a" = true)))
        (by decide : isIdentifier "Crate" = true)
      (.last (.exactly (spelling_name (by decide : isIdentifier "C" = true))))
    simpa using IsSpelling.array
      (.named (.plain (.within crate) (by decide : isIdentifier "Lid" = true)))
  have lids : IsSpelling .type "List<? extends a.Crate<C>.Lid[]>" := by
    simpa using IsSpelling.named
      (.applied .unqualified (by decide : isIdentifier "List" = true) (.last (.upTo lid)))
  have stock : IsSpelling .type "Map<String, List<? extends a.Crate<C>.Lid[]>>" := by
    simpa using IsSpelling.named (.applied .unqualified (by decide : isIdentifier "Map" = true)
      (.further (.exactly (spelling_name (by decide : isIdentifier "String" = true)))
        (.last (.exactly lids))))
  have list : ∀ {type : String}, IsSpelling .type type →
      IsSpelling .type ("List<" ++ type ++ ">") := by
    intro type spelled
    simpa using IsSpelling.named
      (.applied .unqualified (by decide : isIdentifier "List" = true) (.last (.exactly spelled)))
  have rows : IsSpelling .type "List<List<int[]>>" := by
    simpa using list (list (.array (spelling_name (by decide : isIdentifier "int" = true))))
  have parameters : ∀ parameter ∈ load.parameters, IsMemberName parameter.name ∧
      IsSpelling .type parameter.type := by
    simp only [load, List.forall_mem_cons]
    exact ⟨⟨by decide, stock⟩, ⟨by decide, rows⟩, by simp⟩
  have kept := method_line_kept load (by decide) returnType parameters
  refine ⟨by decide, returnType, parameters, ?_, kept.2⟩
  have cut : load.parameters.map Parameter.cutAtComma =
      [⟨"stock", "Map<String"⟩, ⟨"by", "List<List<int[]>>"⟩] := by decide
  rw [kept.1, cut]

def put : Method where
  name := "put"
  returnType := "void"
  parameters := [⟨"all", "Map<String, Integer>"⟩]

/-- Its line is not read as that method: the second type argument is lost. -/
theorem second_argument_lost : IsMemberName put.name ∧ IsSpelling .type put.returnType ∧
    (∀ parameter ∈ put.parameters, IsMemberName parameter.name ∧ IsSpelling .type parameter.type) ∧
    entryOf? (methodLine put).toList =
      some (.method { put with parameters := [⟨"all", "Map<String"⟩] }) ∧
    entryOf? (methodLine put).toList ≠ some (.method put) := by
  have type : IsSpelling .type "Map<String, Integer>" := by
    simpa using IsSpelling.named (.applied .unqualified (by decide : isIdentifier "Map" = true)
      (.further (.exactly (spelling_name (by decide : isIdentifier "String" = true)))
        (.last (.exactly (spelling_name (by decide : isIdentifier "Integer" = true))))))
  refine ⟨by decide, spelling_name (by decide), ?_, by decide +kernel, by decide +kernel⟩
  simp only [put, List.forall_mem_cons]
  exact ⟨⟨by decide, type⟩, by simp⟩

end ClassDiagram.Proofs.MethodLines
