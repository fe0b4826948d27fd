import ClassDiagram.Proofs.MemberLines

/-! The header that is written for a class or a package is read as that header. Every optional part
of a class header starts with a blank and a reserved word, which no name is, so a part that is there
is taken and a part that is not there cannot be found. -/

namespace ClassDiagram.Proofs.HeaderLines
open Text Diagram Blanks JoinedTexts MemberLines

/-- A name that is read as far as it goes; it may be a word of the grammar. -/
structure IsQualified (name : String) : Prop where
  nonempty : name ≠ ""
  qualified : ∀ c ∈ name.toList, isQualifiedChar c = true

structure IsListed (name : String) : Prop where
  nonempty : name ≠ ""
  trimmed : trim name.toList = name.toList
  listed : ∀ c ∈ name.toList, isListChar c = true
  noComma : ',' ∉ name.toList

private theorem typeName_qualified {name : String} (clean : IsTypeName name) : IsQualified name :=
  ⟨clean.nonempty, clean.qualified⟩

theorem qualified_solid {name : String} (named : IsQualified name) :
    ∀ c ∈ name.toList, isBlank c = false :=
  fun c member => qualified_not_blank (named.qualified c member)

theorem qualified_lacks {name : String} (named : IsQualified name) {c : Char}
    (other : isQualifiedChar c = false) : c ∉ name.toList := by
  intro member
  rw [named.qualified c member] at other
  cases other

private theorem qualified_listed {name : String} (named : IsQualified name) : IsListed name where
  nonempty := named.nonempty
  trimmed := trim_solid (qualified_solid named)
  listed c member := by simp [isListChar, named.qualified c member]
  noComma := qualified_lacks named (by decide)

theorem typeName_solid {name : String} (clean : IsTypeName name) :
    ∀ c ∈ name.toList, isBlank c = false :=
  fun c member => qualified_not_blank (clean.qualified c member)

theorem typeName_lacks {name : String} (clean : IsTypeName name) {c : Char}
    (other : isQualifiedChar c = false) : c ∉ name.toList :=
  qualified_lacks (typeName_qualified clean) other

theorem solid_starts {name : String} (nonempty : name ≠ "")
    (solid : ∀ c ∈ name.toList, isBlank c = false) (tail : List Char) :
    ∀ c ∈ (name.toList ++ tail).head?, isBlank c = false := by
  intro c first
  cases shape : name.toList with
  | nil => exact absurd shape (toList_ne_nil nonempty)
  | cons d rest =>
    obtain rfl : d = c := by simpa [shape] using first
    exact solid d (by simp [shape])

private theorem listed_starts {name : String} (named : IsListed name) (tail : List Char) :
    ∀ c ∈ (name.toList ++ tail).head?, isBlank c = false := by
  intro c first
  cases shape : name.toList with
  | nil => exact absurd shape (toList_ne_nil named.nonempty)
  | cons d rest =>
    obtain rfl : d = c := by simpa [shape] using first
    exact trimmed_head (shape ▸ named.trimmed)

theorem qualified_starts {name : String} (named : IsQualified name) (tail : List Char) :
    ∀ c ∈ (name.toList ++ tail).head?, isBlank c = false :=
  solid_starts named.nonempty (qualified_solid named) tail

theorem qualified_read {name : String} {tail : List Char} (named : IsQualified name)
    (stops : ∀ c ∈ tail.head?, isQualifiedChar c = false) :
    qualifiedName? (name.toList ++ tail) = some (name, tail) := by
  simp only [qualifiedName?, takeWhile_stops named.qualified stops,
    dropWhile_stops named.qualified stops]
  cases shape : name.toList with
  | nil => exact absurd shape (toList_ne_nil named.nonempty)
  | cons c rest => simp only [← shape, String.ofList_toList]

@[simp] theorem prefix_nil (text : List Char) : List.isPrefixOf? [] text = some text := by
  cases text <;> rfl

@[simp] theorem prefix_short (c : Char) (word : List Char) : (c :: word).isPrefixOf? [] = none :=
  rfl

@[simp] theorem prefix_cons (c d : Char) (word text : List Char) :
    (c :: word).isPrefixOf? (d :: text) = if c == d then word.isPrefixOf? text else none := rfl

theorem isPrefixOf?_found {word text rest : List Char} (found : word.isPrefixOf? text = some rest) :
    text = word ++ rest := by
  induction word generalizing text with
  | nil => simpa using found
  | cons c word ih =>
    cases text with
    | nil => simp at found
    | cons d text =>
      by_cases same : c = d
      · subst same
        have rest := @ih text (by simpa using found)
        rw [rest, List.cons_append]
      · simp [same] at found

private theorem isPrefixOf?_append (word rest : List Char) :
    word.isPrefixOf? (word ++ rest) = some rest := by
  induction word with
  | nil => simp
  | cons c word ih => simp [ih]

/-- A name before a blank is taken for no other word. -/
theorem afterWord_other {word name : String} {tail : List Char}
    (solid : ∀ c ∈ word.toList, isBlank c = false) (whole : ∀ c ∈ name.toList, isBlank c = false)
    (other : name ≠ word) (ends : ∀ c ∈ tail.head?, isBlank c = true) :
    afterWord? word (name.toList ++ tail) = none := by
  simp only [afterWord?]
  cases found : word.toList.isPrefixOf? (name.toList ++ tail) with
  | none => rfl
  | some rest =>
    have same := isPrefixOf?_found found
    cases blank : startsBlank rest with
    | false => simp [blank]
    | true =>
      have behind : ∀ c ∈ rest.head?, (!isBlank c) = false := by
        cases rest with
        | nil => simp
        | cons d rest => simpa [startsBlank] using blank
      have first := takeWhile_stops (p := (!isBlank ·)) (by simpa using solid) behind
      have second := @takeWhile_stops _ (!isBlank ·) _ tail (by simpa using whole)
        (by simpa using ends)
      rw [← same, second] at first
      exact absurd (String.toList_inj.mp first) other

theorem skipChar_keeps {x c : Char} {text : List Char} (other : x ≠ c) (member : x ∈ text) :
    x ∈ skipChar c text := by
  cases text with
  | nil => simp at member
  | cons d rest =>
    simp only [skipChar]
    split
    · rcases List.mem_cons.mp member with rfl | member
      · contradiction
      · exact member
    · exact member

theorem skipBlanks_keeps {x : Char} {text : List Char} (solid : isBlank x = false)
    (member : x ∈ text) : x ∈ skipBlanks text := by
  induction text with
  | nil => simp at member
  | cons d rest ih =>
    simp only [skipBlanks, List.dropWhile_cons]
    split
    next blank =>
      rcases List.mem_cons.mp member with rfl | member
      · simp [solid] at blank
      · exact ih member
    next => exact member

/-- A header does not end before something that is neither blank nor brace. -/
theorem not_headerEnd {x : Char} {text : List Char} (solid : isBlank x = false) (opening : x ≠ '{')
    (closing : x ≠ '}') (member : x ∈ text) : isHeaderEnd text = false := by
  have inside := skipBlanks_keeps solid (skipChar_keeps closing (skipBlanks_keeps solid
    (skipChar_keeps opening (skipBlanks_keeps solid member))))
  rw [isHeaderEnd, List.isEmpty_eq_false_iff]
  exact List.ne_nil_of_mem inside

/-- The shortest list behind which the header ends is all of it, if it ends in a name. -/
theorem listText_read {list : List Char} {x : Char} (chars : ∀ c ∈ list, isListChar c = true)
    (last : list.getLast? = some x) (solid : isBlank x = false) (opening : x ≠ '{')
    (closing : x ≠ '}') :
    listText? (list ++ [' ', '{']) = some list := by
  induction list with
  | nil => simp at last
  | cons c list ih =>
    cases list with
    | nil =>
      have ended : isHeaderEnd [' ', '{'] = true := by decide
      simp [listText?, chars c (by simp), ended]
    | cons d list =>
      have rest := ih (fun e member => chars e (by simp [member])) (by simpa using last)
      have inside : x ∈ d :: list := List.mem_of_getLast? (by simpa using last)
      have more : isHeaderEnd (d :: list ++ [' ', '{']) = false :=
        not_headerEnd solid opening closing (List.mem_append_left _ inside)
      simp only [List.cons_append] at rest more ⊢
      rw [listText?]
      simp [chars c (by simp), more, rest]

theorem afterWord_found {word : String} {text : List Char}
    (solid : ∀ c ∈ text.head?, isBlank c = false) :
    afterWord? word (word.toList ++ ' ' :: text) = some text := by
  have skipped : skipBlanks (' ' :: text) = text := @skip_to_solid [' '] _ (by decide) solid
  have blank : startsBlank (' ' :: text) = true := rfl
  simp [afterWord?, isPrefixOf?_append, blank, skipped]

def headerEnd : List Char := [' ', '{']

def extendsText : Option String → String
  | some name => " extends " ++ name
  | none => ""

def implementsText : List String → String
  | [] => ""
  | names => " implements " ++ ", ".intercalate names

private theorem commaList_toList (names : List String) :
    (", ".intercalate names).toList = [',', ' '].intercalate (names.map String.toList) := by
  rw [String.toList_intercalate]
  rfl

private theorem list_chars {names : List String} (named : ∀ name ∈ names, IsListed name) :
    ∀ c ∈ [',', ' '].intercalate (names.map String.toList), isListChar c = true := by
  intro c member
  rcases mem_intercalate member with mark | ⟨part, present, inside⟩
  · have marks : ∀ c ∈ [',', ' '], isListChar c = true := by decide
    exact marks c mark
  · obtain ⟨name, known, rfl⟩ := List.mem_map.mp present
    exact (named name known).listed c inside

private theorem list_last {names : List String} (named : ∀ name ∈ names, IsListed name)
    (full : names ≠ []) :
    ∃ x, ([',', ' '].intercalate (names.map String.toList)).getLast? = some x ∧
      isListChar x = true ∧ isBlank x = false := by
  induction names with
  | nil => exact absurd rfl full
  | cons name names ih =>
    cases names with
    | nil =>
      have first := named name (by simp)
      cases last : name.toList.getLast? with
      | none => exact absurd (List.getLast?_eq_none_iff.mp last) (toList_ne_nil first.nonempty)
      | some x =>
        obtain ⟨init, same⟩ := List.getLast?_eq_some_iff.mp last
        exact ⟨x, by simpa using last, first.listed x (List.mem_of_getLast? last),
          trimmed_last (same ▸ first.trimmed)⟩
    | cons next names =>
      obtain ⟨x, last, inside⟩ := ih (fun name member => named name (by simp [member])) (by simp)
      refine ⟨x, ?_, inside⟩
      rw [List.map_cons, List.map_cons, List.intercalate_cons_cons]
      rw [List.map_cons] at last
      rw [List.getLast?_append, last, Option.some_or]

private theorem listedNames_read {names : List String} (named : ∀ name ∈ names, IsListed name)
    (some : names ≠ []) :
    listedNames ([',', ' '].intercalate (names.map String.toList)) = names := by
  cases names with
  | nil => exact absurd rfl some
  | cons first more =>
    have split := @pieces_join ',' ' ' first.toList (more.map String.toList) (by decide) (by
        intro piece member
        rw [← List.map_cons, List.mem_map] at member
        obtain ⟨name, member, rfl⟩ := member
        exact (named name member).noComma)
    have trimmed : ∀ name ∈ first :: more, trim name.toList = name.toList :=
      fun name member => (named name member).trimmed
    have padded : (more.map String.toList).map (trim ∘ (' ' :: ·)) = more.map String.toList := by
      rw [List.map_map]
      apply List.map_congr_left
      intro name member
      exact (@trim_pad [' '] _ (by decide)).trans (trimmed name (by simp [member]))
    have full : ∀ text ∈ (first :: more).map String.toList, (!text.isEmpty) = true := by
      intro text member
      obtain ⟨name, present, rfl⟩ := List.mem_map.mp member
      simpa using (named name present).nonempty
    rw [listedNames, List.map_cons, split, List.map_cons, List.map_map, padded,
      trimmed first (by simp), ← List.map_cons, List.filter_eq_self.mpr full, List.map_map]
    simp

private theorem interfaces_read {names : List String} (named : ∀ name ∈ names, IsListed name) :
    interfacesOrEnd? ((implementsText names).toList ++ headerEnd) = some names := by
  cases names with
  | nil => decide
  | cons first more =>
    obtain ⟨x, last, listed, solid⟩ := list_last named (by simp)
    have read :=
      listText_read (list_chars named) last solid (by rintro rfl; exact absurd listed (by decide))
      (by rintro rfl; exact absurd listed (by decide))
    let list := [',', ' '].intercalate ((first :: more).map String.toList)
    have shape : (implementsText (first :: more)).toList ++ headerEnd =
        ' ' :: ("implements".toList ++ ' ' :: (list ++ [' ', '{'])) := by
      simp [implementsText, headerEnd, list]
    have starts : ∀ c ∈ (list ++ [' ', '{']).head?, isBlank c = false := by
      have name := listed_starts (named first (by simp))
      cases more with
      | nil => simpa [list] using name [' ', '{']
      | cons next more =>
        simpa only [list, List.map_cons, List.intercalate_cons_cons, List.append_assoc] using name _
    have skipped := @skip_to_solid [' '] _ (by decide) starts
    have inner : skipBlanks (' ' :: ("implements".toList ++ ' ' :: (list ++ [' ', '{']))) =
        "implements".toList ++ ' ' :: (list ++ [' ', '{']) := by
      apply @skip_to_solid [' '] _ (by decide)
      simp
      decide
    have blank : ∀ text, startsBlank (' ' :: text) = true := fun _ => rfl
    rw [List.singleton_append] at skipped
    simp only [interfacesOrEnd?, interfaces?, shape, blank, ite_true, inner,
      isPrefixOf?_append, skipped]
    erw [read]
    simp only [listedNames_read named (by simp)]

private theorem tail_blank (superclass : Option String) (names : List String) :
    ∃ rest, (extendsText superclass).toList ++ ((implementsText names).toList ++ headerEnd) =
      ' ' :: rest := by
  cases superclass with
  | some name => exact ⟨_, by simp [extendsText]; rfl⟩
  | none =>
    cases names with
    | nil => exact ⟨['{'], by simp [extendsText, implementsText, headerEnd]⟩
    | cons first more => exact ⟨_, by simp [extendsText, implementsText]; rfl⟩

/-- A class without superclass has none, since its header goes on with another word or ends. -/
private theorem no_extends (names : List String) :
    extends? ((implementsText names).toList ++ headerEnd) = none := by
  cases names with
  | nil => simp [implementsText, headerEnd, extends?, startsBlank, skipBlanks, afterWord?, isBlank]
  | cons first more => simp [implementsText, extends?, startsBlank, skipBlanks, afterWord?, isBlank]

private theorem supertypes_read {superclass : Option String} {names : List String}
    (parent : ∀ name ∈ superclass, IsQualified name) (named : ∀ name ∈ names, IsListed name) :
    supertypes? ((extendsText superclass).toList ++ ((implementsText names).toList ++ headerEnd)) =
      some (superclass, names) := by
  cases superclass with
  | none => simp [extendsText, supertypes?, no_extends, interfaces_read named]
  | some name =>
    have parent := parent name rfl
    obtain ⟨rest, shape⟩ := tail_blank none names
    rw [extendsText, String.toList_empty, List.nil_append] at shape
    have word :=
      @afterWord_found "extends" _
        (qualified_starts parent ((implementsText names).toList ++ headerEnd))
    have read :=
      @qualified_read _ ((implementsText names).toList ++ headerEnd) parent
        (by rw [shape]; simp; decide)
    have found :
        extends? ((extendsText (some name)).toList ++
          ((implementsText names).toList ++ headerEnd)) =
        some (name, (implementsText names).toList ++ headerEnd) := by
      have skipped :
          skipBlanks
          (' ' :: ("extends".toList ++ ' ' ::
            (name.toList ++ ((implementsText names).toList ++ headerEnd)))) =
          "extends".toList ++ ' ' ::
          (name.toList ++ ((implementsText names).toList ++ headerEnd)) := by
        apply @skip_to_solid [' '] _ (by decide)
        simp
        decide
      have text : (extendsText (some name)).toList ++ ((implementsText names).toList ++ headerEnd) =
          ' ' :: ("extends".toList ++ ' ' ::
            (name.toList ++ ((implementsText names).toList ++ headerEnd))) := by
        simp [extendsText]
      have blank : ∀ text, startsBlank (' ' :: text) = true := fun _ => rfl
      rw [text, extends?, blank, if_pos rfl, skipped, word]
      exact read
    simp [supertypes?, found, interfaces_read named]

def headed (c : Class) : Class :=
  { name := c.name, kind := c.kind, isAbstract := c.isAbstract, superclass := c.superclass,
    interfaces := c.interfaces }

def afterName (c : Class) : List Char :=
  (extendsText c.superclass).toList ++ ((implementsText c.interfaces).toList ++ headerEnd)

theorem headerText_toList (c : Class) : (headerText c ++ " \x7b").toList =
    (keyword c).toList ++ ' ' :: (c.name.toList ++ afterName c) := by
  cases parent : c.superclass <;> cases names : c.interfaces <;>
    simp [headerText, afterName, extendsText, implementsText, headerEnd, parent, names]

theorem afterName_blank (c : Class) : ∀ x ∈ (afterName c).head?, isBlank x = true := by
  obtain ⟨rest, shape⟩ := tail_blank c.superclass c.interfaces
  rw [afterName, shape]
  simp
  decide

/-- What a header says behind its keyword can be read again. -/
structure IsHeading (c : Class) : Prop where
  name : IsQualified c.name
  superclass : ∀ name ∈ c.superclass, IsQualified name
  interfaces : ∀ name ∈ c.interfaces, IsListed name

private theorem clean_heading {c : Class} (clean : c.Clean) : IsHeading c where
  name := typeName_qualified clean.name
  superclass name member := typeName_qualified (clean.superclass name member)
  interfaces name member := qualified_listed (typeName_qualified (clean.interfaces name member))

theorem named_read {c : Class} (heading : IsHeading c) (kind : Kind) :
    named? kind (c.name.toList ++ afterName c) =
      some { name := c.name, kind, superclass := c.superclass, interfaces := c.interfaces } := by
  obtain ⟨rest, shape⟩ := tail_blank c.superclass c.interfaces
  have read := @qualified_read _ (afterName c) heading.name (by rw [afterName, shape]; simp; decide)
  simp only [named?, read]
  rw [afterName, supertypes_read heading.superclass heading.interfaces]
  rfl

theorem name_no_kind {name : String} {tail : List Char}
    (solid : ∀ x ∈ name.toList, isBlank x = false) (ends : ∀ x ∈ tail.head?, isBlank x = true)
    (other : name ∉ ["class", "interface", "enum"]) :
    kindWord? (name.toList ++ tail) = none := by
  have none :
      ∀ word ∈ ["class", "interface", "enum"], afterWord? word (name.toList ++ tail) = none := by
    intro word member
    have whole : ∀ word ∈ ["class", "interface", "enum"], ∀ x ∈ word.toList, isBlank x = false := by
      decide
    exact afterWord_other (whole word member) solid (fun same => other (same ▸ member)) ends
  simp only [kindWord?, none "class" (by decide), none "interface" (by decide),
    none "enum" (by decide)]

theorem kindWord_found {c : Class} (rest : List Char) (solid : ∀ x ∈ rest.head?, isBlank x = false)
    (concrete : keyword c ≠ "abstract") :
    kindWord? ((keyword c).toList ++ ' ' :: rest) = some (c.kind, rest) ∧
      afterWord? "abstract" ((keyword c).toList ++ ' ' :: rest) = none := by
  have found : ∀ word, afterWord? word (word.toList ++ ' ' :: rest) = some rest :=
    fun word => afterWord_found solid
  cases kind : c.kind with
  | enum =>
    have word : keyword c = "enum" := by simp [keyword, kind]
    rw [word]
    refine ⟨?_, by simp [afterWord?]⟩
    rw [kindWord?, found]
    simp [afterWord?]
  | interface =>
    have word : keyword c = "interface" := by simp [keyword, kind]
    rw [word]
    refine ⟨?_, by simp [afterWord?]⟩
    rw [kindWord?, found]
    simp [afterWord?]
  | plain =>
    have word : keyword c = "class" := by
      cases isAbstract : c.isAbstract <;> simp_all [keyword]
    rw [word]
    refine ⟨?_, by simp [afterWord?]⟩
    rw [kindWord?, found]

theorem keyword_abstract {c : Class} :
    keyword c = "abstract" ↔ c.kind = .plain ∧ c.isAbstract = true := by
  cases kind : c.kind <;> cases isAbstract : c.isAbstract <;> simp [keyword, kind, isAbstract]

theorem keyword_starts (c : Class) (rest : List Char) :
    ∀ x ∈ ((keyword c).toList ++ rest).head?, isBlank x = false := by
  cases kind : c.kind <;> cases isAbstract : c.isAbstract <;> simp [keyword, kind, isAbstract] <;>
    decide

theorem header_read {spaces : List Char} (blank : ∀ x ∈ spaces, isBlank x = true) {c : Class}
    (clean : c.Clean) : classHeader (spaces ++ (headerText c ++ " \x7b").toList) = headed c := by
  have heading := clean_heading clean
  have starts := qualified_starts heading.name (afterName c)
  have named := named_read heading
  rw [headerText_toList]
  simp only [classHeader, wellFormedHeader?, skip_to_solid blank (keyword_starts c _)]
  by_cases isAbstract : keyword c = "abstract"
  · obtain ⟨plain, marked⟩ := keyword_abstract.mp isAbstract
    have kinds : ∀ word ∈ ["class", "interface", "enum"], word ∈ reservedWords := by decide
    have noKind := name_no_kind (qualified_solid heading.name) (afterName_blank c) fun member =>
      clean.name.unreserved (kinds _ member)
    rw [isAbstract, afterWord_found starts]
    simp [kinded?, noKind, named, headed, plain, marked]
  · obtain ⟨found, other⟩ := kindWord_found _ starts isAbstract
    have concrete : c.isAbstract = false := by
      cases marked : c.isAbstract with
      | false => rfl
      | true => exact absurd (keyword_abstract.mpr ⟨clean.isAbstract marked, marked⟩) isAbstract
    simp [kinded?, other, found, named, headed, concrete]

theorem words_first {spaces word rest : List Char} (blank : ∀ x ∈ spaces, isBlank x = true)
    (solid : ∀ x ∈ word, isBlank x = false) (full : word ≠ []) :
    words (spaces ++ (word ++ ' ' :: rest)) = word :: words rest := by
  rw [words_pad blank, words_split (by decide), words_of_solid solid full]
  rfl

theorem header_isClassHeader {spaces : List Char} (blank : ∀ x ∈ spaces, isBlank x = true)
    (c : Class) : isClassHeader (spaces ++ (headerText c ++ " \x7b").toList) = true := by
  rw [headerText_toList, isClassHeader]
  have listed : classKeywords.contains (keyword c).toList = true := by
    cases kind : c.kind <;> cases isAbstract : c.isAbstract <;>
      simp [keyword, kind, isAbstract, classKeywords]
  have solid : ∀ x ∈ (keyword c).toList, isBlank x = false := by
    cases kind : c.kind <;> cases isAbstract : c.isAbstract <;> simp [keyword, kind, isAbstract] <;>
      decide
  have full : (keyword c).toList ≠ [] := by
    intro empty
    rw [empty] at listed
    simp [classKeywords] at listed
  rw [words_first blank solid full, List.any_cons, listed, Bool.true_or]

theorem not_closes {line : List Char} (noBrace : '}' ∉ line) : closes line = false := by
  simpa [closes] using noBrace

theorem blank_noBrace {spaces : List Char} (blank : ∀ x ∈ spaces, isBlank x = true) :
    '}' ∉ spaces :=
  fun member => absurd (blank _ member) (by decide)

def isHeaderChar (c : Char) : Bool :=
  isQualifiedChar c || c == ',' || c == ' ' || c == '{'

private theorem typeName_chars {name : String} (clean : IsTypeName name) :
    ∀ x ∈ name.toList, isHeaderChar x = true := by
  intro x member
  simp [isHeaderChar, clean.qualified x member]

private theorem header_chars {c : Class} (clean : c.Clean) :
    ∀ x ∈ (headerText c ++ " \x7b").toList, isHeaderChar x = true := by
  have word : ∀ x ∈ (keyword c).toList, isHeaderChar x = true := by
    cases kind : c.kind <;> cases isAbstract : c.isAbstract <;>
      simp only [keyword, kind, isAbstract] <;> decide
  have parent : ∀ x ∈ (extendsText c.superclass).toList, isHeaderChar x = true := by
    cases shape : c.superclass with
    | none => simp [extendsText]
    | some name =>
      have fixed : ∀ x ∈ " extends ".toList, isHeaderChar x = true := by decide
      rw [extendsText, String.toList_append]
      exact List.forall_mem_append.mpr ⟨fixed, typeName_chars (clean.superclass name shape)⟩
  have list : ∀ x ∈ (implementsText c.interfaces).toList, isHeaderChar x = true := by
    cases shape : c.interfaces with
    | nil => simp [implementsText]
    | cons first more =>
      have fixed : ∀ x ∈ " implements ".toList, isHeaderChar x = true := by decide
      rw [implementsText, String.toList_append, commaList_toList, List.forall_mem_append]
      refine ⟨fixed, ?_⟩
      · intro x member
        rcases mem_intercalate member with comma | ⟨part, present, inside⟩
        · have fixed : ∀ x ∈ [',', ' '], isHeaderChar x = true := by decide
          exact fixed x comma
        · obtain ⟨name, known, rfl⟩ := List.mem_map.mp present
          exact typeName_chars (clean.interfaces name (shape ▸ known)) x inside
      · simp
  have ending : ∀ x ∈ headerEnd, isHeaderChar x = true := by decide
  simp only [headerText_toList, afterName, List.forall_mem_append, List.forall_mem_cons]
  exact ⟨word, by decide, typeName_chars clean.name, parent, list, ending⟩

theorem header_lacks {x : Char} (other : isHeaderChar x = false) {c : Class} (clean : c.Clean) :
    x ∉ (headerText c ++ " \x7b").toList := by
  intro member
  rw [header_chars clean x member] at other
  cases other

theorem header_open {spaces : List Char} (blank : ∀ x ∈ spaces, isBlank x = true) {c : Class}
    (clean : c.Clean) : closes (spaces ++ (headerText c ++ " \x7b").toList) = false := by
  apply not_closes
  simpa using ⟨blank_noBrace blank, by simpa using header_lacks (x := '}') (by decide) clean⟩

/-- What reading a package's header back needs of its name: no word of the quoted name is a
keyword. -/
structure IsLabel (name : String) : Prop where
  oneLine : '\n' ∉ name.toList
  noQuote : '"' ∉ name.toList
  noBrace : '}' ∉ name.toList
  noKeyword : isClassHeader ('"' :: name.toList ++ ['"']) = false

theorem isLabel_of_packageName {name : String} (clean : IsPackageName name) : IsLabel name := by
  refine ⟨clean.oneLine, clean.noQuote, clean.noBrace, ?_⟩
  have plain : ∀ word ∈ classKeywords, '"' ∉ word := by decide
  rw [isClassHeader, List.any_eq_false]
  intro word member found
  have keyword : word ∈ classKeywords := by simpa using found
  rcases words_quoted member with quote | member
  · exact plain word keyword quote
  · exact clean.noKeyword word member keyword

/-- Without blanks the quoted name is one word, and no keyword has quotes. -/
theorem solid_noKeyword {name : String} (solid : ∀ c ∈ name.toList, isBlank c = false) :
    isClassHeader ('"' :: name.toList ++ ['"']) = false := by
  have quoted : ∀ c ∈ '"' :: name.toList ++ ['"'], isBlank c = false := by
    intro c member
    simp only [List.cons_append, List.mem_cons, List.mem_append, List.not_mem_nil, or_false]
      at member
    rcases member with rfl | member | rfl
    · decide
    · exact solid c member
    · decide
  rw [isClassHeader, words_of_solid quoted (by simp)]
  simp [classKeywords]

theorem isLabel_of_solid {name : String} (solid : ∀ c ∈ name.toList, isBlank c = false)
    (noQuote : '"' ∉ name.toList) (noBrace : '}' ∉ name.toList) : IsLabel name :=
  ⟨fun member => absurd (solid _ member) (by decide), noQuote, noBrace, solid_noKeyword solid⟩

def packageLine (name : String) : String :=
  "package \"" ++ name ++ "\" \x7b"

private theorem packageLine_toList (name : String) : (packageLine name).toList =
    "package".toList ++ ' ' :: ('"' :: name.toList ++ ['"'] ++ ' ' :: ['{']) := by
  simp [packageLine]

private theorem package_words {spaces : List Char} (blank : ∀ x ∈ spaces, isBlank x = true)
    (name : String) : words (spaces ++ (packageLine name).toList) =
      "package".toList :: (words ('"' :: name.toList ++ ['"']) ++ [['{']]) := by
  rw [packageLine_toList, words_first blank (by decide) (by simp), words_split (by decide)]
  rfl

theorem package_notClass {spaces : List Char} (blank : ∀ x ∈ spaces, isBlank x = true)
    {name : String} (noKeyword : isClassHeader ('"' :: name.toList ++ ['"']) = false) :
    isClassHeader (spaces ++ (packageLine name).toList) = false := by
  rw [isClassHeader] at noKeyword
  rw [isClassHeader, package_words blank, List.any_cons, List.any_append, noKeyword]
  decide

theorem package_isHeader {spaces : List Char} (blank : ∀ x ∈ spaces, isBlank x = true)
    (name : String) : isPackageHeader (spaces ++ (packageLine name).toList) = true := by
  rw [isPackageHeader, package_words blank]
  simp

theorem package_closes {spaces : List Char} (blank : ∀ x ∈ spaces, isBlank x = true)
    (name : String) : closes (spaces ++ (packageLine name).toList) = name.toList.contains '}' := by
  rw [Bool.eq_iff_iff]
  simp [closes, packageLine_toList, blank_noBrace blank]

/-- The name ends at its first quote, if it has any. -/
def requote (name : String) : String :=
  String.ofList (name.toList.takeWhile (· != '"'))

theorem requote_eq_iff (name : String) : requote name = name ↔ '"' ∉ name.toList := by
  rw [requote, ← String.toList_inj, String.toList_ofList]
  constructor
  · intro same member
    rw [← same] at member
    simpa using List.all_eq_true.mp List.all_takeWhile _ member
  · intro absent
    have taken := @takeWhile_stops _ (· != '"') name.toList [] (fun c member => by
      simp only [bne_iff_ne, ne_eq]
      rintro rfl
      exact absent member) (by simp)
    rwa [List.append_nil] at taken

theorem package_name {spaces : List Char} (blank : ∀ x ∈ spaces, isBlank x = true) (name : String) :
    packageName (spaces ++ (packageLine name).toList) = requote name := by
  have before : ∀ c ∈ spaces ++ "package ".toList, (c != '"') = true := by
    intro c member
    rcases List.mem_append.mp member with member | member
    · simp only [bne_iff_ne, ne_eq]
      rintro rfl
      exact absurd (blank _ member) (by decide)
    · have plain : ∀ c ∈ "package ".toList, (c != '"') = true := by decide
      exact plain c member
  have shape : spaces ++ (packageLine name).toList =
      (spaces ++ "package ".toList) ++ '"' :: (name.toList ++ '"' :: [' ', '{']) := by
    rw [packageLine_toList]
    simp
  have dropped :=
    @dropWhile_stops _ _ _ ('"' :: (name.toList ++ '"' :: [' ', '{'])) before (by simp)
  have taken : (name.toList ++ '"' :: [' ', '{']).takeWhile (· != '"') =
      name.toList.takeWhile (· != '"') := by
    rw [List.takeWhile_append]
    split
    next whole =>
      have same := List.IsPrefix.eq_of_length (List.takeWhile_prefix (· != '"')) whole
      rw [List.takeWhile_cons_of_neg (by simp), List.append_nil, same]
    · rfl
  simp only [packageName, quoted?, shape, dropped, taken, requote]
  simp

end ClassDiagram.Proofs.HeaderLines
