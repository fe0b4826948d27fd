import ClassDiagram.Proofs.BlockTitles

/-! The header that is written for a title is read as that title again, with two exceptions. An
empty name leaves the keyword alone on its line, and then the keyword is the name. And the name of
an abstract class may be the keyword of another kind of class, with something behind it that looks
like a name and supertypes itself. -/

namespace ClassDiagram.Class
open Text Diagram

def restated (c : Class) : Class :=
  classHeader (headerText c ++ " \x7b").toList

/-- No other header begins where the name of the class stands. -/
def Unambiguous (c : Class) : Prop :=
  keyword c = "abstract" → c.name ∈ ["class", "interface", "enum"] →
    named? .plain (skipBlanks (Proofs.HeaderLines.afterName c)) = none

instance (c : Class) : Decidable c.Unambiguous :=
  inferInstanceAs (Decidable (_ → _ → _))

/-- Other classes than plain ones are not written as abstract. -/
def plainlyAbstract (c : Class) : Class :=
  { c with isAbstract := c.isAbstract && c.kind == .plain }

end ClassDiagram.Class

namespace ClassDiagram.Proofs.RestatedHeaders
open Text Diagram Blanks JoinedTexts MemberLines HeaderLines DiagramBlocks BodyLines BlockTitles

/-- A name with something in it that is no part of a qualified name. -/
structure IsLoose (name : String) : Prop where
  solid : ∀ x ∈ name.toList, isBlank x = false
  stops : ∃ run d rest, name.toList = run ++ d :: rest ∧ (∀ x ∈ run, isQualifiedChar x = true) ∧
    isQualifiedChar d = false

private theorem loose_nonempty {name : String} (loose : IsLoose name) : name ≠ "" := by
  obtain ⟨run, d, rest, shape, _⟩ := loose.stops
  rintro rfl
  simp at shape

private theorem loose_other {name word : String} (loose : IsLoose name)
    (qualified : ∀ x ∈ word.toList, isQualifiedChar x = true) : name ≠ word := by
  obtain ⟨run, d, rest, shape, _, other⟩ := loose.stops
  rintro rfl
  simp [qualified d (by simp [shape])] at other

private theorem headerEnd_blank : ∀ x ∈ headerEnd.head?, isBlank x = true := by
  simp only [headerEnd, List.head?_cons, Option.mem_def, Option.some.injEq, forall_eq']
  decide

/-- A header does not end in front of anything solid. -/
theorem not_headerEnd_solid {d : Char} {rest : List Char} (solid : isBlank d = false) :
    isHeaderEnd (d :: rest ++ headerEnd) = false := by
  have brace : isBlank '{' = false := by decide
  have opened : '{' ∈ skipChar '{' (skipBlanks (d :: rest ++ headerEnd)) := by
    rw [List.cons_append, skip_solid solid, skipChar]
    split <;> simp [headerEnd]
  have behind :=
    skipBlanks_keeps brace (skipChar_keeps (c := '}') (by decide) (skipBlanks_keeps brace opened))
  rw [isHeaderEnd, List.isEmpty_eq_false_iff]
  exact List.ne_nil_of_mem behind

private theorem headerEnd_pad {spaces : List Char} (blank : ∀ x ∈ spaces, isBlank x = true)
    (text : List Char) : isHeaderEnd (spaces ++ text) = isHeaderEnd text := by
  rw [isHeaderEnd, isHeaderEnd, skip_blanks blank]

private theorem interfaces_none {text : List Char}
    (none : afterWord? "implements" (skipBlanks text) = none) : interfaces? text = .none := by
  simp only [afterWord?] at none
  simp only [interfaces?]
  split
  · split
    · rfl
    next rest shape =>
      rw [shape] at none
      cases blank : startsBlank rest with
      | false => rfl
      | true => simp [blank] at none
  · rfl

private theorem supertypes_none {text : List Char}
    (parent : afterWord? "extends" (skipBlanks text) = none)
    (interfaces : afterWord? "implements" (skipBlanks text) = none)
    (more : isHeaderEnd text = false) : supertypes? text = none := by
  have extending : extends? text = none := by simp [extends?, parent]
  simp [supertypes?, extending, interfacesOrEnd?, interfaces_none interfaces, more]

/-- A name that goes on behind a part that is qualified is not read up to there. -/
theorem loose_unnamed {name : String} (loose : IsLoose name) (kind : Kind) :
    named? kind (name.toList ++ headerEnd) = none := by
  obtain ⟨run, d, rest, shape, inside, other⟩ := loose.stops
  have solid := loose.solid d (by simp [shape])
  have whole : name.toList ++ headerEnd = run ++ (d :: rest ++ headerEnd) := by simp [shape]
  have stops : ∀ x ∈ (d :: rest ++ headerEnd).head?, isQualifiedChar x = false := by
    simpa using other
  have unblank : startsBlank (d :: rest ++ headerEnd) = false := solid
  have none : supertypes? (d :: rest ++ headerEnd) = .none := by
    simp only [supertypes?, extends?, interfacesOrEnd?, interfaces?, unblank,
      not_headerEnd_solid solid, Bool.false_eq_true, ite_false, Option.map_none]
  simp only [named?, qualifiedName?, whole, takeWhile_stops inside stops,
    dropWhile_stops inside stops]
  cases run with
  | nil => rfl
  | cons c run => simpa using none

/-- Nor is a word before a name read as the name of the class. -/
theorem keyword_unnamed {name word : String} (loose : IsLoose name) (named : IsQualified word)
    (kind : Kind) : named? kind (word.toList ++ ' ' :: (name.toList ++ headerEnd)) = none := by
  have starts := solid_starts (loose_nonempty loose) loose.solid headerEnd
  have skipped := @skip_to_solid [' '] _ (by decide) starts
  have other :
      ∀ word ∈ ["extends", "implements"],
      afterWord? word (skipBlanks (' ' :: (name.toList ++ headerEnd))) = none := by
    intro word member
    have solid : ∀ word ∈ ["extends", "implements"], ∀ x ∈ word.toList, isBlank x = false := by
      decide
    have qualified :
        ∀ word ∈ ["extends", "implements"], ∀ x ∈ word.toList, isQualifiedChar x = true := by decide
    rw [List.singleton_append] at skipped
    rw [skipped]
    exact afterWord_other (solid word member) loose.solid
      (loose_other loose (qualified word member)) headerEnd_blank
  have more : isHeaderEnd (' ' :: (name.toList ++ headerEnd)) = false := by
    cases shape : name.toList with
    | nil => exact absurd shape (toList_ne_nil (loose_nonempty loose))
    | cons d rest =>
      have padded := @headerEnd_pad [' '] (by decide) (d :: rest ++ headerEnd)
      rw [List.singleton_append] at padded
      rw [padded, not_headerEnd_solid (loose.solid d (by simp [shape]))]
  have none := supertypes_none (other "extends" (by simp)) (other "implements" (by simp)) more
  have read := @qualified_read _ (' ' :: (name.toList ++ headerEnd)) named (by simp; decide)
  simp [named?, read, none]

def keywords : List String :=
  ["class", "abstract", "interface", "enum"]

private theorem classKeywords_iff {text : List Char} :
    classKeywords.contains text = true ↔ ∃ word ∈ keywords, word.toList = text := by
  have same : classKeywords = keywords.map String.toList := rfl
  rw [same, List.contains_iff_mem, List.mem_map]

private theorem keyword_listed (c : Class) : keyword c ∈ keywords := by
  cases kind : c.kind <;> cases isAbstract : c.isAbstract <;>
    simp [keyword, keywords, kind, isAbstract]

private theorem keyword_qualified (c : Class) : IsQualified (keyword c) := by
  have all : ∀ word ∈ keywords, word ≠ "" ∧ ∀ x ∈ word.toList, isQualifiedChar x = true := by decide
  exact ⟨(all _ (keyword_listed c)).1, (all _ (keyword_listed c)).2⟩

private theorem loose_noKind {name : String} (loose : IsLoose name) :
    name ∉ ["class", "interface", "enum"] := by
  have qualified :
      ∀ word ∈ ["class", "interface", "enum"], ∀ x ∈ word.toList, isQualifiedChar x = true := by
    decide
  exact fun member => loose_other loose (qualified name member) rfl

section
variable {c : Class} (loose : IsLoose c.name)
include loose

private theorem loose_unkinded : kinded? (c.name.toList ++ headerEnd) = none := by
  simp only [kinded?, name_no_kind loose.solid headerEnd_blank (loose_noKind loose),
    loose_unnamed loose]

/-- No form of the grammar fits the header of a loose name. -/
theorem loose_malformed :
    wellFormedHeader? ((keyword c).toList ++ ' ' :: (c.name.toList ++ headerEnd)) = none := by
  have starts := solid_starts (loose_nonempty loose) loose.solid headerEnd
  have skipped :=
    @skip_to_solid [] _ (by simp) (keyword_starts c (' ' :: (c.name.toList ++ headerEnd)))
  rw [List.nil_append] at skipped
  have unnamed := keyword_unnamed loose (keyword_qualified c)
  simp only [wellFormedHeader?, skipped]
  by_cases isAbstract : keyword c = "abstract"
  · have noKind :=
      @name_no_kind "abstract" (' ' :: (c.name.toList ++ headerEnd)) (by decide)
        (by simp; decide) (by decide)
    rw [isAbstract] at unnamed ⊢
    have whole : kinded? ("abstract".toList ++ ' ' :: (c.name.toList ++ headerEnd)) = none := by
      simp only [kinded?, noKind, unnamed]
    simp only [afterWord_found starts, loose_unkinded loose, whole]
  · obtain ⟨found, other⟩ := kindWord_found _ starts isAbstract
    simp only [other, kinded?, found, loose_unnamed loose, unnamed]

private theorem loose_words :
    words ((keyword c).toList ++ ' ' :: (c.name.toList ++ headerEnd)) =
      [(keyword c).toList, c.name.toList, ['{']] := by
  have named := keyword_qualified c
  have first :=
    @words_first [] (keyword c).toList (c.name.toList ++ headerEnd) (by simp)
      (qualified_solid named) (toList_ne_nil named.nonempty)
  rw [List.nil_append] at first
  have second : words (c.name.toList ++ headerEnd) = [c.name.toList, ['{']] := by
    rw [headerEnd, words_split (by decide),
      words_of_solid loose.solid (toList_ne_nil (loose_nonempty loose))]
    rfl
  rw [first, second]

end

private theorem dropBraces_idle {word : List Char} (opened : word.getLast? ≠ some '{') :
    dropBraces word = word := by
  rw [dropBraces]
  cases last : word.getLast? with
  | none => simp [List.getLast?_eq_none_iff.mp last]
  | some c =>
    obtain ⟨front, rfl⟩ := List.getLast?_eq_some_iff.mp last
    have other : c ≠ '{' := by simpa using opened
    simp [other]

private theorem loose_restated {c : Class} (title : IsTitle c)
    (bare : c.superclass = none ∧ c.interfaces = []) (loose : IsLoose c.name) :
    c.restated = headed c.plainlyAbstract := by
  have after : afterName c = headerEnd := by simp [afterName, bare, extendsText, implementsText]
  have other : ∀ word ∈ keywords, c.name ≠ word := by
    have qualified : ∀ word ∈ keywords, ∀ x ∈ word.toList, isQualifiedChar x = true := by decide
    exact fun word member => loose_other loose (qualified word member)
  have listed : classKeywords.contains (keyword c).toList = true :=
    classKeywords_iff.mpr ⟨_, keyword_listed c, rfl⟩
  have unlisted : classKeywords.contains c.name.toList = false := by
    rw [Bool.eq_false_iff]
    intro found
    obtain ⟨word, member, same⟩ := classKeywords_iff.mp found
    exact other word member (String.toList_inj.mp same).symm
  have holds : ∀ word ∈ keywords,
      [(keyword c).toList, c.name.toList, ['{']].contains word.toList = (word == keyword c) := by
    intro word member
    have noBrace : ∀ word ∈ keywords, word.toList ≠ ['{'] := by decide
    have noName : word.toList ≠ c.name.toList :=
      fun same => other word member (String.toList_inj.mp same).symm
    rw [Bool.eq_iff_iff, List.contains_iff_mem, beq_iff_eq, List.mem_cons, List.mem_cons,
      List.mem_singleton, String.toList_inj]
    exact ⟨fun found => found.resolve_right fun rest =>
      rest.elim noName (noBrace word member), Or.inl⟩
  obtain ⟨superclass, interfaces⟩ := bare
  rw [Class.restated, headerText_toList, after, classHeader, loose_malformed loose,
    Option.getD_none]
  simp only [looseHeader, loose_words loose, List.find?_cons, listed, unlisted, Bool.not_true,
    Bool.not_false, dropBraces_idle title.opened,
    String.ofList_toList, holds "interface" (by decide), holds "enum" (by decide),
    holds "abstract" (by decide)]
  cases kind : c.kind <;> cases isAbstract : c.isAbstract <;>
    simp [keyword, headed, Class.plainlyAbstract, kind, isAbstract, superclass, interfaces]

private theorem named_kind (kind : Kind) (text : List Char) :
    named? kind text = (named? .plain text).map ({ · with kind }) := by
  simp only [named?]
  split
  · rfl
  · rw [Option.map_map]
    rfl

/-- What follows the name of a class starts with a word or a brace. -/
theorem afterName_opens (c : Class) :
    ∃ x rest, afterName c = ' ' :: x :: rest ∧ x ∈ ['e', 'i', '{'] := by
  cases parent : c.superclass with
  | some name => exact ⟨'e', _, by simp [afterName, extendsText, parent]; rfl, by decide⟩
  | none =>
    cases names : c.interfaces with
    | nil =>
      exact ⟨'{', [], by simp [afterName, extendsText, implementsText, headerEnd, parent, names],
        by decide⟩
    | cons first more =>
      exact ⟨'i', _, by simp [afterName, extendsText, implementsText, parent, names]; rfl,
        by decide⟩

private theorem opens_solid {x : Char} (opens : x ∈ ['e', 'i', '{']) : isBlank x = false := by
  have all : ∀ x ∈ ['e', 'i', '{'], isBlank x = false := by decide
  exact all x opens

/-- The keyword of a kind in the place of a name is read as that keyword. -/
theorem kindWord_name {c : Class} (keyword : c.name ∈ ["class", "interface", "enum"]) :
    ∃ kind, kindWord? (c.name.toList ++ afterName c) = some (kind, skipBlanks (afterName c)) ∧
      (kind = .plain → c.name = "class") := by
  obtain ⟨x, rest, shape, opens⟩ := afterName_opens c
  have skipped : skipBlanks (afterName c) = x :: rest := by
    rw [shape]
    exact @skip_to_solid [' '] _ (by decide) (by simpa using opens_solid opens)
  obtain ⟨kind, same⟩ : ∃ kind, c.name = Diagram.keyword { name := "", kind } := by
    simp only [List.mem_cons, List.not_mem_nil, or_false] at keyword
    rcases keyword with same | same | same
    · exact ⟨.plain, same⟩
    · exact ⟨.interface, same⟩
    · exact ⟨.enum, same⟩
  have concrete : Diagram.keyword { name := "", kind } ≠ "abstract" := by cases kind <;> decide
  refine ⟨kind, ?_, fun plain => by rw [same, plain]; rfl⟩
  rw [skipped, same, shape]
  exact (kindWord_found (x :: rest) (by simpa using opens_solid opens) concrete).1

private theorem restated_grammar {c : Class} (heading : IsHeading c)
    (concrete : keyword c ≠ "abstract") : c.restated = headed c.plainlyAbstract := by
  have starts := qualified_starts heading.name (afterName c)
  have skipped :=
    @skip_to_solid [] _ (by simp) (keyword_starts c (' ' :: (c.name.toList ++ afterName c)))
  rw [List.nil_append] at skipped
  obtain ⟨found, other⟩ := kindWord_found _ starts concrete
  rw [Class.restated, headerText_toList, classHeader]
  have unmarked : (c.isAbstract && c.kind == .plain) = false := by
    cases marked : c.isAbstract && c.kind == .plain with
    | false => rfl
    | true => exact absurd (keyword_abstract.mpr (by simpa [and_comm] using marked)) concrete
  simp only [wellFormedHeader?, skipped, other, kinded?, found, named_read heading,
    Option.getD_some, headed, Class.plainlyAbstract, unmarked]

section
variable {c : Class} (heading : IsHeading c) (isAbstract : keyword c = "abstract")
include heading isAbstract

private theorem restated_kinded {d : Class}
    (read : kinded? (c.name.toList ++ afterName c) = some d) :
    c.restated = { d with isAbstract := true } := by
  have starts := qualified_starts heading.name (afterName c)
  have skipped :=
    @skip_to_solid [] _ (by simp) (keyword_starts c (' ' :: (c.name.toList ++ afterName c)))
  rw [List.nil_append] at skipped
  rw [Class.restated, headerText_toList, classHeader]
  rw [isAbstract] at skipped ⊢
  simp only [wellFormedHeader?, skipped, afterWord_found starts, read, Option.getD_some]

private theorem restated_abstract (unambiguous : c.Unambiguous) :
    c.restated = headed c.plainlyAbstract := by
  obtain ⟨plain, marked⟩ := keyword_abstract.mp isAbstract
  have read : kinded? (c.name.toList ++ afterName c) =
      some { name := c.name, kind := .plain, superclass := c.superclass,
             interfaces := c.interfaces } := by
    by_cases keyword : c.name ∈ ["class", "interface", "enum"]
    · obtain ⟨kind, found, _⟩ := kindWord_name keyword
      simp [kinded?, found, named_kind kind, unambiguous isAbstract keyword, named_read heading]
    · simp only [kinded?, name_no_kind (qualified_solid heading.name) (afterName_blank c) keyword,
        named_read heading]
  rw [restated_kinded heading isAbstract read]
  simp [headed, Class.plainlyAbstract, plain, marked]

/-- If a name is taken for a keyword, another word is taken for the name. -/
theorem ambiguous_changed (ambiguous : ¬c.Unambiguous) : headerText c.restated ≠ headerText c := by
  simp only [Class.Unambiguous, Classical.not_imp] at ambiguous
  obtain ⟨_, keyword, other⟩ := ambiguous
  obtain ⟨kind, found, isClass⟩ := kindWord_name keyword
  obtain ⟨d, named⟩ := Option.ne_none_iff_exists'.mp other
  have read : kinded? (c.name.toList ++ afterName c) = some { d with kind } := by
    simp [kinded?, found, named_kind kind, named]
  rw [restated_kinded heading isAbstract read]
  intro same
  have chars := congrArg String.toList (congrArg (· ++ " \x7b") same)
  simp only [headerText_toList, isAbstract] at chars
  cases kind with
  | interface => simp [Diagram.keyword] at chars
  | enum => simp [Diagram.keyword] at chars
  | plain =>
    -- the name that is read starts where the name that was written ended
    have first : d.name.toList ++ afterName { d with kind := .plain, isAbstract := true } =
    "class".toList ++ afterName c := by
      rw [isClass rfl] at chars
      simpa [Diagram.keyword] using chars
    obtain ⟨x, rest, shape, opens⟩ := afterName_opens c
    have skipped : skipBlanks (afterName c) = x :: rest := by
      rw [shape]
      exact @skip_to_solid [' '] _ (by decide) (by simpa using opens_solid opens)
    have own := (named_found named).1.heading.name
    have stands : ∃ tail, x :: rest = d.name.toList ++ tail := by
      rw [skipped] at named
      simp only [named?] at named
      split at named
      · cases named
      next name tail cut =>
        obtain ⟨_, _, rfl⟩ := Option.map_eq_some_iff.mp named
        exact ⟨tail, (qualifiedName_found cut).2⟩
    obtain ⟨tail, whole⟩ := stands
    cases letters : d.name.toList with
    | nil => exact toList_ne_nil own.nonempty letters
    | cons y more =>
      obtain rfl : x = y := by simpa [letters] using (List.cons.inj (letters ▸ whole)).1
      have head : x = 'c' := by simpa [letters] using congrArg List.head? first
      rw [head] at opens
      exact absurd opens (by decide)

end

private theorem title_cases {c : Class} (title : IsTitle c) :
    IsHeading c ∨ (c.superclass = none ∧ c.interfaces = []) ∧ (c.name = "" ∨ IsLoose c.name) := by
  rcases title.known with heading | bare
  · exact Or.inl heading
  · by_cases empty : c.name = ""
    · exact Or.inr ⟨bare, Or.inl empty⟩
    · by_cases qualified : ∀ x ∈ c.name.toList, isQualifiedChar x = true
      · exact Or.inl ⟨⟨empty, qualified⟩, by simp [bare], by simp [bare]⟩
      · refine Or.inr ⟨bare, Or.inr ⟨title.solid, ?_⟩⟩
        have whole := List.takeWhile_append_dropWhile (p := isQualifiedChar) (l := c.name.toList)
        have inside : ∀ x ∈ c.name.toList.takeWhile isQualifiedChar, isQualifiedChar x = true :=
          fun x member =>
          List.all_eq_true.mp List.all_takeWhile x member
        cases behind : c.name.toList.dropWhile isQualifiedChar with
        | nil =>
          rw [behind, List.append_nil] at whole
          exact absurd (whole ▸ inside) qualified
        | cons d rest =>
          have stops := List.head?_dropWhile_not isQualifiedChar c.name.toList
          exact ⟨_, d, rest, by rw [← behind, whole], inside, by simpa [behind] using stops⟩

private theorem empty_changed {c : Class} (bare : c.superclass = none ∧ c.interfaces = [])
    (empty : c.name = "") : headerText c.restated ≠ headerText c := by
  have all : ∀ word ∈ keywords, headerText (classHeader (word ++ "  \x7b").toList) ≠
      word ++ " " := by decide
  have text : headerText c = keyword c ++ " " := by simp [headerText, bare, empty]
  have shape : headerText c ++ " \x7b" = keyword c ++ "  \x7b" := by
    rw [text, String.append_assoc]; rfl
  rw [Class.restated, shape, text]
  exact all _ (keyword_listed c)

theorem headed_text (c : Class) : headerText (headed c.plainlyAbstract) = headerText c := by
  cases kind : c.kind <;> cases isAbstract : c.isAbstract <;>
    simp [headerText, keyword, headed, Class.plainlyAbstract, kind, isAbstract]

/-- A title is read again from its header if and only if its header is read as one that is written
in the same way. -/
theorem title_restated {c : Class} (title : IsTitle c) :
    (c.name ≠ "" ∧ c.Unambiguous → c.restated = headed c.plainlyAbstract) ∧
      (headerText c.restated = headerText c → c.name ≠ "" ∧ c.Unambiguous) := by
  rcases title_cases title with heading | ⟨bare, empty | loose⟩
  · by_cases isAbstract : keyword c = "abstract"
    · refine ⟨fun settled => restated_abstract heading isAbstract settled.2,
        fun same => ⟨heading.name.nonempty, ?_⟩⟩
      exact Decidable.byContradiction fun ambiguous =>
        ambiguous_changed heading isAbstract ambiguous same
    · exact ⟨fun _ => restated_grammar heading isAbstract,
        fun _ => ⟨heading.name.nonempty, fun other => absurd other isAbstract⟩⟩
  · exact ⟨fun settled => absurd empty settled.1,
      fun same => absurd same (empty_changed bare empty)⟩
  · refine ⟨fun _ => loose_restated title bare loose,
      fun _ => ⟨loose_nonempty loose, fun _ member => ?_⟩⟩
    exact absurd member (loose_noKind loose)

private theorem afterName_lacks {x : Char} (mark : x ∉ " extends implements ,\x7b".toList)
    {c : Class} (parent : ∀ name ∈ c.superclass, x ∉ name.toList)
    (listed : ∀ name ∈ c.interfaces, x ∉ name.toList) : x ∉ afterName c := by
  have plain : ∀ text : List Char, text ⊆ " extends implements ,\x7b".toList → x ∉ text :=
    fun text inside member => mark (inside member)
  have first : x ∉ (extendsText c.superclass).toList := by
    cases shape : c.superclass with
    | none => simp [extendsText]
    | some name =>
      rw [extendsText, String.toList_append]
      exact lacks_append (plain _ (by decide)) (parent name shape)
  have second : x ∉ (implementsText c.interfaces).toList := by
    cases shape : c.interfaces with
    | nil => simp [implementsText]
    | cons name more =>
      rw [implementsText, String.toList_append, String.toList_intercalate]
      · refine lacks_append (plain _ (by decide)) fun member => ?_
        rcases mem_intercalate member with comma | ⟨part, present, inside⟩
        · exact plain ", ".toList (by decide) comma
        · obtain ⟨name, known, rfl⟩ := List.mem_map.mp present
          exact listed name (shape ▸ known) inside
      · simp
  exact lacks_append first (lacks_append second (plain _ (by decide)))

section
variable {c : Class} (title : IsTitle c) (depth : Nat)
include title

private theorem superclass_lacks {x : Char} (other : isQualifiedChar x = false) :
    ∀ name ∈ c.superclass, x ∉ name.toList := by
  intro name member
  rcases title.known with heading | ⟨bare, _⟩
  · exact qualified_lacks (heading.superclass name member) other
  · simp [bare] at member

/-- Only in the name of a class a closing brace may stand in its header. -/
theorem title_closes : closes (headerLine depth c) = c.name.toList.contains '}' := by
  have listed : ∀ name ∈ c.interfaces, '}' ∉ name.toList := by
    intro name member brace
    rcases title.known with heading | ⟨_, bare⟩
    · exact absurd ((heading.interfaces name member).listed _ brace) (by decide)
    · simp [bare] at member
  have after := afterName_lacks (x := '}') (by decide) (superclass_lacks title (by decide)) listed
  have keyword : '}' ∉ (keyword c).toList := qualified_lacks (keyword_qualified c) (by decide)
  rw [Bool.eq_iff_iff, headerLine, headerText_toList]
  simp [closes, blank_noBrace (padding_blank depth), keyword, after]

theorem title_oneLine : '\n' ∉ (headerText c ++ " \x7b").toList := by
  have after :=
    afterName_lacks (x := '\n') (by decide) (superclass_lacks title (by decide)) title.oneLine
  have keyword : '\n' ∉ (keyword c).toList := qualified_lacks (keyword_qualified c) (by decide)
  have name : '\n' ∉ c.name.toList := fun member => absurd (title.solid _ member) (by decide)
  rw [headerText_toList]
  simp [keyword, name, after]

end

/-- Indentation says nothing about the class. -/
theorem header_padded (depth : Nat) (c : Class) :
    classHeader (headerLine depth c) = c.restated := by
  have blank := padding_blank depth
  have well : wellFormedHeader? (headerLine depth c) =
      wellFormedHeader? (headerText c ++ " \x7b").toList := by
    simp only [wellFormedHeader?, headerLine, skip_blanks blank]
  have loose : looseHeader (headerLine depth c) = looseHeader (headerText c ++ " \x7b").toList := by
    simp only [looseHeader, headerLine, words_pad blank]
  rw [Class.restated, classHeader, classHeader, well, loose]

/-- The name of a package, which makes no header of a class of its header. -/
structure IsPackageTitle (name : String) : Prop where
  oneLine : '\n' ∉ name.toList
  noKeyword : isClassHeader ('"' :: name.toList ++ ['"']) = false

private theorem quoted_found {line name : List Char} (found : quoted? line = some name) :
    ∃ before after, line = before ++ ('"' :: name ++ ['"']) ++ after := by
  have other : ∀ {text : List Char}, '"' ∉ text → ∀ c ∈ text, (c != '"') = true := by
    intro text absent c member
    simp only [bne_iff_ne, ne_eq]
    rintro rfl
    exact absent member
  by_cases opened : '"' ∈ line
  · obtain ⟨before, rest, rfl, first⟩ := List.eq_append_cons_of_mem opened
    rw [quoted?, dropWhile_stops (other first) (by simp)] at found
    by_cases closed : '"' ∈ rest
    · obtain ⟨inside, after, rfl, second⟩ := List.eq_append_cons_of_mem closed
      have taken := @takeWhile_stops _ _ _ ('"' :: after) (other second) (by simp)
      obtain rfl : inside = name := by simpa [taken] using found
      exact ⟨before, after, by simp⟩
    · simp [closed] at found
  · have none := @dropWhile_stops _ _ _ [] (other opened) (by simp)
    rw [List.append_nil] at none
    rw [quoted?, none] at found
    cases found

private theorem packageName_cases (line : List Char) :
    (∃ before name after, line = before ++ ('"' :: name ++ ['"']) ++ after ∧
      packageName line = String.ofList name) ∨
      (∃ word ∈ words line, packageName line = String.ofList (dropBraces word)) ∨
        packageName line = "" := by
  simp only [packageName]
  split
  next name read =>
    obtain ⟨before, after, whole⟩ := quoted_found read
    exact Or.inl ⟨before, name, after, whole, rfl⟩
  · right
    split
    next word _ shape =>
      left
      refine ⟨word, ?_, rfl⟩
      have sublist := (List.dropWhile_sublist (l := words line) (· != "package".toList)).subset
      exact sublist (by rw [shape]; simp)
    · exact Or.inr rfl

/-- A word within the quotes is a word of the line, unless it stands at a quote. -/
theorem quoted_words {before name after word : List Char}
    (member : word ∈ words ('"' :: name ++ ['"'])) (noQuote : '"' ∉ word) :
    word ∈ words (before ++ ('"' :: name ++ ['"']) ++ after) := by
  obtain ⟨some, solid, front, back, whole, left, right⟩ := words_sound member
  have shape : before ++ ('"' :: name ++ ['"']) ++ after =
      (before ++ front) ++ word ++ (back ++ after) := by simp [whole]
  rw [shape]
  refine words_complete some solid (fun x last => left x ?_) (fun x first => right x ?_)
  · cases front with
    | nil =>
      obtain ⟨c, more, rfl⟩ := List.exists_cons_of_ne_nil some
      obtain rfl : '"' = c := (List.cons.inj whole).1
      simp at noQuote
    | cons c front =>
      rw [List.getLast?_append] at last
      cases ending : (c :: front).getLast? with
      | none => simp at ending
      | some d => simpa [ending] using last
  · cases back with
    | nil =>
      have last := congrArg List.getLast? whole
      rw [List.append_nil, List.getLast?_append, List.getLast?_append, List.getLast?_singleton,
        Option.some_or] at last
      cases ending : word.getLast? with
      | none => exact absurd (List.getLast?_eq_none_iff.mp ending) some
      | some d =>
        obtain rfl : '"' = d := by simpa [ending] using last
        exact absurd (List.mem_of_getLast? ending) noQuote
    | cons c back => simpa using first

section
variable {line : List Char}

theorem packageName_title (oneLine : '\n' ∉ line) (noClass : isClassHeader line = false) :
    IsPackageTitle (packageName line) := by
  have plain : ∀ word ∈ classKeywords, '"' ∉ word := by decide
  have solid : ∀ name : String, (∀ x ∈ name.toList, isBlank x = false) → IsPackageTitle name :=
    fun name solid =>
    ⟨fun member => absurd (solid _ member) (by decide), solid_noKeyword solid⟩
  rcases packageName_cases line with ⟨before, name, after, rfl, same⟩ | ⟨word, member, same⟩ | same
  · rw [same]
    refine ⟨fun member => oneLine (by simp [String.toList_ofList ▸ member]), ?_⟩
    rw [String.toList_ofList, isClassHeader, List.any_eq_false]
    intro word member found
    have inside := @quoted_words before name after word member (plain word (by simpa using found))
    rw [isClassHeader, List.any_eq_false] at noClass
    exact noClass word inside found
  · rw [same]
    exact solid _ (by simpa using word_solid member)
  · rw [same]
    exact solid _ (by simp)

theorem packageName_brace (brace : '}' ∈ (packageName line).toList) : closes line = true := by
  rcases packageName_cases line with ⟨before, name, after, rfl, same⟩ | ⟨word, member, same⟩ | same
  · rw [same, String.toList_ofList] at brace
    simp [closes, brace]
  · rw [same, String.toList_ofList] at brace
    simpa [closes] using word_subset member brace
  · simp [same] at brace

end

end ClassDiagram.Proofs.RestatedHeaders
