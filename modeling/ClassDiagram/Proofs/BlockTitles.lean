import ClassDiagram.Proofs.DiagramBlocks
import ClassDiagram.Proofs.LegibleMembers

/-! What any line is read as where a block begins, and what the header that is written for it is
read as then. A name that the grammar of headers has given is read again, even if it is a word of
that grammar. Any other name is a run without blanks; its header is of no form of the grammar
either, so the run is found again among the words of the line. -/

namespace ClassDiagram.Proofs.BlockTitles
open Text Diagram Blanks JoinedTexts MemberLines HeaderLines DiagramBlocks BodyLines LegibleMembers

private theorem skipBlanks_subset (text : List Char) : skipBlanks text ⊆ text :=
  (List.dropWhile_sublist isBlank).subset

private theorem afterWord_subset {word : String} {text rest : List Char}
    (found : afterWord? word text = some rest) : rest ⊆ text := by
  simp only [afterWord?] at found
  split at found
  next behind shape =>
    split at found
    · obtain rfl := Option.some.inj found
      rw [isPrefixOf?_found shape]
      exact List.Subset.trans (skipBlanks_subset behind) (List.subset_append_right _ _)
    · cases found
  · cases found

theorem qualifiedName_found {text rest : List Char} {name : String}
    (found : qualifiedName? text = some (name, rest)) :
    IsQualified name ∧ text = name.toList ++ rest := by
  simp only [qualifiedName?] at found
  split at found
  · cases found
  next run some =>
    obtain ⟨rfl, rfl⟩ := Prod.mk.inj (Option.some.inj found)
    refine ⟨⟨by simpa using some, fun c member => ?_⟩, by simp⟩
    rw [String.toList_ofList] at member
    exact List.all_eq_true.mp List.all_takeWhile c member

private theorem listText_found {text list : List Char} (found : listText? text = some list) :
    (∀ c ∈ list, isListChar c = true) ∧ list ⊆ text := by
  induction text generalizing list with
  | nil => cases found
  | cons c text ih =>
    rw [listText?] at found
    split at found
    next listed =>
      split at found
      · obtain rfl := Option.some.inj found
        simpa using listed
      · obtain ⟨more, behind, rfl⟩ := Option.map_eq_some_iff.mp found
        obtain ⟨chars, inside⟩ := ih behind
        exact ⟨by simpa using ⟨listed, chars⟩, List.cons_subset_cons c inside⟩
    · cases found

def AreListed (text : List Char) (names : List String) : Prop :=
  ∀ name ∈ names, IsListed name ∧ name.toList ⊆ text

theorem AreListed.within {text line : List Char} {names : List String}
    (listed : AreListed text names) (inside : text ⊆ line) : AreListed line names :=
  fun name member => ⟨(listed name member).1, List.Subset.trans (listed name member).2 inside⟩

private theorem listedNames_found {list : List Char} (chars : ∀ c ∈ list, isListChar c = true) :
    AreListed list (listedNames list) := by
  intro name member
  simp only [listedNames, List.mem_map, List.mem_filter] at member
  obtain ⟨_, ⟨⟨piece, cut, rfl⟩, full⟩, rfl⟩ := member
  have some : String.ofList (trim piece) ≠ "" := by simpa using full
  have whole : trim piece = (String.ofList (trim piece)).toList := by simp
  have inside : (String.ofList (trim piece)).toList ⊆ piece := whole ▸ trim_subset piece
  exact ⟨⟨some, typeText_trimmed (typeText_of_trim whole some),
    fun c member => chars c (piece_subset cut (inside member)),
    fun comma => PathPlaces.pieces_whole cut (inside comma)⟩,
    List.Subset.trans inside (piece_subset cut)⟩

private theorem interfaces_found {text : List Char} {names : List String}
    (found : interfaces? text = some names) : AreListed text names := by
  simp only [interfaces?] at found
  split at found
  · split at found
    · cases found
    next rest shape =>
      have behind : rest ⊆ text := by
        refine List.Subset.trans ?_ (skipBlanks_subset text)
        rw [isPrefixOf?_found shape]
        exact List.subset_append_right _ _
      split at found
      · split at found
        next list read =>
          obtain rfl := Option.some.inj found
          obtain ⟨chars, inside⟩ := listText_found read
          exact (listedNames_found chars).within
            (List.Subset.trans inside (List.Subset.trans (skipBlanks_subset rest) behind))
        · split at found
          · obtain rfl := Option.some.inj found
            exact fun _ member => absurd member (by simp)
          · cases found
      · cases found
  · cases found

private theorem interfacesOrEnd_found {text : List Char} {names : List String}
    (found : interfacesOrEnd? text = some names) : AreListed text names := by
  simp only [interfacesOrEnd?] at found
  split at found
  next listed read =>
    obtain rfl := Option.some.inj found
    exact interfaces_found read
  · split at found
    · obtain rfl := Option.some.inj found
      exact fun _ member => absurd member (by simp)
    · cases found

private theorem extends_found {text rest : List Char} {name : String}
    (found : extends? text = some (name, rest)) : IsQualified name ∧ rest ⊆ text := by
  simp only [extends?] at found
  split at found
  · split at found
    next behind read =>
      obtain ⟨named, rfl⟩ := qualifiedName_found found
      exact ⟨named,
        List.Subset.trans (List.subset_append_right _ _)
        (List.Subset.trans (afterWord_subset read) (skipBlanks_subset text))⟩
    · cases found
  · cases found

private theorem supertypes_found {text : List Char} {superclass : Option String}
    {names : List String} (found : supertypes? text = some (superclass, names)) :
    (∀ name ∈ superclass, IsQualified name) ∧ AreListed text names := by
  have without : (interfacesOrEnd? text).map (none, ·) = some (superclass, names) →
      (∀ name ∈ superclass, IsQualified name) ∧ AreListed text names := by
    intro found
    obtain ⟨listed, read, same⟩ := Option.map_eq_some_iff.mp found
    obtain ⟨rfl, rfl⟩ := Prod.mk.inj same
    exact ⟨by simp, interfacesOrEnd_found read⟩
  simp only [supertypes?] at found
  split at found
  · exact without found
  next parent rest extending =>
    obtain ⟨named, behind⟩ := extends_found extending
    split at found
    next listed read =>
      obtain ⟨rfl, rfl⟩ := Prod.mk.inj (Option.some.inj found)
      exact ⟨by simpa using named, (interfacesOrEnd_found read).within behind⟩
    · exact without found

/-- A class that is no more than its heading, taken from a line. -/
structure IsHeadingOf (line : List Char) (c : Class) : Prop where
  heading : IsHeading c
  inside : ∀ name ∈ c.interfaces, name.toList ⊆ line
  bare : headed c = c

theorem IsHeadingOf.within {text line : List Char} {c : Class} (headed : IsHeadingOf text c)
    (inside : text ⊆ line) : IsHeadingOf line c :=
  ⟨headed.heading, fun name member =>
    List.Subset.trans (headed.inside name member) inside, headed.bare⟩

theorem named_found {text : List Char} {kind : Kind} {c : Class}
    (found : named? kind text = some c) : IsHeadingOf text c ∧ c.kind = kind := by
  simp only [named?] at found
  split at found
  · cases found
  next name rest read =>
    obtain ⟨named, rfl⟩ := qualifiedName_found read
    obtain ⟨⟨superclass, interfaces⟩, supertypes, rfl⟩ := Option.map_eq_some_iff.mp found
    obtain ⟨parent, listed⟩ := supertypes_found supertypes
    exact ⟨⟨⟨named, parent, fun name member => (listed name member).1⟩,
      fun name member => List.Subset.trans (listed name member).2 (List.subset_append_right _ _),
      rfl⟩, rfl⟩

private theorem kindWord_subset {text rest : List Char} {kind : Kind}
    (found : kindWord? text = some (kind, rest)) : rest ⊆ text := by
  simp only [kindWord?] at found
  split at found
  next read =>
    obtain ⟨_, rfl⟩ := Prod.mk.inj (Option.some.inj found)
    exact afterWord_subset read
  next read =>
    obtain ⟨_, rfl⟩ := Prod.mk.inj (Option.some.inj found)
    exact afterWord_subset read
  next read =>
    obtain ⟨_, rfl⟩ := Prod.mk.inj (Option.some.inj found)
    exact afterWord_subset read
  · cases found

private theorem kinded_found {text : List Char} {c : Class} (found : kinded? text = some c) :
    IsHeadingOf text c := by
  simp only [kinded?] at found
  split at found
  · exact (named_found found).1
  next kind rest read =>
    split at found
    next named =>
      obtain rfl := Option.some.inj found
      exact (named_found named).1.within (kindWord_subset read)
    · exact (named_found found).1

private theorem wellFormed_found {line : List Char} {c : Class}
    (found : wellFormedHeader? line = some c) : IsHeadingOf line c := by
  have whole := skipBlanks_subset line
  simp only [wellFormedHeader?] at found
  split at found
  · exact (kinded_found found).within whole
  next rest behind =>
    split at found
    next inner read =>
      obtain rfl := Option.some.inj found
      obtain ⟨⟨name, superclass, interfaces⟩, inside, bare⟩ :=
        (kinded_found read).within (List.Subset.trans (afterWord_subset behind) whole)
      exact ⟨⟨name, superclass, interfaces⟩, inside, congrArg ({ · with isAbstract := true }) bare⟩
    · exact (kinded_found found).within whole

/-- The heading of a class, either of the grammar or no more than a run without blanks. -/
structure IsTitle (c : Class) : Prop where
  solid : ∀ x ∈ c.name.toList, isBlank x = false
  opened : c.name.toList.getLast? ≠ some '{'
  known : IsHeading c ∨ c.superclass = none ∧ c.interfaces = []
  oneLine : ∀ name ∈ c.interfaces, '\n' ∉ name.toList

/-- A text starts with a run of characters that are no blanks. -/
theorem solid_splits (text : List Char) :
    ∃ run tail, text = run ++ tail ∧ (∀ x ∈ run, isBlank x = false) ∧
      ∀ x ∈ tail.head?, isBlank x = true := by
  refine ⟨text.takeWhile (!isBlank ·), text.dropWhile (!isBlank ·),
    List.takeWhile_append_dropWhile.symm, fun x member => ?_, fun x first => ?_⟩
  · simpa using List.all_eq_true.mp List.all_takeWhile x member
  · have stops := List.head?_dropWhile_not (!isBlank ·) text
    rw [Option.mem_def] at first
    simpa [first] using stops

/-- A word stands between blanks or at an end of the text. -/
theorem words_sound {text word : List Char} (member : word ∈ words text) :
    word ≠ [] ∧ (∀ x ∈ word, isBlank x = false) ∧ ∃ before after, text = before ++ word ++ after ∧
      (∀ x ∈ before.getLast?, isBlank x = true) ∧ ∀ x ∈ after.head?, isBlank x = true := by
  obtain ⟨run, tail, rfl, solid, ends⟩ := solid_splits text
  cases tail with
  | nil =>
    cases run with
    | nil => simp [words] at member
    | cons c run =>
      rw [List.append_nil, words_of_solid solid (by simp), List.mem_singleton] at member
      exact ⟨by simp [member], member ▸ solid, [], [], by simp [member], by simp, by simp⟩
  | cons blank tail =>
    rw [words_split (ends blank rfl), List.mem_append] at member
    rcases member with member | member
    · cases run with
      | nil => simp [words] at member
      | cons c run =>
        rw [words_of_solid solid (by simp), List.mem_singleton] at member
        exact ⟨by simp [member], member ▸ solid, [], blank :: tail, by simp [member], by simp, ends⟩
    · obtain ⟨some, solid', before, after, rfl, left, right⟩ := words_sound member
      refine ⟨some, solid', run ++ blank :: before, after, by simp, fun x last => ?_, right⟩
      cases before with
      | nil =>
        obtain rfl : blank = x := by simpa using last
        exact ends blank rfl
      | cons d before => exact left x (by simpa [List.getLast?_append] using last)
termination_by text.length
decreasing_by simp [*]; omega

theorem words_complete {word before after : List Char} (some : word ≠ [])
    (solid : ∀ x ∈ word, isBlank x = false) (left : ∀ x ∈ before.getLast?, isBlank x = true)
    (right : ∀ x ∈ after.head?, isBlank x = true) :
    word ∈ words (before ++ word ++ after) := by
  have own : word ∈ words (word ++ after) := by
    cases after with
    | nil => simp [words_of_solid solid some]
    | cons d after => simp [words_split (right d rfl), words_of_solid solid some]
  rw [List.append_assoc]
  cases last : before.getLast? with
  | none => simpa [List.getLast?_eq_none_iff.mp last] using own
  | some c =>
    obtain ⟨front, rfl⟩ := List.getLast?_eq_some_iff.mp last
    rw [List.append_assoc, List.singleton_append, words_split (left c last)]
    exact List.mem_append_right _ own

private theorem dropBraces_splits (word : List Char) :
    ∃ braces, word = dropBraces word ++ braces ∧ (dropBraces word).getLast? ≠ some '{' := by
  have whole := List.takeWhile_append_dropWhile (p := (· == '{')) (l := word.reverse)
  refine ⟨(word.reverse.takeWhile (· == '{')).reverse, ?_, fun last => ?_⟩
  · rw [dropBraces, ← List.reverse_append, whole, List.reverse_reverse]
  · rw [dropBraces, List.getLast?_reverse] at last
    have stops := List.head?_dropWhile_not (· == '{') word.reverse
    simp [last] at stops

theorem word_solid {line word : List Char} (member : word ∈ words line) :
    ∀ x ∈ dropBraces word, isBlank x = false := by
  obtain ⟨_, solid, _⟩ := words_sound member
  obtain ⟨braces, whole, _⟩ := dropBraces_splits word
  intro x inside
  exact solid x (by rw [whole]; simp [inside])

theorem word_subset {line word : List Char} (member : word ∈ words line) :
    dropBraces word ⊆ line := by
  obtain ⟨_, _, before, after, rfl, _⟩ := words_sound member
  obtain ⟨braces, whole, _⟩ := dropBraces_splits word
  intro x inside
  have inner : x ∈ word := by rw [whole]; simp [inside]
  simp [inner]

private theorem looseName (line : List Char) : (looseHeader line).name = "Unknown" ∨
    ∃ word ∈ words line, (looseHeader line).name = String.ofList (dropBraces word) := by
  cases found : (words line).find? (!classKeywords.contains ·) with
  | none => exact Or.inl (by simp only [looseHeader, found])
  | some word =>
    exact Or.inr ⟨word, List.mem_of_find?_eq_some found, by simp only [looseHeader, found]⟩

/-- Whatever is read where a class begins has a title. -/
theorem classHeader_title {line : List Char} (oneLine : '\n' ∉ line) :
    IsTitle (classHeader line) := by
  rw [classHeader]
  cases found : wellFormedHeader? line with
  | some c =>
    obtain ⟨heading, inside, _⟩ := wellFormed_found found
    refine ⟨qualified_solid heading.name, fun last => ?_, Or.inl heading,
      fun name member feed => oneLine (inside name member feed)⟩
    exact qualified_lacks heading.name (by decide) (List.mem_of_getLast? last)
  | none =>
    rw [Option.getD_none]
    have named : (∀ x ∈ (looseHeader line).name.toList, isBlank x = false) ∧
        (looseHeader line).name.toList.getLast? ≠ some '{' := by
      rcases looseName line with same | ⟨word, member, same⟩
      · rw [same]
        decide
      · obtain ⟨_, _, opened⟩ := dropBraces_splits word
        rw [same, String.toList_ofList]
        exact ⟨word_solid member, opened⟩
    exact ⟨named.1, named.2, Or.inr ⟨rfl, rfl⟩,
      fun _ member => absurd member (by simp [looseHeader])⟩

theorem classHeader_bare (line : List Char) : headed (classHeader line) = classHeader line := by
  rw [classHeader]
  cases found : wellFormedHeader? line with
  | some c => exact (wellFormed_found found).bare
  | none => rfl

/-- A name with a closing brace has it from the line. -/
theorem classHeader_brace {line : List Char} (brace : '}' ∈ (classHeader line).name.toList) :
    closes line = true := by
  rw [classHeader] at brace
  cases found : wellFormedHeader? line with
  | some c =>
    rw [found, Option.getD_some] at brace
    exact absurd brace (qualified_lacks (wellFormed_found found).heading.name (by decide))
  | none =>
    rw [found, Option.getD_none] at brace
    rcases looseName line with same | ⟨word, member, same⟩
    · rw [same] at brace
      exact absurd brace (by decide)
    · rw [same, String.toList_ofList] at brace
      simpa [closes] using word_subset member brace

end ClassDiagram.Proofs.BlockTitles
