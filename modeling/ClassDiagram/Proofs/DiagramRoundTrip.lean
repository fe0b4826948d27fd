import ClassDiagram.Proofs.DiagramBlocks

/-! Reading the diagram of a project gives the project back. Blocks are read one after another,
arrows and markers are passed over, and containment is inferred again from the fields. -/

namespace ClassDiagram.Proofs.DiagramRoundTrip
open Text Diagram Blanks JoinedTexts MemberLines HeaderLines DiagramBlocks
open ClassDiagram.Class (unlinked)

private theorem blocks_classes {all : List Class} (clean : ∀ c ∈ all, c.Clean) (project : Project)
    (rest : List (List Char)) : readBlocks project (chars (all.flatMap (classLines 0)) ++ rest) =
      readBlocks { project with classes := project.classes ++ all.map unlinked } rest := by
  induction all generalizing project with
  | nil => simp [chars]
  | cons first more ih =>
    have own :=
      @class_read 0 _ (clean first (by simp)) (chars (more.flatMap (classLines 0)) ++ rest)
    have shape : chars ((first :: more).flatMap (classLines 0)) ++ rest =
        headerLine 0 first ::
        (classRest 0 first ++ (chars (more.flatMap (classLines 0)) ++ rest)) := by
      have lines := classLines_chars 0 first
      simp only [chars, List.flatMap_cons, List.map_append] at lines ⊢
      simp [lines]
    rw [shape, readBlocks]
    simp only [headerLine_isClassHeader, ite_true, own.1, own.2]
    rw [ih fun c member => clean c (by simp [member])]
    simp [Project.addClass]

private theorem blocks_packages {all : List Package} (clean : ∀ c ∈ Package.classesOf all, c.Clean)
    (labels : ∀ label ∈ Package.namesOf all, IsLabel label) (project : Project)
    (rest : List (List Char)) :
    readBlocks project (chars (packagesLines 0 all) ++ rest) =
      readBlocks { project with packages :=
                                  project.packages ++ Package.mapAll unlinked all } rest := by
  induction all generalizing project with
  | nil => simp [chars, packagesLines, Package.mapAll]
  | cons first more ih =>
    obtain ⟨name, classes, packages⟩ := first
    simp only [Package.classesOf, List.mem_append] at clean
    simp only [Package.namesOf, List.mem_append] at labels
    have label : IsLabel name := labels name (Or.inl (by simp [Package.names]))
    have own :=
      @package_inside 0 ⟨name, classes, packages⟩ (fun c member => clean c (Or.inl member))
      (fun label member => labels label (Or.inl member)) (chars (packagesLines 0 more) ++ rest)
    have shape : chars (packagesLines 0 (⟨name, classes, packages⟩ :: more)) ++ rest =
        packageHeader 0 name :: (chars (classes.flatMap (classLines 1)) ++
          (chars (packagesLines 1 packages) ++ closingLine 0 ::
            (chars (packagesLines 0 more) ++ rest))) := by
      have lines := packageLines_chars 0 name classes packages
      simp only [chars, packagesLines, List.map_append] at lines ⊢
      simp [lines]
    obtain ⟨noClass, isPackage, opened, named⟩ := packageHeader_opens 0 label
    obtain ⟨read, behind⟩ := Prod.mk.inj own
    rw [shape, readBlocks]
    simp only [noClass, isPackage, readPackage, opened, named, Bool.false_eq_true,
      ite_true, ite_false]
    simp only [read, behind]
    rw [ih (fun c member => clean c (Or.inr member))
      (fun label member => labels label (Or.inr member))]
    simp [Project.addPackage, Package.mapAll]

/-- A line that opens no block. At top level such a line is passed over. -/
structure Inert (line : List Char) : Prop where
  noClass : isClassHeader line = false
  noPackage : isPackageHeader line = false

private theorem blocks_inert {between : List (List Char)} (inert : ∀ line ∈ between, Inert line)
    (project : Project) (rest : List (List Char)) :
    readBlocks project (between ++ rest) = readBlocks project rest := by
  induction between with
  | nil => rfl
  | cons line between ih =>
    have first := inert line (by simp)
    rw [List.cons_append, readBlocks]
    simp only [first.noClass, first.noPackage, Bool.false_eq_true, ite_false]
    exact ih fun line member => inert line (by simp [member])

theorem marker_inert : Inert startMarker.toList ∧ Inert endMarker.toList :=
  ⟨⟨by decide, by decide⟩, ⟨by decide, by decide⟩⟩

private theorem target_words {name : String} (solid : ∀ c ∈ name.toList, isBlank c = false) :
    words (name.toList ++ ": contains".toList) = [name.toList ++ [':'], "contains".toList] := by
  have whole : ∀ c ∈ name.toList ++ [':'], isBlank c = false := by
    simp only [List.forall_mem_append]
    exact ⟨solid, by decide⟩
  have shape : name.toList ++ ": contains".toList =
      (name.toList ++ [':']) ++ ' ' :: "contains".toList := by simp
  rw [shape, words_split (by decide), words_of_solid whole (by simp)]
  rfl

def blockWords : List String :=
  ["class", "abstract", "interface", "enum", "package"]

private theorem opens_iff_word (line : List Char) :
    Inert line ↔ ∀ word ∈ words line, String.ofList word ∉ blockWords := by
  have keywords : ∀ word : List Char, classKeywords.contains word = true ∨ word = "package".toList ↔
      String.ofList word ∈ blockWords := by
    have same : blockWords.map String.toList = classKeywords ++ ["package".toList] := rfl
    intro word
    rw [List.contains_iff_mem, ← List.mem_singleton, ← List.mem_append, ← same, List.mem_map]
    exact ⟨fun ⟨_, listed, spelled⟩ => by rwa [← spelled, String.ofList_toList],
      fun listed => ⟨_, listed, String.toList_ofList⟩⟩
  constructor
  · rintro ⟨noClass, noPackage⟩ word member
    rw [isClassHeader, List.any_eq_false] at noClass
    rw [← keywords, not_or]
    refine ⟨noClass word member, ?_⟩
    rintro rfl
    rw [isPackageHeader, Bool.eq_false_iff] at noPackage
    exact noPackage (List.contains_iff_mem.mpr member)
  · intro plain
    constructor
    · rw [isClassHeader, List.any_eq_false]
      exact fun word member found => plain word member ((keywords word).mp (Or.inl found))
    · rw [isPackageHeader, Bool.eq_false_iff]
      intro found
      exact plain _ (by simpa using found) (by decide)

private theorem target_plain {name : String} :
    String.ofList (name.toList ++ [':']) ∉ blockWords := by
  have plain : ∀ word ∈ blockWords, ':' ∉ word.toList := by decide
  intro member
  exact plain _ member (by simp)

private theorem arrow_words (source : String) {target : String}
    (head : ∀ c ∈ target.toList, isBlank c = false) (count : Nat) :
    ∃ between, (∀ word ∈ between, String.ofList word ∉ blockWords) ∧
      words (arrow source target count).toList =
      words source.toList ++ (between ++ [target.toList ++ [':'], "contains".toList]) := by
  by_cases single : count = 1
  · refine ⟨["o--".toList], by decide, ?_⟩
    have shape : (arrow source target count).toList =
        source.toList ++ ' ' ::
        ("o--".toList ++ ' ' :: (target.toList ++ ": contains".toList)) := by
      simp [arrow, single]
    rw [shape, words_split (by decide), words_split (by decide), target_words head]
    rfl
  · refine ⟨["\"1\"".toList, "o--".toList, "\"many\"".toList], by decide, ?_⟩
    have shape : (arrow source target count).toList =
        source.toList ++ ' ' :: ("\"1\"".toList ++ ' ' ::
        ("o--".toList ++ ' ' ::
          ("\"many\"".toList ++ ' ' :: (target.toList ++ ": contains".toList)))) := by
      simp [arrow, single]
    rw [shape, words_split (by decide), words_split (by decide), words_split (by decide),
      words_split (by decide), target_words head]
    rfl

/-- An arrow opens a block only if its source is named like a word that does. -/
theorem arrow_inert {source target : String} (tail : ∀ c ∈ source.toList, isBlank c = false)
    (head : ∀ c ∈ target.toList, isBlank c = false) (count : Nat) :
    Inert (arrow source target count).toList ↔ source ∉ blockWords := by
  obtain ⟨between, plain, same⟩ := arrow_words source head count
  rw [opens_iff_word, same, List.forall_mem_append, List.forall_mem_append, List.forall_mem_cons,
    List.forall_mem_singleton]
  have first : (∀ word ∈ words source.toList, String.ofList word ∉ blockWords) ↔
      source ∉ blockWords := by
    by_cases empty : source = ""
    · subst empty
      decide
    · rw [words_of_solid tail (toList_ne_nil empty), List.forall_mem_singleton,
        String.ofList_toList]
  rw [first]
  exact ⟨And.left, fun named => ⟨named, plain, target_plain, by decide⟩⟩

/-- A line that ends in something other than a blank keeps its end. -/
theorem whole_line {line : List Char} {last : Char} (oneLine : '\n' ∉ line)
    (ends : line.getLast? = some last) (solid : isBlank last = false) : IsLine line := by
  refine ⟨oneLine, ?_⟩
  rw [ends]
  intro same
  obtain rfl : last = '\r' := by simpa using same
  exact absurd solid (by decide)

private theorem whole_padded {line : List Char} (depth : Nat) (whole : IsLine line)
    (full : line ≠ []) : IsLine (padding depth ++ line) := by
  refine ⟨?_, ?_⟩
  · apply lacks_append _ whole.oneLine
    intro member
    exact absurd (List.eq_of_mem_replicate member) (by decide)
  · cases last : line.getLast? with
    | none => exact absurd (List.getLast?_eq_none_iff.mp last) full
    | some c =>
      have noReturn := whole.noReturn
      rw [last] at noReturn
      simpa [last] using noReturn

private theorem member_ends {c : Class} (legible : c.Legible) :
    ∀ line ∈ memberLines c, ∃ last, line.toList.getLast? = some last ∧ isBlank last = false := by
  intro line member
  have ends : ∀ {before : List Char} {text : String}, IsLineText text →
      ∃ last, (before ++ text.toList).getLast? = some last ∧ isBlank last = false := by
    intro before text clean
    cases last : (before ++ text.toList).getLast? with
    | none =>
      exact absurd (List.append_eq_nil_iff.mp (List.getLast?_eq_none_iff.mp last)).2
        (toList_ne_nil clean.nonempty)
    | some c => exact ⟨c, rfl, text_ends clean last⟩
  simp only [memberLines, List.mem_append, List.mem_map] at member
  rcases member with (member | ⟨field, known, rfl⟩) | ⟨method, known, rfl⟩
  · exact @ends [] _ (legible.constants line member).line
  · rw [fieldLine_toList]
    exact ends (legible.fields field known).type
  · rw [methodLine_toList]
    exact ends (legible.methods method known).returnType

private theorem member_whole {c : Class} (legible : c.Legible) {line : String}
    (member : line ∈ memberLines c) : IsLine line.toList := by
  obtain ⟨last, ends, solid⟩ := member_ends legible line member
  exact whole_line
    (member_lacks (by decide) (by decide) legible (fun _ clean => clean.oneLine) line member) ends
    solid

/-- The lines of a class are whole if its header is one line. -/
theorem classLines_whole {c : Class} (oneLine : '\n' ∉ (headerText c ++ " \x7b").toList)
    (legible : c.Legible) (depth : Nat) : ∀ line ∈ chars (classLines depth c), IsLine line := by
  rw [classLines_chars]
  intro line member
  simp only [classRest, chars, List.map_map, List.mem_cons, List.mem_append, List.mem_map,
    Function.comp_apply, List.not_mem_nil, or_false] at member
  rcases member with rfl | ⟨text, known, rfl⟩ | rfl
  · apply whole_padded depth _ (by simp)
    exact @whole_line _ '{' oneLine (by simp) (by decide)
  · rw [indent_toList]
    obtain ⟨last, ends, _⟩ := member_ends legible text known
    exact whole_padded _ (member_whole legible known) (by intro empty; simp [empty] at ends)
  · exact whole_padded depth (@whole_line _ '}' (by decide) rfl (by decide)) (by simp)

private theorem class_whole {depth : Nat} {c : Class} (clean : c.Clean) :
    ∀ line ∈ chars (classLines depth c), IsLine line :=
  classLines_whole (header_lacks (by decide) clean) (members_legible clean) depth

private theorem packageHeader_whole (depth : Nat) {name : String} (oneLine : '\n' ∉ name.toList) :
    IsLine (packageHeader depth name) := by
  apply whole_padded depth _ (by simp [packageLine])
  apply @whole_line _ '{' _ (by simp [packageLine, List.getLast?_cons]) (by decide)
  simpa [packageLine] using oneLine

private theorem arrow_whole {source target : String} (tail : '\n' ∉ source.toList)
    (head : '\n' ∉ target.toList) (count : Nat) : IsLine (arrow source target count).toList := by
  apply @whole_line _ 's' _ _ (by decide)
  · by_cases single : count = 1 <;> simp [arrow, single, tail, head]
  · by_cases single : count = 1 <;> simp [arrow, single, List.getLast?_cons]

structure IsWhole (c : Class) : Prop where
  name : '\n' ∉ c.name.toList
  block : ∀ depth, ∀ line ∈ chars (classLines depth c), IsLine line

private theorem clean_whole {c : Class} (clean : c.Clean) : IsWhole c :=
  ⟨typeName_lacks clean.name (by decide), fun _ => class_whole clean⟩

mutual
theorem package_whole {depth : Nat} (p : Package) (classes : ∀ c ∈ p.allClasses, IsWhole c)
    (names : ∀ name ∈ p.names, '\n' ∉ name.toList) :
    ∀ line ∈ chars (packageLines depth p), IsLine line := by
  match p with
  | ⟨name, own, packages⟩ =>
    simp only [Package.allClasses, List.mem_append] at classes
    simp only [Package.names, List.mem_cons] at names
    have below := @packages_whole (depth + 1) packages (fun c member => classes c (Or.inr member))
      (fun name member => names name (Or.inr member))
    rw [packageLines_chars]
    intro line member
    simp only [List.mem_cons, List.mem_append, List.not_mem_nil, or_false] at member
    rcases member with rfl | member | member | rfl
    · exact packageHeader_whole depth (names name (Or.inl rfl))
    · simp only [chars, List.map_flatMap, List.mem_flatMap] at member
      obtain ⟨c, known, member⟩ := member
      exact (classes c (Or.inl known)).block _ line member
    · exact below line member
    · exact whole_padded depth (@whole_line _ '}' (by decide) rfl (by decide)) (by simp)
termination_by structural p

private theorem packages_whole {depth : Nat} (all : List Package)
    (classes : ∀ c ∈ Package.classesOf all, IsWhole c)
    (names : ∀ name ∈ Package.namesOf all, '\n' ∉ name.toList) :
    ∀ line ∈ chars (packagesLines depth all), IsLine line := by
  match all with
  | [] => simp [chars, packagesLines]
  | p :: ps =>
    simp only [Package.classesOf, List.mem_append] at classes
    simp only [Package.namesOf, List.mem_append] at names
    have first := @package_whole depth p (fun c member => classes c (Or.inl member))
      (fun name member => names name (Or.inl member))
    have others := @packages_whole depth ps (fun c member => classes c (Or.inr member))
      (fun name member => names name (Or.inr member))
    simp only [chars, packagesLines, List.map_append, List.forall_mem_append] at first others ⊢
    exact ⟨first, others⟩
termination_by structural all
end

private theorem arrow_listed {p : Project} {line : List Char}
    (member : line ∈ chars (p.allClasses.flatMap (arrows p.classNames))) :
    ∃ c ∈ p.allClasses, ∃ target ∈ p.classNames, ∃ count, line =
      (arrow c.name target count).toList := by
  simp only [chars, List.map_flatMap, List.mem_flatMap, arrows, List.mem_map] at member
  obtain ⟨c, present, text, ⟨target, listed, rfl⟩, rfl⟩ := member
  have inside := List.mem_eraseDups.mp listed
  exact ⟨c, present, target, by simpa using (List.mem_filter.mp inside).2, _, rfl⟩

/-- Lines that are whole are read as they were written. -/
theorem renderText_lines {p : Project} (classes : ∀ c ∈ p.allClasses, IsWhole c)
    (names : ∀ name ∈ Package.namesOf p.packages, '\n' ∉ name.toList)
    (known : ∀ name ∈ p.classNames, '\n' ∉ name.toList) :
    lines (renderText p).toList = chars (render p) := by
  have split : ∀ {c}, c ∈ p.classes ∨ c ∈ Package.classesOf p.packages → IsWhole c :=
    fun {c} member =>
    classes c (by simpa [Project.allClasses] using member)
  have packages := @packages_whole 0 p.packages (fun c member => split (Or.inr member)) names
  have own : ∀ line ∈ chars (p.classes.flatMap (classLines 0)), IsLine line := by
    intro line member
    simp only [chars, List.map_flatMap, List.mem_flatMap] at member
    obtain ⟨c, present, member⟩ := member
    exact (split (Or.inl present)).block 0 line member
  have arrows :
      ∀ line ∈ chars (p.allClasses.flatMap (Diagram.arrows p.classNames)), IsLine line := by
    intro line member
    obtain ⟨c, present, target, listed, count, rfl⟩ := arrow_listed member
    exact arrow_whole (classes c present).name (known target listed) count
  have markers : IsLine startMarker.toList ∧ IsLine endMarker.toList :=
    ⟨@whole_line _ 'l' (by decide) rfl (by decide), @whole_line _ 'l' (by decide) rfl (by decide)⟩
  rw [renderText, String.toList_intercalate]
  apply lines_join
  · simp only [render, List.map_append, List.map_cons, List.map_nil, List.forall_mem_append,
      List.forall_mem_cons]
    exact ⟨⟨⟨⟨⟨markers.1, by simp⟩, packages⟩, own⟩, arrows⟩, markers.2, by simp⟩
  · simp [render, endMarker, List.getLast?_cons]

private theorem readLines_render {p : Project} (clean : ∀ c ∈ p.allClasses, c.Clean)
    (labels : ∀ label ∈ Package.namesOf p.packages, IsLabel label)
    (known : ∀ name ∈ p.classNames, IsTypeName name) :
    readLines (chars (render p)) = { p.mapClasses unlinked with classNames := [] } := by
  have split : ∀ {c}, c ∈ p.classes ∨ c ∈ Package.classesOf p.packages → c.Clean :=
    fun {c} member =>
    clean c (by simpa [Project.allClasses] using member)
  have arrows :
      ∀ line ∈ chars (p.allClasses.flatMap (Diagram.arrows p.classNames)), Inert line := by
    intro line member
    obtain ⟨c, present, target, listed, count, rfl⟩ := arrow_listed member
    have words : ∀ word ∈ blockWords, word ∈ reservedWords := by decide
    exact (arrow_inert (typeName_solid (clean c present).name)
      (typeName_solid (known target listed)) count).mpr fun member =>
      (clean c present).name.unreserved (words _ member)
  have shape : chars (render p) = [startMarker.toList] ++ (chars (packagesLines 0 p.packages) ++
      (chars (p.classes.flatMap (classLines 0)) ++
        (chars (p.allClasses.flatMap (Diagram.arrows p.classNames)) ++
        ([endMarker.toList] ++ [])))) := by
    simp [chars, render]
  rw [readLines, shape, blocks_inert (by simpa using marker_inert.1),
    blocks_packages (fun c member => split (Or.inr member)) labels,
    blocks_classes fun c member =>
      split (Or.inl member), blocks_inert arrows, blocks_inert (by simpa using marker_inert.2),
    readBlocks]
  simp [Project.mapClasses]

/-- What is read back has the written packages and classes; index and containment are computed
afresh. -/
theorem read_renderText {p : Project} (clean : ∀ c ∈ p.allClasses, c.Clean)
    (labels : ∀ label ∈ Package.namesOf p.packages, IsLabel label)
    (known : ∀ name ∈ p.classNames, IsTypeName name) :
    read (renderText p) = p.indexNames.inferContainment := by
  have whole :=
    renderText_lines (fun c member => clean_whole (clean c member))
      (fun label member => (labels label member).oneLine)
    fun name member => typeName_lacks (known name member) (by decide)
  rw [Diagram.read, whole, readLines_render clean labels known]
  exact PackageTree.relinked unlinked [] p (fun _ => rfl) (fun _ _ => rfl)

/-- In an indexed project the index lists names of classes. -/
theorem indexed_names {p : Project} (indexed : p.Indexed) {name : String}
    (member : name ∈ p.classNames) : ∃ c ∈ p.allClasses, c.name = name := by
  have names : p.classNames = (p.allClasses.map Class.name).eraseDups := by
    have same := congrArg Project.classNames indexed
    simpa [Project.inferContainment, Project.mapClasses, Project.indexNames] using same.symm
  rw [names, List.mem_eraseDups, List.mem_map] at member
  exact member

/-- Reading the diagram of a clean project gives back the project, with every package, class and
member at its place, and with the same index and containment. -/
theorem diagram_round_trip (p : Project) (clean : p.Clean) (indexed : p.Indexed) :
    read (renderText p) = p := by
  have known : ∀ name ∈ p.classNames, IsTypeName name := by
    intro name member
    obtain ⟨c, present, rfl⟩ := indexed_names indexed member
    exact (clean.classes c present).name
  have labels : ∀ label ∈ Package.namesOf p.packages, IsLabel label := fun label member =>
    isLabel_of_packageName (clean.packages label member)
  rw [read_renderText clean.classes labels known]
  exact indexed

def shop : Project where
  packages := [
    { name := "com/shop"
      packages := [
        { name := "of class\x7b", packages := [{ name := "" }] },
        { name := "model x"
          classes := [
            { name := "Item", isAbstract := true, superclass := some "base.Entity",
              interfaces := ["A", "A", "java.B$"]
              fields :=
    [⟨"name", "Map<K, V> : +", true⟩, ⟨"next", "Item", false⟩, ⟨"last", "Item", false⟩]
              methods :=
    [⟨"move", "void (", [⟨"to", "a): b"⟩, ⟨"by", "int"⟩], true⟩, ⟨"stop", "Item", [], false⟩]
              contained := ["Item", "Item"] }] }] }]
  classes := [
    { name := "Status", kind := .enum, constants := ["OPEN", "OPEN", "x)("]
      fields := [⟨"item", "Item", true⟩], contained := ["Item"] },
    { name := "Item", kind := .interface, superclass := some "Status" }]
  classNames := ["Status", "Item"]

theorem shop_round_trip : shop.Clean ∧ shop.Indexed ∧ read (renderText shop) = shop :=
  have clean : shop.Clean := by decide
  have indexed : shop.Indexed := rfl
  ⟨clean, indexed, diagram_round_trip shop clean indexed⟩

end ClassDiagram.Proofs.DiagramRoundTrip
