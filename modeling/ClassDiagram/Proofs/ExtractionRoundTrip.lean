import ClassDiagram.Proofs.DiagramRoundTrip
import ClassDiagram.Proofs.OutlineNames
import ClassDiagram.Proofs.ScannedTree

/-! A tree of sources and its diagram. Every class that extraction finds is one of a source, and
every package is named after directories, so a diagram can hold what sources with plain words
give. -/

namespace ClassDiagram.Proofs.ExtractionRoundTrip
open Files Extraction ScannedTree OutlineNames

def sources (disk : Disk) (source : Path) (exclude : List String) : List (Path × String) :=
  match disk.node source, Scanner.make source exclude with
  | .ok (.dir entries), .ok scanner => sourcesIn scanner source entries
  | _, _ => []

def directories (disk : Disk) (source : Path) (exclude : List String) : List Path :=
  match disk.node source, Scanner.make source exclude with
  | .ok (.dir entries), .ok scanner => directoriesIn scanner source entries
  | _, _ => []

def Declared (files : List (Path × String)) (c : Class) : Prop :=
  ∃ file ∈ files, ∃ types, Java.sourceTypes? file.2 = some types ∧
    c ∈ types.map Java.SourceType.type

theorem Declared.mono {files others : List (Path × String)} {c : Class} (inside : files ⊆ others)
    (declared : Declared files c) : Declared others c := by
  obtain ⟨file, member, found⟩ := declared
  exact ⟨file, inside member, found⟩

private theorem fromFile_declared {scanner : Scanner} {dir : Path} {entries : List (String × Node)}
    {c : Class} (origin : FromFile scanner dir entries c) :
    Declared (sourcesIn scanner dir entries) c := by
  obtain ⟨name, content, text, types, member, free, declares⟩ := origin
  refine ⟨(dir.join name, text), sources_listed member free ?_, types, declares.read,
    declares.declared⟩
  simp [sourcesAt, declares.sourceText]

/-- Classes come from the sources and names from the directories below. -/
structure Rooted (files : List (Path × String)) (dirs : List Path) (classes : List Class)
    (names : List String) : Prop where
  classes : ∀ c ∈ classes, Declared files c
  names : ∀ name ∈ names, ∃ dir ∈ dirs, name = dir.fileName?.getD ""

mutual
theorem mirror_rooted {scanner : Scanner} {path : Path} {node : Node} (p : Package)
    (mirrors : Mirrors scanner path node p) :
    Rooted (sourcesAt scanner path node) (directoriesAt scanner path node)
      p.allClasses p.names := by
  match p with
  | ⟨name, classes, packages⟩ =>
    obtain ⟨entries, rfl, rfl, _, own, below⟩ := mirrors
    have inner := mirrors_rooted packages below
    constructor
    · intro c member
      rcases List.mem_append.mp member with member | member
      · exact fromFile_declared (own c member)
      · exact inner.classes c member
    · intro name member
      rcases List.mem_cons.mp member with rfl | member
      · exact ⟨path, by simp [directoriesAt], rfl⟩
      · obtain ⟨dir, listed, same⟩ := inner.names name member
        exact ⟨dir, by simp [directoriesAt, listed], same⟩
termination_by structural p

theorem mirrors_rooted {scanner : Scanner} {dir : Path} {entries : List (String × Node)}
    (all : List Package) (mirrors : AllMirror scanner dir entries all) :
    Rooted (sourcesIn scanner dir entries) (directoriesIn scanner dir entries)
      (Package.classesOf all) (Package.namesOf all) := by
  match all with
  | [] => exact ⟨by simp [Package.classesOf], by simp [Package.namesOf]⟩
  | p :: ps =>
    obtain ⟨⟨name, node, member, free, first⟩, others⟩ := mirrors
    have own := mirror_rooted p first
    have rest := mirrors_rooted ps others
    constructor
    · intro c present
      rcases List.mem_append.mp present with present | present
      · exact (own.classes c present).mono (sources_listed member free)
      · exact rest.classes c present
    · intro name present
      rcases List.mem_append.mp present with present | present
      · obtain ⟨dir, listed, same⟩ := own.names name present
        exact ⟨dir, directories_listed member free listed, same⟩
      · exact rest.names name present
termination_by structural all
end

mutual
theorem collapse_classes (p : Package) : p.collapse.allClasses = p.allClasses := by
  match p with
  | ⟨name, [], [child]⟩ =>
    have inner := collapse_classes child
    revert inner
    simp only [Package.collapse, Package.allClasses, Package.classesOf, List.nil_append,
      List.append_nil]
    cases child.collapse
    simp [Package.allClasses]
  | ⟨name, [], []⟩ => simp [Package.collapse, Package.collapseAll]
  | ⟨name, [], first :: second :: more⟩ =>
    have inner := collapseAll_classes (first :: second :: more)
    simp [Package.collapse, Package.allClasses, inner]
  | ⟨name, c :: classes, packages⟩ =>
    have inner := collapseAll_classes packages
    simp [Package.collapse, Package.allClasses, inner]
termination_by structural p

theorem collapseAll_classes (all : List Package) :
    Package.classesOf (Package.collapseAll all) = Package.classesOf all := by
  match all with
  | [] => rfl
  | p :: ps =>
    simp [Package.collapseAll, Package.classesOf, collapse_classes p, collapseAll_classes ps]
termination_by structural all
end

/-- Collapsing only puts slashes between names. -/
def Joins (old new : List String) : Prop :=
  ∀ name ∈ new, ∀ c ∈ name.toList, c = '/' ∨ ∃ part ∈ old, c ∈ part.toList

theorem Joins.mono {old more new : List String} (inside : old ⊆ more) (joins : Joins old new) :
    Joins more new := by
  intro name member c present
  rcases joins name member c present with slash | ⟨part, listed, present⟩
  · exact Or.inl slash
  · exact Or.inr ⟨part, inside listed, present⟩

private theorem joins_cons {name : String} {old new : List String} (joins : Joins old new) :
    Joins (name :: old) (name :: new) := by
  intro other member c present
  rcases List.mem_cons.mp member with rfl | member
  · exact Or.inr ⟨other, by simp, present⟩
  · exact joins.mono (List.subset_cons_self name old) other member c present

mutual
theorem collapse_names (p : Package) : Joins p.names p.collapse.names := by
  match p with
  | ⟨name, [], [child]⟩ =>
    have inner := collapse_names child
    simp only [Package.collapse]
    generalize child.collapse = last at inner ⊢
    obtain ⟨first, classes, packages⟩ := last
    simp only [Package.names, Package.namesOf, List.append_nil] at inner ⊢
    have below : Joins (name :: child.names) (first :: Package.namesOf packages) :=
      inner.mono (List.subset_cons_self name child.names)
    intro other member c present
    rcases List.mem_cons.mp member with rfl | member
    · simp only [String.toList_append, List.mem_append] at present
      rcases present with (present | slash) | present
      · exact Or.inr ⟨name, by simp, present⟩
      · exact Or.inl (by simpa using slash)
      · exact below first (by simp) c present
    · exact below other (by simp [member]) c present
  | ⟨name, [], []⟩ => exact joins_cons (by simp [Joins, Package.collapseAll, Package.namesOf])
  | ⟨name, [], first :: second :: more⟩ =>
    exact joins_cons (collapseAll_names (first :: second :: more))
  | ⟨name, c :: classes, packages⟩ => exact joins_cons (collapseAll_names packages)
termination_by structural p

private theorem collapseAll_names (all : List Package) :
    Joins (Package.namesOf all) (Package.namesOf (Package.collapseAll all)) := by
  match all with
  | [] => simp [Joins, Package.collapseAll, Package.namesOf]
  | p :: ps =>
    have first := (collapse_names p).mono (List.subset_append_left p.names (Package.namesOf ps))
    have others :=
      (collapseAll_names ps).mono (List.subset_append_right p.names (Package.namesOf ps))
    intro name member
    rcases List.mem_append.mp member with member | member
    · exact first name member
    · exact others name member
termination_by structural all
end

mutual
theorem mapClasses_names (f : Class → Class) (p : Package) : (p.mapClasses f).names = p.names := by
  match p with
  | ⟨name, classes, packages⟩ => simp [Package.mapClasses, Package.names, mapAll_names f packages]
termination_by structural p

theorem mapAll_names (f : Class → Class) (all : List Package) :
    Package.namesOf (Package.mapAll f all) = Package.namesOf all := by
  match all with
  | [] => rfl
  | p :: ps => simp [Package.mapAll, Package.namesOf, mapClasses_names f p, mapAll_names f ps]
termination_by structural all
end

theorem normalize_indexed (p : Project) : p.normalize.Indexed :=
  PackageTree.relinked (Class.inferContained _) _ p.collapsePackages (fun _ => rfl) (fun _ _ => rfl)

theorem normalize_classes {p : Project} {c : Class} (member : c ∈ p.normalize.allClasses) :
    ∃ raw ∈ p.allClasses, ∃ known, c = raw.inferContained known := by
  have collapsed : p.collapsePackages.allClasses = p.allClasses := by
    simp [Project.collapsePackages, Project.allClasses, collapseAll_classes]
  simp only [Project.normalize, Project.inferContainment, PackageTree.project_allClasses_map]
    at member
  obtain ⟨raw, present, rfl⟩ := List.mem_map.mp member
  exact ⟨raw, collapsed ▸ present, _, rfl⟩

private theorem normalize_names (p : Project) :
    Joins (Package.namesOf p.packages) (Package.namesOf p.normalize.packages) := by
  simp only [Project.normalize, Project.inferContainment, Project.mapClasses, mapAll_names]
  exact collapseAll_names p.packages

/-- Extraction gathers what the entries of the source directory give. -/
theorem extract_harvest {disk : Disk} {source : Path} {exclude : List String} {found : Extraction}
    (extracted : extract disk source exclude = .ok found) :
    ∃ entries scanner, ∃ harvest :
    Harvest, disk.node source = .ok (.dir entries) ∧ Scanner.make source exclude = .ok scanner ∧
      ofEntries (gatherAll scanner source entries) = .ok harvest ∧ ofHarvest harvest = found := by
  simp only [extract] at extracted
  split at extracted
  next entries located =>
    split at extracted
    · simp at extracted
    next scanner made =>
      obtain ⟨harvest, gathered, same⟩ := map_ok extracted
      exact ⟨entries, scanner, harvest, located, made, gathered, same⟩
  next => simp at extracted

theorem extract_gathers {disk : Disk} {source : Path} {exclude : List String} {found : Extraction}
    (extracted : extract disk source exclude = .ok found) :
    ∃ entries scanner, ∃ harvest :
    Harvest, disk.node source = .ok (.dir entries) ∧ Scanner.make source exclude = .ok scanner ∧
      ofEntries (gatherAll scanner source entries) = .ok harvest ∧
      found.project =
      ({ classes := harvest.classes, packages := harvest.packages } : Project).normalize := by
  obtain ⟨entries, scanner, harvest, located, made, gathered, rfl⟩ := extract_harvest extracted
  exact ⟨entries, scanner, harvest, located, made, gathered, rfl⟩

/-- Extraction normalizes what mirrors the entries of the source directory. -/
theorem extract_mirrors {disk : Disk} {source : Path} {exclude : List String} {found : Extraction}
    (extracted : extract disk source exclude = .ok found) :
    ∃ entries scanner, ∃ harvest :
    Harvest, disk.node source = .ok (.dir entries) ∧ Scanner.make source exclude = .ok scanner ∧
      found.project =
      ({ classes := harvest.classes, packages := harvest.packages } : Project).normalize ∧
      (∀ c ∈ harvest.classes, FromFile scanner source entries c) ∧
        AllMirror scanner source entries harvest.packages := by
  obtain ⟨entries, scanner, harvest, located, made, gathered, normal⟩ := extract_gathers extracted
  exact ⟨entries, scanner, harvest, located, made, normal,
    entries_held (gatherAll_held entries) gathered⟩

/-- Every class that extraction finds is one of a source, with containment inferred. -/
theorem extract_declares {disk : Disk} {source : Path} {exclude : List String} {found : Extraction}
    (extracted : extract disk source exclude = .ok found) {c : Class}
    (member : c ∈ found.project.allClasses) :
    ∃ raw known, c = raw.inferContained known ∧ Declared (sources disk source exclude) raw := by
  obtain ⟨entries, scanner, harvest, located, made, normal, own, below⟩ := extract_mirrors extracted
  rw [normal] at member
  obtain ⟨raw, present, known, rfl⟩ := normalize_classes member
  refine ⟨raw, known, rfl, ?_⟩
  simp only [sources, located, made]
  rcases List.mem_append.mp present with present | present
  · exact fromFile_declared (own raw present)
  · exact (mirrors_rooted harvest.packages below).classes raw present

/-- A directory name that a diagram can hold. -/
def IsDirectoryName (name : String) : Prop :=
  ∀ c ∈ name.toList, Text.isBlank c = false ∧ c ≠ '"' ∧ c ≠ '}'

instance (name : String) : Decidable (IsDirectoryName name) :=
  inferInstanceAs (Decidable (∀ c ∈ name.toList, Text.isBlank c = false ∧ c ≠ '"' ∧ c ≠ '}'))

/-- What can be read back from the diagram of an extracted project. -/
structure Drawable (p : Project) : Prop where
  classes : ∀ c ∈ p.allClasses, c.Clean
  labels : ∀ label ∈ Package.namesOf p.packages, HeaderLines.IsLabel label
  indexed : p.Indexed

theorem Drawable.read_back {p : Project} (drawable : Drawable p) :
    Diagram.read (Diagram.renderText p) = p := by
  have known : ∀ name ∈ p.classNames, IsTypeName name := by
    intro name member
    obtain ⟨c, present, rfl⟩ := DiagramRoundTrip.indexed_names drawable.indexed member
    exact (drawable.classes c present).name
  rw [DiagramRoundTrip.read_renderText drawable.classes drawable.labels known]
  exact drawable.indexed

/-- Collapsing keeps names such that a diagram can hold them. -/
theorem normalize_labels {p : Project}
    (plain : ∀ name ∈ Package.namesOf p.packages, IsDirectoryName name) :
    ∀ label ∈ Package.namesOf p.normalize.packages, HeaderLines.IsLabel label := by
  intro label member
  have chars : ∀ c ∈ label.toList, Text.isBlank c = false ∧ c ≠ '"' ∧ c ≠ '}' := by
    intro c present
    rcases normalize_names p label member c present with rfl | ⟨part, listed, present⟩
    · decide
    · exact plain part listed c present
  exact HeaderLines.isLabel_of_solid (fun c present => (chars c present).1)
    (fun quote => (chars _ quote).2.1 rfl) (fun brace => (chars _ brace).2.2 rfl)

theorem extracted_drawable {disk : Disk} {source : Path} {exclude : List String}
    {found : Extraction} (extracted : extract disk source exclude = .ok found)
    (ascii : ∀ file ∈ sources disk source exclude, AsciiWords file.2)
    (unreserved : ∀ c ∈ found.project.allClasses, ∀ name ∈ typeNames c, name ∉ reservedWords)
    (plain : ∀ dir ∈ directories disk source exclude, IsDirectoryName (dir.fileName?.getD "")) :
    Drawable found.project := by
  obtain ⟨entries, scanner, harvest, located, made, normal, _, below⟩ := extract_mirrors extracted
  simp only [directories, located, made] at plain
  refine ⟨?_, ?_, normal ▸ normalize_indexed _⟩
  · intro c member
    obtain ⟨raw, known, rfl, file, listed, types, read, among⟩ := extract_declares extracted member
    obtain ⟨type, member', rfl⟩ := List.mem_map.mp among
    have readable := sourceTypes_readable (ascii file listed) read type member'
    have linked : Readable (type.type.inferContained known) :=
      ⟨readable.names, readable.fields, readable.methods, readable.constants, readable.isAbstract⟩
    exact linked.clean (unreserved _ member)
  · rw [normal]
    refine normalize_labels fun name listed => ?_
    obtain ⟨dir, among, rfl⟩ := (mirrors_rooted harvest.packages below).names name listed
    exact plain dir among

/-- The diagram of an extracted project loses nothing: read back it gives every package, class and
member at its place, with the same index and containment. -/
theorem extraction_round_trip {disk : Disk} {source : Path} {exclude : List String}
    {found : Extraction} (extracted : extract disk source exclude = .ok found)
    (ascii : ∀ file ∈ sources disk source exclude, AsciiWords file.2)
    (unreserved : ∀ c ∈ found.project.allClasses, ∀ name ∈ typeNames c, name ∉ reservedWords)
    (plain : ∀ dir ∈ directories disk source exclude, IsDirectoryName (dir.fileName?.getD "")) :
    Diagram.read (Diagram.renderText found.project) = found.project :=
  (extracted_drawable extracted ascii unreserved plain).read_back

def itemSource : String :=
  "abstract class Item extends base.Entity<K> { Item[] next; } enum State { SHUT }"

def orchard : Disk where
  root := .dir
    [("s", .dir [("shop", .dir [("item", .dir [("Item.java", .file itemSource.toUTF8)])])])]
  cwd := []

theorem ok_of_toOption {ε α : Type} {result : Except ε α} {value : α}
    (present : result.toOption = some value) : result = .ok value := by
  cases result with
  | error => simp [Except.toOption] at present
  | ok => exact congrArg Except.ok (Option.some.inj present)

theorem orchard_round_trip : ∃ found, extract orchard ⟨"s"⟩ [] = .ok found ∧
    found.project.allClasses.map Class.name = ["Item", "State"] ∧
    Diagram.read (Diagram.renderText found.project) = found.project := by
  have checked : ((extract orchard ⟨"s"⟩ []).toOption.any fun found =>
      decide (found.project.allClasses.map Class.name = ["Item", "State"] ∧
        ∀ c ∈ found.project.allClasses, ∀ name ∈ typeNames c, name ∉ reservedWords)) =
        true := by decide +kernel
  have ascii : ∀ file ∈ sources orchard ⟨"s"⟩ [], AsciiWords file.2 := by decide +kernel
  have plain : ∀ dir ∈ directories orchard ⟨"s"⟩ [], IsDirectoryName (dir.fileName?.getD "") := by
    decide +kernel
  obtain ⟨found, extracted, holds⟩ := (Option.any_eq_true _ _).mp checked
  obtain ⟨names, unreserved⟩ := of_decide_eq_true holds
  have extracted := ok_of_toOption extracted
  exact ⟨found, extracted, names, extraction_round_trip extracted ascii unreserved plain⟩

end ClassDiagram.Proofs.ExtractionRoundTrip
