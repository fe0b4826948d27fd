import ClassDiagram.Proofs.CollapsedPackages
import ClassDiagram.Proofs.NameOrder
import ClassDiagram.Proofs.OutlineNames
import ClassDiagram.Proofs.SortedHarvest

/-! Extraction as a walk through directories. The Java files below a directory are listed depth
first, its own before those of the directories in it. What is harvested there is what these files
declare, in their order, each class under the path of its directory, and the files that declare
nothing because they cannot be read are the ones skipped. -/

namespace ClassDiagram

/-- The classes of a project in the order of visits, each with the path of the packages that lead to
it. -/
def Project.placed (p : Project) : List (String × Class) :=
  p.classes.map (Package.pathOf [], ·) ++ Package.placed (Package.locatedIn [] p.packages)

namespace Files

/-- A listed file with the names of the directories that lead to it from the root. -/
structure JavaFile where
  dirs : List String
  path : Path
  content : ByteArray

/-- The classes that a file declares if its content is text and can be parsed. -/
def declared? (content : ByteArray) : Option (List Class) :=
  match Disk.decode content with
  | .error _ => none
  | .ok text => (Java.sourceTypes? text).map (·.map Java.SourceType.type)

namespace JavaFile

def isBroken (file : JavaFile) : Bool :=
  (declared? file.content).isNone

def placed (file : JavaFile) : List (String × Class) :=
  ((declared? file.content).getD []).map (Package.pathOf file.dirs, ·)

end JavaFile

/-- The entries of a directory that are not excluded, in the order of the bytes of their names. -/
def visible (scanner : Scanner) (dir : Path) (node : Node) : List (String × Node) :=
  (byBytes node.entries).filter fun entry => !scanner.excludes (dir.join entry.1)

def javaFile? (dirs : List String) (dir : Path) : String × Node → Option JavaFile
  | (name, .file content) =>
    if isJavaPath (dir.join name) then some ⟨dirs, dir.join name, content⟩ else none
  | (_, .dir _) => none

private theorem sizeOf_entry {node : Node} {entry : String × Node} (member : entry ∈ node.entries) :
    sizeOf entry.2 < sizeOf node := by
  cases node with
  | file => simp [Node.entries] at member
  | dir entries =>
    have smaller : sizeOf entry < sizeOf entries := List.sizeOf_lt_of_mem member
    obtain ⟨name, child⟩ := entry
    simp only [Prod.mk.sizeOf_spec, Node.dir.sizeOf_spec] at smaller ⊢
    omega

private theorem visible_entry {scanner : Scanner} {dir : Path} {node : Node} {entry : String × Node}
    (member : entry ∈ visible scanner dir node) : entry ∈ node.entries :=
  List.mem_mergeSort.mp (List.mem_filter.mp member).1

/-- The Java files below a directory: first its own, then those of the directories in it. -/
def javaFiles (scanner : Scanner) (dirs : List String) (dir : Path) (node : Node) : List JavaFile :=
  (visible scanner dir node).filterMap (javaFile? dirs dir) ++
    (visible scanner dir node).attach.flatMap fun entry =>
      javaFiles scanner (dirs ++ [entry.1.1]) (dir.join entry.1.1) entry.1.2
termination_by sizeOf node
decreasing_by exact sizeOf_entry (visible_entry entry.2)

def listedFiles (disk : Disk) (source : Path) (exclude : List String) : List JavaFile :=
  match disk.node source, Scanner.make source exclude with
  | .ok node, .ok scanner => javaFiles scanner [] source node
  | _, _ => []

end Files

end ClassDiagram

namespace ClassDiagram.Proofs.DirectoryWalk
open Files Extraction Walks CollapsedPackages ScannedTree SortedHarvest

/-- What holds of a node if it holds of all its entries holds of every node. -/
theorem node_induction {motive : Node → Prop}
    (step : ∀ node : Node, (∀ entry ∈ node.entries, motive entry.2) → motive node) (node : Node) :
    motive node :=
  step node fun entry (_ : entry ∈ node.entries) => node_induction step entry.2
termination_by sizeOf node
decreasing_by exact sizeOf_entry ‹_›

private theorem javaFiles_eq (scanner : Scanner) (dirs : List String) (dir : Path) (node : Node) :
    javaFiles scanner dirs dir node = (visible scanner dir node).filterMap (javaFile? dirs dir) ++
      (visible scanner dir node).flatMap fun entry =>
        javaFiles scanner (dirs ++ [entry.1]) (dir.join entry.1) entry.2 := by
  rw [javaFiles,
    List.flatMap_subtype (g := fun entry =>
      javaFiles scanner (dirs ++ [entry.1]) (dir.join entry.1) entry.2) fun _ _ => rfl]
  simp

private theorem proper_names {node : Node} (proper : Proper node) :
    (node.entries.map Prod.fst).Nodup := by
  cases node with
  | file => exact List.nodup_nil
  | dir entries => exact proper.1

private theorem proper_below {node : Node} (proper : Proper node) {entry : String × Node}
    (member : entry ∈ node.entries) : IsEntryName entry.1 ∧ Proper entry.2 := by
  cases node with
  | file => simp [Node.entries] at member
  | dir entries => exact proper_entry proper.2 member

def gathered (scanner : Scanner) (dir : Path) (entry : String × Node) :
    String × Except Error Part :=
  (entry.1, gather scanner (dir.join entry.1) entry.2)

theorem gatherAll_eq (scanner : Scanner) (dir : Path) (entries : List (String × Node)) :
    gatherAll scanner dir entries =
      (entries.filter fun entry => !scanner.excludes (dir.join entry.1)).map
      (gathered scanner dir) := by
  induction entries with
  | nil => rfl
  | cons entry rest ih =>
    obtain ⟨name, node⟩ := entry
    simp only [gatherAll, List.filter_cons]
    split
    next excluded => simp [excluded, ih]
    next free => simp [free, ih, gathered]

private theorem byName_map {α β : Type} (f : String × α → String × β)
    (named : ∀ entry, (f entry).1 = entry.1) (entries : List (String × α)) :
    byName (entries.map f) = (byName entries).map f := by
  refine (List.map_mergeSort fun a _ b _ => ?_).symm
  rw [named, named]

/-- Entries of names of their own have one order, so some of them can be left out before or
behind. -/
theorem byName_filter {α : Type} {entries : List (String × α)}
    (distinct : (entries.map Prod.fst).Nodup) (keep : String × α → Bool) :
    byName (entries.filter keep) = (byName entries).filter keep := by
  refine List.Perm.eq_of_pairwise ?_ (byName_sorted _) ((byName_sorted entries).filter keep) ?_
  · intro a b first second le ge
    have left := (List.mem_filter.mp (List.mem_mergeSort.mp first)).1
    have right := List.mem_mergeSort.mp (List.mem_filter.mp second).1
    exact List.inj_on_of_nodup_map distinct left right (String.le_antisymm le ge)
  · exact (byName_perm _).trans ((byName_perm entries).filter keep).symm

private theorem gathered_visible {scanner : Scanner} {dir : Path} {node : Node}
    (distinct : (node.entries.map Prod.fst).Nodup) :
    byName (gatherAll scanner dir node.entries) =
      (visible scanner dir node).map (gathered scanner dir) := by
  rw [gatherAll_eq, byName_map (gathered scanner dir) fun _ => rfl]
  rw [byName_filter distinct, visible, NameOrder.byBytes_eq]

def placedAt (above : List String) (classes : List Class) (packages : List Package) :
    List (String × Class) :=
  classes.map (Package.pathOf above, ·) ++ Package.placed (Package.locatedIn above packages)

/-- A harvest is what the files give, in their order. -/
structure Yields (above : List String) (harvest : Harvest) (files : List JavaFile) : Prop where
  placed : placedAt above harvest.classes harvest.packages = files.flatMap JavaFile.placed
  skipped : harvest.skipped = (files.filter JavaFile.isBroken).map JavaFile.path
  counted : harvest.parsed + harvest.skipped.length = files.length

private theorem yields_nothing (above : List String) : Yields above {} [] :=
  ⟨rfl, rfl, rfl⟩

private theorem placedAt_append (above : List String) {first second : Harvest}
    (apart : first.packages = [] ∨ second.classes = []) :
    placedAt above (first.append second).classes (first.append second).packages =
      placedAt above first.classes first.packages ++
      placedAt above second.classes second.packages := by
  simp only [placedAt, Harvest.append, locatedIn_eq, Package.placed]
  rcases apart with none | none <;> simp [none]

/-- Harvests are put together as their files are, if packages do not come before classes. -/
theorem Yields.append {above : List String} {first second : Harvest} {files more : List JavaFile}
    (one : Yields above first files) (two : Yields above second more)
    (apart : first.packages = [] ∨ second.classes = []) :
    Yields above (first.append second) (files ++ more) := by
  refine ⟨?_, ?_, ?_⟩
  · rw [placedAt_append above apart, one.placed, two.placed, List.flatMap_append]
  · simp only [Harvest.append, one.skipped, two.skipped, List.filter_append, List.map_append]
  · have first := one.counted
    have second := two.counted
    simp only [Harvest.append, List.length_append]
    omega

/-- A file gives the classes it declares, or is skipped. -/
theorem ofFile_eq (path : Path) (content : ByteArray) : Harvest.ofFile path content =
    match declared? content with
    | none => { skipped := [path] }
    | some classes => { classes, parsed := 1 } := by
  simp only [Harvest.ofFile, declared?]
  cases Disk.decode content with
  | error => rfl
  | ok text =>
    simp only
    cases Java.sourceTypes? text <;> rfl

private theorem ofFile_packages (path : Path) (content : ByteArray) :
    (Harvest.ofFile path content).packages = [] := by
  rw [ofFile_eq]
  split <;> rfl

private theorem file_yields (above : List String) (path : Path) (content : ByteArray) :
    Yields above (Harvest.ofFile path content) [⟨above, path, content⟩] := by
  rw [ofFile_eq]
  cases declared : declared? content with
  | none =>
    refine ⟨?_, by simp [JavaFile.isBroken, declared], rfl⟩
    simp [placedAt, JavaFile.placed, declared, Package.locatedIn, Package.placed]
  | some classes =>
    refine ⟨?_, by simp [JavaFile.isBroken, declared], rfl⟩
    simp [placedAt, JavaFile.placed, declared, Package.locatedIn, Package.placed]

/-- A directory below is a package, and its files are one name further down. -/
theorem package_yields {above : List String} {path : Path} {name : String}
    (named : path.fileName? = some name) {inside : Harvest} {files : List JavaFile}
    (yields : Yields (above ++ [name]) inside files) :
    Yields above (Harvest.ofPackage path inside) files := by
  refine ⟨?_, yields.skipped, yields.counted⟩
  rw [← yields.placed]
  simp [placedAt, Harvest.ofPackage, named, Package.locatedIn, Package.located, Package.placed]

/-- What entries give: their own files and those of the directories below, apart from each other. -/
structure PartYields (above : List String) (part : Part) (own below : List JavaFile) : Prop where
  files : Yields above part.files own
  directories : Yields above part.directories below
  apart : Apart part

private theorem combine_yields {above : List String} {scanner : Scanner} {dir : Path}
    {own below : String × Node → List JavaFile} {entries : List (String × Node)}
    (each : ∀ entry ∈ entries, ∀ part, (gathered scanner dir entry).2 = .ok part →
      PartYields above part (own entry) (below entry))
    {whole : Part} (combined : combine (entries.map (gathered scanner dir)) = .ok whole) :
    PartYields above whole (entries.flatMap own) (entries.flatMap below) := by
  induction entries generalizing whole with
  | nil =>
    obtain rfl : {} = whole := Except.ok.inj combined
    exact ⟨yields_nothing above, yields_nothing above, rfl, rfl⟩
  | cons entry rest ih =>
    obtain ⟨part, given, other, tail, rfl⟩ := combine_cons combined
    have one := each entry (by simp) part given
    have two := ih (fun entry member => each entry (by simp [member])) tail
    refine ⟨one.files.append two.files (Or.inl one.apart.packages),
      one.directories.append two.directories (Or.inr two.apart.classes), ?_, ?_⟩
    · simp [Harvest.append, one.apart.classes, two.apart.classes]
    · simp [Harvest.append, one.apart.packages, two.apart.packages]

private theorem javaFiles_file (scanner : Scanner) (dirs : List String) (path : Path)
    (content : ByteArray) : javaFiles scanner dirs path (.file content) = [] := by
  have empty : visible scanner path (.file content) = [] := by simp [visible, byBytes, Node.entries]
  rw [javaFiles_eq, empty]
  rfl

/-- What is harvested below a directory is what its files give. -/
theorem harvest_yields {scanner : Scanner} (node : Node) (proper : Proper node)
    (above : List String) {dir : Path} (nonempty : dir.text ≠ "")
    {inside : Harvest} (harvested : ofEntries (gatherAll scanner dir node.entries) = .ok inside) :
    Yields above inside (javaFiles scanner above dir node) := by
  induction node using node_induction generalizing above dir inside with
  | step node ih =>
    obtain ⟨whole, combined, rfl⟩ := map_ok harvested
    rw [gathered_visible (proper_names proper)] at combined
    have each :
        ∀ entry ∈ visible scanner dir node, ∀ part, (gathered scanner dir entry).2 = .ok part →
        PartYields above part (javaFile? above dir entry).toList
        (javaFiles scanner (above ++ [entry.1]) (dir.join entry.1) entry.2) := by
      rintro ⟨name, child⟩ member part given
      obtain ⟨named, below⟩ := proper_below proper (visible_entry member)
      cases child with
      | file content =>
        obtain rfl :
            { files := if isJavaPath (dir.join name) then Harvest.ofFile (dir.join name) content
                else {} } = part :=
          Except.ok.inj given
        rw [javaFiles_file]
        by_cases java : isJavaPath (dir.join name) = true
        · simp only [javaFile?, java, if_true]
          exact ⟨file_yields above _ content, yields_nothing above, rfl, ofFile_packages _ content⟩
        · simp only [javaFile?, java, if_false, Bool.false_eq_true]
          exact ⟨yields_nothing above, yields_nothing above, rfl, rfl⟩
      | dir inner =>
        obtain ⟨_, deeper, found, rfl⟩ := gather_dir given
        have filled := join_nonempty nonempty (entry_relative named.noSlash)
        have yields :=
          ih (name, .dir inner) (visible_entry member) below (above ++ [name]) filled found
        exact ⟨yields_nothing above, package_yields (join_fileName nonempty named) yields, rfl, rfl⟩
    have yields := combine_yields each combined
    rw [javaFiles_eq, List.filterMap_eq_flatMap_toList]
    exact yields.files.append yields.directories (Or.inl yields.apart.packages)

section
open Java Java.Outline

private theorem bodyType_contained (c : Class) (opening : Nat) (inside : List Tree) :
    (bodyType c opening inside).type.contained = c.contained := by
  simp only [bodyType]
  split
  · simp only [enumType]
    split <;> rfl
  · rfl
  · rfl

private theorem header_contained (kind : Kind) (isAbstract : Bool) (name : String)
    (trees : List Tree) : (header kind isAbstract name trees).contained = [] := by
  cases kind <;> rfl

private theorem sourceTypes_contained {source : String} {types : List SourceType}
    (read : sourceTypes? source = some types) : ∀ found ∈ types, found.type.contained = [] := by
  intro found listed
  obtain ⟨kind, isAbstract, name, more, opening, inside, rfl⟩ :=
    OutlineNames.sourceTypes_headed read listed
  rw [bodyType_contained, header_contained]

end

private theorem declared_unlinked {content : ByteArray} {classes : List Class}
    (declared : declared? content = some classes) : ∀ c ∈ classes, c.unlinked = c := by
  simp only [declared?] at declared
  split at declared
  · simp at declared
  next text decoded =>
    obtain ⟨types, read, rfl⟩ := Option.map_eq_some_iff.mp declared
    intro c member
    obtain ⟨type, listed, rfl⟩ := List.mem_map.mp member
    rw [Class.unlinked, ← sourceTypes_contained read type listed]

theorem placed_unlinked (files : List JavaFile) :
    (files.flatMap JavaFile.placed).map (fun (path, c) => (path, c.unlinked)) =
      files.flatMap JavaFile.placed := by
  refine (List.map_congr_left fun entry listed => ?_).trans (List.map_id _)
  obtain ⟨file, _, among⟩ := List.mem_flatMap.mp listed
  obtain ⟨c, member, rfl⟩ := List.mem_map.mp among
  cases declared : declared? file.content with
  | none => simp [declared] at member
  | some classes =>
    have same : c.unlinked = c := declared_unlinked declared c (by simpa [declared] using member)
    simp only [same, id]

private theorem placed_map (f : Class → Class) (above : List String) (p : Package) :
    Package.placed ((p.mapClasses f).located above) =
      (Package.placed (p.located above)).map fun (path, c) => (path, f c) := by
  induction p using package_induction generalizing above with
  | step p ih =>
    obtain ⟨name, classes, packages⟩ := p
    have below :
        packages.flatMap (fun child =>
          Package.placed ((child.mapClasses f).located (above ++ [name]))) =
        packages.flatMap fun child =>
          (Package.placed (child.located (above ++ [name]))).map fun (path, c) => (path, f c) :=
      List.flatMap_congr fun child member => ih child member (above ++ [name])
    rw [placed_located, placed_located, List.map_append, List.map_flatMap, ← below,
      Package.mapClasses, PackageTree.mapAll_eq, List.flatMap_map]
    simp

theorem normalize_placed (p : Project) :
    p.normalize.placed.map (fun (path, c) => (path, c.unlinked)) =
    p.placed.map fun (path, c) => (path, c.unlinked) := by
  have collapsed : Package.placed (Package.locatedIn [] (Package.collapseAll p.packages)) =
      Package.placed (Package.locatedIn [] p.packages) := by
    rw [placed_locatedIn, placed_locatedIn, collapseAll_eq, List.flatMap_map]
    exact List.flatMap_congr fun child _ => collapse_placed [] child
  have mapped :
      ∀ (f : Class → Class) (all : List Package),
      Package.placed (Package.locatedIn [] (Package.mapAll f all)) =
      (Package.placed (Package.locatedIn [] all)).map fun (path, c) => (path, f c) := by
    intro f all
    rw [placed_locatedIn, placed_locatedIn, PackageTree.mapAll_eq, List.flatMap_map,
      List.map_flatMap]
    exact List.flatMap_congr fun child _ => placed_map f [] child
  simp only [Project.placed, Project.normalize, Project.inferContainment, Project.mapClasses,
    Project.indexNames, Project.collapsePackages, mapped, collapsed, List.map_append, List.map_map]
  rfl

/-- Classes are placed in the order in which they are visited. -/
theorem project_placed (p : Project) : p.placed.map Prod.snd = p.allClasses := by
  have below : p.packages.flatMap (fun child => (Package.placed (child.located [])).map Prod.snd) =
      p.packages.flatMap Package.allClasses :=
    List.flatMap_congr fun child _ => placed_classes [] child
  rw [Project.placed, placed_locatedIn, List.map_append, List.map_flatMap, below,
    Project.allClasses, classesOf_eq]
  simp [Function.comp_def]

end ClassDiagram.Proofs.DirectoryWalk
