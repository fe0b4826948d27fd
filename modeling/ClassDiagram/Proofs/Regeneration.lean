import ClassDiagram.Proofs.DiskChanges
import ClassDiagram.Proofs.ExtractionRoundTrip

/-! Generating sources from the diagram of those very sources. Every package leads back to the
directory it was made of, every class to the file that declares it, and that file lacks none of its
members, so nothing is written. -/

namespace ClassDiagram.Proofs.Regeneration
open Files Walks DiskChanges ScannedTree ExtractionRoundTrip OutlineNames

/-- The work succeeds with a value and changes nothing. -/
def Returns {α : Type} (work : Work α) (disk : Disk) (value : α) : Prop :=
  work.run.run disk = (.ok value, disk)

theorem Returns.bind {α β : Type} {work : Work α} {next : α → Work β} {disk : Disk} {value : α}
    {result : β} (first : Returns work disk value) (second : Returns (next value) disk result) :
    Returns (work >>= next) disk result := by
  exact (run_bind_ok first).trans second

theorem Returns.makeDirs {disk : Disk} {path : Path} {entries : List (String × Node)}
    (located : disk.node path = .ok (.dir entries)) : Returns (Work.makeDirs path) disk () := by
  exact run_makeDirs_ok (makeDirs_there located)

theorem Returns.ask {α : Type} {disk : Disk} {path : Path} {question : Disk → Except Fault α}
    {answer : α} (known : question disk = .ok answer) :
    Returns (Work.ask path question) disk answer := by
  exact run_ask_ok known

def untouched (files : List Path) : Report where
  unchanged := files

private theorem untouched_append (first second : List Path) :
    (untouched first).append (untouched second) = untouched (first ++ second) := by
  simp [untouched, Report.append]

def classFile (dir : Path) (c : Class) : Path :=
  dir.join (c.name ++ ".java")

/-- The file of a class is there and lacks nothing. -/
structure Complete (disk : Disk) (dir : Path) (c : Class) : Prop where
  named : Path.isFileName ⟨c.name ++ ".java"⟩ = true
  merged : ∃ text, disk.readText (classFile dir c) = .ok text ∧ Java.merge text c = .unchanged

mutual
/-- The directory of a package is there, and so are all its classes and packages. -/
def Grounded (disk : Disk) (parent : Path) : Package → Prop
  | ⟨name, classes, packages⟩ => Path.isDownward ⟨name⟩ = true ∧
      (∃ entries, disk.node (parent.join name) = .ok (.dir entries)) ∧
      (∀ c ∈ classes, Complete disk (parent.join name) c) ∧
      AllGrounded disk (parent.join name) packages

def AllGrounded (disk : Disk) (parent : Path) : List Package → Prop
  | [] => True
  | p :: ps => Grounded disk parent p ∧ AllGrounded disk parent ps
end

mutual
def packageFiles (parent : Path) : Package → List Path
  | ⟨name, classes, packages⟩ =>
    packagesFiles (parent.join name) packages ++ classes.map (classFile (parent.join name))

def packagesFiles (parent : Path) : List Package → List Path
  | [] => []
  | p :: ps => packageFiles parent p ++ packagesFiles parent ps
end

def projectFiles (root : Path) (p : Project) : List Path :=
  packagesFiles root p.packages ++ p.classes.map (classFile root)

mutual
theorem packageFiles_length (parent : Path) (p : Package) :
    (packageFiles parent p).length = p.allClasses.length := by
  match p with
  | ⟨name, classes, packages⟩ =>
    have below := packagesFiles_length (parent.join name) packages
    simp only [packageFiles, Package.allClasses, List.length_append, List.length_map, below]
    omega
termination_by structural p

private theorem packagesFiles_length (parent : Path) (all : List Package) :
    (packagesFiles parent all).length = (Package.classesOf all).length := by
  match all with
  | [] => rfl
  | p :: ps =>
    simp [packagesFiles, Package.classesOf, packageFiles_length parent p,
      packagesFiles_length parent ps]
termination_by structural all
end

private theorem projectFiles_length (root : Path) (p : Project) :
    (projectFiles root p).length = p.classCount := by
  simp only [projectFiles, Project.classCount, Project.allClasses, List.length_append,
    List.length_map, packagesFiles_length]
  omega

private theorem mergeFile_complete {disk : Disk} {dir : Path} {c : Class}
    (complete : Complete disk dir c) : Returns (mergeFile (classFile dir c) c) disk .unchanged := by
  obtain ⟨text, read, merged⟩ := complete.merged
  simp only [mergeFile]
  refine (Returns.ask read).bind ?_
  simp only [merged]
  rfl

private theorem writeClass_complete {disk : Disk} {dir : Path} {c : Class}
    (complete : Complete disk dir c) :
    Returns (Generation.writeClass dir c) disk (untouched [classFile dir c]) := by
  obtain ⟨text, read, _⟩ := complete.merged
  simp only [Generation.writeClass, complete.named, if_true]
  refine @Returns.bind _ _ _ _ _ disk _ rfl ?_
  rw [← classFile, has_of_read read]
  exact (mergeFile_complete complete).bind rfl

private theorem writeClasses_complete {disk : Disk} {dir : Path} {classes : List Class}
    (complete : ∀ c ∈ classes, Complete disk dir c) :
    Returns (Generation.writeClasses dir classes) disk
      (untouched (classes.map (classFile dir))) := by
  induction classes with
  | nil => rfl
  | cons c rest ih =>
    have first := writeClass_complete (complete c (by simp))
    have others := ih fun c member => complete c (by simp [member])
    refine first.bind (others.bind ?_)
    rw [untouched_append]
    rfl

mutual
theorem writePackage_grounded {disk : Disk} {parent : Path} (p : Package)
    (grounded : Grounded disk parent p) :
    Returns (Generation.writePackage parent p) disk (untouched (packageFiles parent p)) := by
  match p with
  | ⟨name, classes, packages⟩ =>
    obtain ⟨downward, ⟨entries, located⟩, complete, below⟩ := grounded
    simp only [Generation.writePackage, downward, if_true]
    refine (Returns.makeDirs located).bind ?_
    refine (writePackages_grounded packages below).bind ((writeClasses_complete complete).bind ?_)
    rw [untouched_append]
    rfl
termination_by structural p

private theorem writePackages_grounded {disk : Disk} {parent : Path} (all : List Package)
    (grounded : AllGrounded disk parent all) :
    Returns (Generation.writePackages parent all) disk (untouched (packagesFiles parent all)) := by
  match all with
  | [] => rfl
  | p :: ps =>
    obtain ⟨own, others⟩ := grounded
    refine (writePackage_grounded p own).bind ((writePackages_grounded ps others).bind ?_)
    rw [untouched_append]
    rfl
termination_by structural all
end

private theorem generate_grounded {disk : Disk} {root : Path} {entries : List (String × Node)}
    {p : Project} (located : disk.node root = .ok (.dir entries))
    (packages : AllGrounded disk root p.packages)
    (classes : ∀ c ∈ p.classes, Complete disk root c) :
    Returns (generate p root) disk (untouched (projectFiles root p)) := by
  refine (Returns.makeDirs located).bind ?_
  refine (writePackages_grounded p.packages packages).bind ((writeClasses_complete classes).bind ?_)
  rw [untouched_append]
  rfl

/-- Every source declares at most one type, which is named like its file. -/
def SingleTypes (files : List (Path × String)) : Prop :=
  ∀ file ∈ files, ∀ types ∈ Java.sourceTypes? file.2, types.length ≤ 1 ∧
    ∀ type ∈ types, file.1.fileName? = some (type.type.name ++ ".java")

instance (files : List (Path × String)) : Decidable (SingleTypes files) :=
  inferInstanceAs (Decidable (∀ file ∈ files, ∀ types ∈ Java.sourceTypes? file.2, types.length ≤ 1 ∧
    ∀ type ∈ types, file.1.fileName? = some (type.type.name ++ ".java")))

theorem SingleTypes.mono {files others : List (Path × String)} (single : SingleTypes others)
    (inside : files ⊆ others) : SingleTypes files :=
  fun file member => single file (inside member)

private theorem merge_own {text : String} {type : Java.SourceType}
    (read : Java.sourceTypes? text = some [type]) : Java.merge text type.type = .unchanged := by
  have fields : type.type.fields.filter (!type.type.hasField ·.name) = [] := by
    simp only [List.filter_eq_nil_iff, Class.hasField, Bool.not_eq_true', Bool.not_eq_false,
      List.any_eq_true, beq_iff_eq]
    exact fun field member => ⟨field, member, rfl⟩
  have methods : type.type.methods.filter (!type.type.hasMethod ·.name) = [] := by
    simp only [List.filter_eq_nil_iff, Class.hasMethod, Bool.not_eq_true', Bool.not_eq_false,
      List.any_eq_true, beq_iff_eq]
    exact fun method member => ⟨method, member, rfl⟩
  simp [Java.merge, read, Java.Missing.between, Java.Missing.isEmpty, fields, methods]

private theorem java_not_diagram (name : String) : name ++ ".java" ≠ Diagram.fileName := by
  intro same
  have last := congrArg (·.toList.getLast?) same
  simp [Diagram.fileName, List.getLast?_append] at last

theorem node_nonempty {disk : Disk} {path : Path} {node : Node}
    (located : disk.node path = .ok node) : path.text ≠ "" := by
  obtain ⟨spot, found, _⟩ := node_spot located
  exact (spot_iff.mp found).nonempty

section
variable {disk saved : Disk} {scanner : Scanner}

private theorem fromFile_complete (keeps : Keeps disk saved) {dir : Path}
    {entries : List (String × Node)} {c : Class} (located : disk.node dir = .ok (.dir entries))
    (proper : Proper (.dir entries)) (single : SingleTypes (sourcesIn scanner dir entries))
    (origin : FromFile scanner dir entries c) : Complete saved dir c := by
  obtain ⟨name, content, text, types, member, free, declares⟩ := origin
  have listed : (dir.join name, text) ∈ sourcesIn scanner dir entries :=
    sources_listed member free (by simp [sourcesAt, declares.sourceText])
  obtain ⟨atMost, stem⟩ := single _ listed types declares.read
  obtain ⟨type, present, rfl⟩ := List.mem_map.mp declares.declared
  have named := (proper_entry proper.2 member).1
  obtain rfl : name = type.type.name ++ ".java" := by
    have same := (join_fileName (node_nonempty located) named).symm.trans (stem type present)
    exact Option.some.inj same
  have alone : types = [type] := by
    cases types with
    | nil => simp at present
    | cons first rest =>
      obtain rfl : rest = [] := by simpa using atMost
      rw [List.mem_singleton.mp present]
  refine ⟨by simp [Path.isFileName, entry_components named], text, ?_,
    merge_own (alone ▸ declares.read)⟩
  have kept :=
    entry_kept keeps located named (isJavaPath_iff.mp declares.named).1
      (lookup_of_mem proper.1 member) (java_not_diagram _)
  simp [classFile, Disk.readText, Disk.readBytes, kept, declares.decoded]

mutual
/-- A collapsed package leads back down the directories that its chain was made of. -/
theorem mirror_grounded (keeps : Keeps disk saved) {dir : Path} {entries : List (String × Node)}
    {name : String} {node : Node} (located : disk.node dir = .ok (.dir entries))
    (named : IsEntryName name) (found : disk.node (dir.join name) = .ok node)
    (proper : Proper node) (single : SingleTypes (sourcesAt scanner (dir.join name) node))
    (p : Package) (mirrors : Mirrors scanner (dir.join name) node p) :
    Grounded saved dir p.collapse := by
  match p with
  | ⟨label, classes, packages⟩ =>
    obtain ⟨inner, rfl, rfl, _, own, below⟩ := mirrors
    rw [join_fileName (node_nonempty located) named, Option.getD_some]
    have there := node_dir_kept keeps found
    have downward : Path.isDownward ⟨name⟩ = true := by
      simp [Path.isDownward, entry_components named]
    have complete := fun c member => fromFile_complete keeps found proper single (own c member)
    match classes, packages with
    | [], [child] =>
      obtain ⟨⟨next, node, member, free, nested⟩, _⟩ := below
      obtain ⟨nextNamed, nextProper⟩ := proper_entry proper.2 member
      have nextFound :=
        node_join found nextNamed (mirrors_within nested) (lookup_of_mem proper.1 member)
      have nextSingle := single.mono (sources_listed member free)
      have deeper :=
        mirror_grounded keeps found nextNamed nextFound nextProper nextSingle child nested
      simp only [Package.collapse]
      generalize child.collapse = last at deeper
      obtain ⟨tail, classes, packages⟩ := last
      obtain ⟨down, inside, rest⟩ := deeper
      rw [join_join _ named (downward_parts down).1] at inside rest
      exact ⟨downward_join named down, inside, rest⟩
    | [], [] =>
      exact ⟨downward, there, complete, mirrors_grounded keeps found proper single [] below⟩
    | [], first :: second :: more =>
      exact ⟨downward, there, complete,
        mirrors_grounded keeps found proper single (first :: second :: more) below⟩
    | c :: classes, packages =>
      exact ⟨downward, there, complete, mirrors_grounded keeps found proper single packages below⟩
termination_by structural p

private theorem mirrors_grounded (keeps : Keeps disk saved) {dir : Path}
    {entries : List (String × Node)} (located : disk.node dir = .ok (.dir entries))
    (proper : Proper (.dir entries)) (single : SingleTypes (sourcesIn scanner dir entries))
    (all : List Package) (mirrors : AllMirror scanner dir entries all) :
    AllGrounded saved dir (Package.collapseAll all) := by
  match all with
  | [] => trivial
  | p :: ps =>
    obtain ⟨⟨name, node, member, free, first⟩, others⟩ := mirrors
    obtain ⟨named, inner⟩ := proper_entry proper.2 member
    have found := node_join located named (mirrors_within first) (lookup_of_mem proper.1 member)
    exact ⟨mirror_grounded keeps located named found inner
      (single.mono (sources_listed member free)) p first,
      mirrors_grounded keeps located proper single ps others⟩
termination_by structural all
end

end

private theorem complete_linked {disk : Disk} {dir : Path} {c : Class} (known : List String)
    (complete : Complete disk dir c) : Complete disk dir (c.inferContained known) :=
  ⟨complete.named, complete.merged⟩

mutual
theorem grounded_linked {disk : Disk} {parent : Path} (known : List String) (p : Package)
    (grounded : Grounded disk parent p) :
    Grounded disk parent (p.mapClasses (Class.inferContained known)) := by
  match p with
  | ⟨name, classes, packages⟩ =>
    obtain ⟨downward, there, complete, below⟩ := grounded
    refine ⟨downward, there, ?_, allGrounded_linked known packages below⟩
    intro c member
    obtain ⟨raw, present, rfl⟩ := List.mem_map.mp member
    exact complete_linked known (complete raw present)
termination_by structural p

private theorem allGrounded_linked {disk : Disk} {parent : Path} (known : List String)
    (all : List Package) (grounded : AllGrounded disk parent all) :
    AllGrounded disk parent (Package.mapAll (Class.inferContained known) all) := by
  match all with
  | [] => trivial
  | p :: ps => exact ⟨grounded_linked known p grounded.1, allGrounded_linked known ps grounded.2⟩
termination_by structural all
end

private theorem load_file {disk : Disk} {file : Path} {text : String}
    (read : disk.readText file = .ok text) : Diagram.load disk file = .ok (Diagram.read text) := by
  have isFile : disk.isDir file = false := by
    simp only [Disk.readText, Disk.readBytes] at read
    simp only [Disk.isDir]
    generalize disk.node file = located at read ⊢
    cases located with
    | error => rfl
    | ok node =>
      cases node with
      | file => rfl
      | dir => simp at read
  unfold Diagram.load
  simp only [isFile, Bool.false_eq_true, if_false, read]

/-- Sources are left alone when the diagram made of them is turned back into sources: the diagram is
read as the project it was made of, every class is found unchanged in a file of its own, and no file
but the diagram is made or changed. -/
theorem regeneration_changes_nothing {disk saved : Disk} {source output file : Path}
    {exclude : List String} {found : Extraction} (proper : Proper disk.root)
    (extracted : extract disk source exclude = .ok found)
    (single : SingleTypes (sources disk source exclude))
    (ascii : ∀ file ∈ sources disk source exclude, AsciiWords file.2)
    (unreserved : ∀ c ∈ found.project.allClasses, ∀ name ∈ typeNames c, name ∉ reservedWords)
    (plain : ∀ dir ∈ directories disk source exclude, IsDirectoryName (dir.fileName?.getD ""))
    (drawn : (Diagram.save found.project output).run.run disk = (.ok file, saved)) :
    Diagram.load saved file = .ok found.project ∧
      ∃ report, (generate found.project source).run.run saved = (.ok report, saved) ∧
        report.created = [] ∧ report.merged = [] ∧ report.skipped = [] ∧
        report.unchanged = projectFiles source found.project ∧
        report.unchanged.length = found.project.classCount ∧
        ∀ names, names.getLast? ≠ some Diagram.fileName →
          fileAt saved.root names = fileAt disk.root names := by
  obtain ⟨rfl, keeps, read⟩ := save_keeps drawn
  have loaded : Diagram.load saved (output.join Diagram.fileName) = .ok found.project := by
    rw [load_file read, (extracted_drawable extracted ascii unreserved plain).read_back]
  obtain ⟨entries, scanner, harvest, located, made, normal, own, below⟩ := extract_mirrors extracted
  simp only [sources, located, made] at single
  obtain ⟨spot, _, here⟩ := node_spot located
  have inner : Proper (.dir entries) := proper_get proper here
  obtain ⟨others, there⟩ := node_dir_kept keeps located
  have generated :
      Returns (generate found.project source) saved
      (untouched (projectFiles source found.project)) := by
    apply generate_grounded there
    · rw [normal]
      exact allGrounded_linked _ _
        (mirrors_grounded keeps located inner single harvest.packages below)
    · rw [normal]
      intro c member
      obtain ⟨raw, present, rfl⟩ := List.mem_map.mp member
      exact complete_linked _ (fromFile_complete keeps located inner single (own raw present))
  exact ⟨loaded, _, generated, rfl, rfl, rfl, rfl,
    projectFiles_length source found.project, keeps.files⟩

def stall : Disk where
  root := .dir
    [("s", .dir [("shop", .dir [("item", .dir
      [("Item.java", .file "class Item { Item next; }".toUTF8)])])])]
  cwd := []

private theorem stall_proper : Proper stall.root :=
  ⟨by decide, by decide,
    ⟨by decide, by decide,
      ⟨by decide, by decide, ⟨by decide, by decide, trivial, trivial⟩, trivial⟩, trivial⟩, trivial⟩

theorem stall_regenerated : ∃ found file saved, extract stall ⟨"s"⟩ [] = .ok found ∧
    (Diagram.save found.project ⟨"s/out"⟩).run.run stall = (.ok file, saved) ∧
    Diagram.load saved file = .ok found.project ∧
      ∃ report, (generate found.project ⟨"s"⟩).run.run saved = (.ok report, saved) ∧
        report.created = [] ∧ report.merged = [] ∧ report.skipped = [] ∧
        report.unchanged = projectFiles ⟨"s"⟩ found.project ∧
        report.unchanged.length = found.project.classCount ∧
        ∀ names, names.getLast? ≠ some Diagram.fileName →
          fileAt saved.root names = fileAt stall.root names := by
  have checked : ((extract stall ⟨"s"⟩ []).toOption.any fun found =>
      ((Diagram.save found.project ⟨"s/out"⟩).run.run stall).1.isOk &&
        decide (∀ c ∈ found.project.allClasses, ∀ name ∈ typeNames c, name ∉ reservedWords)) =
        true := by decide +kernel
  have single : SingleTypes (sources stall ⟨"s"⟩ []) := by decide +kernel
  have ascii : ∀ file ∈ sources stall ⟨"s"⟩ [], AsciiWords file.2 := by decide +kernel
  have plain : ∀ dir ∈ directories stall ⟨"s"⟩ [], IsDirectoryName (dir.fileName?.getD "") := by
    decide +kernel
  obtain ⟨found, extracted, holds⟩ := (Option.any_eq_true _ _).mp checked
  obtain ⟨drawn, unreserved⟩ := Bool.and_eq_true_iff.mp holds
  have extracted := ok_of_toOption extracted
  cases run : (Diagram.save found.project ⟨"s/out"⟩).run.run stall with
  | mk result saved =>
    cases result with
    | error => simp [run, Except.isOk, Except.toBool] at drawn
    | ok file =>
      exact ⟨found, file, saved, extracted, run,
        regeneration_changes_nothing stall_proper extracted single ascii
        (of_decide_eq_true unreserved) plain run⟩

end ClassDiagram.Proofs.Regeneration
