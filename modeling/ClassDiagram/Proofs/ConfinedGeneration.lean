import ClassDiagram.Generation
import ClassDiagram.Proofs.FileWrites
import ClassDiagram.Proofs.PathPlaces

/-! Generation keeps to its root. Whatever the names in a project are, and wherever a run stops, the
disk differs only at the root, at directories above it that were missing, and at names below it; and
the files among these are named after classes. -/

namespace ClassDiagram.Proofs.ConfinedGeneration
open Files Walks DiskChanges FileWrites PathPlaces

/-- Directories may be made at some places, where nothing was, and files may be written at others,
where no directory was. All else is as it was. -/
structure Confined (mayMake mayWrite : List String → Prop) (old new : Disk) : Prop where
  cwd : new.cwd = old.cwd
  places : ∀ place, thingAt new.root place = thingAt old.root place ∨
    (thingAt old.root place = none ∧ thingAt new.root place = some .directory ∧ mayMake place) ∨
    (thingAt old.root place ≠ some .directory ∧
      (∃ content, thingAt new.root place = some (.file content)) ∧ mayWrite place)

section
variable {mayMake mayWrite : List String → Prop}

theorem Confined.refl (disk : Disk) : Confined mayMake mayWrite disk disk :=
  ⟨rfl, fun _ => Or.inl rfl⟩

theorem Confined.trans {first second third : Disk} (one : Confined mayMake mayWrite first second)
    (two : Confined mayMake mayWrite second third) : Confined mayMake mayWrite first third := by
  refine ⟨two.cwd.trans one.cwd, fun place => ?_⟩
  rcases one.places place with same | ⟨none, made, may⟩ | ⟨noDir, ⟨content, written⟩, may⟩
  · rw [← same]
    exact two.places place
  · -- a directory that was made stays
    rcases two.places place with same | ⟨none', _⟩ | ⟨noDir, _⟩
    · exact Or.inr (Or.inl ⟨none, same.trans made, may⟩)
    · simp [made] at none'
    · exact absurd made noDir
  · -- a file that was written may be written again
    rcases two.places place with same | ⟨none, _⟩ | ⟨_, again, _⟩
    · exact Or.inr (Or.inr ⟨noDir, ⟨content, same.trans written⟩, may⟩)
    · simp [written] at none
    · exact Or.inr (Or.inr ⟨noDir, again, may⟩)

private theorem makeDir_confined {disk made : Disk} {path : Path}
    (done : disk.makeDir path = .ok made) (may : mayMake (placeOf disk.cwd path)) :
    Confined mayMake mayWrite disk made := by
  obtain ⟨spot, found, lacking, rfl⟩ := makeDir_makes done
  have free : dirAt disk.root spot.names = false := by simp [dirAt, lacking]
  refine ⟨rfl, fun place => ?_⟩
  by_cases here : place = spot.names
  · obtain ⟨before, name, ended, above⟩ :=
      walk_new (spot_iff.mp found).walked (Or.inr (segments_ne_nil path)) lacking
    have there := @get_put (.dir []) disk.root before name above
    rw [← ended] at there
    subst here
    exact Or.inr
      (Or.inl ⟨by simp [thingAt, lacking], by simp [thingAt, there], by rwa [spot_place found]⟩)
  · exact Or.inl (thingAt_put rfl free here)

private theorem makeDirsAlong_confined {paths : List Path} {disk : Disk}
    (may : ∀ path ∈ paths, mayMake (placeOf disk.cwd path)) :
    Confined mayMake mayWrite disk (Disk.makeDirsAlong paths disk).2 := by
  refine makeDirsAlong_keeps (.refl disk) fun path listed between made confined done => ?_
  exact confined.trans (makeDir_confined done (by rw [confined.cwd]; exact may path listed))

private theorem writeText_confined {disk written : Disk} {path : Path} {text : String}
    (done : disk.writeText path text = .ok written) (may : mayWrite (placeOf disk.cwd path)) :
    Confined mayMake mayWrite disk written := by
  obtain ⟨place, name, writes⟩ := writeText_writes done
  have named : place ++ [name] = placeOf disk.cwd path := spot_place writes.spotted
  refine ⟨writes.cwd, fun other => ?_⟩
  by_cases here : other = place ++ [name]
  · subst here
    have noDir : thingAt disk.root (place ++ [name]) ≠ some .directory := by
      rw [ne_eq, ← dirAt_thing, writes.free]
      simp
    exact Or.inr (Or.inr ⟨noDir, ⟨text.toUTF8, by simp [thingAt, writes.here]⟩, by rwa [named]⟩)
  · rw [writes.written_eq]
    exact Or.inl (thingAt_put rfl writes.free here)

end

def Confines {α : Type} (cwd : List String) (mayMake mayWrite : List String → Prop)
    (work : Work α) : Prop :=
  ∀ disk, disk.cwd = cwd → Confined mayMake mayWrite disk (work.run.run disk).2

section
variable {cwd : List String} {mayMake mayWrite : List String → Prop}

theorem Confines.pure {α : Type} (value : α) : Confines cwd mayMake mayWrite (Pure.pure value) :=
  fun disk _ => .refl disk

theorem Confines.get : Confines cwd mayMake mayWrite (MonadState.get : Work Disk) :=
  fun disk _ => .refl disk

theorem Confines.bind {α β : Type} {work : Work α} {next : α → Work β}
    (first : Confines cwd mayMake mayWrite work)
    (second : ∀ value, Confines cwd mayMake mayWrite (next value)) :
    Confines cwd mayMake mayWrite (work >>= next) := by
  intro disk here
  have start := first disk here
  cases run : work.run.run disk with
  | mk outcome between =>
    rw [run] at start
    cases outcome with
    | error error =>
      rw [run_bind_error run]
      exact start
    | ok value =>
      rw [run_bind_ok run]
      exact start.trans (second value between (start.cwd.trans here))

theorem Confines.ask {α : Type} (path : Path) (question : Disk → Except Fault α) :
    Confines cwd mayMake mayWrite (Work.ask path question) := by
  intro disk _
  cases answered : question disk with
  | error fault =>
    rw [run_ask_error answered]
    exact .refl disk
  | ok answer =>
    rw [run_ask_ok answered]
    exact .refl disk

theorem Confines.makeDirs {path : Path}
    (may : ∀ above ∈ path.lineage, mayMake (placeOf cwd above)) :
    Confines cwd mayMake mayWrite (Work.makeDirs path) := by
  intro disk here
  have along := @makeDirsAlong_confined mayMake mayWrite path.lineage disk (by rwa [here])
  rw [Work.makeDirs, run_get]
  cases made : disk.makeDirs path with
  | mk outcome between =>
    rw [show Disk.makeDirsAlong path.lineage disk = (outcome, between) from made] at along
    cases outcome <;> exact along

theorem Confines.write {path : Path} (may : mayWrite (placeOf cwd path)) (text : String) :
    Confines cwd mayMake mayWrite (Work.attempt path (·.writeText path text)) := by
  intro disk here
  cases done : disk.writeText path text with
  | error fault =>
    rw [run_attempt_error done]
    exact .refl disk
  | ok written =>
    rw [run_attempt_ok done]
    exact writeText_confined done (by rwa [here])

theorem Confines.mergeFile {path : Path} (may : mayWrite (placeOf cwd path)) (model : Class) :
    Confines cwd mayMake mayWrite (mergeFile path model) := by
  refine .bind (.ask path _) fun source => ?_
  cases Java.merge source model with
  | merged fields methods text => exact .bind (.write may text) fun _ => .pure _
  | unchanged => exact .pure _
  | refused => exact .pure _
  | notOneType count => exact .pure _

end

/-- Where generation may make directories: at the root, above it, and at names below it. -/
def MayMake (cwd : List String) (root : Path) (place : List String) : Prop :=
  (∃ above, above <+: root.components ∧ place = above.foldl follow cwd) ∨
    ∃ names : List String, (∀ name ∈ names, IsName name) ∧ place = placeOf cwd root ++ names

/-- Where it may write files: below the root, at names of files for the classes. -/
def MayWrite (cwd : List String) (root : Path) (classes : List Class) (place : List String) :
    Prop :=
  ∃ names : List String, (∀ name ∈ names, IsName name) ∧ ∃ c ∈ classes, IsName (c.name ++ ".java") ∧
    place = placeOf cwd root ++ (names ++ [c.name ++ ".java"])

section
variable {cwd : List String} {root : Path} {all : List Class}

private theorem makeDirs_confined {dir : Path} (below : Below root dir) :
    Confines cwd (MayMake cwd root) (MayWrite cwd root all) (Work.makeDirs dir) := by
  refine .makeDirs fun path member => ?_
  rcases below.lineage member with above | under
  · exact Or.inl ⟨path.components, above, rfl⟩
  · exact Or.inr (under.place cwd)

private theorem writeClass_confined {dir : Path} (below : Below root dir) {c : Class}
    (listed : c ∈ all) :
    Confines cwd (MayMake cwd root) (MayWrite cwd root all) (Generation.writeClass dir c) := by
  simp only [Generation.writeClass]
  split
  next isFile =>
    obtain ⟨named, single⟩ := javaFile_named isFile
    have down : Path.isDownward ⟨c.name ++ ".java"⟩ = true := by simp [Path.isDownward, single]
    have may : MayWrite cwd root all (placeOf cwd (dir.join (c.name ++ ".java"))) := by
      obtain ⟨names, inner, place⟩ := below.place cwd
      refine ⟨names, inner, c, listed, named, ?_⟩
      rw [placeOf, join_components down, single, List.foldl_append, ← placeOf, place]
      simp [follow]
    refine .bind .get fun disk => ?_
    split
    · refine .bind (.mergeFile may c) fun outcome => ?_
      cases outcome <;> exact .pure _
    · exact .bind (.write may _) fun _ => .pure _
  next => exact .pure _

private theorem writeClasses_confined {dir : Path} (below : Below root dir) {classes : List Class}
    (listed : classes ⊆ all) :
    Confines cwd (MayMake cwd root) (MayWrite cwd root all)
      (Generation.writeClasses dir classes) := by
  induction classes with
  | nil => exact .pure _
  | cons c rest ih =>
    obtain ⟨own, others⟩ := List.cons_subset.mp listed
    exact .bind (writeClass_confined below own) fun _ => .bind (ih others) fun _ => .pure _

mutual
theorem writePackage_confined {parent : Path} (below : Below root parent) (p : Package)
    (listed : p.allClasses ⊆ all) :
    Confines cwd (MayMake cwd root) (MayWrite cwd root all) (Generation.writePackage parent p) := by
  match p with
  | ⟨name, classes, packages⟩ =>
    simp only [Package.allClasses, List.append_subset] at listed
    simp only [Generation.writePackage]
    split
    next down =>
      have under := below.join down
      exact .bind (makeDirs_confined under) fun _ =>
        .bind (writePackages_confined under packages listed.2) fun _ =>
        .bind (writeClasses_confined under listed.1) fun _ => .pure _
    next => exact .pure _
termination_by structural p

private theorem writePackages_confined {parent : Path} (below : Below root parent)
    (packages : List Package) (listed : Package.classesOf packages ⊆ all) :
    Confines cwd (MayMake cwd root) (MayWrite cwd root all)
      (Generation.writePackages parent packages) := by
  match packages with
  | [] => exact .pure _
  | p :: rest =>
    simp only [Package.classesOf, List.append_subset] at listed
    exact .bind (writePackage_confined below p listed.1) fun _ =>
      .bind (writePackages_confined below rest listed.2) fun _ => .pure _
termination_by structural packages
end

theorem generate_confined (project : Project) :
    Confines cwd (MayMake cwd root) (MayWrite cwd root project.allClasses)
      (generate project root) := by
  have below := Below.refl root
  have listed := List.append_subset.mp (List.Subset.refl project.allClasses)
  exact .bind (makeDirs_confined below) fun _ =>
    .bind (writePackages_confined below project.packages listed.2) fun _ =>
    .bind (writeClasses_confined below listed.1) fun _ => .pure _

end

/-- Wherever the disk differs after generation, whether that succeeds or stops midway, there is the
root, a directory above it that was missing, or something that names below the root lead to; and a
file that is new or changed there is named after a class. -/
theorem generation_stays_below_root (project : Project) (root : Path) (disk : Disk)
    {result : Except Error Report} {changed : Disk}
    (ran : (generate project root).run.run disk = (result, changed)) {place : List String}
    (differs : thingAt changed.root place ≠ thingAt disk.root place) :
    ((∃ above, above <+: root.components ∧ place = above.foldl follow disk.cwd) ∧
      thingAt disk.root place = none ∨
      ∃ names :
      List String, names ≠ [] ∧ (∀ name ∈ names, IsName name) ∧
      place = placeOf disk.cwd root ++ names) ∧
    ∀ content, thingAt changed.root place = some (.file content) →
      ∃ c ∈ project.allClasses, place.getLast? = some (c.name ++ ".java") := by
  have confined := @generate_confined disk.cwd root project disk rfl
  rw [ran] at confined
  rcases confined.places place with same | ⟨none, made, may⟩ |
    ⟨_, _, names, inner, c, listed, named, rfl⟩
  · exact absurd same differs
  · refine ⟨?_, fun content isFile => by simp [made] at isFile⟩
    rcases may with above | ⟨names, inner, rfl⟩
    · exact Or.inl ⟨above, none⟩
    · cases names with
      | nil => exact Or.inl ⟨⟨root.components, List.prefix_rfl, by simp [placeOf]⟩, none⟩
      | cons name names => exact Or.inr ⟨name :: names, by simp, inner, rfl⟩
  · refine ⟨Or.inr ⟨names ++ [c.name ++ ".java"], by simp, fun name member => ?_, rfl⟩,
      fun _ _ => ⟨c, listed, by simp⟩⟩
    rcases List.mem_append.mp member with member | member
    · exact inner name member
    · exact List.mem_singleton.mp member ▸ named

def harbour : Project where
  packages :=
    [{ name := "..", classes := [{ name := "Wreck" }] },
      { name := "quay//pier", classes := [{ name := "Boat" }] }]

def shore : Disk where
  root := .dir []
  cwd := []

theorem harbour_stays :
    ∃ result changed, (generate harbour ⟨"bay/../port"⟩).run.run shore = (result, changed) ∧
    thingAt changed.root ["port", "quay", "pier", "Boat.java"] ≠
      thingAt shore.root ["port", "quay", "pier", "Boat.java"] ∧
    ((∃ above, above <+: Path.components ⟨"bay/../port"⟩ ∧
      ["port", "quay", "pier", "Boat.java"] = above.foldl follow shore.cwd) ∧
        thingAt shore.root ["port", "quay", "pier", "Boat.java"] = none ∨
      ∃ names : List String, names ≠ [] ∧ (∀ name ∈ names, IsName name) ∧
        ["port", "quay", "pier", "Boat.java"] = placeOf shore.cwd ⟨"bay/../port"⟩ ++ names) ∧
    ∀ content, thingAt changed.root ["port", "quay", "pier", "Boat.java"] = some (.file content) →
      ∃ c ∈ harbour.allClasses, ["port", "quay", "pier", "Boat.java"].getLast? =
      some (c.name ++ ".java") := by
  have written :
      (thingAt ((generate harbour ⟨"bay/../port"⟩).run.run shore).2.root ["port", "quay", "pier",
        "Boat.java"]).isSome = true := by
    decide +kernel
  have nothing : thingAt shore.root ["port", "quay", "pier", "Boat.java"] = none := rfl
  cases ran : (generate harbour ⟨"bay/../port"⟩).run.run shore with
  | mk result changed =>
    rw [ran] at written
    have differs : thingAt changed.root ["port", "quay", "pier", "Boat.java"] ≠
        thingAt shore.root ["port", "quay", "pier", "Boat.java"] := by
      intro same
      simp [same, nothing] at written
    exact ⟨result, changed, rfl, differs,
      generation_stays_below_root harbour ⟨"bay/../port"⟩ shore ran differs⟩

end ClassDiagram.Proofs.ConfinedGeneration
