import ClassDiagram.Proofs.Regeneration
import ClassDiagram.Proofs.ShownModels

/-! Generation that is run again. Whatever the first run finds, it leaves every directory made and
every file showing its class, later steps of the run take neither away, and so the second run finds
nothing to write. -/

namespace ClassDiagram.Proofs.RepeatedGeneration
open Files Walks DiskChanges FileWrites MergedMembers SkeletonText ShownModels Regeneration

/-- The content is a text that shows the model. -/
def Answers (content : ByteArray) (model : Class) : Prop :=
  ∃ text, Disk.decode content = .ok text ∧ Shows text model

/-- What steps of a run may do to a disk: directories stay, and files go on showing what they
showed. -/
structure Evolves (old new : Disk) : Prop where
  cwd : new.cwd = old.cwd
  dirs : ∀ names, dirAt old.root names = true → dirAt new.root names = true
  files : ∀ names content, fileAt old.root names = some content →
    ∃ content', fileAt new.root names = some content' ∧ ∀ model, Answers content model →
    Answers content' model

theorem Evolves.refl (disk : Disk) : Evolves disk disk :=
  ⟨rfl, fun _ there => there, fun _ content found => ⟨content, found, fun _ answers => answers⟩⟩

theorem Evolves.trans {first second third : Disk} (one : Evolves first second)
    (two : Evolves second third) : Evolves first third := by
  refine ⟨two.cwd.trans one.cwd, fun names there => two.dirs names (one.dirs names there),
    fun names content found => ?_⟩
  obtain ⟨middle, between, kept⟩ := one.files names content found
  obtain ⟨last, after, still⟩ := two.files names middle between
  exact ⟨last, after, fun model answers => still model (kept model answers)⟩

private theorem evolves_of_stays {old new : Disk} (stays : Stays old new) : Evolves old new :=
  ⟨stays.cwd, stays.dirs, fun names content found =>
    ⟨content, (stays.files names).trans found, fun _ answers => answers⟩⟩

/-- The path leads to a directory, or nowhere that one could be made. -/
def Made (disk : Disk) (path : Path) : Prop :=
  path.lineage = [] ∨ ∃ entries, disk.node path = .ok (.dir entries)

private theorem makeDir_made {disk made : Disk} {path : Path}
    (done : disk.makeDir path = .ok made) : ∃ entries, made.node path = .ok (.dir entries) := by
  have stays := makeDir_stays done
  obtain ⟨spot, found, lacking, rfl⟩ := makeDir_makes done
  obtain ⟨before, name, ended, above⟩ :=
    walk_new (spot_iff.mp found).walked (Or.inr (segments_ne_nil path)) lacking
  have here := @get_put (.dir []) disk.root before name above
  rw [← ended] at here
  exact ⟨[], by simp only [Disk.node, spot_same stays.cwd stays.dirs found, here]⟩

theorem makeDirs_made {disk made : Disk} {path : Path}
    (done : disk.makeDirs path = (.ok (), made)) : Made made path := by
  cases shape : path.lineage with
  | nil => exact Or.inl shape
  | cons first above =>
    -- the first of the line is the path itself
    obtain rfl : first = path := by
      simp only [Path.lineage, Path.ancestors] at shape
      split at shape
      · simp at shape
      · exact (List.cons.inj shape).1.symm
    have failed :
        ∀ {disk : Disk} {fault : Fault},
        (if disk.isDir first then Except.ok () else .error fault, disk) = (.ok (), made) →
        Made made first := by
      intro disk fault done
      obtain ⟨result, rfl⟩ := Prod.mk.inj done
      split at result
      next isDir => exact Or.inr (isDir_node isDir)
      next => simp at result
    simp only [Disk.makeDirs, shape, Disk.makeDirsAlong] at done
    split at done
    next new makes =>
      obtain ⟨_, rfl⟩ := Prod.mk.inj done
      exact Or.inr (makeDir_made makes)
    next =>
      split at done
      · simp at done
      next between _ =>
        split at done
        next new makes =>
          obtain ⟨_, rfl⟩ := Prod.mk.inj done
          exact Or.inr (makeDir_made makes)
        next => exact failed done
    next => exact failed done

theorem Made.again {disk : Disk} {path : Path} (made : Made disk path) :
    Returns (Work.makeDirs path) disk () := by
  rcases made with nowhere | ⟨entries, located⟩
  · exact run_makeDirs_ok (by simp [Disk.makeDirs, nowhere, Disk.makeDirsAlong])
  · exact Returns.makeDirs located

theorem Made.later {disk later : Disk} (evolves : Evolves disk later) {path : Path}
    (made : Made disk path) : Made later path := by
  refine made.imp_right fun ⟨entries, located⟩ => ?_
  obtain ⟨spot, found, here⟩ := node_spot located
  obtain ⟨others, there⟩ := dirAt_iff.mp (evolves.dirs _ (dirAt_iff.mpr ⟨entries, here⟩))
  exact ⟨others, by simp only [Disk.node, spot_same evolves.cwd evolves.dirs found, there]⟩

private theorem makeDirs_step {disk made : Disk} {path : Path}
    (done : (Work.makeDirs path).run.run disk = (.ok (), made)) :
    Evolves disk made ∧ Made made path := by
  have result := run_makeDirs_succeeds done
  exact ⟨evolves_of_stays (makeDirs_stays result), makeDirs_made result⟩

def Served (disk : Disk) (file : Path × Class) : Prop :=
  ∃ text, disk.readText file.1 = .ok text ∧ Shows text file.2

private theorem readText_at {disk : Disk} {path : Path} {names : List String} {content : ByteArray}
    (found : disk.spot path = .ok ⟨names, false⟩) (here : fileAt disk.root names = some content) :
    disk.readText path = Disk.decode content := by
  simp only [Disk.readText, Disk.readBytes, Disk.node, found, fileAt_iff.mp here,
    Bool.false_eq_true, if_false]

theorem Served.later {disk later : Disk} (evolves : Evolves disk later) {file : Path × Class}
    (served : Served disk file) : Served later file := by
  obtain ⟨text, read, shows⟩ := served
  obtain ⟨names, content, found, here, decoded⟩ := readText_place read
  obtain ⟨content', there, kept⟩ := evolves.files names content here
  obtain ⟨text', decoded', shows'⟩ := kept file.2 ⟨text, decoded, shows⟩
  exact ⟨text', (readText_at (spot_same evolves.cwd evolves.dirs found) there).trans decoded',
    shows'⟩

/-- Writing a file that shows what the old one showed. -/
theorem write_evolves {disk written : Disk} {path : Path} {text : String}
    (done : disk.writeText path text = .ok written)
    (kept : ∀ source, disk.readText path = .ok source → ∀ model, Shows source model →
      Shows text model) : Evolves disk written := by
  obtain ⟨place, name, writes⟩ := writeText_writes done
  refine ⟨writes.cwd, fun names => writes.dirs, fun names content found => ?_⟩
  by_cases here : names = place ++ [name]
  · subst here
    refine ⟨text.toUTF8, fileAt_iff.mpr writes.here,
      fun model ⟨source, decoded, shows⟩ => ⟨text, decode_encoded text, ?_⟩⟩
    exact kept source ((readText_at writes.spotted found).trans decoded) model shows
  · exact ⟨content, (writes.files here).trans found, fun _ answers => answers⟩

section
variable {dir : Path} {c : Class} (named : Path.isFileName ⟨c.name ++ ".java"⟩ = true) {disk : Disk}
include named

/-- A class whose file is there is merged into it. -/
theorem writeClass_there (there : disk.has (classFile dir c) = true) :
    (Generation.writeClass dir c).run.run disk = (do
      match ← mergeFile (classFile dir c) c with
      | .merged _ _ => return { merged := [classFile dir c] }
      | .unchanged => return { unchanged := [classFile dir c] }
      | .skipped _ => return { skipped := [classFile dir c] } : Work Report).run.run disk := by
  simp only [Generation.writeClass, named, if_true]
  rw [run_get, ← classFile]
  exact congrArg (fun work : Work Report => work.run.run disk) (if_pos there)

/-- Otherwise the file is new. -/
theorem writeClass_new (there : disk.has (classFile dir c) = false) :
    (Generation.writeClass dir c).run.run disk = (do
      Work.attempt (classFile dir c) (·.writeText (classFile dir c) (Java.skeletonText c))
      return { created := [classFile dir c] } : Work Report).run.run disk := by
  simp only [Generation.writeClass, named, if_true]
  rw [run_get, ← classFile, there]
  rfl

end

/-- What becomes of the file of a class, with the report of it and the disk that is left. -/
inductive WritesClass (dir : Path) (c : Class) (disk : Disk) : Report → Disk → Prop where
  | refused (unnamed : Path.isFileName ⟨c.name ++ ".java"⟩ = false) :
    WritesClass dir c disk { skipped := [classFile dir c] } disk
  | created {changed : Disk} (new : disk.has (classFile dir c) = false)
      (written : disk.writeText (classFile dir c) (Java.skeletonText c) = .ok changed) :
      WritesClass dir c disk { created := [classFile dir c] } changed
  | merged {changed : Disk} {source text : String} {fields methods : Nat}
      (read : disk.readText (classFile dir c) = .ok source)
      (merges : Java.merge source c = .merged fields methods text)
      (written : disk.writeText (classFile dir c) text = .ok changed) :
      WritesClass dir c disk { merged := [classFile dir c] } changed
  | unchanged {source : String} (read : disk.readText (classFile dir c) = .ok source)
      (unmerged : ∀ fields methods text, Java.merge source c ≠ .merged fields methods text) :
      WritesClass dir c disk { unchanged := [classFile dir c] } disk
  | skipped {source : String} (read : disk.readText (classFile dir c) = .ok source)
      (unmerged : ∀ fields methods text, Java.merge source c ≠ .merged fields methods text) :
      WritesClass dir c disk { skipped := [classFile dir c] } disk

theorem writeClass_writes {dir : Path} {c : Class} {disk changed : Disk} {report : Report}
    (run : (Generation.writeClass dir c).run.run disk = (.ok report, changed)) :
    WritesClass dir c disk report changed := by
  cases named : Path.isFileName ⟨c.name ++ ".java"⟩ with
  | false =>
    simp only [Generation.writeClass, named, Bool.false_eq_true, if_false] at run
    obtain ⟨same, rfl⟩ := Prod.mk.inj run
    exact Except.ok.inj same ▸ .refused named
  | true =>
    cases there : disk.has (classFile dir c) with
    | false =>
      rw [writeClass_new named there] at run
      obtain ⟨_, between, attempted, rest⟩ := run_bind_succeeds run
      obtain ⟨same, rfl⟩ := Prod.mk.inj rest
      exact Except.ok.inj same ▸ .created there (run_attempt_succeeds attempted)
    | true =>
      rw [writeClass_there named there] at run
      obtain ⟨outcome, between, merging, rest⟩ := run_bind_succeeds run
      obtain ⟨_, _, failed⟩ |
          ⟨source, read,
            ⟨rfl, unmerged, rests⟩ | ⟨fields, methods, text, merges, written, outcome_eq⟩⟩ :=
        mergeFile_cases merging
      · cases failed
      · cases outcome with
        | merged fields methods => exact absurd rfl (unmerged fields methods)
        | unchanged =>
          obtain ⟨same, rfl⟩ := Prod.mk.inj rest
          exact Except.ok.inj same ▸ .unchanged read rests
        | skipped reason =>
          obtain ⟨same, rfl⟩ := Prod.mk.inj rest
          exact Except.ok.inj same ▸ .skipped read rests
      · obtain rfl := Except.ok.inj outcome_eq
        obtain ⟨same, rfl⟩ := Prod.mk.inj rest
        exact Except.ok.inj same ▸ .merged read merges written

private theorem writeClass_step {dir : Path} {c : Class} (plain : PlainClass c)
    {disk changed : Disk} {report : Report}
    (run : (Generation.writeClass dir c).run.run disk = (.ok report, changed)) :
    Evolves disk changed ∧
    (Path.isFileName ⟨c.name ++ ".java"⟩ = true → Served changed (classFile dir c, c)) := by
  cases writeClass_writes run with
  | refused unnamed => exact ⟨Evolves.refl disk, by simp [unnamed]⟩
  | created new written =>
    refine ⟨write_evolves written fun source read => ?_,
      fun _ => ⟨_, writeText_read written, skeleton_shows plain⟩⟩
    simp [has_of_read read] at new
  | merged read merges written =>
    refine ⟨write_evolves written fun old reread other shows => ?_,
      fun _ => ⟨_, writeText_read written, merged_shows plain.members merges⟩⟩
    obtain rfl := Except.ok.inj (read.symm.trans reread)
    exact merged_keeps plain.members merges shows
  | unchanged read unmerged | skipped read unmerged =>
    exact ⟨Evolves.refl disk, fun _ => ⟨_, read, unchanged_shows plain.members unmerged⟩⟩

/-- Two pieces of work whose reports are put together. -/
theorem append_succeeds {first second : Work Report} {disk changed : Disk} {report : Report}
    (run : (do return (← first).append (← second) : Work Report).run.run disk =
      (.ok report, changed)) :
    ∃ one between two, first.run.run disk = (.ok one, between) ∧
      second.run.run between = (.ok two, changed) ∧ report = one.append two := by
  obtain ⟨one, between, start, behind⟩ := run_bind_succeeds run
  obtain ⟨two, last, final, done⟩ := run_bind_succeeds behind
  obtain ⟨same, rfl⟩ := Prod.mk.inj done
  exact ⟨one, between, two, start, final, (Except.ok.inj same).symm⟩

def targets (dir : Path) (classes : List Class) : List (Path × Class) :=
  (classes.filter fun c => Path.isFileName ⟨c.name ++ ".java"⟩).map fun c => (classFile dir c, c)

private theorem mem_targets {dir : Path} {c : Class} {rest : List Class} {file : Path × Class} :
    file ∈ targets dir (c :: rest) ↔
    (Path.isFileName ⟨c.name ++ ".java"⟩ = true ∧ file = (classFile dir c, c)) ∨
    file ∈ targets dir rest := by
  cases named : Path.isFileName ⟨c.name ++ ".java"⟩ <;> simp [targets, named]

mutual
def packageDirs (parent : Path) : Package → List Path
  | ⟨name, _, packages⟩ =>
    if Path.isDownward ⟨name⟩ then parent.join name :: packagesDirs (parent.join name) packages
      else []

def packagesDirs (parent : Path) : List Package → List Path
  | [] => []
  | p :: ps => packageDirs parent p ++ packagesDirs parent ps
end

mutual
def packageTargets (parent : Path) : Package → List (Path × Class)
  | ⟨name, classes, packages⟩ =>
    if Path.isDownward ⟨name⟩ then
      packagesTargets (parent.join name) packages ++ targets (parent.join name) classes else []

def packagesTargets (parent : Path) : List Package → List (Path × Class)
  | [] => []
  | p :: ps => packageTargets parent p ++ packagesTargets parent ps
end

def projectTargets (root : Path) (project : Project) : List (Path × Class) :=
  packagesTargets root project.packages ++ targets root project.classes

/-- All the directories are made, and all the files show their classes. -/
structure Attended (disk : Disk) (dirs : List Path) (files : List (Path × Class)) : Prop where
  dirs : ∀ dir ∈ dirs, Made disk dir
  files : ∀ file ∈ files, Served disk file

theorem Attended.later {disk later : Disk} (evolves : Evolves disk later) {dirs : List Path}
    {files : List (Path × Class)} (attended : Attended disk dirs files) :
    Attended later dirs files :=
  ⟨fun dir listed => (attended.dirs dir listed).later evolves,
    fun file listed => (attended.files file listed).later evolves⟩

theorem Attended.append {disk : Disk} {dirs dirs' : List Path} {files files' : List (Path × Class)}
    (one : Attended disk dirs files) (two : Attended disk dirs' files') :
    Attended disk (dirs ++ dirs') (files ++ files') :=
  ⟨fun dir listed => (List.mem_append.mp listed).elim (one.dirs dir) (two.dirs dir),
    fun file listed => (List.mem_append.mp listed).elim (one.files file) (two.files file)⟩

private theorem writeClasses_attends {dir : Path} {classes : List Class}
    (plain : ∀ c ∈ classes, PlainClass c) {disk changed : Disk} {report : Report}
    (run : (Generation.writeClasses dir classes).run.run disk = (.ok report, changed)) :
    Evolves disk changed ∧ Attended changed [] (targets dir classes) := by
  induction classes generalizing disk report with
  | nil =>
    obtain ⟨_, rfl⟩ := Prod.mk.inj run
    exact ⟨Evolves.refl disk, by simp, by simp [targets]⟩
  | cons c rest ih =>
    obtain ⟨_, between, _, first, others, _⟩ := append_succeeds run
    obtain ⟨evolves, served⟩ := writeClass_step (plain c (by simp)) first
    obtain ⟨evolves', attended⟩ := ih (fun c member => plain c (by simp [member])) others
    refine ⟨evolves.trans evolves', by simp, fun file listed => ?_⟩
    rcases mem_targets.mp listed with ⟨named, rfl⟩ | listed
    · exact (served named).later evolves'
    · exact attended.files file listed

mutual
theorem writePackage_attends {parent : Path} (p : Package)
    (plain : ∀ c ∈ p.allClasses, PlainClass c) {disk changed : Disk} {report : Report}
    (run : (Generation.writePackage parent p).run.run disk = (.ok report, changed)) :
    Evolves disk changed ∧ Attended changed (packageDirs parent p) (packageTargets parent p) := by
  match p with
  | ⟨name, classes, packages⟩ =>
    simp only [Package.allClasses, List.mem_append] at plain
    cases downward : Path.isDownward ⟨name⟩ with
    | false =>
      simp only [Generation.writePackage, downward, Bool.false_eq_true, if_false] at run
      obtain ⟨_, rfl⟩ := Prod.mk.inj run
      exact ⟨Evolves.refl disk, by simp [packageDirs, downward], by simp [packageTargets, downward]⟩
    | true =>
      simp only [Generation.writePackage, downward, if_true] at run
      obtain ⟨_, made, first, run⟩ := run_bind_succeeds run
      obtain ⟨_, between, _, second, third, _⟩ := append_succeeds run
      obtain ⟨start, there⟩ := makeDirs_step first
      obtain ⟨middle, below⟩ :=
        writePackages_attends packages (fun c member => plain c (Or.inr member)) second
      obtain ⟨final, own⟩ := writeClasses_attends (fun c member => plain c (Or.inl member)) third
      refine ⟨start.trans (middle.trans final), ?_⟩
      have both := (below.later final).append own
      simp only [packageDirs, packageTargets, downward, if_true]
      refine ⟨fun dir listed => ?_, both.files⟩
      rcases List.mem_cons.mp listed with rfl | listed
      · exact there.later (middle.trans final)
      · exact both.dirs dir (by simp [listed])
termination_by structural p

private theorem writePackages_attends {parent : Path} (all : List Package)
    (plain : ∀ c ∈ Package.classesOf all, PlainClass c) {disk changed : Disk}
    {report : Report}
    (run : (Generation.writePackages parent all).run.run disk = (.ok report, changed)) :
    Evolves disk changed ∧
    Attended changed (packagesDirs parent all) (packagesTargets parent all) := by
  match all with
  | [] =>
    obtain ⟨_, rfl⟩ := Prod.mk.inj run
    exact ⟨Evolves.refl disk, by simp [packagesDirs], by simp [packagesTargets]⟩
  | p :: ps =>
    simp only [Package.classesOf, List.mem_append] at plain
    obtain ⟨_, between, _, first, others, _⟩ := append_succeeds run
    obtain ⟨start, own⟩ := writePackage_attends p (fun c member => plain c (Or.inl member)) first
    obtain ⟨final, rest⟩ :=
      writePackages_attends ps (fun c member => plain c (Or.inr member)) others
    exact ⟨start.trans final, (own.later final).append rest⟩
termination_by structural all
end

structure Idle (report : Report) : Prop where
  created : report.created = []
  merged : report.merged = []

theorem Idle.append {first second : Report} (one : Idle first) (two : Idle second) :
    Idle (first.append second) :=
  ⟨by simp [Report.append, one.created, two.created],
    by simp [Report.append, one.merged, two.merged]⟩

/-- The work succeeds, changes nothing and reports so. -/
def Rests (work : Work Report) (disk : Disk) : Prop :=
  ∃ report, Returns work disk report ∧ Idle report

theorem Rests.both {first second : Work Report} {disk : Disk} (one : Rests first disk)
    (two : Rests second disk) : Rests (do return (← first).append (← second)) disk := by
  obtain ⟨report, returns, idle⟩ := one
  obtain ⟨report', returns', idle'⟩ := two
  exact ⟨report.append report', returns.bind (returns'.bind rfl), idle.append idle'⟩

theorem Rests.behind {work : Work Unit} {next : Work Report} {disk : Disk}
    (first : Returns work disk ()) (rests : Rests next disk) : Rests (do work; next) disk := by
  obtain ⟨report, returns, idle⟩ := rests
  exact ⟨report, first.bind returns, idle⟩

/-- No field of the class is looked for in an interface. -/
def Visible (disk : Disk) (file : Path × Class) : Prop :=
  file.2.fields ≠ [] → ∀ text found, disk.readText file.1 = .ok text →
    Java.sourceTypes? text = some [found] → found.type.kind ≠ .interface

private theorem merge_nothing {text : String} {model : Class} (shows : Shows text model)
    (visible : model.fields ≠ [] → ∀ found, Java.sourceTypes? text = some [found] →
      found.type.kind ≠ .interface) :
    ∀ fields methods new, Java.merge text model ≠ .merged fields methods new := by
  intro fields methods new merged
  obtain ⟨found, read, _⟩ := merge_merged merged
  obtain ⟨methods, fields⟩ := shows found read
  have unchanged : Java.merge text model = .unchanged := by
    refine merge_unchanged read
      (fun field listed => fields (visible (List.ne_nil_of_mem listed) found read) field listed)
      methods
  simp [unchanged] at merged

private theorem mergeFile_rests {disk : Disk} {path : Path} {text : String} {model : Class}
    (read : disk.readText path = .ok text)
    (unmerged : ∀ fields methods new, Java.merge text model ≠ .merged fields methods new) :
    ∃ outcome, Returns (mergeFile path model) disk outcome ∧
      ∀ fields methods, outcome ≠ .merged fields methods := by
  cases merged : Java.merge text model with
  | merged fields methods new => exact absurd merged (unmerged fields methods new)
  | unchanged =>
    refine ⟨.unchanged, (Returns.ask read).bind ?_, by simp⟩
    simp only [merged]
    rfl
  | refused =>
    refine ⟨.skipped (Error.message (.syntaxError path)), (Returns.ask read).bind ?_, by simp⟩
    simp only [merged]
    rfl
  | notOneType count =>
    refine ⟨.skipped ("expected exactly one top-level type, found " ++ toString count),
      (Returns.ask read).bind ?_, by simp⟩
    simp only [merged]
    rfl

private theorem writeClass_rests {disk : Disk} {dir : Path} {c : Class}
    (served : Path.isFileName ⟨c.name ++ ".java"⟩ = true → Served disk (classFile dir c, c) ∧
      Visible disk (classFile dir c, c)) :
    Rests (Generation.writeClass dir c) disk := by
  cases named : Path.isFileName ⟨c.name ++ ".java"⟩ with
  | false =>
    refine ⟨{ skipped := [classFile dir c] }, ?_, rfl, rfl⟩
    simp only [Generation.writeClass, named, Bool.false_eq_true, if_false]
    rfl
  | true =>
    obtain ⟨⟨text, read, shows⟩, visible⟩ := served named
    obtain ⟨outcome, returns, noMerge⟩ :=
      mergeFile_rests read (merge_nothing shows fun some found => visible some text found read)
    have there := writeClass_there named (has_of_read read)
    cases outcome with
    | merged fields methods => exact absurd rfl (noMerge fields methods)
    | unchanged =>
      exact ⟨{ unchanged := [classFile dir c] }, there.trans (returns.bind rfl), rfl, rfl⟩
    | skipped reason =>
      exact ⟨{ skipped := [classFile dir c] }, there.trans (returns.bind rfl), rfl, rfl⟩

section
variable {disk : Disk}

private theorem writeClasses_rest {dir : Path} {classes : List Class}
    (served : ∀ file ∈ targets dir classes, Served disk file ∧ Visible disk file) :
    Rests (Generation.writeClasses dir classes) disk := by
  induction classes with
  | nil => exact ⟨{}, rfl, rfl, rfl⟩
  | cons c rest ih =>
    simp only [mem_targets] at served
    exact (writeClass_rests fun named => served _ (Or.inl ⟨named, rfl⟩)).both
      (ih fun file listed => served file (Or.inr listed))

mutual
theorem writePackage_rests {parent : Path} (p : Package)
    (made : ∀ dir ∈ packageDirs parent p, Made disk dir)
    (served : ∀ file ∈ packageTargets parent p, Served disk file ∧ Visible disk file) :
    Rests (Generation.writePackage parent p) disk := by
  match p with
  | ⟨name, classes, packages⟩ =>
    cases downward : Path.isDownward ⟨name⟩ with
    | false =>
      refine ⟨{ skipped := [parent.join name] }, ?_, rfl, rfl⟩
      simp only [Generation.writePackage, downward, Bool.false_eq_true, if_false]
      rfl
    | true =>
      simp only [packageDirs, packageTargets, downward, if_true, List.mem_cons, List.mem_append]
        at made served
      simp only [Generation.writePackage, downward, if_true]
      refine Rests.behind (made _ (Or.inl rfl)).again (Rests.both ?_ ?_)
      · exact writePackages_rest packages (fun dir listed => made dir (Or.inr listed))
          fun file listed => served file (Or.inl listed)
      · exact writeClasses_rest fun file listed => served file (Or.inr listed)
termination_by structural p

private theorem writePackages_rest {parent : Path} (all : List Package)
    (made : ∀ dir ∈ packagesDirs parent all, Made disk dir)
    (served : ∀ file ∈ packagesTargets parent all, Served disk file ∧ Visible disk file) :
    Rests (Generation.writePackages parent all) disk := by
  match all with
  | [] => exact ⟨{}, rfl, rfl, rfl⟩
  | p :: ps =>
    simp only [packagesDirs, packagesTargets, List.mem_append] at made served
    exact (writePackage_rests p (fun dir listed => made dir (Or.inl listed)) fun file listed =>
      served file (Or.inl listed)).both
      (writePackages_rest ps (fun dir listed => made dir (Or.inr listed)) fun file listed =>
        served file (Or.inr listed))
termination_by structural all
end

end

theorem Idle.parts {first second : Report} (idle : Idle (first.append second)) :
    Idle first ∧ Idle second := by
  obtain ⟨created, merged⟩ := idle
  simp only [Report.append, List.append_eq_nil_iff] at created merged
  exact ⟨⟨created.1, merged.1⟩, created.2, merged.2⟩

private theorem writeClass_idle {dir : Path} {c : Class} (plain : PlainClass c) {disk after : Disk}
    {report : Report} (idle : Idle report)
    (run : (Generation.writeClass dir c).run.run disk = (.ok report, after)) :
    after = disk ∧
    (Path.isFileName ⟨c.name ++ ".java"⟩ = true → Visible disk (classFile dir c, c)) := by
  cases writeClass_writes run with
  | refused unnamed => exact ⟨rfl, by simp [unnamed]⟩
  | created => exact absurd idle.created (by simp)
  | merged => exact absurd idle.merged (by simp)
  | unchanged read unmerged | skipped read unmerged =>
    refine ⟨rfl, fun _ some other found reread declared interface => ?_⟩
    obtain rfl := Except.ok.inj (read.symm.trans reread)
    obtain ⟨fields, methods, new, isMerged⟩ :=
      interface_merged declared interface plain.members some
    exact unmerged fields methods new isMerged

private theorem writeClasses_idle {dir : Path} {classes : List Class}
    (plain : ∀ c ∈ classes, PlainClass c) {disk after : Disk} {report : Report}
    (idle : Idle report)
    (run : (Generation.writeClasses dir classes).run.run disk = (.ok report, after)) :
    after = disk ∧ ∀ file ∈ targets dir classes, Visible disk file := by
  induction classes generalizing report with
  | nil => exact ⟨(Prod.mk.inj run).2.symm, by simp [targets]⟩
  | cons c rest ih =>
    obtain ⟨own, between, others, first, second, rfl⟩ := append_succeeds run
    obtain ⟨idle, idle'⟩ := Idle.parts idle
    simp only [mem_targets]
    obtain ⟨rfl, visible⟩ := writeClass_idle (plain c (by simp)) idle first
    obtain ⟨rfl, visible'⟩ := ih (fun c member => plain c (by simp [member])) idle' second
    refine ⟨rfl, fun file listed => ?_⟩
    rcases listed with ⟨named, rfl⟩ | listed
    · exact visible named
    · exact visible' file listed

mutual
theorem writePackage_idle {parent : Path} (p : Package) (plain : ∀ c ∈ p.allClasses, PlainClass c)
    {disk after : Disk} {report : Report} (idle : Idle report)
    (made : ∀ dir ∈ packageDirs parent p, Made disk dir)
    (run : (Generation.writePackage parent p).run.run disk = (.ok report, after)) :
    after = disk ∧ ∀ file ∈ packageTargets parent p, Visible disk file := by
  match p with
  | ⟨name, classes, packages⟩ =>
    simp only [Package.allClasses, List.mem_append] at plain
    cases downward : Path.isDownward ⟨name⟩ with
    | false =>
      simp only [Generation.writePackage, downward, Bool.false_eq_true, if_false] at run
      exact ⟨(Prod.mk.inj run).2.symm, by simp [packageTargets, downward]⟩
    | true =>
      simp only [packageDirs, packageTargets, downward, if_true, List.mem_cons, List.mem_append]
        at made ⊢
      simp only [Generation.writePackage, downward, if_true] at run
      rw [run_bind_ok (made _ (Or.inl rfl)).again] at run
      obtain ⟨_, between, _, first, second, rfl⟩ := append_succeeds run
      obtain ⟨idle, idle'⟩ := Idle.parts idle
      obtain ⟨rfl, below⟩ :=
        writePackages_idle packages (fun c member => plain c (Or.inr member)) idle
        (fun dir listed => made dir (Or.inr listed)) first
      obtain ⟨rfl, own⟩ := writeClasses_idle (fun c member => plain c (Or.inl member)) idle' second
      exact ⟨rfl, fun file listed => listed.elim (below file) (own file)⟩
termination_by structural p

private theorem writePackages_idle {parent : Path} (all : List Package)
    (plain : ∀ c ∈ Package.classesOf all, PlainClass c) {disk after : Disk}
    {report : Report} (idle : Idle report) (made : ∀ dir ∈ packagesDirs parent all, Made disk dir)
    (run : (Generation.writePackages parent all).run.run disk = (.ok report, after)) :
    after = disk ∧ ∀ file ∈ packagesTargets parent all, Visible disk file := by
  match all with
  | [] => exact ⟨(Prod.mk.inj run).2.symm, by simp [packagesTargets]⟩
  | p :: ps =>
    simp only [Package.classesOf, packagesDirs, packagesTargets, List.mem_append] at plain made ⊢
    obtain ⟨_, between, _, first, second, rfl⟩ := append_succeeds run
    obtain ⟨idle, idle'⟩ := Idle.parts idle
    obtain ⟨rfl, own⟩ :=
      writePackage_idle p (fun c member => plain c (Or.inl member)) idle
        (fun dir listed => made dir (Or.inl listed)) first
    obtain ⟨rfl, others⟩ :=
      writePackages_idle ps (fun c member => plain c (Or.inr member)) idle'
        (fun dir listed => made dir (Or.inr listed)) second
    exact ⟨rfl, fun file listed => listed.elim (own file) (others file)⟩
termination_by structural all
end

/-- A run leaves the root made, and all it has to do with attended. -/
theorem generate_attends {project : Project} {root : Path}
    (plain : ∀ c ∈ project.allClasses, PlainClass c) {disk changed : Disk} {report : Report}
    (run : (generate project root).run.run disk = (.ok report, changed)) :
    Made changed root ∧
    Attended changed (packagesDirs root project.packages) (projectTargets root project) := by
  simp only [Project.allClasses, List.mem_append] at plain
  obtain ⟨_, made, first, run⟩ := run_bind_succeeds run
  obtain ⟨_, between, _, second, third, _⟩ := append_succeeds run
  obtain ⟨_, there⟩ := makeDirs_step first
  obtain ⟨middle, below⟩ :=
    writePackages_attends project.packages (fun c member => plain c (Or.inr member)) second
  obtain ⟨final, own⟩ := writeClasses_attends (fun c member => plain c (Or.inl member)) third
  have both := (below.later final).append own
  rw [List.append_nil] at both
  exact ⟨there.later (middle.trans final), both⟩

/-- A second run finds nothing to do and changes nothing, if and only if no file of a class with
fields is an interface: fields are written to an interface, but it never shows them. -/
theorem generation_settles {project : Project} {root : Path} {disk changed : Disk} {report : Report}
    (plain : ∀ c ∈ project.allClasses, PlainClass c)
    (run : (generate project root).run.run disk = (.ok report, changed)) :
    (∃ again, (generate project root).run.run changed = (.ok again, changed) ∧ again.created = [] ∧
      again.merged = []) ↔ ∀ file ∈ projectTargets root project, Visible changed file := by
  obtain ⟨made, attended⟩ := generate_attends plain run
  have served := attended.files
  simp only [Project.allClasses, projectTargets, List.mem_append] at plain served ⊢
  constructor
  · rintro ⟨again, rerun, created, merged⟩
    rw [generate, run_bind_ok made.again] at rerun
    obtain ⟨_, between, _, first, second, rfl⟩ := append_succeeds rerun
    obtain ⟨idle, idle'⟩ := Idle.parts ⟨created, merged⟩
    obtain ⟨same, below⟩ :=
      writePackages_idle project.packages (fun c member => plain c (Or.inr member)) idle
        attended.dirs first
    rw [same] at second
    obtain ⟨_, own⟩ := writeClasses_idle (fun c member => plain c (Or.inl member)) idle' second
    exact fun file listed => listed.elim (below file) (own file)
  · intro visible
    have rests : Rests (generate project root) changed := by
      refine Rests.behind made.again (Rests.both ?_ ?_)
      · exact writePackages_rest project.packages attended.dirs fun file listed =>
          ⟨served file (Or.inl listed), visible file (Or.inl listed)⟩
      · exact writeClasses_rest fun file listed =>
          ⟨served file (Or.inr listed), visible file (Or.inr listed)⟩
    obtain ⟨again, returns, idle⟩ := rests
    exact ⟨again, returns, idle.created, idle.merged⟩

def kiosk : Project where
  packages := [{ name := "shop/till", classes := [fullTill] }]
  classes :=
    [{ name := "Payable", kind := .interface,
       methods := [{ name := "pay", returnType := "void", isPrivate := true }] }]

def counter : Disk where
  root := .dir
    [("t", .dir [("shop", .dir [("till", .dir [("Till.java", .file tillText.toUTF8)])])])]
  cwd := []

theorem kiosk_settles :
    ∃ report changed again, (generate kiosk ⟨"t"⟩).run.run counter = (.ok report, changed) ∧
    report.created = [⟨"t/Payable.java"⟩] ∧ report.merged = [⟨"t/shop/till/Till.java"⟩] ∧
    (∀ file ∈ projectTargets ⟨"t"⟩ kiosk, Visible changed file) ∧
    (generate kiosk ⟨"t"⟩).run.run changed = (.ok again, changed) ∧ again.created = [] ∧
    again.merged = [] := by
  have plain : ∀ c ∈ kiosk.allClasses, PlainClass c := by
    intro c member
    simp only [kiosk, Project.allClasses, Package.classesOf, Package.allClasses, List.append_nil,
      List.mem_append, List.mem_singleton] at member
    rcases member with rfl | rfl
    · exact ⟨by decide +kernel, by simp, by simp, by simp, by decide +kernel, by decide +kernel⟩
    · exact ⟨by decide +kernel, by simp [fullTill], by simp [fullTill], by simp [fullTill],
        by decide +kernel, by decide +kernel⟩
  have checked : (match (generate kiosk ⟨"t"⟩).run.run counter with
      | (.ok report, changed) =>
        decide (report.created = [⟨"t/Payable.java"⟩] ∧
          report.merged = [⟨"t/shop/till/Till.java"⟩]) &&
          (projectTargets ⟨"t"⟩ kiosk).all fun file =>
            file.2.fields.isEmpty || (changed.readText file.1).toOption.all fun text =>
            (Java.sourceTypes? text).all fun types => types.all (·.type.kind != .interface)
      | (.error _, _) => false) = true := by decide +kernel
  cases run : (generate kiosk ⟨"t"⟩).run.run counter with
  | mk result changed =>
    cases result with
    | error => simp [run] at checked
    | ok report =>
      rw [run] at checked
      obtain ⟨reported, seen⟩ := Bool.and_eq_true_iff.mp checked
      obtain ⟨created, merged⟩ := of_decide_eq_true reported
      have visible : ∀ file ∈ projectTargets ⟨"t"⟩ kiosk, Visible changed file := by
        intro file listed some text found read declared
        have own := List.all_eq_true.mp seen file listed
        simpa [some, read, Except.toOption, declared] using own
      obtain ⟨again, rerun, idle⟩ := (generation_settles plain run).mpr visible
      exact ⟨report, changed, again, rfl, created, merged, visible, rerun, idle⟩

-- a field that an interface declares already is written to it once more
example :
    (match (generate { classes :=
                         [{ name := "I", kind := .interface,
                            fields := [{ name := "x", type := "int" }] }] } ⟨"t"⟩).run.run
      { root := .dir [("t", .dir [("I.java", .file "interface I \x7b int x; \x7d".toUTF8)])],
        cwd := [] } with
    | (.ok report, _) => report.merged == [⟨"t/I.java"⟩]
    | (.error _, _) => false) = true := by decide +kernel

end ClassDiagram.Proofs.RepeatedGeneration
