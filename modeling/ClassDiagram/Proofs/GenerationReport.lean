import ClassDiagram.Proofs.CollapsedPackages
import ClassDiagram.Proofs.ConfinedGeneration
import ClassDiagram.Proofs.RepeatedGeneration

/-! The report of a generation accounts for everything. Each class of an entered package and each
package that is turned away has one entry in it. Whatever the disk holds more or otherwise after the
run is a file that the report has among the created or the merged ones, or a directory on the way to
the root or to an entered package. Without links a file is told by its place, and a write puts the
whole text or fails and changes nothing. -/

namespace ClassDiagram.Package

def leadDown (names : List String) : Bool :=
  names.all fun name => Path.isDownward ⟨name⟩

/-- Located packages that generation enters: no name on the way to them leads elsewhere than
down. -/
def entered (packages : List (List String × Package)) : List (List String × Package) :=
  packages.filter fun (names, _) => leadDown names

/-- Located packages that generation comes to and turns away: their name leads elsewhere, and that
of no package around them does. -/
def refused (packages : List (List String × Package)) : List (List String × Package) :=
  packages.filter fun (names, p) => leadDown names.dropLast && !Path.isDownward ⟨p.name⟩

def directory (root : Path) (names : List String) : Path :=
  names.foldl Path.join root

end ClassDiagram.Package

namespace ClassDiagram.Proofs.GenerationReport
open Files Walks DiskChanges FileWrites PathPlaces ConfinedGeneration Regeneration
  RepeatedGeneration CollapsedPackages
open Package (entered refused directory leadDown located locatedIn)

def enteredDirs (root : Path) (packages : List (List String × Package)) : List Path :=
  (entered packages).map fun (names, _) => directory root names

def classFiles (root : Path) (packages : List (List String × Package)) : List Path :=
  (entered packages).flatMap fun (names, p) => p.classes.map (classFile (directory root names))

def refusedDirs (root : Path) (packages : List (List String × Package)) : List Path :=
  (refused packages).map fun (names, _) => directory root names

private theorem leadDown_concat (above : List String) (name : String) :
    leadDown (above ++ [name]) = (leadDown above && Path.isDownward ⟨name⟩) := by
  simp [leadDown]

/-- Behind the names of the packages around it, the names that lead to a package end with its
own. -/
theorem located_names {above : List String} {p : Package} {q : List String × Package}
    (member : q ∈ p.located above) : ∃ more, q.1 = above ++ more ++ [q.2.name] := by
  induction p using package_induction generalizing above with
  | step p ih =>
    rw [located_eq] at member
    rcases List.mem_cons.mp member with rfl | member
    · exact ⟨[], by simp⟩
    · obtain ⟨child, listed, member⟩ := List.mem_flatMap.mp member
      obtain ⟨more, names⟩ := ih child listed member
      exact ⟨p.name :: more, by simp [names]⟩

/-- Below a package whose name leads elsewhere nothing is entered or turned away. -/
theorem below_refused {above : List String} (elsewhere : leadDown above = false)
    (all : List Package) :
    entered (locatedIn above all) = [] ∧ refused (locatedIn above all) = [] := by
  have blocked : ∀ q ∈ locatedIn above all, ∃ more, q.1 = above ++ more ++ [q.2.name] ∧
      leadDown (above ++ more) = false := by
    intro q member
    rw [locatedIn_eq] at member
    obtain ⟨p, _, member⟩ := List.mem_flatMap.mp member
    obtain ⟨more, names⟩ := located_names member
    exact ⟨more, names, by rw [leadDown, List.all_append, ← leadDown, elsewhere, Bool.false_and]⟩
  constructor
  · refine List.filter_eq_nil_iff.mpr fun q member => ?_
    obtain ⟨more, names, closed⟩ := blocked q member
    simp only [names, leadDown_concat, closed, Bool.false_and, Bool.false_eq_true,
      not_false_eq_true]
  · refine List.filter_eq_nil_iff.mpr fun q member => ?_
    obtain ⟨more, names, closed⟩ := blocked q member
    simp only [names, List.dropLast_concat, closed, Bool.false_and, Bool.false_eq_true,
      not_false_eq_true]

section
variable (root : Path) {above : List String} {name : String} (classes : List Class)
  (packages : List Package)

/-- An entered package is recorded by its classes and by what is below it. -/
theorem entered_records (down : leadDown (above ++ [name]) = true) :
    enteredDirs root (located above ⟨name, classes, packages⟩) =
        directory root (above ++ [name]) ::
        enteredDirs root (locatedIn (above ++ [name]) packages) ∧
      classFiles root (located above ⟨name, classes, packages⟩) =
        classes.map (classFile (directory root (above ++ [name]))) ++
        classFiles root (locatedIn (above ++ [name]) packages) ∧
      refusedDirs root (located above ⟨name, classes, packages⟩) =
      refusedDirs root (locatedIn (above ++ [name]) packages) := by
  have own : Path.isDownward ⟨name⟩ = true := by
    rw [leadDown_concat, Bool.and_eq_true] at down
    exact down.2
  refine ⟨?_, ?_, ?_⟩
  · simp [enteredDirs, entered, located, down]
  · simp [classFiles, entered, located, down]
  · simp [refusedDirs, refused, located, own]

/-- A package that is turned away is recorded alone. -/
theorem refused_records (down : leadDown above = true)
    (elsewhere : Path.isDownward ⟨name⟩ = false) :
    enteredDirs root (located above ⟨name, classes, packages⟩) = [] ∧
    classFiles root (located above ⟨name, classes, packages⟩) = [] ∧
      refusedDirs root (located above ⟨name, classes, packages⟩) =
      [directory root (above ++ [name])] := by
  have closed : leadDown (above ++ [name]) = false := by
    rw [leadDown_concat, elsewhere, Bool.and_false]
  obtain ⟨noneEntered, noneRefused⟩ := below_refused closed packages
  simp only [entered, refused] at noneEntered noneRefused
  refine ⟨?_, ?_, ?_⟩
  · simp [enteredDirs, entered, located, closed, noneEntered]
  · simp [classFiles, entered, located, closed, noneEntered]
  · simp [refusedDirs, refused, located, down, elsewhere, noneRefused]

end

/-- The report has one entry for each of the classes and one for each of the packages that were
turned away. -/
def Tallies (report : Report) (classes refused : List Path) : Prop :=
  ∃ unwritten, (report.created ++ report.merged ++ report.unchanged ++ unwritten).Perm classes ∧
    report.skipped.Perm (unwritten ++ refused)

theorem Tallies.append {first second : Report} {classes classes' refused refused' : List Path}
    (one : Tallies first classes refused) (two : Tallies second classes' refused') :
    Tallies (first.append second) (classes ++ classes') (refused ++ refused') := by
  obtain ⟨unwritten, written, skipped⟩ := one
  obtain ⟨unwritten', written', skipped'⟩ := two
  refine ⟨unwritten ++ unwritten', ?_, ?_⟩
  · simp only [List.perm_iff_count, List.count_append, Report.append] at written written' ⊢
    intro path
    have one := written path
    have two := written' path
    omega
  · simp only [List.perm_iff_count, List.count_append, Report.append] at skipped skipped' ⊢
    intro path
    have one := skipped path
    have two := skipped' path
    omega

theorem Tallies.total {report : Report} {classes refused : List Path}
    (lists : Tallies report classes refused) : report.total = classes.length + refused.length := by
  obtain ⟨unwritten, written, skipped⟩ := lists
  have all := written.length_eq
  have rest := skipped.length_eq
  simp only [List.length_append] at all rest
  simp only [Report.total]
  omega

/-- The places on the way that a path leads, itself included. -/
def OnTheWay (cwd : List String) (path : Path) (place : List String) : Prop :=
  ∃ above, above <+: path.components ∧ place = above.foldl follow cwd

/-- What a run leaves at a place, by its report: what was there, or a directory on the way to one of
the given ones where nothing was, or a created file where nothing was, or a merged file where a file
was. -/
inductive Left (cwd : List String) (dirs created merged : List Path) (place : List String) :
    Option Thing → Option Thing → Prop where
  | same (thing) : Left cwd dirs created merged place thing thing
  | made (dir) : dir ∈ dirs → OnTheWay cwd dir place →
    Left cwd dirs created merged place none (some .directory)
  | created (path content) : path ∈ created → placeOf cwd path = place →
    Left cwd dirs created merged place none (some (.file content))
  | merged (path content content') : path ∈ merged → placeOf cwd path = place →
      Left cwd dirs created merged place (some (.file content)) (some (.file content'))

/-- The disk after a run, by its report. Created files have places of their own, and nothing was
there before. -/
structure Accounted (dirs : List Path) (report : Report) (old new : Disk) : Prop where
  cwd : new.cwd = old.cwd
  places : ∀ place, Left old.cwd dirs report.created report.merged place (thingAt old.root place)
    (thingAt new.root place)
  created : ∀ path ∈ report.created, thingAt old.root (placeOf old.cwd path) = none ∧
    ∃ content, thingAt new.root (placeOf old.cwd path) = some (.file content)
  distinct : (report.created.map (placeOf old.cwd)).Nodup

section
variable {cwd : List String} {dirs dirs' created created' merged merged' : List Path}
  {place : List String} {old between new : Option Thing}

theorem Left.mono (left : Left cwd dirs created merged place old new) (more : dirs ⊆ dirs')
    (more' : created ⊆ created') (more'' : merged ⊆ merged') :
    Left cwd dirs' created' merged' place old new := by
  cases left with
  | same => exact .same _
  | made dir listed onTheWay => exact .made dir (more listed) onTheWay
  | created path content listed here => exact .created path content (more' listed) here
  | merged path content content' listed here =>
    exact .merged path content content' (more'' listed) here

theorem Left.trans (one : Left cwd dirs created merged place old between)
    (two : Left cwd dirs created merged place between new) :
    Left cwd dirs created merged place old new := by
  cases one with
  | same => exact two
  | made dir listed onTheWay =>
    -- a directory that was made stays
    cases two
    exact .made dir listed onTheWay
  | created path content listed here =>
    -- a file that was created may be merged into later
    cases two with
    | same => exact .created path content listed here
    | merged => exact .created path _ listed here
  | merged path content content' listed here =>
    cases two with
    | same => exact .merged path content content' listed here
    | merged => exact .merged path content _ listed here

/-- Nothing goes away. -/
theorem Left.none (left : Left cwd dirs created merged place old none) : old = .none := by
  cases left
  rfl

/-- A file stays a file. -/
theorem Left.file {content : ByteArray}
    (left : Left cwd dirs created merged place (some (.file content)) new) :
    ∃ content', new = some (.file content') := by
  cases left with
  | same => exact ⟨content, rfl⟩
  | merged path _ content' => exact ⟨content', rfl⟩

end

theorem Accounted.refl (dirs : List Path) {report : Report} (none : report.created = [])
    (disk : Disk) : Accounted dirs report disk disk :=
  ⟨rfl, fun _ => .same _, by simp [none], by simp [none]⟩

theorem Accounted.append {dirs dirs' : List Path} {first second : Report} {old between new : Disk}
    (one : Accounted dirs first old between) (two : Accounted dirs' second between new) :
    Accounted (dirs ++ dirs') (first.append second) old new := by
  have later :
      ∀ place, Left old.cwd (dirs ++ dirs') (first.append second).created
      (first.append second).merged place (thingAt between.root place) (thingAt new.root place) := by
    intro place
    have left := two.places place
    rw [one.cwd] at left
    exact left.mono (by simp) (by simp [Report.append]) (by simp [Report.append])
  refine ⟨two.cwd.trans one.cwd, fun place => ?_, fun path listed => ?_, ?_⟩
  · exact ((one.places place).mono (by simp) (by simp [Report.append])
      (by simp [Report.append])).trans (later place)
  · rcases List.mem_append.mp listed with listed | listed
    · obtain ⟨nothing, content, written⟩ := one.created path listed
      have left := later (placeOf old.cwd path)
      rw [written] at left
      exact ⟨nothing, left.file⟩
    · obtain ⟨nothing, written⟩ := two.created path listed
      rw [one.cwd] at nothing written
      have left := one.places (placeOf old.cwd path)
      rw [nothing] at left
      exact ⟨left.none, written⟩
  · rw [Report.append, List.map_append, List.nodup_append]
    refine ⟨one.distinct, one.cwd ▸ two.distinct, fun place listed other listed' same => ?_⟩
    -- at the time of the second part the first one's files are there
    obtain ⟨path, member, rfl⟩ := List.mem_map.mp listed
    obtain ⟨path', member', rfl⟩ := List.mem_map.mp listed'
    obtain ⟨_, content, written⟩ := one.created path member
    obtain ⟨nothing, _⟩ := two.created path' member'
    rw [one.cwd, ← same, written] at nothing
    cases nothing

private theorem has_place {disk : Disk} {path : Path} (there : disk.has path = true) :
    thingAt disk.root (placeOf disk.cwd path) ≠ none := by
  simp only [Disk.has] at there
  split at there
  next node located =>
    obtain ⟨spot, found, here⟩ := node_spot located
    rw [← spot_place found]
    cases node <;> simp [thingAt, here]
  next => simp at there

private theorem makeDirs_accounted {disk made : Disk} {path : Path}
    (done : (Work.makeDirs path).run.run disk = (.ok (), made)) :
    Accounted [path] {} disk made := by
  have may : ∀ above ∈ path.lineage, OnTheWay disk.cwd path (placeOf disk.cwd above) :=
    fun above listed => ⟨above.components, ancestor_components listed, rfl⟩
  have confined := @Confines.makeDirs _ _ (fun _ => False) _ may disk rfl
  rw [done] at confined
  refine ⟨confined.cwd, fun place => ?_, by simp, by simp⟩
  rcases confined.places place with same | ⟨nothing, directory, onTheWay⟩ | ⟨_, _, never⟩
  · rw [same]
    exact .same _
  · rw [nothing, directory]
    exact .made path (by simp) onTheWay
  · exact never.elim

/-- A file that is written is at the place of its path, and all else is as it was. -/
theorem writeText_places {disk written : Disk} {path : Path} {text : String}
    (done : disk.writeText path text = .ok written) :
    written.cwd = disk.cwd ∧ thingAt written.root (placeOf disk.cwd path) =
      some (.file text.toUTF8) ∧
      ∀ place, place ≠ placeOf disk.cwd path →
      thingAt written.root place = thingAt disk.root place := by
  obtain ⟨place, name, writes⟩ := writeText_writes done
  have named : place ++ [name] = placeOf disk.cwd path := spot_place writes.spotted
  rw [← named]
  refine ⟨writes.cwd, by simp [thingAt, writes.here], fun other apart => ?_⟩
  rw [writes.written_eq]
  exact thingAt_put rfl writes.free apart

private theorem created_accounted {disk written : Disk} {path : Path} {text : String}
    (new : disk.has path = false) (done : disk.writeText path text = .ok written) :
    Accounted [] { created := [path] } disk written := by
  obtain ⟨cwd, here, elsewhere⟩ := writeText_places done
  have nothing : thingAt disk.root (placeOf disk.cwd path) = none := by
    obtain ⟨place, name, writes⟩ := writeText_writes done
    rw [← spot_place writes.spotted]
    cases there : disk.root.get? (place ++ [name]) with
    | none => simp [thingAt, there]
    | some node =>
      cases node with
      | dir entries => exact absurd (dirAt_iff.mpr ⟨entries, there⟩) (by simp [writes.free])
      | file content => simp [Disk.has, Disk.node, writes.spotted, there] at new
  refine ⟨cwd, fun place => ?_, ?_, by simp⟩
  · by_cases own : place = placeOf disk.cwd path
    · rw [own, here, nothing]
      exact .created path _ (by simp) rfl
    · rw [elsewhere place own]
      exact .same _
  · intro other listed
    obtain rfl := List.mem_singleton.mp listed
    exact ⟨nothing, _, here⟩

private theorem merged_accounted {disk written : Disk} {path : Path} {source text : String}
    (read : disk.readText path = .ok source) (done : disk.writeText path text = .ok written) :
    Accounted [] { merged := [path] } disk written := by
  obtain ⟨cwd, here, elsewhere⟩ := writeText_places done
  obtain ⟨names, content, found, file, _⟩ := readText_place read
  have old : thingAt disk.root (placeOf disk.cwd path) = some (.file content) := by
    rw [← spot_place found, thingAt, fileAt_iff.mp file]
  refine ⟨cwd, fun place => ?_, by simp, by simp⟩
  by_cases own : place = placeOf disk.cwd path
  · rw [own, here, old]
    exact .merged path _ _ (by simp) rfl
  · rw [elsewhere place own]
    exact .same _

/-- The work accounts for what it does, and its report for the classes and the packages it was
given. -/
def Accounts (work : Work Report) (dirs classes refused : List Path) : Prop :=
  ∀ disk report changed, work.run.run disk = (.ok report, changed) →
    Accounted dirs report disk changed ∧ Tallies report classes refused

theorem Accounts.both {first second : Work Report}
    {dirs dirs' classes classes' refused refused' : List Path}
    (one : Accounts first dirs classes refused) (two : Accounts second dirs' classes' refused') :
    Accounts (do return (← first).append (← second)) (dirs ++ dirs') (classes ++ classes')
      (refused ++ refused') := by
  intro disk report changed ran
  obtain ⟨_, between, _, start, final, rfl⟩ := append_succeeds ran
  obtain ⟨accounted, lists⟩ := one _ _ _ start
  obtain ⟨accounted', lists'⟩ := two _ _ _ final
  exact ⟨accounted.append accounted', lists.append lists'⟩

theorem Accounts.behind {next : Work Report} {dirs classes refused : List Path}
    (later : Accounts next dirs classes refused) (path : Path) :
    Accounts (do Work.makeDirs path; next) (path :: dirs) classes refused := by
  intro disk report changed ran
  obtain ⟨_, between, start, ran⟩ := run_bind_succeeds ran
  obtain ⟨accounted, lists⟩ := later _ _ _ ran
  exact ⟨(makeDirs_accounted start).append accounted, lists⟩

/-- A class has one entry, under whatever became of its file. -/
theorem writeClass_accounts (dir : Path) (c : Class) :
    Accounts (Generation.writeClass dir c) [] [classFile dir c] [] := by
  intro disk report changed ran
  cases writeClass_writes ran with
  | refused | skipped => exact ⟨.refl [] rfl disk, [classFile dir c], .refl _, .refl _⟩
  | created new written => exact ⟨created_accounted new written, [], .refl _, .refl _⟩
  | merged read _ written => exact ⟨merged_accounted read written, [], .refl _, .refl _⟩
  | unchanged => exact ⟨.refl [] rfl disk, [], .refl _, .refl _⟩

private theorem writeClasses_accounts (dir : Path) (classes : List Class) :
    Accounts (Generation.writeClasses dir classes) [] (classes.map (classFile dir)) [] := by
  induction classes with
  | nil =>
    intro disk report changed ran
    obtain ⟨same, rfl⟩ := Prod.mk.inj ran
    obtain rfl := Except.ok.inj same
    exact ⟨.refl [] rfl disk, [], .refl _, .refl _⟩
  | cons c rest ih => exact (writeClass_accounts dir c).both ih

theorem Accounts.perm {work : Work Report} {dirs classes classes' refused : List Path}
    (accounts : Accounts work dirs classes refused) (same : classes.Perm classes') :
    Accounts work dirs classes' refused := by
  intro disk report changed ran
  obtain ⟨accounted, unwritten, written, skipped⟩ := accounts disk report changed ran
  exact ⟨accounted, unwritten, written.trans same, skipped⟩

mutual
theorem writePackage_accounts (root : Path) {above : List String} (down : leadDown above = true)
    (p : Package) :
    Accounts (Generation.writePackage (directory root above) p) (enteredDirs root (p.located above))
      (classFiles root (p.located above)) (refusedDirs root (p.located above)) := by
  match p with
  | ⟨name, classes, packages⟩ =>
    have dir : directory root (above ++ [name]) = (directory root above).join name := by
      simp [directory]
    cases downward : Path.isDownward ⟨name⟩ with
    | false =>
      obtain ⟨noDirs, noFiles, alone⟩ := refused_records root classes packages down downward
      rw [noDirs, noFiles, alone, dir]
      intro disk report changed ran
      simp only [Generation.writePackage, downward, Bool.false_eq_true, if_false] at ran
      obtain ⟨same, rfl⟩ := Prod.mk.inj ran
      obtain rfl := Except.ok.inj same
      exact ⟨.refl [] rfl disk, [], .refl _, .refl _⟩
    | true =>
      have deeper : leadDown (above ++ [name]) = true := by simp [leadDown_concat, down, downward]
      obtain ⟨dirs, files, away⟩ := entered_records root classes packages deeper
      have below := writePackages_accounts root deeper packages
      have own := writeClasses_accounts (directory root (above ++ [name])) classes
      have whole := (below.both own).behind (directory root (above ++ [name]))
      rw [dirs, files, away]
      rw [List.append_nil, List.append_nil] at whole
      simp only [Generation.writePackage, downward, if_true, ← dir]
      exact whole.perm List.perm_append_comm
termination_by structural p

private theorem writePackages_accounts (root : Path) {above : List String}
    (down : leadDown above = true) (all : List Package) :
    Accounts (Generation.writePackages (directory root above) all)
      (enteredDirs root (locatedIn above all))
      (classFiles root (locatedIn above all)) (refusedDirs root (locatedIn above all)) := by
  match all with
  | [] =>
    intro disk report changed ran
    obtain ⟨same, rfl⟩ := Prod.mk.inj ran
    obtain rfl := Except.ok.inj same
    exact ⟨.refl [] rfl disk, [], .refl _, .refl _⟩
  | p :: ps =>
    have both := (writePackage_accounts root down p).both (writePackages_accounts root down ps)
    simp only [locatedIn, enteredDirs, classFiles, refusedDirs, entered, refused,
      List.filter_append, List.map_append, List.flatMap_append] at both ⊢
    exact both
termination_by structural all
end

private theorem generate_accounts (project : Project) (root : Path) :
    Accounts (generate project root) (root :: enteredDirs root (locatedIn [] project.packages))
      (project.classes.map (classFile root) ++ classFiles root (locatedIn [] project.packages))
      (refusedDirs root (locatedIn [] project.packages)) := by
  have below := @writePackages_accounts root [] rfl project.packages
  have own := writeClasses_accounts root project.classes
  have whole := (below.both own).behind root
  rw [List.append_nil, List.append_nil] at whole
  exact whole.perm List.perm_append_comm

private theorem directory_components (root : Path) {names : List String}
    (down : leadDown names = true) : root.components <+: (directory root names).components := by
  induction names generalizing root with
  | nil => exact List.prefix_rfl
  | cons name names ih =>
    simp only [leadDown, List.all_cons, Bool.and_eq_true] at down
    have first : root.components <+: (root.join name).components := by
      rw [join_components down.1]
      exact List.prefix_append _ _
    exact first.trans (ih (root.join name) down.2)

/-- What the report of a run and the disk after it have to do with each other and with the project.

Each class that no package around it keeps out has one entry, and so has each package that is turned
away where no package around it is; what has none is below such a package. Created files are told
apart by their paths and by the places these lead to. Where nothing was and something is, that is a
created file, or a directory that is the root or above it, or one on the way from the root to an
entered package. -/
structure FullAccount (project : Project) (root : Path) (disk : Disk) (report : Report)
    (changed : Disk) : Prop where
  entries : ∃ unwritten,
    (report.created ++ report.merged ++ report.unchanged ++ unwritten).Perm
      (project.classes.map (classFile root) ++
        (entered (locatedIn [] project.packages)).flatMap fun (names, p) =>
          p.classes.map (classFile (directory root names))) ∧
    report.skipped.Perm (unwritten ++
      (refused (locatedIn [] project.packages)).map fun (names, _) => directory root names)
  total : report.total = project.classes.length +
    ((entered (locatedIn [] project.packages)).flatMap (·.2.classes)).length +
    (refused (locatedIn [] project.packages)).length
  distinct : report.created.Nodup ∧ (report.created.map (placeOf disk.cwd)).Nodup
  new : ∀ path ∈ report.created, disk.has path = false
  kept : ∀ place content, thingAt disk.root place = some (.file content) →
    (∀ path ∈ report.merged, placeOf disk.cwd path ≠ place) →
    thingAt changed.root place = some (.file content)
  nothingElse : ∀ place, thingAt disk.root place = none → thingAt changed.root place ≠ none →
    (∃ path ∈ report.created, placeOf disk.cwd path = place) ∨
    thingAt changed.root place = some .directory ∧
      ((∃ above, above <+: root.components ∧ place = above.foldl follow disk.cwd) ∨
        ∃ q ∈ entered (locatedIn [] project.packages), ∃ above, root.components <+: above ∧
        above <+: (directory root q.1).components ∧ place = above.foldl follow disk.cwd)

/-- A run that returns a report accounts in it for all classes and packages of the project, and for
all that it did to the disk. -/
theorem generation_accounts_for_everything (project : Project) (root : Path) (disk : Disk)
    {report : Report} {changed : Disk}
    (ran : (generate project root).run.run disk = (.ok report, changed)) :
    FullAccount project root disk report changed := by
  obtain ⟨accounted, lists⟩ := generate_accounts project root disk report changed ran
  have once : report.created.Nodup :=
    List.Pairwise.of_map (placeOf disk.cwd) (fun _ _ apart same => apart (congrArg _ same))
      accounted.distinct
  refine ⟨lists, ?_, ⟨once, accounted.distinct⟩, fun path listed => ?_,
    fun place content old unmerged => ?_, fun place nothing something => ?_⟩
  · rw [lists.total]
    simp [classFiles, refusedDirs, List.length_flatMap]
  · cases there : disk.has path with
    | false => rfl
    | true => exact absurd (accounted.created path listed).1 (has_place there)
  · have left := accounted.places place
    rw [old] at left
    generalize thingAt changed.root place = now at left ⊢
    cases left with
    | same => rfl
    | merged path _ _ listed here => exact absurd here (unmerged path listed)
  · have left := accounted.places place
    rw [nothing] at left
    generalize thingAt changed.root place = now at left something ⊢
    cases left with
    | same => exact absurd rfl something
    | created path content listed here => exact Or.inl ⟨path, listed, here⟩
    | made dir listed onTheWay =>
      refine Or.inr ⟨rfl, ?_⟩
      obtain ⟨above, within, rfl⟩ := onTheWay
      rcases List.mem_cons.mp listed with rfl | listed
      · exact Or.inl ⟨above, within, rfl⟩
      · obtain ⟨q, member, rfl⟩ := List.mem_map.mp listed
        have down : leadDown q.1 = true := (List.mem_filter.mp member).2
        rcases List.prefix_or_prefix_of_prefix within
          (directory_components root down) with outside | inside
        · exact Or.inl ⟨above, outside, rfl⟩
        · exact Or.inr ⟨q, member, above, inside, within, rfl⟩

def market : Project where
  packages := [
    { name := "row/a", classes := [{ name := "Stall" }],
      packages := [{ name := "..", classes := [{ name := "Thief" }] }] },
    { name := "row//a/", classes :=
        [{ name := "Stall", fields := [{ name := "rent", type := "int" }] }] }]
  classes := [{ name := "x/y" }, { name := "Clock" }]

def square : Disk where
  root := .dir [("t", .dir [("Clock.java", .file "class Clock \x7b int hour; \x7d".toUTF8)])]
  cwd := []

theorem market_accounted :
    ∃ report changed, (generate market ⟨"t"⟩).run.run square = (.ok report, changed) ∧
    report = { created := [⟨"t/row/a/Stall.java"⟩], merged := [⟨"t/row//a/Stall.java"⟩],
               unchanged := [⟨"t/Clock.java"⟩], skipped := [⟨"t/row/a/.."⟩, ⟨"t/x/y.java"⟩] } ∧
    FullAccount market ⟨"t"⟩ square report changed := by
  have checked : ((generate market ⟨"t"⟩).run.run square).1.toOption =
      some { created := [⟨"t/row/a/Stall.java"⟩], merged := [⟨"t/row//a/Stall.java"⟩],
             unchanged := [⟨"t/Clock.java"⟩],
             skipped := [⟨"t/row/a/.."⟩, ⟨"t/x/y.java"⟩] } := by decide +kernel
  obtain ⟨changed, ran⟩ := run_of_value checked
  exact ⟨_, changed, ran, rfl, generation_accounts_for_everything market ⟨"t"⟩ square ran⟩

end ClassDiagram.Proofs.GenerationReport
