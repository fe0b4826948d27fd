import ClassDiagram.Command.Run
import ClassDiagram.Proofs.ConfinedGeneration
import ClassDiagram.Proofs.GrownFiles

/-! What a call does to the disk. Settings, sources and diagrams are read before anything is
written, so that a call which cannot read them leaves the disk alone; what is written later keeps to
the output of the command, also when it stops midway. -/

namespace ClassDiagram.Proofs.CommandEffects
open Files Command DiskChanges PathPlaces ConfinedGeneration GrownFiles

/-- However the session ends, it does not touch the disk. -/
def Quiet {α : Type} (session : Session α) : Prop :=
  ∀ console, (session.run.run console).2.disk = console.disk

/-- The session asks something of the disk and ends there if it gets no answer. -/
def Asks {α ε : Type} (session : Session α) (question : Disk → Except ε α) : Prop :=
  ∃ trouble : ε → Trouble, ∀ console, session.run.run console =
    match question console.disk with
    | .ok answer => (.ok answer, console)
    | .error failure => (.error (trouble failure), console)

/-- However the session ends, it leaves one of the given disks. -/
def Leaves {α : Type} (session : Session α) (disk : Disk) (may : Disk → Prop) : Prop :=
  ∀ console, console.disk = disk → may (session.run.run console).2.disk

section
variable {α β : Type} {session : Session α} {next : α → Session β}

theorem Quiet.pure (value : α) : Quiet (Pure.pure value) :=
  fun _ => rfl

theorem Quiet.throw (trouble : Trouble) : Quiet (throw trouble : Session α) :=
  fun _ => rfl

theorem Quiet.bind (first : Quiet session) (second : ∀ value, Quiet (next value)) :
    Quiet (session >>= next) := by
  intro console
  have same := first console
  simp only [ExceptT.run_bind, StateT.run_bind]
  cases ran : session.run.run console with
  | mk outcome after =>
    rw [ran] at same
    cases outcome with
    | error trouble => exact same
    | ok value => exact (second value after).trans same

theorem Quiet.say (text : String) : Quiet (Session.say text) :=
  fun _ => rfl

theorem Quiet.sayTimed (text : String) : Quiet (Session.sayTimed text) :=
  fun _ => rfl

theorem Quiet.sayPaths (label : String) (paths : List Path) :
    Quiet (Command.sayPaths label paths) := by
  induction paths with
  | nil => exact .pure ()
  | cons path rest ih => exact .bind (.say _) fun _ => ih

private theorem session_get {next : Console → Session β} {console : Console} :
    (get >>= next : Session β).run.run console = (next console).run.run console :=
  rfl

private theorem asks_disk (context : String) (question : Disk → Except Error α) :
    Asks (Session.ask context question) question := by
  refine ⟨fun error => .causes context error.messages, fun console => ?_⟩
  rw [Session.ask, session_get]
  cases question console.disk <;> rfl

private theorem asks_config (path : Path) :
    Asks (loadConfig path) (Config.loadOrDefault · path) := by
  refine ⟨fun _ => .settings path, fun console => ?_⟩
  rw [loadConfig, session_get]
  beta_reduce
  cases Config.loadOrDefault console.disk path <;> rfl

end

section
variable {α β ε : Type} {session : Session α} {next : α → Session β} {disk : Disk}
  {may : Disk → Prop}

theorem Quiet.leaves (quiet : Quiet session) (unchanged : may disk) : Leaves session disk may := by
  rintro console rfl
  rwa [quiet console]

/-- A session whose start leaves the disk alone. The start may be where it ends. -/
theorem Leaves.behind (quiet : Quiet session) (unchanged : may disk)
    (rest : ∀ value, Leaves (next value) disk may) : Leaves (session >>= next) disk may := by
  rintro console rfl
  have same := quiet console
  simp only [ExceptT.run_bind, StateT.run_bind]
  cases ran : session.run.run console with
  | mk outcome after =>
    rw [ran] at same
    cases outcome with
    | error trouble => exact same ▸ unchanged
    | ok value => exact rest value after same

theorem Leaves.reading {question : Disk → Except ε α} (reads : Asks session question)
    (unchanged : may disk)
    (rest : ∀ answer, question disk = .ok answer → Leaves (next answer) disk may) :
    Leaves (session >>= next) disk may := by
  rintro console rfl
  obtain ⟨trouble, read⟩ := reads
  simp only [ExceptT.run_bind, StateT.run_bind, read console]
  cases answered : question console.disk with
  | error failure => exact unchanged
  | ok answer => exact rest answer answered console rfl

theorem Leaves.require {given configured : Option Path} {what : String} {next : Path → Session β}
    (unchanged : may disk)
    (rest : ∀ path, (given <|> configured) = some path → Leaves (next path) disk may) :
    Leaves (Command.require given configured what >>= next) disk may := by
  match given, configured with
  | some path, _ => exact rest path rfl
  | none, some path => exact rest path rfl
  | none, none => exact (Quiet.throw _).leaves unchanged

/-- A session that works on the disk and then leaves it alone. -/
theorem Leaves.performing {context : String} {work : Work α} (worked : may (work.run.run disk).2)
    (rest : ∀ value, Quiet (next value)) :
    Leaves (Session.perform context work >>= next) disk may := by
  rintro console rfl
  have performed : ∃ result, (Session.perform context work).run.run console =
      (result, { console with disk := (work.run.run console.disk).2 }) := by
    rw [Session.perform, session_get]
    cases ran : work.run.run console.disk with
    | mk result changed =>
      cases result with
      | ok answer => exact ⟨.ok answer, rfl⟩
      | error error => exact ⟨.error (.causes context error.messages), rfl⟩
  obtain ⟨result, performed⟩ := performed
  simp only [ExceptT.run_bind, StateT.run_bind, performed]
  cases result with
  | error trouble => exact worked
  | ok value => exact (rest value).leaves worked _ rfl

end

/-- The root of the output, or a directory above it, as the path spells them. -/
def Above (cwd : List String) (output : Path) (place : List String) : Prop :=
  ∃ above, above <+: output.components ∧ place = above.foldl follow cwd

/-- Drawing a diagram makes the output directory and the directories above it that are missing, and
writes one file. -/
def DrawnInto (old : Disk) (output : Path) (new : Disk) : Prop :=
  Confined (Above old.cwd output) (· = placeOf old.cwd output ++ [Diagram.fileName]) old new

/-- Generating sources makes the target directory and the directories above it that are missing, and
below it makes directories and writes files of classes, where files only grow. -/
def Generated (old : Disk) (target : Path) (classes : List Class) (new : Disk) : Prop :=
  Confined (MayMake old.cwd target) (MayWrite old.cwd target classes) old new ∧ Grows old new

private theorem save_drawn (project : Project) (output : Path) (disk : Disk) :
    DrawnInto disk output ((Diagram.save project output).run.run disk).2 := by
  have down : Path.isDownward ⟨Diagram.fileName⟩ = true := by decide
  have single : Path.components ⟨Diagram.fileName⟩ = [.normal Diagram.fileName] := by decide
  have file : placeOf disk.cwd (output.join Diagram.fileName) =
      placeOf disk.cwd output ++ [Diagram.fileName] := by
    simp [placeOf, join_components down, single, follow]
  have saves :
      Confines disk.cwd (Above disk.cwd output) (· = placeOf disk.cwd output ++ [Diagram.fileName])
      (Diagram.save project output) :=
    .bind (.makeDirs fun path member => ⟨path.components, ancestor_components member, rfl⟩) fun _ =>
      .bind (.write file _) fun _ => .pure _
  exact saves disk rfl

private theorem generate_generated (project : Project) (target : Path) (disk : Disk) :
    Generated disk target project.allClasses ((generate project target).run.run disk).2 :=
  ⟨generate_confined project disk rfl, generate_growing project target disk⟩

section
variable {disk : Disk} {may : Disk → Prop} (unchanged : may disk)
include unchanged

private theorem runUml_leaves {config : Config} {source output : Path}
    (drawn : ∀ extraction, extract disk source config.exclude = .ok extraction →
      ∀ new, DrawnInto disk output new → may new) :
    Leaves (runUml config source output) disk may := by
  refine .behind (.say _) unchanged fun _ =>
    .behind (.say _) unchanged fun _ => .behind (.say _) unchanged fun _ => ?_
  refine .reading (asks_disk _ _) unchanged fun extraction read => ?_
  refine .behind (.say _) unchanged fun _ =>
    .behind (.sayPaths _ _) unchanged fun _ => .behind (.say _) unchanged fun _ => ?_
  exact .performing (drawn extraction read _ (save_drawn extraction.project output disk))
    fun path =>
    .bind (.say _) fun _ => .bind (.say _) fun _ => .sayTimed _

private theorem runJava_leaves {diagram target : Path}
    (generated : ∀ project, Diagram.load disk diagram = .ok project →
      ∀ new, Generated disk target project.allClasses new → may new) :
    Leaves (runJava diagram target) disk may := by
  refine .behind (.say _) unchanged fun _ =>
    .behind (.say _) unchanged fun _ => .behind (.say _) unchanged fun _ => ?_
  refine .reading (asks_disk _ _) unchanged fun project read => ?_
  refine .behind (.say _) unchanged fun _ => .behind (.say _) unchanged fun _ => ?_
  exact .performing (generated project read _ (generate_generated project target disk))
    fun report =>
    .bind (.sayPaths _ _) fun _ => .bind (.sayPaths _ _) fun _ =>
      .bind (.sayPaths _ _) fun _ => .bind (.say _) fun _ => .sayTimed _

private theorem runModel_leaves {config : Config} {source : Path} :
    Leaves (runModel config source) disk may :=
  .reading (asks_disk _ _) unchanged fun _ _ => (Quiet.say _).leaves unchanged

end

/-- What a call that draws does to the disk, however it ends. A folder named with the call counts
before that of the settings. -/
structure DrawsOnly (settings : Path) (source output : Option Path) (old new : Disk) : Prop where
  unset : ∀ failure, Config.loadOrDefault old settings = .error failure → new = old
  unnamed : ∀ config, Config.loadOrDefault old settings = .ok config →
    (source <|> config.sourceFolder) = none ∨ (output <|> config.outputFolder) = none → new = old
  /-- There is no source folder, an exclude pattern is none, or the walk over the sources fails. -/
  unread : ∀ config folder error, Config.loadOrDefault old settings = .ok config →
    (source <|> config.sourceFolder) = some folder →
    extract old folder config.exclude = .error error → new = old
  drawn : ∀ config target, Config.loadOrDefault old settings = .ok config →
    (output <|> config.outputFolder) = some target → DrawnInto old target new

/-- What a call that generates does to the disk, however it ends. -/
structure GeneratesOnly (settings : Path) (diagram target : Option Path) (old new : Disk) :
    Prop where
  unset : ∀ failure, Config.loadOrDefault old settings = .error failure → new = old
  unnamed : ∀ config, Config.loadOrDefault old settings = .ok config →
    (diagram <|> config.outputFolder) = none ∨ (target <|> config.sourceFolder) = none → new = old
  unread : ∀ config file error, Config.loadOrDefault old settings = .ok config →
    (diagram <|> config.outputFolder) = some file → Diagram.load old file = .error error → new = old
  generated : ∀ config file folder project, Config.loadOrDefault old settings = .ok config →
    (diagram <|> config.outputFolder) = some file →
    (target <|> config.sourceFolder) = some folder → Diagram.load old file = .ok project →
    Generated old folder project.allClasses new

theorem DrawsOnly.refl (settings : Path) (source output : Option Path) (disk : Disk) :
    DrawsOnly settings source output disk disk :=
  ⟨fun _ _ => rfl, fun _ _ _ => rfl, fun _ _ _ _ _ _ => rfl, fun _ _ _ _ => .refl disk⟩

theorem GeneratesOnly.refl (settings : Path) (diagram target : Option Path) (disk : Disk) :
    GeneratesOnly settings diagram target disk disk :=
  ⟨fun _ _ => rfl, fun _ _ _ => rfl, fun _ _ _ _ _ _ => rfl,
    fun _ _ _ _ _ _ _ _ => ⟨.refl disk, .refl disk⟩⟩

section
variable {c : Call}

private theorem carryOut_draws {source output : Option Path} {watch : Bool}
    (action : c.action = .uml source output watch) (disk : Disk) :
    Leaves (carryOut c) disk (DrawsOnly c.config source output disk) := by
  have unchanged := DrawsOnly.refl c.config source output disk
  refine .reading (asks_config c.config) unchanged fun config set => ?_
  rw [action]
  refine .require unchanged fun folder fromFolder => .require unchanged fun target toFolder => ?_
  refine runUml_leaves unchanged fun extraction read new drawn => ⟨?_, ?_, ?_, ?_⟩
  · intro failure failed
    exact nomatch set.symm.trans failed
  · intro other again unnamed
    obtain rfl := Except.ok.inj (set.symm.trans again)
    rcases unnamed with unnamed | unnamed
    · exact nomatch fromFolder.symm.trans unnamed
    · exact nomatch toFolder.symm.trans unnamed
  · intro other otherFolder error again named failed
    obtain rfl := Except.ok.inj (set.symm.trans again)
    obtain rfl := Option.some.inj (fromFolder.symm.trans named)
    exact nomatch read.symm.trans failed
  · intro other otherTarget again named
    obtain rfl := Except.ok.inj (set.symm.trans again)
    obtain rfl := Option.some.inj (toFolder.symm.trans named)
    exact drawn

private theorem carryOut_generates {diagram target : Option Path}
    (action : c.action = .java diagram target) (disk : Disk) :
    Leaves (carryOut c) disk (GeneratesOnly c.config diagram target disk) := by
  have unchanged := GeneratesOnly.refl c.config diagram target disk
  refine .reading (asks_config c.config) unchanged fun config set => ?_
  rw [action]
  refine .require unchanged fun file fromFile => .require unchanged fun folder toFolder => ?_
  refine runJava_leaves unchanged fun project read new generated => ⟨?_, ?_, ?_, ?_⟩
  · intro failure failed
    exact nomatch set.symm.trans failed
  · intro other again unnamed
    obtain rfl := Except.ok.inj (set.symm.trans again)
    rcases unnamed with unnamed | unnamed
    · exact nomatch fromFile.symm.trans unnamed
    · exact nomatch toFolder.symm.trans unnamed
  · intro other otherFile error again named failed
    obtain rfl := Except.ok.inj (set.symm.trans again)
    obtain rfl := Option.some.inj (fromFile.symm.trans named)
    exact nomatch read.symm.trans failed
  · intro other otherFile otherFolder otherProject again fileNamed folderNamed loaded
    obtain rfl := Except.ok.inj (set.symm.trans again)
    obtain rfl := Option.some.inj (fromFile.symm.trans fileNamed)
    obtain rfl := Option.some.inj (toFolder.symm.trans folderNamed)
    obtain rfl := Except.ok.inj (read.symm.trans loaded)
    exact generated

private theorem carryOut_shows {source : Option Path} (action : c.action = .model source)
    (disk : Disk) : Leaves (carryOut c) disk (· = disk) := by
  refine .reading (asks_config c.config) rfl fun config _ => ?_
  rw [action]
  exact .require rfl fun folder _ => @runModel_leaves disk (· = disk) rfl _ _

private theorem run_leaves {arguments : List String} {disk : Disk} {may : Disk → Prop}
    (accepted : call arguments = .ok c) (leaves : Leaves (carryOut c) disk may) :
    may (run arguments disk).2.disk := by
  have left := leaves { disk } rfl
  simp only [run, accepted]
  cases ran : (carryOut c).run.run { disk } with
  | mk outcome console =>
    rw [ran] at left
    cases outcome <;> exact left

end

/-- Commands touch only their own output, whatever the disk and the settings are and however they
end. Showing the model touches nothing. Drawing touches the output directory and the diagram in it,
and nothing if the settings or the sources cannot be read. Generating touches the target directory
and what is below it, where no file loses anything, and nothing if the settings or the diagram
cannot be read. A call that watches draws again and again; what one round does is that of a call
which does not. -/
theorem commands_touch_own_output {arguments : List String} {c : Call}
    (accepted : call arguments = .ok c) (disk : Disk) : match c.action with
    | .model _ => (run arguments disk).2.disk = disk
    | .uml source output false => DrawsOnly c.config source output disk (run arguments disk).2.disk
    | .uml _ _ true => True
    | .java diagram target =>
      GeneratesOnly c.config diagram target disk (run arguments disk).2.disk := by
  cases action : c.action with
  | model source => exact run_leaves accepted (carryOut_shows action disk)
  | uml source output watch =>
    cases watch with
    | true => trivial
    | false => exact run_leaves accepted (carryOut_draws action disk)
  | java diagram target => exact run_leaves accepted (carryOut_generates action disk)

def mooring : Disk where
  root := .dir
    [("javauml.toml",
      .file "[project]\nsource_folder = \"src\"\noutput_folder = \"docs\"\n".toUTF8),
     ("docs", .dir
       [("diagram.puml", .file "@startuml\nclass Buoy \x7b\n+mark: int\n\x7d\n@enduml".toUTF8)]),
     ("src", .dir [("Buoy.java", .file "class Buoy \x7b // red\n\x7d\n".toUTF8)])]
  cwd := []

def mooringSettings : Config where
  sourceFolder := some ⟨"src"⟩
  outputFolder := some ⟨"docs"⟩

/-- A call that generates merges into the file, and one that names a missing folder of sources
leaves the diagram alone. -/
theorem mooring_kept : Config.loadOrDefault mooring ⟨"javauml.toml"⟩ = .ok mooringSettings ∧
    (∃ project, Diagram.load mooring ⟨"docs"⟩ = .ok project ∧
      Generated mooring ⟨"src"⟩ project.allClasses (run ["java"] mooring).2.disk) ∧
    ((run ["java"] mooring).2.disk.readText ⟨"src/Buoy.java"⟩).toOption =
      some "class Buoy \x7b // red\n    public int mark;\n\x7d\n" ∧
    (run ["uml", "--source", "lost"] mooring).1.code = 1 ∧
    (run ["uml", "--source", "lost"] mooring).2.disk = mooring := by
  have set : Config.loadOrDefault mooring ⟨"javauml.toml"⟩ = .ok mooringSettings := by
    decide +kernel
  have loaded : (Diagram.load mooring ⟨"docs"⟩).toOption.isSome = true := by decide +kernel
  have generates : call ["java"] = .ok ⟨⟨"javauml.toml"⟩, false, .java none none⟩ := by
    decide +kernel
  have draws : call ["uml", "--source", "lost"] =
      .ok ⟨⟨"javauml.toml"⟩, false, .uml (some ⟨"lost"⟩) none false⟩ := by decide +kernel
  have missing : extract mooring ⟨"lost"⟩ mooringSettings.exclude =
      .error (.sourceFolderNotFound ⟨"lost"⟩) := by
    have noDir : mooring.isDir ⟨"lost"⟩ = false := by decide +kernel
    simp only [extract]
    split
    next entries found => simp [Disk.isDir, found] at noDir
    next => rfl
  refine ⟨set, ?_, by decide +kernel, by decide +kernel, ?_⟩
  · cases read : Diagram.load mooring ⟨"docs"⟩ with
    | error error => simp [read, Except.toOption] at loaded
    | ok project =>
      exact ⟨project, rfl,
        (commands_touch_own_output generates mooring).generated _ _ _ project set rfl rfl read⟩
  · exact (commands_touch_own_output draws mooring).unread _ _ _ set rfl missing

end ClassDiagram.Proofs.CommandEffects
