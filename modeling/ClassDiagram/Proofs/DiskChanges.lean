import ClassDiagram.Diagram.File
import ClassDiagram.Proofs.Walks

/-! What saving a diagram does to a disk: directories may be made and one file is written. Every
directory stays, and every file that is not named like a diagram keeps its content. -/

namespace ClassDiagram.Proofs.DiskChanges
open Files Walks

def fileAt (root : Node) (names : List String) : Option ByteArray :=
  match root.get? names with
  | some (.file content) => some content
  | _ => none

def dirAt (root : Node) (names : List String) : Bool :=
  match root.get? names with
  | some (.dir _) => true
  | _ => false

inductive Thing where
  | directory
  | file (content : ByteArray)

def thingAt (root : Node) (names : List String) : Option Thing :=
  match root.get? names with
  | some (.dir _) => some .directory
  | some (.file content) => some (.file content)
  | none => none

private theorem fileAt_thing (root : Node) (names : List String) :
    fileAt root names = match thingAt root names with
      | some (.file content) => some content
      | _ => none := by
  simp only [fileAt, thingAt]
  cases root.get? names with
  | none => rfl
  | some node => cases node <;> rfl

theorem dirAt_thing (root : Node) (names : List String) :
    dirAt root names = true ↔ thingAt root names = some .directory := by
  simp only [dirAt, thingAt]
  cases root.get? names with
  | none => simp
  | some node => cases node <;> simp

theorem dirAt_iff {root : Node} {names : List String} :
    dirAt root names = true ↔ ∃ entries, root.get? names = some (.dir entries) := by
  simp only [dirAt]
  split <;> simp_all

theorem fileAt_iff {root : Node} {names : List String} {content : ByteArray} :
    fileAt root names = some content ↔ root.get? names = some (.file content) := by
  simp only [fileAt]
  split <;> simp_all

@[simp] theorem fileAt_cons (root : Node) (name : String) (names : List String) :
    fileAt root (name :: names) = (root.child? name).bind (fileAt · names) := by
  simp only [fileAt, Node.get?]
  cases root.child? name <;> rfl

@[simp] theorem dirAt_cons (root : Node) (name : String) (names : List String) :
    dirAt root (name :: names) = (root.child? name).any (dirAt · names) := by
  simp only [dirAt, Node.get?]
  cases root.child? name <;> rfl

@[simp] theorem thingAt_cons (root : Node) (name : String) (names : List String) :
    thingAt root (name :: names) = (root.child? name).bind (thingAt · names) := by
  simp only [thingAt, Node.get?]
  cases root.child? name <;> rfl

theorem lookup_setEntry (name other : String) (node : Node) (entries : List (String × Node)) :
    (Node.setEntry name node entries).lookup other = if other == name then some node
      else entries.lookup other := by
  induction entries with
  | nil =>
    simp only [Node.setEntry, List.lookup_cons, List.lookup_nil]
    cases other == name <;> rfl
  | cons entry rest ih =>
    obtain ⟨first, found⟩ := entry
    simp only [Node.setEntry]
    by_cases same : first = name
    · subst same
      simp only [beq_self_eq_true, if_true, List.lookup_cons]
      cases other == first <;> rfl
    · simp only [beq_iff_eq, same, if_false, List.lookup_cons, ih]
      by_cases here : other = first
      · simp [here, same]
      · have differs : (other == first) = false := by simpa using here
        simp [differs]

/-- How a node is put below a directory: into the entry that leads to its place, or nowhere. -/
theorem put_cons {new : Node} {name : String} {names : List String}
    {entries : List (String × Node)} :
    (∃ child, (names = [] ∧ child = new ∨ ∃ old, entries.lookup name = some old ∧
      child = new.put names old) ∧
        new.put (name :: names) (.dir entries) = .dir (Node.setEntry name child entries)) ∨
      (names ≠ [] ∧ entries.lookup name = none ∧
        new.put (name :: names) (.dir entries) = .dir entries) := by
  cases names with
  | nil => exact Or.inl ⟨new, Or.inl ⟨rfl, rfl⟩, by simp [Node.put]⟩
  | cons next more =>
    cases found : entries.lookup name with
    | none => exact Or.inr ⟨by simp, rfl, by simp [Node.put, found]⟩
    | some old => exact Or.inl ⟨_, Or.inr ⟨old, rfl, rfl⟩, by simp [Node.put, found]⟩

theorem child_dir (entries : List (String × Node)) (name : String) :
    (Node.dir entries).child? name = entries.lookup name := rfl

theorem child_file (content : ByteArray) (name : String) : (Node.file content).child? name = none :=
  rfl

private theorem child_empty {node : Node} (empty : node.entries = []) (name : String) :
    node.child? name = none := by
  simp [Node.child?, empty]

private theorem file_of_not_dir {root : Node} (free : dirAt root [] = false) :
    ∃ content, root = .file content := by
  cases root with
  | file content => exact ⟨content, rfl⟩
  | dir => simp [dirAt, Node.get?] at free

/-- A node without entries changes nothing but what is at its own place. -/
theorem thingAt_put {new root : Node} {names other : List String} (empty : new.entries = [])
    (free : dirAt root names = false) (different : other ≠ names) :
    thingAt (new.put names root) other = thingAt root other := by
  induction names generalizing root other with
  | nil =>
    obtain ⟨content, rfl⟩ := file_of_not_dir free
    cases other with
    | nil => exact absurd rfl different
    | cons name rest => simp [Node.put, child_empty empty, child_file]
  | cons name names ih =>
    cases root with
    | file => simp [Node.put]
    | dir entries =>
      simp only [dirAt_cons, child_dir] at free
      rcases @put_cons new name names entries with ⟨child, origin, same⟩ | ⟨_, _, same⟩
      · rw [same]
        cases other with
        | nil => simp [thingAt, Node.get?]
        | cons first rest =>
          simp only [thingAt_cons, child_dir, lookup_setEntry]
          by_cases here : first = name
          · subst here
            simp only [beq_self_eq_true, if_true, Option.bind_some]
            have below : rest ≠ names := fun same => different (by rw [same])
            rcases origin with ⟨rfl, rfl⟩ | ⟨old, found, rfl⟩
            · cases rest with
              | nil => exact absurd rfl below
              | cons next rest =>
                -- whatever was at the place is no directory, so nothing was below it
                cases found : entries.lookup first with
                | none => simp [child_empty empty]
                | some old =>
                  simp only [found, Option.any_some] at free
                  obtain ⟨content, rfl⟩ := file_of_not_dir free
                  simp [child_empty empty, child_file]
            · simp only [found, Option.any_some] at free
              simp [found, ih free below]
          · simp [here]
      · rw [same]

theorem fileAt_put {new root : Node} {names other : List String} (empty : new.entries = [])
    (free : dirAt root names = false) (different : other ≠ names) :
    fileAt (new.put names root) other = fileAt root other := by
  rw [fileAt_thing, fileAt_thing, thingAt_put empty free different]

theorem dirAt_put {new root : Node} {names other : List String} (empty : new.entries = [])
    (free : dirAt root names = false) (there : dirAt root other = true) :
    dirAt (new.put names root) other = true := by
  have different : other ≠ names := by
    rintro rfl
    simp [free] at there
  rw [dirAt_thing] at there ⊢
  rwa [thingAt_put empty free different]

/-- An empty directory is no file. -/
theorem put_empty_dir {root : Node} {names : List String} (lacking : root.get? names = none) :
    fileAt ((Node.dir []).put names root) names = none := by
  induction names generalizing root with
  | nil => simp [Node.get?] at lacking
  | cons name names ih =>
    cases root with
    | file => simp [Node.put, child_file]
    | dir entries =>
      rcases @put_cons (.dir []) name names entries with ⟨child, origin, same⟩ | ⟨_, none, same⟩
      · simp only [same, fileAt_cons, child_dir, lookup_setEntry, beq_self_eq_true, if_true,
          Option.bind_some]
        rcases origin with ⟨rfl, rfl⟩ | ⟨old, found, rfl⟩
        · rfl
        · exact ih (by simpa [Node.get?, child_dir, found] using lacking)
      · simp [same, child_dir, none]

theorem get_put {new root : Node} {place : List String} {name : String}
    (there : dirAt root place = true) :
    (new.put (place ++ [name]) root).get? (place ++ [name]) = some new := by
  induction place generalizing root with
  | nil =>
    obtain ⟨entries, here⟩ := dirAt_iff.mp there
    obtain rfl : root = .dir entries := Option.some.inj here
    simp [Node.put, Node.get?, child_dir, lookup_setEntry]
  | cons first place ih =>
    cases root with
    | file => simp [child_file] at there
    | dir entries =>
      simp only [dirAt_cons, child_dir] at there
      obtain ⟨child, found, inside⟩ := (Option.any_eq_true _ _).mp there
      have split : ∃ next more, place ++ [name] = next :: more :=
        List.exists_cons_of_ne_nil (by simp)
      obtain ⟨next, more, shape⟩ := split
      have deeper := ih inside
      rw [shape] at deeper
      simp only [List.cons_append, shape, Node.put, found, Node.get?, child_dir, lookup_setEntry,
        beq_self_eq_true, if_true]
      exact deeper

/-- Directories stay, and so do files but for those named like a diagram. -/
structure Keeps (old new : Disk) : Prop where
  cwd : new.cwd = old.cwd
  dirs : ∀ names, dirAt old.root names = true → dirAt new.root names = true
  files : ∀ names, names.getLast? ≠ some Diagram.fileName →
    fileAt new.root names = fileAt old.root names

theorem Keeps.trans {first second third : Disk} (one : Keeps first second)
    (two : Keeps second third) : Keeps first third :=
  ⟨two.cwd.trans one.cwd, fun names there => two.dirs names (one.dirs names there),
    fun names other => (two.files names other).trans (one.files names other)⟩

/-- Directories stay, and all files keep their content. -/
structure Stays (old new : Disk) : Prop where
  cwd : new.cwd = old.cwd
  dirs : ∀ names, dirAt old.root names = true → dirAt new.root names = true
  files : ∀ names, fileAt new.root names = fileAt old.root names

theorem Stays.refl (disk : Disk) : Stays disk disk :=
  ⟨rfl, fun _ there => there, fun _ => rfl⟩

theorem Stays.trans {first second third : Disk} (one : Stays first second)
    (two : Stays second third) : Stays first third :=
  ⟨two.cwd.trans one.cwd, fun names there => two.dirs names (one.dirs names there),
    fun names => (two.files names).trans (one.files names)⟩

/-- What is there stays there. -/
theorem Stays.present {old new : Disk} (stays : Stays old new) {names : List String} {node : Node}
    (here : old.root.get? names = some node) : ∃ later, new.root.get? names = some later := by
  cases node with
  | file content => exact ⟨_, fileAt_iff.mp ((stays.files names).trans (fileAt_iff.mpr here))⟩
  | dir entries =>
    obtain ⟨others, there⟩ := dirAt_iff.mp (stays.dirs names (dirAt_iff.mpr ⟨entries, here⟩))
    exact ⟨_, there⟩

theorem Stays.keeps {old new : Disk} (stays : Stays old new) : Keeps old new :=
  ⟨stays.cwd, stays.dirs, fun names _ => stays.files names⟩

/-- A directory is made where nothing was. -/
theorem makeDir_makes {disk made : Disk} {path : Path} (done : disk.makeDir path = .ok made) :
    ∃ spot, disk.spot path = .ok spot ∧
    disk.root.get? spot.names = none ∧
    made = { disk with root := (Node.dir []).put spot.names disk.root } := by
  simp only [Disk.makeDir] at done
  split at done
  · simp at done
  next spot found =>
    split at done
    · simp at done
    next lacking => exact ⟨spot, found, lacking, (Except.ok.inj done).symm⟩

theorem makeDir_stays {disk made : Disk} {path : Path} (done : disk.makeDir path = .ok made) :
    Stays disk made := by
  obtain ⟨spot, _, lacking, rfl⟩ := makeDir_makes done
  have free : dirAt disk.root spot.names = false := by simp [dirAt, lacking]
  refine ⟨rfl, fun names there => dirAt_put rfl free there, fun names => ?_⟩
  by_cases same : names = spot.names
  · subst same
    simp only [fileAt, lacking]
    exact put_empty_dir lacking
  · exact fileAt_put rfl free same

/-- What holds of a disk, and of any disk after a directory is made, holds after a line of them. -/
theorem makeDirsAlong_keeps {holds : Disk → Prop} {paths : List Path} {disk : Disk}
    (start : holds disk)
    (step : ∀ path ∈ paths, ∀ {between made : Disk}, holds between →
      between.makeDir path = .ok made → holds made) :
    holds (Disk.makeDirsAlong paths disk).2 := by
  induction paths with
  | nil => exact start
  | cons path above ih =>
    have own := @step path (by simp)
    have upper := ih fun other member => step other (by simp [member])
    simp only [Disk.makeDirsAlong]
    split
    next made done => exact own start done
    next =>
      split
      next fault last same => rwa [same] at upper
      next last same =>
        rw [same] at upper
        split
        next made done => exact own upper done
        next => exact upper
    next => exact start

theorem makeDirs_stays {disk made : Disk} {path : Path} {result : Except Fault Unit}
    (done : disk.makeDirs path = (result, made)) : Stays disk made := by
  have stays : Stays disk (Disk.makeDirsAlong path.lineage disk).2 :=
    makeDirsAlong_keeps (.refl disk) fun _ _ _ _ stays done => stays.trans (makeDir_stays done)
  rwa [show Disk.makeDirsAlong path.lineage disk = (result, made) from done] at stays

/-- Walks still lead where they led. -/
theorem walk_kept {old new : Node} (kept : ∀ names, dirAt old names = true → dirAt new names = true)
    {place : List String} {segments : List String} {spot : Spot}
    (walked : Disk.walk old place segments = .ok spot) :
    Disk.walk new place segments = .ok spot := by
  have there : ∀ {place entries}, old.get? place = some (.dir entries) →
      ∃ others, new.get? place = some (.dir others) := fun here =>
    dirAt_iff.mp (kept _ (dirAt_iff.mpr ⟨_, here⟩))
  apply WalksTo.walk
  induction walk_way walked with
  | done => exact .done
  | skip here idle further ih =>
    obtain ⟨_, later⟩ := there here
    exact .skip later idle (ih further.walk)
  | up here further ih =>
    obtain ⟨_, later⟩ := there here
    exact .up later (ih further.walk)
  | last here down =>
    obtain ⟨_, later⟩ := there here
    exact .last later down
  | slashed here down more empty =>
    obtain ⟨_, later⟩ := there here
    exact .slashed later down more empty
  | down here down solid further ih =>
    obtain ⟨_, later⟩ := there here
    exact .down later down solid (ih further.walk)

/-- A path leads where it led, if no directory has gone. -/
theorem spot_same {old new : Disk} (cwd : new.cwd = old.cwd)
    (dirs : ∀ names, dirAt old.root names = true → dirAt new.root names = true)
    {path : Path} {spot : Spot} (found : old.spot path = .ok spot) : new.spot path = .ok spot := by
  obtain ⟨noNul, nonempty, short, walked⟩ := spot_iff.mp found
  refine spot_iff.mpr ⟨noNul, nonempty, short, ?_⟩
  rw [cwd]
  exact walk_kept dirs walked

private theorem spot_kept {old new : Disk} (keeps : Keeps old new) {path : Path} {spot : Spot}
    (found : old.spot path = .ok spot) : new.spot path = .ok spot :=
  spot_same keeps.cwd keeps.dirs found

theorem node_dir_kept {old new : Disk} (keeps : Keeps old new) {path : Path}
    {entries : List (String × Node)} (located : old.node path = .ok (.dir entries)) :
    ∃ others, new.node path = .ok (.dir others) := by
  obtain ⟨spot, found, here⟩ := node_spot located
  obtain ⟨others, there⟩ := dirAt_iff.mp (keeps.dirs _ (dirAt_iff.mpr ⟨entries, here⟩))
  exact ⟨others, by simp [Disk.node, spot_kept keeps found, there]⟩

/-- A listed file can still be read at its path. -/
theorem entry_kept {old new : Disk} (keeps : Keeps old new) {dir : Path}
    {entries : List (String × Node)} {name : String} {content : ByteArray}
    (located : old.node dir = .ok (.dir entries)) (named : IsEntryName name)
    (small : checkEntry (dir.join name) = .ok ())
    (found : entries.lookup name = some (.file content)) (other : name ≠ Diagram.fileName) :
    new.node (dir.join name) = .ok (.file content) := by
  obtain ⟨⟨names, _⟩, led, here⟩ := node_spot located
  have spotted := spot_join led here named small
  have before : fileAt old.root (names ++ [name]) = some content :=
    fileAt_iff.mpr ((get_entry here).trans found)
  have after : new.root.get? (names ++ [name]) = some (.file content) := by
    apply fileAt_iff.mp
    rw [keeps.files _ (by simpa using other)]
    exact before
  simp [Disk.node, spot_kept keeps spotted, after]

/-- A walk whose last segment is a name ends there, in a directory. -/
theorem walk_ends {root : Node} {place : List String} {name : String} (named : IsEntryName name)
    {front : List String} {spot : Spot}
    (walked : Disk.walk root place (front ++ [name]) = .ok spot) :
    ∃ before, spot = ⟨before ++ [name], false⟩ ∧ dirAt root before = true := by
  induction front generalizing place with
  | nil =>
    obtain ⟨entries, here⟩ := (walk_way walked).starts (by simp)
    rw [List.nil_append, walk_name here named] at walked
    exact ⟨place, (Except.ok.inj walked).symm, dirAt_iff.mpr ⟨entries, here⟩⟩
  | cons segment front ih =>
    have other : (front ++ [name]).all (· == "") = false := by simp [named.nonempty]
    rw [List.cons_append] at walked
    generalize front ++ [name] = rest at walked other ih
    cases walk_way walked with
    | last => simp at other
    | skip _ _ further | up _ further | down _ _ _ further => exact ih further.walk
    | slashed _ _ _ empty => simp [other] at empty

private theorem join_ends {dir : Path} {name : String} (named : IsEntryName name) :
    ∃ front, (dir.join name).segments = front ++ [name] := by
  by_cases nonempty : dir.text = ""
  · exact ⟨[], by simp [Path.join, nonempty, segments_plain named.noSlash]⟩
  · obtain ⟨front, segments, _⟩ := join_segments nonempty named.noSlash
    exact ⟨front, segments⟩

private theorem diagram_named : IsEntryName Diagram.fileName := by decide

theorem decode_encoded (text : String) : Disk.decode text.toUTF8 = .ok text := by
  have read : String.fromUTF8? text.toUTF8 = some text := by
    simp only [String.fromUTF8?, Option.dite_none_right_eq_some]
    exact ⟨text.isValidUTF8, rfl⟩
  simp only [Disk.decode, read]

/-- Writing a file keeps all else, and the file can be read. -/
theorem writeText_saves {disk written : Disk} {dir : Path} {text : String}
    (done : disk.writeText (dir.join Diagram.fileName) text = .ok written) :
    Keeps disk written ∧ written.readText (dir.join Diagram.fileName) = .ok text := by
  simp only [Disk.writeText, Disk.writeBytes] at done
  split at done
  · simp at done
  next spot found =>
    obtain ⟨front, segments⟩ := @join_ends dir _ diagram_named
    have walked := (spot_iff.mp found).walked
    rw [segments] at walked
    obtain ⟨before, rfl, there⟩ := walk_ends diagram_named walked
    -- nothing but a file can have been at the place
    have parts : dirAt disk.root (before ++ [Diagram.fileName]) = false ∧
        written =
        { disk with root := (Node.file text.toUTF8).put (before ++ [Diagram.fileName])
                      disk.root } := by
      split at done
      · simp at done
      next content old => exact ⟨by simp [dirAt, old], (Except.ok.inj done).symm⟩
      next lacking => exact ⟨by simp [dirAt, lacking], (Except.ok.inj done).symm⟩
    obtain ⟨free, rfl⟩ := parts
    have keeps :
        Keeps disk { disk with root :=
                                 (Node.file text.toUTF8).put (before ++ [Diagram.fileName])
                                 disk.root } := by
      refine ⟨rfl, fun names there => dirAt_put rfl free there,
        fun names other => fileAt_put rfl free ?_⟩
      rintro rfl
      exact other (by simp)
    have new := @get_put (.file text.toUTF8) _ _ Diagram.fileName there
    refine ⟨keeps, ?_⟩
    simp only [Disk.readText, Disk.readBytes, Disk.node, spot_kept keeps found, new,
      Bool.false_eq_true, if_false, decode_encoded]

section
variable {α β : Type} {work : Work α} {next : α → Work β} {disk changed : Disk}

theorem run_bind_ok {value : α} (first : work.run.run disk = (.ok value, changed)) :
    (work >>= next).run.run disk = (next value).run.run changed := by
  simp only [ExceptT.run_bind, StateT.run_bind, first]
  rfl

theorem run_bind_error {error : Error} (first : work.run.run disk = (.error error, changed)) :
    (work >>= next).run.run disk = (.error error, changed) := by
  simp only [ExceptT.run_bind, StateT.run_bind, first]
  rfl

/-- Work that succeeds as a whole succeeds at each step. -/
theorem run_bind_succeeds {result : β}
    (whole : (work >>= next).run.run disk = (.ok result, changed)) :
    ∃ value between, work.run.run disk = (.ok value, between) ∧
      (next value).run.run between = (.ok result, changed) := by
  cases first : work.run.run disk with
  | mk outcome between =>
    cases outcome with
    | error error =>
      rw [run_bind_error first] at whole
      exact nomatch (Prod.mk.inj whole).1
    | ok value => exact ⟨value, between, rfl, run_bind_ok first ▸ whole⟩

/-- The value of a run is known before the disk it leaves. -/
theorem run_of_value {value : α} (ran : (work.run.run disk).1.toOption = some value) :
    ∃ changed, work.run.run disk = (.ok value, changed) := by
  cases run : work.run.run disk with
  | mk result changed =>
    rw [run] at ran
    cases result with
    | error => cases ran
    | ok found =>
      obtain rfl := Option.some.inj ran
      exact ⟨changed, rfl⟩

theorem run_get {next : Disk → Work β} :
    (get >>= next : Work β).run.run disk = (next disk).run.run disk :=
  run_bind_ok rfl

end

section
variable {disk changed : Disk} {path : Path}

theorem run_makeDirs_ok (made : disk.makeDirs path = (.ok (), changed)) :
    (Work.makeDirs path).run.run disk = (.ok (), changed) := by
  rw [Work.makeDirs, run_get, made]
  rfl

theorem run_makeDirs_succeeds (done : (Work.makeDirs path).run.run disk = (.ok (), changed)) :
    disk.makeDirs path = (.ok (), changed) := by
  rw [Work.makeDirs, run_get] at done
  cases made : disk.makeDirs path with
  | mk outcome between =>
    rw [made] at done
    cases outcome with
    | error fault => exact nomatch (Prod.mk.inj done).1
    | ok => rw [(Prod.mk.inj done).2]

theorem run_ask_ok {α : Type} {question : Disk → Except Fault α} {answer : α}
    (known : question disk = .ok answer) :
    (Work.ask path question).run.run disk = (.ok answer, disk) := by
  rw [Work.ask, run_get, known]
  rfl

theorem run_ask_error {α : Type} {question : Disk → Except Fault α} {fault : Fault}
    (failed : question disk = .error fault) :
    (Work.ask path question).run.run disk = (.error (.io path fault), disk) := by
  rw [Work.ask, run_get, failed]
  rfl

theorem run_attempt_ok {action : Disk → Except Fault Disk} (done : action disk = .ok changed) :
    (Work.attempt path action).run.run disk = (.ok (), changed) := by
  rw [Work.attempt, run_get, done]
  rfl

theorem run_attempt_error {action : Disk → Except Fault Disk} {fault : Fault}
    (failed : action disk = .error fault) :
    (Work.attempt path action).run.run disk = (.error (.io path fault), disk) := by
  rw [Work.attempt, run_get, failed]
  rfl

theorem run_attempt_succeeds {action : Disk → Except Fault Disk}
    (done : (Work.attempt path action).run.run disk = (.ok (), changed)) :
    action disk = .ok changed := by
  cases acted : action disk with
  | error fault =>
    rw [run_attempt_error acted] at done
    exact nomatch (Prod.mk.inj done).1
  | ok other =>
    rw [run_attempt_ok acted] at done
    rw [(Prod.mk.inj done).2]

/-- A file that can be read is there. -/
theorem has_of_read {text : String} (read : disk.readText path = .ok text) :
    disk.has path = true := by
  simp only [Disk.readText, Disk.readBytes] at read
  simp only [Disk.has]
  split
  · rfl
  next fault missing => simp [missing] at read

end

/-- A saved diagram can be loaded, and saving it keeps all but files named like it. -/
theorem save_keeps {disk saved : Disk} {project : Project} {dir file : Path}
    (done : (Diagram.save project dir).run.run disk = (.ok file, saved)) :
    file = dir.join Diagram.fileName ∧ Keeps disk saved ∧
    saved.readText file = .ok (Diagram.renderText project) := by
  obtain ⟨_, made, first, done⟩ := run_bind_succeeds done
  obtain ⟨_, written, second, done⟩ := run_bind_succeeds done
  obtain ⟨same, rfl⟩ := Prod.mk.inj done
  obtain rfl := Except.ok.inj same
  obtain ⟨keeps, read⟩ := writeText_saves (run_attempt_succeeds second)
  have above : Keeps disk made := (makeDirs_stays (run_makeDirs_succeeds first)).keeps
  exact ⟨rfl, above.trans keeps, read⟩

end ClassDiagram.Proofs.DiskChanges
