import ClassDiagram.Proofs.CollapsedPackages
import ClassDiagram.Proofs.DirectoryChains

/-! Generation from collapsed packages. A chain of packages that only nest is written one directory
at a time, a collapsed one in one go under the joined name. Both name the same paths, letter by
letter, and make the same directories, as long as the name of a package that only nests goes to its
end: a dot behind it asks for a directory that is not there before it is made. -/

namespace ClassDiagram.Proofs.CollapsedGeneration
open Files Package Walks DiskChanges PathPlaces CollapsedPackages DirectoryChains

/-- The two succeed on the same disks, with the same result and the same disk after it. -/
def Agrees {α : Type} (first second : Work α) : Prop :=
  ∀ disk result changed, first.run.run disk = (.ok result, changed) ↔
    second.run.run disk = (.ok result, changed)

section
variable {α β : Type} {first second third : Work α}

theorem Agrees.refl (work : Work α) : Agrees work work :=
  fun _ _ _ => Iff.rfl

theorem Agrees.trans (one : Agrees first second) (two : Agrees second third) : Agrees first third :=
  fun disk result changed => (one disk result changed).trans (two disk result changed)

private theorem run_bind_iff {next : α → Work β} {disk changed : Disk} {result : β} :
    (first >>= next).run.run disk = (.ok result, changed) ↔
    ∃ value between, first.run.run disk = (.ok value, between) ∧
      (next value).run.run between = (.ok result, changed) := by
  constructor
  · exact run_bind_succeeds
  · rintro ⟨value, between, one, two⟩
    rw [run_bind_ok one, two]

theorem Agrees.bind (one : Agrees first second) {next next' : α → Work β}
    (two : ∀ value, Agrees (next value) (next' value)) :
    Agrees (first >>= next) (second >>= next') := by
  intro disk result changed
  simp only [run_bind_iff, one disk, (two _) _]

end

private theorem run_makeDirs_iff {path : Path} {disk changed : Disk} :
    (Work.makeDirs path).run.run disk = (.ok (), changed) ↔
    disk.makeDirs path = (.ok (), changed) :=
  ⟨run_makeDirs_succeeds, run_makeDirs_ok⟩

/-- A package whose name leads down, and to its own end if the package only nests another one. -/
structure WellNamed (p : Package) : Prop where
  nonempty : p.name ≠ ""
  downward : Path.isDownward ⟨p.name⟩ = true
  ended : p.isNestingOnly = true → Ended ⟨p.name⟩

/-- A collapsed package is well named as far as it goes. -/
theorem collapse_name {p : Package} {above : List String}
    (named : ∀ q ∈ p.located above, WellNamed q.2) :
    p.collapse.name ≠ "" ∧ Path.isDownward ⟨p.collapse.name⟩ = true := by
  induction p using nesting_induction generalizing above with
  | nesting name child ih =>
    rw [located_eq] at named
    have own := named _ List.mem_cons_self
    obtain ⟨_, down⟩ := ih fun q member => named q (List.mem_cons_of_mem _ (by simpa using member))
    have joined := (own.ended rfl).joined (downward_parts down).1
    have whole := join_components down ⟨name⟩
    have outer := own.downward
    simp only [joined] at whole
    simp only [Path.isDownward] at outer down
    refine ⟨by simp [collapse_nesting, under], ?_⟩
    rw [collapse_nesting, under, Path.isDownward, whole, List.all_append, outer, down]
    rfl
  | solid p solid ih =>
    rw [located_eq] at named
    have own := named _ List.mem_cons_self
    rw [collapse_solid solid]
    exact ⟨own.nonempty, own.downward⟩

private theorem append_none (report : Report) : report.append {} = report := by
  simp [Report.append]

def writeInside (p : Package) (dir : Path) : Work Report := do
  let below ← Generation.writePackages dir p.packages
  return below.append (← Generation.writeClasses dir p.classes)

private theorem writePackage_down {p : Package} (down : Path.isDownward ⟨p.name⟩ = true)
    (parent : Path) : Generation.writePackage parent p =
    (do Work.makeDirs (parent.join p.name); writeInside p (parent.join p.name)) := by
  obtain ⟨name, classes, packages⟩ := p
  simp only [Generation.writePackage, down, if_true]
  rfl

private theorem inside_nesting (name : String) (child : Package) (dir : Path) :
    Agrees (writeInside ⟨name, [], [child]⟩ dir) (Generation.writePackage dir child) := by
  intro disk result changed
  simp only [writeInside, Generation.writePackages, Generation.writeClasses, pure_bind,
    append_none, bind_pure]

private theorem writePackages_collapse {dir : Path} {all : List Package}
    (each : ∀ p ∈ all, Agrees (Generation.writePackage dir p)
      (Generation.writePackage dir p.collapse)) :
    Agrees (Generation.writePackages dir all)
      (Generation.writePackages dir (all.map collapse)) := by
  induction all with
  | nil => exact .refl _
  | cons p rest ih =>
    simp only [List.map_cons, Generation.writePackages]
    exact .bind (each p (by simp)) fun _ =>
      .bind (ih fun q member => each q (by simp [member])) fun _ => .refl _

/-- Collapsing a package makes no difference to what is written for it. -/
theorem writePackage_collapse {p : Package} {above : List String}
    (named : ∀ q ∈ p.located above, WellNamed q.2) (parent : Path) :
    Agrees (Generation.writePackage parent p) (Generation.writePackage parent p.collapse) := by
  induction p using nesting_induction generalizing above parent with
  | nesting name child ih =>
    obtain ⟨_, whole⟩ := collapse_name named
    rw [located_eq] at named
    have own : WellNamed ⟨name, [], [child]⟩ := named _ List.mem_cons_self
    have inner : ∀ q ∈ child.located (above ++ [name]), WellNamed q.2 := fun q member =>
      named q (List.mem_cons_of_mem _ (by simpa using member))
    obtain ⟨nonempty, down⟩ := collapse_name inner
    have relative := (downward_parts own.downward).1
    have ended : Ended (parent.join name) := (own.ended rfl).join relative parent
    have same : (parent.join name).join child.collapse.name =
        parent.join (name ++ "/" ++ child.collapse.name) :=
      join_over parent own.nonempty relative (own.ended rfl).solid (downward_parts down).1
    -- the directory of the package is on the way to that of its child
    have chain :
        Agrees (do Work.makeDirs (parent.join name); Work.makeDirs ((parent.join name).join
          child.collapse.name)) (Work.makeDirs ((parent.join name).join child.collapse.name)) := by
      intro disk result changed
      rw [run_bind_iff, run_makeDirs_iff, makeDirs_over ended (ended.extends nonempty down)]
      constructor
      · rintro ⟨_, upper, above, below⟩
        exact ⟨upper, run_makeDirs_iff.mp above, run_makeDirs_iff.mp below⟩
      · rintro ⟨upper, above, below⟩
        exact ⟨(), upper, run_makeDirs_iff.mpr above, run_makeDirs_iff.mpr below⟩
    have inside :=
      (inside_nesting name child (parent.join name)).trans (ih inner (parent.join name))
    rw [writePackage_down down] at inside
    rw [collapse_nesting] at whole ⊢
    rw [writePackage_down own.downward, writePackage_down whole]
    refine (Agrees.bind (.refl _) fun _ => inside).trans ?_
    rw [← bind_assoc]
    have written := chain.bind fun _ =>
      Agrees.refl (writeInside child.collapse ((parent.join name).join child.collapse.name))
    rw [same] at written ⊢
    exact written
  | solid p solid ih =>
    have own : WellNamed p :=
      named (above ++ [p.name], p) (by rw [located_eq]; exact List.mem_cons_self)
    have below : ∀ child ∈ p.packages, ∀ q ∈ child.located (above ++ [p.name]), WellNamed q.2 := by
      intro child member q inner
      refine named q ?_
      rw [located_eq]
      exact List.mem_cons_of_mem _ (List.mem_flatMap.mpr ⟨child, member, inner⟩)
    have same :
        Path.isDownward ⟨({ p with packages := p.packages.map collapse } : Package).name⟩ = true :=
      own.downward
    rw [collapse_solid solid, writePackage_down own.downward, writePackage_down same]
    refine .bind (.refl _) fun _ =>
      .bind (writePackages_collapse fun child member => ?_) fun _ => .refl _
    exact ih child member (below child member) _

private theorem generate_collapse {project : Project}
    (named : ∀ q ∈ locatedIn [] project.packages, WellNamed q.2) (root : Path) :
    Agrees (generate project root) (generate project.collapsePackages root) := by
  simp only [generate, Project.collapsePackages, collapseAll_eq]
  refine .bind (.refl _) fun _ => .bind (writePackages_collapse fun p member => ?_) fun _ => .refl _
  have inside : ∀ q ∈ p.located [], WellNamed q.2 := fun q below => named q (by
    rw [locatedIn_eq]
    exact List.mem_flatMap.mpr ⟨p, member, below⟩)
  exact writePackage_collapse inside root

/-- Generation from a project succeeds exactly if it does after the packages are collapsed, with the
same report, path by path, and the same disk: if the names of packages lead down, and those of
packages that only nest another one do not end with a slash or a dot behind one. -/
theorem collapsing_is_invisible (project : Project) (root : Path) (disk : Disk)
    (named : ∀ q ∈ locatedIn [] project.packages, q.2.name ≠ "" ∧ Path.isDownward ⟨q.2.name⟩ = true)
    (ended : ∀ q ∈ locatedIn [] project.packages, q.2.isNestingOnly = true → Ended ⟨q.2.name⟩)
    (report : Report) (changed : Disk) :
    (generate project root).run.run disk = (.ok report, changed) ↔
      (generate project.collapsePackages root).run.run disk = (.ok report, changed) :=
  generate_collapse (fun q member => ⟨(named q member).1, (named q member).2, ended q member⟩) root
    disk report changed

def isles : Project where
  packages := [
    { name := "west", packages :=
        [{ name := "outer", packages :=
             [{ name := "rock/", classes := [{ name := "Light" }] }] }] },
    { name := "west/outer", packages :=
        [{ name := "rock", classes :=
             [{ name := "Light", fields := [{ name := "beam", type := "int" }] }] }] }]
  classes := [{ name := "Ferry" }]

def sea : Disk where
  root := .dir [("t", .dir [("west", .dir [])])]
  cwd := []

theorem isles_collapsed :
    ∃ report changed, (generate isles ⟨"t"⟩).run.run sea = (.ok report, changed) ∧
    report.created = [⟨"t/west/outer/rock/Light.java"⟩, ⟨"t/Ferry.java"⟩] ∧
    report.merged = [⟨"t/west/outer/rock/Light.java"⟩] ∧
    (generate isles.collapsePackages ⟨"t"⟩).run.run sea = (.ok report, changed) := by
  have checked : ((generate isles ⟨"t"⟩).run.run sea).1.toOption =
      some { created := [⟨"t/west/outer/rock/Light.java"⟩, ⟨"t/Ferry.java"⟩],
             merged := [⟨"t/west/outer/rock/Light.java"⟩] } := by decide +kernel
  obtain ⟨changed, ran⟩ := run_of_value checked
  exact ⟨_, changed, ran, rfl, rfl,
    (collapsing_is_invisible isles ⟨"t"⟩ sea (by decide) (by decide) _ _).mp ran⟩

def dotted : Project where
  packages := [{ name := "a/.", packages := [{ name := "b", classes := [{ name := "X" }] }] }]

/-- The directory under the dot is not there yet when it is made by itself, but it is made on the
way to another one. -/
theorem dot_hides_directory :
    (∀ q ∈ locatedIn [] dotted.packages, q.2.name ≠ "" ∧ Path.isDownward ⟨q.2.name⟩ = true) ∧
    (∀ report changed, (generate dotted ⟨"t"⟩).run.run ⟨.dir [], []⟩ ≠ (.ok report, changed)) ∧
    ∃ report changed, (generate dotted.collapsePackages ⟨"t"⟩).run.run ⟨.dir [], []⟩ =
      (.ok report, changed) := by
  refine ⟨by decide, fun report changed ran => ?_, ?_⟩
  · have failed : ((generate dotted ⟨"t"⟩).run.run ⟨.dir [], []⟩).1.toOption.isSome = false := by
      decide +kernel
    rw [ran] at failed
    exact nomatch failed
  · have checked : ((generate dotted.collapsePackages ⟨"t"⟩).run.run ⟨.dir [], []⟩).1.toOption =
        some { created := [⟨"t/a/./b/X.java"⟩] } := by
      decide +kernel
    exact ⟨_, run_of_value checked⟩

def slashed : Project where
  packages := [{ name := "a/", packages := [{ name := "b", classes := [{ name := "X" }] }] }]

def bay : Disk where
  root := .dir [("t", .dir [("a", .dir [("b", .dir [])])])]
  cwd := []

def far (slashes : Nat) (text : String) : Path where
  text := String.ofList (List.replicate slashes '/') ++ text

section
variable {slashes : Nat} {text : String}

private theorem far_size : (far slashes text).text.utf8ByteSize = slashes + text.utf8ByteSize := by
  have own : (String.ofList (List.replicate slashes '/')).utf8ByteSize = slashes := by
    induction slashes with
    | zero => rfl
    | succ slashes ih =>
      rw [List.replicate_succ, ← List.singleton_append, String.ofList_append,
        String.utf8ByteSize_append, ih]
      exact Nat.add_comm 1 slashes
  rw [far, String.utf8ByteSize_append, own]

private theorem far_segments :
    (far slashes text).segments = List.replicate slashes "" ++ Path.segments ⟨text⟩ := by
  simp only [Path.segments, far, String.toList_append, String.toList_ofList]
  induction slashes with
  | zero => rfl
  | succ slashes ih => simp [List.replicate_succ, Text.pieces, ih]

private theorem walk_slashes {root : Node} {place rest : List String}
    {entries : List (String × Node)} (here : root.get? place = some (.dir entries)) :
    Disk.walk root place (List.replicate slashes "" ++ rest) = Disk.walk root place rest := by
  induction slashes with
  | zero => rfl
  | succ slashes ih => rw [List.replicate_succ, List.cons_append, walk_skip here rfl, ih]

variable (filled : text ≠ "")
include filled

private theorem far_join {name : String} (relative : Path.isAbsolute ⟨name⟩ = false) :
    (far slashes text).join name = far slashes (Path.join ⟨text⟩ name).text := by
  have last : (far slashes text).text.toList.getLast? = text.toList.getLast? := by
    rw [far, String.toList_append, List.getLast?_append_of_ne_nil _ (by simpa using filled)]
  have own : (far slashes text).text ≠ "" := by simp [far, filled]
  simp only [Path.join, relative, filled, own, last, beq_iff_eq, Bool.false_or, if_false]
  split <;> simp [far, String.append_assoc]

/-- Slashes in front lead nowhere else, as long as there is room for them. -/
private theorem far_spot (short : slashes + text.utf8ByteSize ≤ pathLimit) :
    bay.spot (far slashes text) = bay.spot ⟨text⟩ := by
  have start : ∀ path : Path, (if path.isAbsolute then [] else bay.cwd) = [] := fun _ => ite_self _
  have nul : (far slashes text).text.toList.contains '\x00' = text.toList.contains '\x00' := by
    simp [far]
  have own : (far slashes text).text ≠ "" := by simp [far, filled]
  have limit : ¬pathLimit < (far slashes text).text.utf8ByteSize := by rw [far_size]; omega
  have limit' : ¬pathLimit < text.utf8ByteSize := by omega
  have walked := fun rest => @walk_slashes slashes bay.root [] rest _ rfl
  simp only [Disk.spot, start, nul, beq_iff_eq, own, filled, limit, limit', if_false,
    far_segments, walked]

end

section
variable {slashes : Nat} (edge : slashes + 12 = pathLimit)
include edge

private theorem far_made {text : String} (filled : text ≠ "") (short : text.utf8ByteSize ≤ 12)
    (isDir : bay.isDir ⟨text⟩ = true) :
    (Work.makeDirs (far slashes text)).run.run bay = (.ok (), bay) := by
  obtain ⟨entries, located⟩ := isDir_node isDir
  have there : bay.node (far slashes text) = .ok (.dir entries) := by
    rw [← located]
    simp only [Disk.node, far_spot filled (show slashes + text.utf8ByteSize ≤ pathLimit by omega)]
  exact run_makeDirs_ok (makeDirs_there there)

private theorem far_written :
    ∃ after, (Generation.writeClass (far slashes "t/a/b") { name := "X" }).run.run bay =
    (.ok { created := [far slashes "t/a/b/X.java"] }, after) := by
  have file : (far slashes "t/a/b").join "X.java" = far slashes "t/a/b/X.java" :=
    far_join (by decide) (by decide)
  have spot := @far_spot slashes "t/a/b/X.java" (by decide) (Nat.le_of_eq edge)
  have free : bay.has (far slashes "t/a/b/X.java") = false := by
    simp only [Disk.has, Disk.node, spot]
    decide
  obtain ⟨after, written⟩ :
      ∃ after, bay.writeText (far slashes "t/a/b/X.java") (Java.skeletonText { name := "X" }) =
      .ok after := by
    simp only [Disk.writeText, Disk.writeBytes, spot]
    exact ⟨_, rfl⟩
  refine ⟨after, ?_⟩
  have named : Path.isFileName ⟨"X.java"⟩ = true := by decide
  simp only [Generation.writeClass, show "X" ++ ".java" = "X.java" from rfl, named, file, if_true,
    run_get, free, Bool.false_eq_true, if_false]
  rw [run_bind_ok (run_attempt_ok written)]
  rfl

private theorem far_generated :
    ∃ report changed, (generate slashed (far slashes "t")).run.run bay = (.ok report, changed) := by
  obtain ⟨after, written⟩ := far_written edge
  have outer : (far slashes "t").join "a/" = far slashes "t/a/" := far_join (by decide) (by decide)
  have inner : (far slashes "t/a/").join "b" = far slashes "t/a/b" :=
    far_join (by decide) (by decide)
  have down : Path.isDownward ⟨"a/"⟩ = true ∧ Path.isDownward ⟨"b"⟩ = true := by decide
  have made : ∀ text ∈ ["t", "t/a/", "t/a/b"],
      (Work.makeDirs (far slashes text)).run.run bay = (.ok (), bay) := by
    intro text listed
    have there : text ≠ "" ∧ text.utf8ByteSize ≤ 12 ∧ bay.isDir ⟨text⟩ = true := by
      revert text
      decide
    exact far_made edge there.1 there.2.1 there.2.2
  simp only [generate, slashed, Generation.writePackages, Generation.writePackage,
    Generation.writeClasses, outer, inner, down, if_true, bind_assoc, pure_bind]
  rw [run_bind_ok (made "t" (by simp)), run_bind_ok (made "t/a/" (by simp)),
    run_bind_ok (made "t/a/b" (by simp)), run_bind_ok written]
  exact ⟨_, _, rfl⟩

private theorem far_unwritten (disk changed : Disk) (report : Report) :
    (Generation.writeClass (far slashes "t/a//b") { name := "X" }).run.run disk ≠
      (.ok report, changed) := by
  have file : (far slashes "t/a//b").join "X.java" = far slashes "t/a//b/X.java" :=
    far_join (by decide) (by decide)
  have named : Path.isFileName ⟨"X.java"⟩ = true := by decide
  cases found : disk.spot (far slashes "t/a//b/X.java") with
  | ok spot =>
    have short := (spot_iff.mp found).short
    rw [far_size, ← edge, Nat.add_le_add_iff_left] at short
    exact absurd short (by decide)
  | error fault =>
    have free : disk.has (far slashes "t/a//b/X.java") = false := by
      simp [Disk.has, Disk.node, found]
    have failed : disk.writeText (far slashes "t/a//b/X.java") (Java.skeletonText { name := "X" }) =
        .error fault := by
      simp [Disk.writeText, Disk.writeBytes, found]
    simp only [Generation.writeClass, show "X" ++ ".java" = "X.java" from rfl, named, file, if_true,
      run_get, free, Bool.false_eq_true, if_false]
    rw [run_bind_error (run_attempt_error failed)]
    intro done
    cases done

private theorem far_refused (report : Report) (changed : Disk) :
    (generate slashed.collapsePackages (far slashes "t")).run.run bay ≠ (.ok report, changed) := by
  have whole : (far slashes "t").join "a//b" = far slashes "t/a//b" :=
    far_join (by decide) (by decide)
  have down : Path.isDownward ⟨"a//b"⟩ = true := by decide
  have collapsed : slashed.collapsePackages =
      { packages := [{ name := "a//b", classes := [{ name := "X" }] }] } := by rfl
  simp only [generate, collapsed, Generation.writePackages, Generation.writePackage,
    Generation.writeClasses, whole, down, if_true, bind_assoc, pure_bind]
  intro run
  obtain ⟨_, _, _, run⟩ := run_bind_succeeds run
  obtain ⟨_, between, _, run⟩ := run_bind_succeeds run
  obtain ⟨_, _, written, _⟩ := run_bind_succeeds run
  exact far_unwritten edge between _ _ written

end

/-- The joined name has one slash more than the path that is made step by step, and at the limit of
paths there is no room for it. -/
theorem slash_outgrows_limit :
    (∀ q ∈ locatedIn [] slashed.packages, q.2.name ≠ "" ∧ Path.isDownward ⟨q.2.name⟩ = true) ∧
    (∃ report changed, (generate slashed (far 4083 "t")).run.run bay = (.ok report, changed)) ∧
    ∀ report changed, (generate slashed.collapsePackages (far 4083 "t")).run.run bay ≠
      (.ok report, changed) := by
  have edge : 4083 + 12 = pathLimit := rfl
  exact ⟨by decide, far_generated edge, far_refused edge⟩

end ClassDiagram.Proofs.CollapsedGeneration
