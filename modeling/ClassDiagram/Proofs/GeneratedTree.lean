import ClassDiagram.Proofs.GrownDirectories
import ClassDiagram.Proofs.RepeatedGeneration
import ClassDiagram.Proofs.SortedHarvest

/-! The tree that generation makes. Below an empty directory every package becomes a directory and
every class a file in it, whether or not packages that only nest others were collapsed before. -/

namespace ClassDiagram.Proofs.GeneratedTree
open Files Walks DiskChanges FileWrites Regeneration RepeatedGeneration SortedHarvest
  GrownDirectories

def classEntry (c : Class) : String × Node :=
  (fileOf c, .file (Java.skeletonText c).toUTF8)

mutual
def packageEntry : Package → String × Node
  | ⟨name, classes, packages⟩ => (name, .dir (packageEntries packages ++ classes.map classEntry))

def packageEntries : List Package → List (String × Node)
  | [] => []
  | p :: ps => packageEntry p :: packageEntries ps
end

theorem packageEntry_name (p : Package) : (packageEntry p).1 = p.name := by
  cases p
  rfl

mutual
/-- All paths below a directory are within the limit. -/
def Fits (dir : Path) : Package → Prop
  | ⟨name, classes, packages⟩ => checkEntry (dir.join name) = .ok () ∧
      (∀ c ∈ classes, checkEntry (classFile (dir.join name) c) = .ok ()) ∧
      AllFit (dir.join name) packages

def AllFit (dir : Path) : List Package → Prop
  | [] => True
  | p :: ps => Fits dir p ∧ AllFit dir ps
end

/-- Where a collapsed package leads: down a line of directories that starts with its own. -/
structure Leads (p : Package) (names : List String) : Prop where
  named : ∀ name ∈ names ++ [p.name], IsEntryName name
  downward : Path.isDownward ⟨p.collapse.name⟩ = true
  joined : ∀ dir : Path, dir.text ≠ "" → dir.join p.collapse.name = trail (dir.join p.name) names
  fits : ∀ dir : Path, dir.text ≠ "" → Fits dir p → checkEntry (dir.join p.collapse.name) = .ok ()

private theorem leads_itself {p : Package} (orderly : Orderly p)
    (whole : p.collapse.name = p.name) : Leads p [] := by
  obtain ⟨name, classes, packages⟩ := p
  obtain ⟨named, _⟩ := orderly
  refine ⟨by simpa using named, ?_, fun dir _ => by rw [whole]; rfl,
    fun dir _ fits => by rw [whole]; exact fits.1⟩
  rw [whole]
  simp [Path.isDownward, entry_components named]

theorem leads_down {name : String} {child : Package} (named : IsEntryName name)
    {names : List String} (leads : Leads child names) :
    Leads ⟨name, [], [child]⟩ (names ++ [child.name]) := by
  have relative := (downward_parts leads.downward).1
  have collapsed : (Package.collapse ⟨name, [], [child]⟩).name =
      name ++ "/" ++ child.collapse.name := by simp [Package.collapse]
  have inner : ∀ dir : Path, dir.join (name ++ "/" ++ child.collapse.name) =
      (dir.join name).join child.collapse.name :=
    fun dir => (join_join dir named relative).symm
  refine ⟨?_, ?_, ?_, ?_⟩
  · intro entry listed
    rcases List.mem_append.mp listed with listed | listed
    · exact leads.named entry listed
    · exact List.mem_singleton.mp listed ▸ named
  · rw [collapsed]
    exact downward_join named leads.downward
  · intro dir nonempty
    rw [collapsed, inner dir,
      leads.joined _ (join_nonempty nonempty (entry_relative named.noSlash)), trail_join]
  · intro dir nonempty fits
    rw [collapsed, inner dir]
    exact leads.fits _ (join_nonempty nonempty (entry_relative named.noSlash)) fits.2.2.1

theorem collapse_leads (p : Package) (orderly : Orderly p) : ∃ names, Leads p names := by
  match p with
  | ⟨name, [], [child]⟩ =>
    obtain ⟨named, _, below, _⟩ := orderly
    obtain ⟨names, leads⟩ := collapse_leads child below
    exact ⟨names ++ [child.name], leads_down named leads⟩
  | ⟨name, [], []⟩ => exact ⟨[], leads_itself orderly rfl⟩
  | ⟨name, [], first :: second :: more⟩ => exact ⟨[], leads_itself orderly rfl⟩
  | ⟨name, c :: classes, packages⟩ => exact ⟨[], leads_itself orderly rfl⟩
termination_by structural p

/-- The work succeeds, and all it does is to add entries to the directory at a place. -/
def Adds (work : Work Report) (disk : Disk) (place : List String)
    (entries new : List (String × Node)) : Prop :=
  ∃ report, work.run.run disk = (.ok report, grown disk place (entries ++ new))

private theorem adds_nothing {disk : Disk} {dir : Path} {place : List String}
    {entries : List (String × Node)} (holds : Holds disk dir place entries)
    (report : Report) : Adds (pure report) disk place entries [] := by
  refine ⟨report, ?_⟩
  rw [List.append_nil, grown_same holds.here]
  rfl

theorem Adds.both {first second : Work Report} {disk : Disk} {place : List String}
    {entries new more : List (String × Node)} (one : Adds first disk place entries new)
    (two : Adds second (grown disk place (entries ++ new)) place (entries ++ new) more) :
    Adds (do let before ← first; return before.append (← second)) disk place entries
      (new ++ more) := by
  obtain ⟨report, run⟩ := one
  obtain ⟨report', run'⟩ := two
  refine ⟨report.append report', ?_⟩
  rw [run_bind_ok run, run_bind_ok run', grown_twice, List.append_assoc]
  rfl

section
variable {disk : Disk} {dir : Path} {place : List String} {entries : List (String × Node)}

private theorem writeClass_adds {c : Class} (holds : Holds disk dir place entries)
    (named : IsEntryName (fileOf c)) (small : checkEntry (classFile dir c) = .ok ())
    (fresh : entries.lookup (fileOf c) = none) :
    Adds (Generation.writeClass dir c) disk place entries [classEntry c] := by
  have isFile : Path.isFileName ⟨fileOf c⟩ = true := by
    simp [Path.isFileName, entry_components named]
  have spotted : disk.spot (classFile dir c) = .ok ⟨place ++ [fileOf c], false⟩ :=
    holds.spot named small
  have lacking : disk.root.get? (place ++ [fileOf c]) = none := (get_entry holds.here).trans fresh
  have absent : disk.has (classFile dir c) = false := by
    simp only [Disk.has, Disk.node, spotted, lacking]
  refine ⟨{ created := [classFile dir c] }, ?_⟩
  rw [writeClass_new isFile absent,
    run_bind_ok (run_attempt_ok (holds.writeText named small fresh (Java.skeletonText c)))]
  rfl

private theorem writeClasses_adds {classes : List Class} (holds : Holds disk dir place entries)
    (named : ∀ c ∈ classes, IsEntryName (fileOf c))
    (small : ∀ c ∈ classes, checkEntry (classFile dir c) = .ok ())
    (apart : classes.Pairwise fun c d => fileOf c ≠ fileOf d)
    (fresh : ∀ c ∈ classes, entries.lookup (fileOf c) = none) :
    Adds (Generation.writeClasses dir classes) disk place entries (classes.map classEntry) := by
  induction classes generalizing disk entries with
  | nil => exact adds_nothing holds {}
  | cons c rest ih =>
    obtain ⟨other, apart⟩ := List.pairwise_cons.mp apart
    have first := writeClass_adds holds (named c (by simp)) (small c (by simp)) (fresh c (by simp))
    refine first.both
      (ih (holds.more _) (fun d listed => named d (by simp [listed]))
        (fun d listed => small d (by simp [listed])) apart ?_)
    exact fun d listed => lookup_more (fresh d (by simp [listed])) (other d listed).symm

/-- What is added in a new directory is added with it. -/
theorem Adds.below {name : String} {work inner : Work Report} {new : List (String × Node)}
    (holds : Holds disk dir place entries) (fresh : entries.lookup name = none)
    (adds : Adds inner (grown disk place (entries ++ [(name, .dir [])])) (place ++ [name]) [] new)
    (same : work.run.run disk = inner.run.run (grown disk place (entries ++ [(name, .dir [])]))) :
    Adds work disk place entries [(name, .dir new)] := by
  obtain ⟨report, run⟩ := adds
  exact ⟨report, by rw [same, run, List.nil_append, holds.grown_below fresh]⟩

end

private theorem makeDirs_same {disk other : Disk} {path : Path}
    (same : disk.makeDirs path = other.makeDirs path) (next : Unit → Work Report) :
    (Work.makeDirs path >>= next).run.run disk = (Work.makeDirs path >>= next).run.run other := by
  have alike : (Work.makeDirs path).run.run disk = (Work.makeDirs path).run.run other := by
    rw [Work.makeDirs, run_get, run_get, same]
    rfl
  simp only [ExceptT.run_bind, StateT.run_bind, alike]

private theorem lookup_packages {all : List Package} {name : String}
    (apart : ∀ p ∈ all, name ≠ p.name) : (packageEntries all).lookup name = none := by
  induction all with
  | nil => rfl
  | cons p ps ih =>
    have different : (name == (packageEntry p).1) = false := by
      simpa [packageEntry_name] using apart p (by simp)
    rw [packageEntries, ← Prod.eta (packageEntry p), List.lookup_cons, different]
    exact ih fun q listed => apart q (by simp [listed])

/-- A line of directories is made at once, but as if its first had been there. -/
theorem writePackage_nested {disk : Disk} {dir : Path} {place : List String}
    {entries : List (String × Node)} {name : String} {child : Package}
    (holds : Holds disk dir place entries) (fresh : entries.lookup name = none)
    (named : IsEntryName name) (small : checkEntry (dir.join name) = .ok ())
    (orderly : Orderly child) (fits : Fits (dir.join name) child) :
    (Generation.writePackage dir (Package.collapse ⟨name, [], [child]⟩)).run.run disk =
      (Generation.writePackage (dir.join name) child.collapse).run.run
        (grown disk place (entries ++ [(name, .dir [])])) := by
  have nonempty := (holds.below named small fresh []).nonempty
  obtain ⟨names, leads⟩ := collapse_leads child orderly
  obtain ⟨lined, longer, _, _⟩ := leads_down named leads
  have line : (dir.join name).join child.collapse.name =
      trail (dir.join name) (names ++ [child.name]) := by
    rw [leads.joined _ nonempty, trail_join]
  have short := checkEntry_iff.mp (leads.fits _ nonempty fits)
  have made := holds.makeDirs fresh lined (line ▸ short)
  rw [← line] at made
  have joined := join_join dir named (downward_parts leads.downward).1
  have downward := leads.downward
  simp only [Package.collapse] at longer ⊢
  generalize child.collapse = last at downward longer joined made ⊢
  obtain ⟨label, classes, packages⟩ := last
  simp only [Generation.writePackage, longer, downward, if_true, ← joined]
  exact makeDirs_same made _

mutual
theorem writePackage_adds (p : Package) (orderly : Orderly p) {disk : Disk} {dir : Path}
    {place : List String} {entries : List (String × Node)} (holds : Holds disk dir place entries)
    (fits : Fits dir p) (fresh : entries.lookup p.name = none) :
    Adds (Generation.writePackage dir p.collapse) disk place entries [packageEntry p] := by
  match p with
  | ⟨name, classes, packages⟩ =>
    obtain ⟨named, arranged, below⟩ := orderly
    obtain ⟨small, files, inside⟩ := fits
    have inner := holds.below named small fresh []
    have whole :
        Adds (Generation.writePackage dir ⟨name, classes, Package.collapseAll packages⟩)
        disk place entries [packageEntry ⟨name, classes, packages⟩] := by
      have downward : Path.isDownward ⟨name⟩ = true := by
        simp [Path.isDownward, entry_components named]
      have first :=
        writePackages_adds packages below inner inside
          (arranged.directories.imp String.ne_of_lt) fun _ _ => rfl
      have second :=
        writeClasses_adds (inner.more _) arranged.named files (arranged.files.imp String.ne_of_lt)
          fun c listed =>
        lookup_packages (arranged.apart c listed)
      refine Adds.below holds fresh (first.both second) ?_
      simp only [Generation.writePackage, downward, if_true]
      exact run_bind_ok (run_makeDirs_ok (holds.makeDirs_new fresh named small))
    match classes, packages with
    | [], [child] =>
      have deeper := writePackage_adds child below.1 inner inside.1 rfl
      exact Adds.below holds fresh deeper
        (writePackage_nested holds fresh named small below.1 inside.1)
    | [], [] => exact whole
    | [], first :: second :: more => exact whole
    | c :: classes, packages => exact whole
termination_by structural p

private theorem writePackages_adds (all : List Package) (orderly : AllOrderly all) {disk : Disk}
    {dir : Path} {place : List String} {entries : List (String × Node)}
    (holds : Holds disk dir place entries) (fits : AllFit dir all)
    (apart : all.Pairwise fun p q => p.name ≠ q.name)
    (fresh : ∀ p ∈ all, entries.lookup p.name = none) :
    Adds (Generation.writePackages dir (Package.collapseAll all)) disk place entries
      (packageEntries all) := by
  match all with
  | [] => exact adds_nothing holds {}
  | p :: ps =>
    obtain ⟨other, apart⟩ := List.pairwise_cons.mp apart
    have first := writePackage_adds p orderly.1 holds fits.1 (fresh p (by simp))
    refine first.both
      (writePackages_adds ps orderly.2 (holds.more _) fits.2 apart fun q listed => ?_)
    exact lookup_more (fresh q (by simp [listed])) (packageEntry_name p ▸ (other q listed).symm)
termination_by structural all
end

/-- Into an empty directory a project is written as its tree, and nothing else on the disk
changes. -/
theorem generate_adds {classes : List Class} {packages : List Package} {known : List String}
    (arranged : Arranged classes packages) (orderly : AllOrderly packages) {disk : Disk}
    {root : Path} {place : List String} (holds : Holds disk root place [])
    (fits : AllFit root packages) (small : ∀ c ∈ classes, checkEntry (classFile root c) = .ok ()) :
    Adds (generate ⟨Package.collapseAll packages, classes, known⟩ root) disk place []
      (packageEntries packages ++ classes.map classEntry) := by
  have first :=
    writePackages_adds packages orderly holds fits
      (arranged.directories.imp String.ne_of_lt) fun _ _ => rfl
  have second :=
    writeClasses_adds (holds.more _) arranged.named small (arranged.files.imp String.ne_of_lt)
      fun c listed =>
    lookup_packages (arranged.apart c listed)
  obtain ⟨report, run⟩ := first.both second
  exact ⟨report, (run_bind_ok (run_makeDirs_ok (makeDirs_there holds.located))).trans run⟩

end ClassDiagram.Proofs.GeneratedTree
