import ClassDiagram.Proofs.FileWrites

/-! A directory that grows. A new file or directory becomes its last entry and nothing else on the
disk changes, and a whole line of directories is made as if one after the other. -/

namespace ClassDiagram.Proofs.GrownDirectories
open Files Walks DiskChanges FileWrites

private theorem setEntry_twice (name : String) (new old : Node) (entries : List (String × Node)) :
    Node.setEntry name new (Node.setEntry name old entries) = Node.setEntry name new entries := by
  induction entries with
  | nil => simp [Node.setEntry]
  | cons entry rest ih =>
    obtain ⟨other, found⟩ := entry
    by_cases same : other = name
    · simp [Node.setEntry, same]
    · simp [Node.setEntry, same, ih]

theorem setEntry_new {name : String} {entries : List (String × Node)}
    (fresh : entries.lookup name = none) (node : Node) :
    Node.setEntry name node entries = entries ++ [(name, node)] := by
  induction entries with
  | nil => rfl
  | cons entry rest ih =>
    obtain ⟨other, found⟩ := entry
    simp only [List.lookup_cons] at fresh
    split at fresh
    · simp at fresh
    next different =>
      have apart : other ≠ name := fun same => by simp [same] at different
      simp [Node.setEntry, apart, ih fresh]

theorem lookup_more {name : String} {entry : String × Node} {entries : List (String × Node)}
    (fresh : entries.lookup name = none) (different : name ≠ entry.1) :
    (entries ++ [entry]).lookup name = none := by
  simp [List.lookup_append, fresh, different]

theorem put_below {new child : Node} {name : String} {names : List String}
    {entries : List (String × Node)} (found : entries.lookup name = some child) :
    new.put (name :: names) (.dir entries) =
      .dir (Node.setEntry name (new.put names child) entries) := by
  cases names <;> simp [Node.put, found]

private theorem setEntry_same {name : String} {node : Node} {entries : List (String × Node)}
    (found : entries.lookup name = some node) : Node.setEntry name node entries = entries := by
  induction entries with
  | nil => simp at found
  | cons entry rest ih =>
    obtain ⟨other, own⟩ := entry
    simp only [List.lookup_cons] at found
    split at found
    next same => simp_all [Node.setEntry]
    next different =>
      have apart : other ≠ name := fun same => by simp [same] at different
      simp [Node.setEntry, apart, ih found]

private theorem put_same {root node : Node} {place : List String}
    (here : root.get? place = some node) : node.put place root = root := by
  induction place generalizing root with
  | nil => simpa [Node.put, Node.get?, eq_comm] using here
  | cons first place ih =>
    cases root with
    | file => simp [Node.get?, child_file] at here
    | dir entries =>
      simp only [Node.get?, child_dir] at here
      cases found : entries.lookup first with
      | none => simp [found] at here
      | some child =>
        simp only [found] at here
        rw [put_below found, ih here, setEntry_same found]

private theorem put_twice (new old root : Node) (names : List String) :
    new.put names (old.put names root) = new.put names root := by
  induction names generalizing root with
  | nil => simp [Node.put]
  | cons name names ih =>
    cases root with
    | file => simp [Node.put]
    | dir entries =>
      cases names with
      | nil => simp [Node.put, setEntry_twice]
      | cons next more =>
        cases found : entries.lookup name with
        | none => simp [Node.put, found]
        | some child => simp [Node.put, found, lookup_setEntry, setEntry_twice, ih]

/-- To put a node below another one is to put that one with the node in it. -/
theorem put_append {root node new : Node} {place names : List String}
    (here : root.get? place = some node) :
    new.put (place ++ names) root = (new.put names node).put place root := by
  induction place generalizing root with
  | nil =>
    obtain rfl := Option.some.inj here
    simp [Node.put]
  | cons first place ih =>
    cases root with
    | file => simp [Node.get?, child_file] at here
    | dir others =>
      simp only [Node.get?, child_dir] at here
      cases found : others.lookup first with
      | none => simp [found] at here
      | some child =>
        simp only [found] at here
        rw [List.cons_append, put_below found, put_below found, ih here]

/-- To put an entry of a directory is to put the directory with that entry. -/
theorem put_entry {root new : Node} {place : List String} {name : String}
    {entries : List (String × Node)} (here : root.get? place = some (.dir entries)) :
    new.put (place ++ [name]) root =
      (Node.dir (Node.setEntry name new entries)).put place root := by
  rw [put_append here]
  simp [Node.put]

theorem get_put_there {root new old : Node} {place : List String}
    (there : root.get? place = some old) : (new.put place root).get? place = some new := by
  rcases List.eq_nil_or_concat place with rfl | ⟨front, last, rfl⟩
  · simp [Node.put, Node.get?]
  · rw [List.concat_eq_append] at there ⊢
    refine get_put ?_
    rw [get_append] at there
    obtain ⟨node, here, below⟩ := Option.bind_eq_some_iff.mp there
    cases node with
    | file => simp [Node.get?, child_file] at below
    | dir entries => exact dirAt_iff.mpr ⟨entries, here⟩

def grown (disk : Disk) (place : List String) (entries : List (String × Node)) : Disk :=
  { disk with root := (Node.dir entries).put place disk.root }

theorem grown_twice (disk : Disk) (place : List String) (first second : List (String × Node)) :
    grown (grown disk place first) place second = grown disk place second := by
  simp [grown, put_twice]

theorem grown_same {disk : Disk} {place : List String} {entries : List (String × Node)}
    (here : disk.root.get? place = some (.dir entries)) : grown disk place entries = disk := by
  rw [grown, put_same here]

/-- A path leads to a place, and a directory with the given entries is there. -/
structure Holds (disk : Disk) (dir : Path) (place : List String) (entries : List (String × Node)) :
    Prop where
  spotted : ∃ asDir, disk.spot dir = .ok ⟨place, asDir⟩
  here : disk.root.get? place = some (.dir entries)

theorem holds_of_node {disk : Disk} {dir : Path} {entries : List (String × Node)}
    (located : disk.node dir = .ok (.dir entries)) : ∃ place, Holds disk dir place entries := by
  obtain ⟨⟨place, asDir⟩, spotted, here⟩ := node_spot located
  exact ⟨place, ⟨asDir, spotted⟩, here⟩

private theorem dirAt_more {root : Node} {place : List String} {entries : List (String × Node)}
    (here : root.get? place = some (.dir entries)) (more : List (String × Node))
    {names : List String} (there : dirAt root names = true) :
    dirAt ((Node.dir (entries ++ more)).put place root) names = true := by
  induction place generalizing root names with
  | nil =>
    obtain rfl : root = .dir entries := Option.some.inj here
    cases names with
    | nil => simp [Node.put, dirAt, Node.get?]
    | cons name names =>
      simp only [dirAt_cons, child_dir] at there
      obtain ⟨child, found, inside⟩ := (Option.any_eq_true _ _).mp there
      simp [Node.put, child_dir, List.lookup_append, found, inside]
  | cons first place ih =>
    cases root with
    | file => simp [Node.get?, child_file] at here
    | dir others =>
      simp only [Node.get?, child_dir] at here
      cases found : others.lookup first with
      | none => simp [found] at here
      | some child =>
        simp only [found] at here
        rw [put_below found]
        cases names with
        | nil => simp [dirAt, Node.get?]
        | cons name names =>
          simp only [dirAt_cons, child_dir, lookup_setEntry] at there ⊢
          by_cases same : name = first
          · subst same
            simpa using ih here (by simpa [found] using there)
          · simpa [same] using there

section
variable {disk : Disk} {dir : Path} {place : List String} {entries : List (String × Node)}
  (holds : Holds disk dir place entries)
include holds

theorem Holds.located : disk.node dir = .ok (.dir entries) := by
  obtain ⟨asDir, spotted⟩ := holds.spotted
  simp only [Disk.node, spotted, holds.here]

theorem Holds.nonempty : dir.text ≠ "" := by
  obtain ⟨asDir, spotted⟩ := holds.spotted
  exact (spot_iff.mp spotted).nonempty

/-- The path still leads there when the directory has more entries. -/
theorem Holds.more (more : List (String × Node)) :
    Holds (grown disk place (entries ++ more)) dir place (entries ++ more) := by
  obtain ⟨asDir, spotted⟩ := holds.spotted
  have led : (grown disk place (entries ++ more)).spot dir = .ok ⟨place, asDir⟩ :=
    @spot_same disk (grown disk place (entries ++ more)) rfl
      (fun _ => dirAt_more holds.here more) _ _ spotted
  exact ⟨⟨asDir, led⟩, get_put_there holds.here⟩

/-- What grows in the last entry grows in the directory. -/
theorem Holds.grown_below {name : String} (fresh : entries.lookup name = none)
    (old new : List (String × Node)) :
    grown (grown disk place (entries ++ [(name, .dir old)])) (place ++ [name]) new =
      grown disk place (entries ++ [(name, .dir new)]) := by
  have after := holds.more [(name, .dir old)]
  have last : Node.setEntry name (.dir new) (entries ++ [(name, .dir old)]) =
      entries ++ [(name, .dir new)] := by
    rw [← setEntry_new fresh, setEntry_twice, setEntry_new fresh]
  rw [grown, put_entry after.here, last]
  exact grown_twice disk place _ _

variable {name : String} (named : IsEntryName name) (small : checkEntry (dir.join name) = .ok ())
include named small

theorem Holds.spot : disk.spot (dir.join name) = .ok ⟨place ++ [name], false⟩ := by
  obtain ⟨asDir, spotted⟩ := holds.spotted
  exact spot_join spotted holds.here named small

variable (fresh : entries.lookup name = none)
include fresh

/-- A new file is the last entry. -/
theorem Holds.writeText (text : String) :
    disk.writeText (dir.join name) text =
      .ok (grown disk place (entries ++ [(name, .file text.toUTF8)])) := by
  have lacking : disk.root.get? (place ++ [name]) = none := (get_entry holds.here).trans fresh
  simp only [Disk.writeText, Disk.writeBytes, holds.spot named small, lacking, Bool.false_eq_true,
    if_false, put_entry holds.here, setEntry_new fresh]
  rfl

/-- A new directory is the last entry. -/
theorem Holds.makeDir :
    disk.makeDir (dir.join name) = .ok (grown disk place (entries ++ [(name, .dir [])])) := by
  have lacking : disk.root.get? (place ++ [name]) = none := (get_entry holds.here).trans fresh
  simp only [Disk.makeDir, holds.spot named small, lacking, put_entry holds.here,
    setEntry_new fresh]
  rfl

theorem Holds.below (inner : List (String × Node)) :
    Holds (grown disk place (entries ++ [(name, .dir inner)])) (dir.join name)
      (place ++ [name]) inner := by
  have after := holds.more [(name, .dir inner)]
  refine ⟨⟨false, after.spot named small⟩, ?_⟩
  rw [get_entry after.here, List.lookup_append, fresh]
  simp

end

theorem trail_join (dir : Path) (first : String) (names : List String) :
    trail (dir.join first) names = trail dir (names ++ [first]) := by
  induction names with
  | nil => rfl
  | cons name above ih => rw [List.cons_append, trail, trail, ih]

def steps (dir : Path) : List String → List Path
  | [] => []
  | name :: above => trail dir (name :: above) :: steps dir above

/-- Above a path that was joined twice is what it was joined to. -/
theorem parent_join {dir : Path} (nonempty : dir.text ≠ "") {first second : String}
    (outer : IsEntryName first) (inner : IsEntryName second) :
    ((dir.join first).join second).parent? = some (dir.join first) := by
  have solid := join_nonempty nonempty (entry_relative outer.noSlash)
  obtain ⟨front, segments, _⟩ := join_segments nonempty outer.noSlash
  have idle : ∀ rest, Path.trimIdle (first :: rest) = first :: rest := by
    intro rest
    cases rest <;> simp [Path.trimIdle, idle_of_entry outer]
  have text : "/".intercalate (front ++ [first]) = (dir.join first).text := by
    rw [← segments, segments_text]
  simp only [Path.parent?, join_last solid inner, join_again_segments nonempty outer inner.noSlash,
    segments, List.reverse_append,
    List.reverse_cons, List.reverse_nil, List.nil_append, List.cons_append, Path.trimIdle,
    idle_of_entry inner,
    Bool.false_eq_true, if_false, List.tail_cons, idle, Path.ofReversed, List.reverse_reverse, text]
  simp [solid]

private theorem components_join {dir : Path} (nonempty : dir.text ≠ "") {name : String}
    (named : IsEntryName name) : (dir.join name).components.isEmpty = false := by
  have last := join_last nonempty named
  cases shape : (dir.join name).components with
  | nil => simp [shape] at last
  | cons => rfl

private theorem ancestors_trail {dir : Path} (nonempty : dir.text ≠ "") {names : List String}
    (named : ∀ name ∈ names, IsEntryName name) (some : names ≠ []) {fuel : Nat}
    (enough : names.length ≤ fuel) :
    ∃ above, Path.ancestors fuel (trail dir names) = steps dir names ++ above := by
  induction names generalizing fuel with
  | nil => exact absurd rfl some
  | cons name names ih =>
    obtain ⟨fuel, rfl⟩ : ∃ less, fuel = less + 1 :=
      Nat.exists_eq_add_one.mpr (by simp at enough; omega)
    have own := named name (by simp)
    have outer : ∀ entry ∈ names, IsEntryName entry :=
      fun entry listed => named entry (by simp [listed])
    have here := components_join (trail_nonempty nonempty outer) own
    simp only [steps, trail, Path.ancestors, here, Bool.false_eq_true, if_false, List.cons_append,
      List.cons.injEq, true_and]
    cases names with
    | nil => simp [steps]
    | cons next names =>
      have above := trail_nonempty nonempty fun entry listed =>
        outer entry (List.mem_cons_of_mem next listed)
      rw [trail, parent_join above (outer next (by simp)) own]
      exact ih outer (by simp) (by simpa using enough)

theorem join_size {dir : Path} (nonempty : dir.text ≠ "") {name : String}
    (relative : Path.isAbsolute ⟨name⟩ = false) :
    dir.text.utf8ByteSize ≤ (dir.join name).text.utf8ByteSize := by
  simp only [Path.join, relative, Bool.false_or, beq_iff_eq, nonempty, if_false]
  split
  · simp
  · simp only [String.utf8ByteSize_append]
    omega

private theorem trail_size {dir : Path} (nonempty : dir.text ≠ "") {names : List String}
    (named : ∀ name ∈ names, IsEntryName name) :
    dir.text.utf8ByteSize ≤ (trail dir names).text.utf8ByteSize := by
  induction names with
  | nil => exact Nat.le_refl _
  | cons name above ih =>
    have inner : ∀ name ∈ above, IsEntryName name :=
      fun name listed => named name (by simp [listed])
    exact Nat.le_trans (ih inner)
      (join_size (trail_nonempty nonempty inner) (entry_relative (named name (by simp)).noSlash))

section
variable {disk : Disk} {dir : Path} {place : List String} {entries : List (String × Node)}
  (holds : Holds disk dir place entries) {first : String} (fresh : entries.lookup first = none)
include holds fresh

theorem Holds.missing {name : String} {names : List String}
    (named : ∀ entry ∈ name :: (names ++ [first]), IsEntryName entry)
    (short : (trail (dir.join first) (name :: names)).text.utf8ByteSize ≤ pathLimit) :
    disk.makeDir (trail (dir.join first) (name :: names)) = .error .notFound := by
  obtain ⟨asDir, spotted⟩ := holds.spotted
  rw [trail_join] at short ⊢
  have walked := spot_trail spotted holds.here named (by simp) short
  have solid : (names.reverse ++ [name]).all (· == "") = false := by
    simp [(named name (by simp)).nonempty]
  have ended : (name :: (names ++ [first])).reverse = first :: (names.reverse ++ [name]) := by simp
  rw [ended,
    walk_missing holds.here (named first (by simp)).descends solid
    ((get_entry holds.here).trans fresh)] at walked
  simp only [List.cons_append, Disk.makeDir, walked]

/-- It makes no difference to a line of directories whether the first of them is made beforehand. -/
theorem Holds.makeDirsAlong {names : List String}
    (named : ∀ entry ∈ names ++ [first], IsEntryName entry)
    (short : (trail (dir.join first) names).text.utf8ByteSize ≤ pathLimit) (above : List Path) :
    Disk.makeDirsAlong (steps dir (names ++ [first]) ++ above) disk =
      Disk.makeDirsAlong (steps dir (names ++ [first]) ++ above)
      (grown disk place (entries ++ [(first, .dir [])])) := by
  have outer := named first (by simp)
  have solid := join_nonempty holds.nonempty (entry_relative outer.noSlash)
  have small : checkEntry (dir.join first) = .ok () := checkEntry_iff.mpr
    (Nat.le_trans (trail_size solid fun name listed => named name (by simp [listed])) short)
  have made := holds.makeDir outer small fresh
  have inner := holds.below outer small fresh []
  generalize grown disk place (entries ++ [(first, .dir [])]) = after at made inner ⊢
  obtain ⟨asDir, spotted⟩ := inner.spotted
  have known : after.makeDir (dir.join first) = .error .exists := by
    simp only [Disk.makeDir, spotted, inner.here]
  have isDir : after.isDir (dir.join first) = true := by simp only [Disk.isDir, inner.located]
  induction names with
  | nil =>
    simp only [List.nil_append, steps, trail, List.singleton_append, Disk.makeDirsAlong, made,
      known, isDir, if_true]
  | cons name names ih =>
    have deep := named name (by simp)
    have line : ∀ entry ∈ names ++ [first], IsEntryName entry :=
      fun entry listed => named entry (by simp [listed])
    have lower : ∀ entry ∈ names, IsEntryName entry :=
      fun entry listed => line entry (by simp [listed])
    have missing := holds.missing fresh named short
    have shorter :=
      Nat.le_trans (join_size (trail_nonempty solid lower) (entry_relative deep.noSlash)) short
    have before := ih line shorter
    rcases List.eq_nil_or_concat names with rfl | ⟨lowest, next, rfl⟩
    · -- the second directory is made in the first
      have second := inner.makeDir deep (checkEntry_iff.mpr short) rfl
      simp only [List.cons_append, List.nil_append, steps, trail, Disk.makeDirsAlong, made]
        at missing ⊢
      simp only [missing, second]
    · -- all further ones are still missing
      rw [List.concat_eq_append] at *
      have still :=
        inner.missing rfl (fun entry listed => named entry (List.mem_append_left [first] listed))
          (by rwa [trail_join])
      rw [trail_join, List.cons_append] at still
      rw [trail_join, List.cons_append] at missing
      rw [trail_join, List.cons_append] at still
      simp only [List.cons_append, steps, Disk.makeDirsAlong, missing, still, before]

/-- The same of a path. -/
theorem Holds.makeDirs {names : List String} (named : ∀ entry ∈ names ++ [first], IsEntryName entry)
    (short : (trail (dir.join first) names).text.utf8ByteSize ≤ pathLimit) :
    disk.makeDirs (trail (dir.join first) names) =
      (grown disk place (entries ++ [(first, .dir [])])).makeDirs
      (trail (dir.join first) names) := by
  have along := holds.makeDirsAlong fresh named short
  rw [trail_join]
  obtain ⟨front, segments, _⟩ := trail_segments holds.nonempty named (by simp)
  have enough : (names ++ [first]).length ≤ (trail dir (names ++ [first])).segments.length + 1 := by
    simp only [segments, List.length_append, List.length_reverse]
    omega
  obtain ⟨above, lineage⟩ := ancestors_trail holds.nonempty named (by simp) enough
  simp only [Disk.makeDirs, Path.lineage, lineage, along above]

theorem Holds.makeDirs_new (named : IsEntryName first)
    (small : checkEntry (dir.join first) = .ok ()) :
    disk.makeDirs (dir.join first) =
      (.ok (), grown disk place (entries ++ [(first, .dir [])])) := by
  have same :=
    @Holds.makeDirs _ _ _ _ holds _ fresh [] (by simpa using named) (checkEntry_iff.mp small)
  exact same.trans (makeDirs_there (holds.below named small fresh []).located)

end

end ClassDiagram.Proofs.GrownDirectories
