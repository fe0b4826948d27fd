import ClassDiagram.Proofs.MirroredTree

/-! Leaving out is pruning. Patterns are held against paths below the root of the sources, and these
are the names that lead there, however the root is spelled. So extraction that leaves out what
patterns match is extraction of the tree without it, a tree of files and directories whose names are
texts, without links. -/

namespace ClassDiagram

namespace Files

def pathOf (names : List String) : String :=
  "/".intercalate names

mutual
/-- A tree at a place below the root without anything whose path some pattern matches. -/
def prune (exclude : List Glob) (place : List String) : Node → Node
  | .file content => .file content
  | .dir entries => .dir (pruneEntries exclude place entries)

def pruneEntries (exclude : List Glob) (place : List String) :
    List (String × Node) → List (String × Node)
  | [] => []
  | (name, node) :: rest =>
    if exclude.any (·.accepts (pathOf (place ++ [name]))) then pruneEntries exclude place rest
    else (name, prune exclude (place ++ [name]) node) :: pruneEntries exclude place rest
end

/-- The disk without what patterns match below a source directory. -/
def Disk.without (disk : Disk) (exclude : List Glob) (source : Path) : Disk :=
  match disk.spot source with
  | .error _ => disk
  | .ok spot =>
    match disk.root.get? spot.names with
    | none => disk
    | some node => { disk with root := (prune exclude [] node).put spot.names disk.root }

end Files

end ClassDiagram

namespace ClassDiagram.Proofs.PrunedTree
open Files Extraction Walks DiskChanges PathPlaces ExtractionRoundTrip

/-- What is left behind the segments that count, up to the first name. -/
theorem dropComponents_past (segments : List String) {names : List String}
    (busy : ∀ name ∈ names, Path.isIdle name = false) :
    (Path.dropComponents (Path.ofSegments segments).length (segments ++ names)).dropWhile
      Path.isIdle = names := by
  induction segments with
  | nil =>
    have none : Path.ofSegments [] = [] := rfl
    cases names with
    | nil => simp [none, Path.dropComponents]
    | cons name names => simp [none, Path.dropComponents, busy name]
  | cons segment rest ih =>
    cases idle : Path.isIdle segment with
    | true =>
      rw [ofSegments_idle idle, List.cons_append]
      cases count : (Path.ofSegments rest).length with
      | zero => simpa [Path.dropComponents, idle, count] using ih
      | succ n => simpa [Path.dropComponents, idle, count] using ih
    | false =>
      rw [ofSegments_busy idle, List.cons_append, List.length_cons, Path.dropComponents, idle]
      exact ih

private theorem trimIdle_busy {segments : List String}
    (busy : ∀ segment ∈ segments, Path.isIdle segment = false) :
    Path.trimIdle segments = segments := by
  cases segments with
  | nil => rfl
  | cons first rest =>
    cases rest with
    | nil => rfl
    | cons next rest => simp [Path.trimIdle, busy first]

/-- How many segments are passed over depends on what the base starts with. -/
theorem below_of {base path : Path} {first : Component} {more added : List Component}
    (spelled : base.components = first :: more)
    (longer : path.components = base.components ++ added) {left names : List String}
    (cut : (first = .root ∨ first = .current) ∧
      left = Path.dropComponents more.length path.segments.tail ∨
      (first ≠ .root ∧ first ≠ .current) ∧
      left = Path.dropComponents (more.length + 1) path.segments)
    (behind : left.dropWhile Path.isIdle = names)
    (busy : ∀ name ∈ names, Path.isIdle name = false) : base.below? path = some ⟨pathOf names⟩ := by
  have within : (first :: more).isPrefixOf path.components = true := by
    rw [longer, spelled]
    exact List.isPrefixOf_iff_prefix.mpr (List.prefix_append _ _)
  have trimmed : Path.trimIdle names.reverse = names.reverse := trimIdle_busy (by simpa using busy)
  have ended : some (Path.ofReversed false (Path.trimIdle (left.dropWhile Path.isIdle).reverse)) =
      some ⟨pathOf names⟩ := by
    rw [behind, trimmed]
    simp [Path.ofReversed, pathOf]
  simp only [Path.below?, spelled, within, if_true]
  rcases cut with ⟨rfl | rfl, rfl⟩ | ⟨⟨notRoot, notCurrent⟩, rfl⟩
  · exact ended
  · exact ended
  · cases first with
    | root => exact absurd rfl notRoot
    | current => exact absurd rfl notCurrent
    | parent => exact ended
    | normal => exact ended

section
variable {root : Path} (nonempty : root.text ≠ "") {names : List String}
  (named : ∀ name ∈ names, IsEntryName name) (some : names ≠ [])
include nonempty named some

/-- The path of names below a root is what these names make up. -/
theorem below_trail : root.below? (trail root names) = .some ⟨pathOf names.reverse⟩ := by
  obtain ⟨front, segments, whole⟩ := trail_segments nonempty named some
  have busy : ∀ name ∈ names.reverse, Path.isIdle name = false :=
    fun name listed => idle_of_entry (named name (by simpa using listed))
  have filled : front ≠ [] := by
    rintro rfl
    have text := segments_text root
    rcases whole with whole | whole
    · exact segments_ne_nil root whole
    · exact nonempty (by rw [← text, whole]; rfl)
  have spelled : root.components = componentsOf root.isAbsolute front := by
    have idle : Path.ofSegments [""] = [] := by decide
    rw [components_eq]
    rcases whole with whole | whole
    · rw [whole]
    · rw [whole, componentsOf_append _ filled, idle, List.append_nil]
  have longer : (trail root names).components =
      root.components ++ Path.ofSegments names.reverse := by
    rw [components_eq, trail_isAbsolute nonempty named, segments,
      componentsOf_append _ filled, spelled]
  obtain ⟨first, rest, rfl⟩ := List.exists_cons_of_ne_nil filled
  have behind := dropComponents_past rest busy
  rw [componentsOf] at spelled
  split at spelled
  next absolute =>
    exact below_of spelled longer (Or.inl ⟨Or.inl rfl, by rw [segments]; rfl⟩) behind busy
  next relative =>
    split at spelled
    next dot =>
      exact below_of spelled longer (Or.inl ⟨Or.inr rfl, by rw [segments]; rfl⟩) behind busy
    next notDot =>
      -- a relative path starts with a segment that counts
      have counts : Path.isIdle first = false := by
        have other : first ≠ "" := by
          rintro rfl
          refine relative (absolute_iff.mpr ?_)
          rcases whole with whole | whole
          · cases rest with
            | nil => exact absurd (by rw [← segments_text root, whole]; rfl) nonempty
            | cons next rest => exact ⟨next, rest, whole⟩
          · cases rest with
            | nil => exact ⟨"", [], whole⟩
            | cons next rest => exact ⟨next, rest ++ [""], whole⟩
        simpa [Path.isIdle, other] using notDot
      have past := dropComponents_past (first :: rest) busy
      rw [ofSegments_busy counts] at spelled past
      refine below_of spelled longer (Or.inr ⟨?_, by rw [segments]; rfl⟩) past busy
      by_cases up : first = ".." <;> simp [Path.component, up]

private theorem excludes_trail (exclude : List Glob) :
    Scanner.excludes ⟨root, exclude⟩ (trail root names) =
      exclude.any (·.accepts (pathOf names.reverse)) := by
  simp only [Scanner.excludes, below_trail nonempty named some, Option.getD_some]

end

mutual
theorem gather_pruned {root : Path} (nonempty : root.text ≠ "") (exclude : List Glob) (node : Node)
    (proper : Proper node) {names : List String} (named : ∀ name ∈ names, IsEntryName name) :
    gather ⟨root, exclude⟩ (trail root names) node =
      gather ⟨root, []⟩ (trail root names) (prune exclude names.reverse node) := by
  match node with
  | .file content => rfl
  | .dir entries =>
    simp only [prune, gather, gatherAll_pruned nonempty exclude entries proper.2 named]
termination_by structural node

/-- Entries that are left out when they are met are those that pruning takes away. -/
theorem gatherAll_pruned {root : Path} (nonempty : root.text ≠ "") (exclude : List Glob)
    (entries : List (String × Node)) (proper : ProperEntries entries) {names : List String}
    (named : ∀ name ∈ names, IsEntryName name) :
    gatherAll ⟨root, exclude⟩ (trail root names) entries =
      gatherAll ⟨root, []⟩ (trail root names) (pruneEntries exclude names.reverse entries) := by
  match entries with
  | [] => rfl
  | (name, node) :: rest =>
    obtain ⟨own, inner, others⟩ := proper
    have longer : ∀ other ∈ name :: names, IsEntryName other := by simpa using ⟨own, named⟩
    have matched := excludes_trail nonempty longer (by simp) exclude
    have first := gather_pruned nonempty exclude node inner longer
    have behind := gatherAll_pruned nonempty exclude rest others named
    rw [List.reverse_cons] at matched first
    simp only [trail] at matched first
    simp only [gatherAll, pruneEntries, matched, behind, first]
    cases exclude.any (·.accepts (pathOf (names.reverse ++ [name]))) with
    | true => rfl
    | false => simp [gatherAll, Scanner.excludes]
termination_by structural entries
end

section
variable {disk : Disk} {source : Path} {entries : List (String × Node)} {exclude : List String}
  {globs : List Glob}
  (proper : ProperEntries entries) (valid : patterns exclude = .ok globs)
  (located : disk.node source = .ok (.dir entries))
include proper valid located

private theorem extract_pruned : extract disk source exclude =
    (ofEntries (gatherAll ⟨source, []⟩ source (pruneEntries globs [] entries))).map ofHarvest := by
  obtain ⟨place, holds⟩ := GrownDirectories.holds_of_node located
  have gathered := @gatherAll_pruned source holds.nonempty globs entries proper [] (by simp)
  simp only [extract, located, Scanner.make, valid, Except.map]
  simp only [trail, List.reverse_nil] at gathered
  rw [gathered]

end

private theorem extract_all {disk : Disk} {source : Path} {entries : List (String × Node)}
    (located : disk.node source = .ok (.dir entries)) :
    extract disk source [] = (ofEntries (gatherAll ⟨source, []⟩ source entries)).map ofHarvest := by
  simp only [extract, located, Scanner.make, patterns, Except.map]

/-- What has taken the place of a directory is what its path leads to, as far as that still leads to
a directory. -/
theorem without_node {disk : Disk} {source : Path} {entries : List (String × Node)}
    {globs : List Glob} (located : disk.node source = .ok (.dir entries))
    (there : (disk.without globs source).isDir source = true) :
    (disk.without globs source).node source = .ok (.dir (pruneEntries globs [] entries)) := by
  obtain ⟨spot, found, here⟩ := node_spot located
  have changed : disk.without globs source =
      { disk with root := (Node.dir (pruneEntries globs [] entries)).put spot.names
                    disk.root } := by
    simp only [Disk.without, found, here, prune]
  obtain ⟨others, led⟩ := isDir_node there
  obtain ⟨spot', found', here'⟩ := node_spot led
  have same : spot'.names = spot.names := by
    rw [spot_place found', spot_place found, changed]
  rw [same, changed, GrownDirectories.get_put_there here] at here'
  rw [led, ← Option.some.inj here']

def quayEntries : List (String × Node) :=
  [("Crane.java", .file "class Crane { Load load; }".toUTF8),
    ("gen", .dir [("Load.java", .file "class Load { }".toUTF8)]),
    ("lib", .dir [("gen", .dir [("Crate.java", .file "class Crate { }".toUTF8)])])]

def quay : Disk where
  root := .dir [("s", .dir quayEntries)]
  cwd := []

def quayGlobs : List Glob :=
  [⟨[.char 'g', .char 'e', .char 'n']⟩]

private theorem quay_proper : ProperEntries quayEntries :=
  ⟨by decide, trivial, by decide, ⟨by decide, by decide, trivial, trivial⟩,
    by decide, ⟨by decide, by decide, ⟨by decide, by decide, trivial, trivial⟩, trivial⟩, trivial⟩

private theorem extract_sorted {disk : Disk} {source : Path} {entries : List (String × Node)}
    {exclude : List String} {globs : List Glob} (valid : patterns exclude = .ok globs)
    (located : disk.node source = .ok (.dir entries))
    (sorted : (gatherAll ⟨source, globs⟩ source entries).Pairwise fun a b => a.1 < b.1) :
    extract disk source exclude =
      ((combine (gatherAll ⟨source, globs⟩ source entries)).map Part.whole).map ofHarvest := by
  simp only [extract, located, Scanner.make, valid, Except.map,
    MirroredTree.ofEntries_sorted sorted]

/-- A path that goes through what is left out no longer leads to the sources once that is gone. -/
theorem pruning_can_lose_the_root :
    ¬∀ (disk : Disk) (source : Path) (entries : List (String × Node)) (exclude : List String)
      (globs : List Glob),
    ProperEntries entries → patterns exclude = .ok globs → disk.node source = .ok (.dir entries) →
      extract (disk.without globs source) source [] = extract disk source exclude := by
  intro always
  have valid : patterns ["gen"] = .ok quayGlobs := by rfl
  have located : quay.node ⟨"s/gen/.."⟩ = .ok (.dir quayEntries) := by rfl
  have same := always quay ⟨"s/gen/.."⟩ quayEntries ["gen"] quayGlobs quay_proper valid located
  have sorted : (gatherAll ⟨⟨"s/gen/.."⟩, quayGlobs⟩ ⟨"s/gen/.."⟩ quayEntries).Pairwise fun a b =>
      a.1 < b.1 := by decide +kernel
  have before : (extract quay ⟨"s/gen/.."⟩ ["gen"]).toOption.isSome = true := by
    rw [extract_sorted valid located sorted]
    decide +kernel
  have after :
      (extract (quay.without quayGlobs ⟨"s/gen/.."⟩) ⟨"s/gen/.."⟩ []).toOption.isSome = false := by
    decide +kernel
  rw [same, before] at after
  exact absurd after (by decide)

/-- Extraction that leaves out what patterns match gives what extraction without patterns gives of
the pruned tree, failures included: wherever the same path leads to that tree, in particular where
it has taken the place of the other one and the path still leads to a directory. So nothing depends
on what pruning takes away. -/
theorem exclusion_is_pruning {disk : Disk} {source : Path} {entries : List (String × Node)}
    {exclude : List String} {globs : List Glob} (proper : ProperEntries entries)
    (valid : patterns exclude = .ok globs) (located : disk.node source = .ok (.dir entries)) :
    ((disk.without globs source).isDir source = true →
      extract (disk.without globs source) source [] = extract disk source exclude) ∧
      (∀ pruned : Disk, pruned.node source = .ok (prune globs [] (.dir entries)) →
        extract pruned source [] = extract disk source exclude) ∧
      ∀ (other : Disk) (others : List (String × Node)), ProperEntries others →
      other.node source = .ok (.dir others) →
        prune globs [] (.dir others) = prune globs [] (.dir entries) →
        extract other source exclude = extract disk source exclude := by
  have whole := extract_pruned proper valid located
  refine ⟨fun there => ?_, fun pruned led => ?_, fun other others proper' located' same => ?_⟩
  · rw [whole, extract_all (without_node located there)]
  · rw [whole, extract_all led]
  · rw [whole, extract_pruned proper' valid located', Node.dir.inj same]

theorem quay_pruned : ∃ found, extract quay ⟨"s"⟩ ["gen"] = .ok found ∧
    found.project.placed.map (fun (path, c) => (path, c.name)) =
      [("", "Crane"), ("lib/gen", "Crate")] ∧ found.filesParsed = 2 ∧
    extract (quay.without quayGlobs ⟨"s"⟩) ⟨"s"⟩ [] = .ok found := by
  have valid : patterns ["gen"] = .ok quayGlobs := by rfl
  have located : quay.node ⟨"s"⟩ = .ok (.dir quayEntries) := by rfl
  have sorted : (gatherAll ⟨⟨"s"⟩, quayGlobs⟩ ⟨"s"⟩ quayEntries).Pairwise fun a b => a.1 < b.1 := by
    decide +kernel
  have checked : ((extract quay ⟨"s"⟩ ["gen"]).toOption.any fun found =>
      decide (found.project.placed.map (fun (path, c) => (path, c.name)) =
        [("", "Crane"), ("lib/gen", "Crate")] ∧ found.filesParsed = 2)) = true := by
    rw [extract_sorted valid located sorted]
    decide +kernel
  have there : (quay.without quayGlobs ⟨"s"⟩).isDir ⟨"s"⟩ = true := by decide +kernel
  obtain ⟨found, present, holds⟩ := (Option.any_eq_true _ _).mp checked
  obtain ⟨placed, parsed⟩ := of_decide_eq_true holds
  have extracted := ok_of_toOption present
  exact ⟨found, extracted, placed, parsed,
    ((exclusion_is_pruning quay_proper valid located).1 there).trans extracted⟩

end ClassDiagram.Proofs.PrunedTree
