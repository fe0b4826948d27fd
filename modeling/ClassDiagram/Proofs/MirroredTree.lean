import ClassDiagram.Proofs.DirectoryWalk
import ClassDiagram.Proofs.GrownDirectories
import ClassDiagram.Proofs.PathPlaces

/-! Extraction mirrors the tree of directories: its classes are those of the listed files, each at
the path of its directory. A further file that cannot be read is skipped, and nothing else
changes. A tree consists of files and directories whose names are texts; links do not occur. -/

namespace ClassDiagram.Proofs.MirroredTree
open Files Extraction Walks DiskChanges GrownDirectories ScannedTree ExtractionRoundTrip
  SortedHarvest DirectoryWalk

private theorem byName_unique {α : Type} {entries sorted : List (String × α)}
    (perm : sorted.Perm entries) (increasing : sorted.Pairwise fun a b => a.1 < b.1) :
    byName entries = sorted := by
  have distinct : (sorted.map Prod.fst).Nodup :=
    List.pairwise_map.mpr (increasing.imp String.ne_of_lt)
  have same := (byName_perm entries).trans perm.symm
  refine List.Perm.eq_of_pairwise ?_ (byName_sorted entries) (increasing.imp Std.le_of_lt) same
  intro a b first second le ge
  exact List.inj_on_of_nodup_map distinct (same.mem_iff.mp first) second (String.le_antisymm le ge)

/-- The entry of a name has its place between the others, whatever it is. -/
theorem byName_around {α : Type} {before after : List (String × α)} {name : String}
    (distinct : ((before ++ after).map Prod.fst).Nodup)
    (fresh : name ∉ (before ++ after).map Prod.fst) :
    ∃ front back, byName (before ++ after) = front ++ back ∧
      ∀ value, byName (before ++ (name, value) :: after) = front ++ (name, value) :: back := by
  have sorted := byName_increasing distinct
  have perm := byName_perm (before ++ after)
  generalize sorting : byName (before ++ after) = others at sorted perm
  have parts := (List.filter_append_perm (fun entry => decide (entry.1 < name)) others).trans perm
  have lower := sorted.filter fun entry => decide (entry.1 < name)
  have upper := sorted.filter fun entry => !decide (entry.1 < name)
  have below : ∀ a ∈ others.filter fun entry => decide (entry.1 < name), a.1 < name := by
    intro a listed
    exact of_decide_eq_true (List.mem_filter.mp listed).2
  have above : ∀ b ∈ others.filter fun entry => !decide (entry.1 < name), name < b.1 := by
    intro b listed
    obtain ⟨present, notBelow⟩ := List.mem_filter.mp listed
    have different : name ≠ b.1 :=
      fun same => fresh (same ▸ List.mem_map_of_mem (perm.mem_iff.mp present))
    have least : ¬b.1 < name := by
      simpa only [Bool.not_eq_true', decide_eq_false_iff_not] using notBelow
    exact Std.lt_of_le_of_ne (String.not_lt.mp least) different
  refine ⟨_, _, sorting.symm.trans (byName_unique parts ?_), fun value => byName_unique ?_ ?_⟩
  · refine List.pairwise_append.mpr ⟨lower, upper, fun a first b second => ?_⟩
    exact String.lt_trans (below a first) (above b second)
  · exact List.perm_middle.trans ((parts.cons _).trans List.perm_middle.symm)
  · refine List.pairwise_append.mpr ⟨lower, List.pairwise_cons.mpr ⟨above, upper⟩,
      fun a first b second => ?_⟩
    rcases List.mem_cons.mp second with rfl | second
    · exact below a first
    · exact String.lt_trans (below a first) (above b second)

private theorem gatherAll_append (scanner : Scanner) (dir : Path)
    (before after : List (String × Node)) :
    gatherAll scanner dir (before ++ after) =
      gatherAll scanner dir before ++ gatherAll scanner dir after := by
  simp only [gatherAll_eq, List.filter_append, List.map_append]

/-- What the entry of a name gives has its place between what the others give, unless the entry is
excluded. -/
theorem gathered_around (scanner : Scanner) (dir : Path) {before after : List (String × Node)}
    {name : String} (distinct : ((before ++ after).map Prod.fst).Nodup)
    (fresh : name ∉ (before ++ after).map Prod.fst) :
    ∃ front back, byName (gatherAll scanner dir (before ++ after)) = front ++ back ∧
      ∀ node, byName (gatherAll scanner dir (before ++ (name, node) :: after)) =
        if scanner.excludes (dir.join name) then front ++ back
        else front ++ (name, gather scanner (dir.join name) node) :: back := by
  have names := gatherAll_names scanner dir (before ++ after)
  rw [gatherAll_append] at names ⊢
  obtain ⟨front, back, without, within⟩ :=
    byName_around (names.nodup distinct) (fun listed => fresh (names.subset listed))
  refine ⟨front, back, without, fun node => ?_⟩
  rw [gatherAll_append, gatherAll]
  split
  · exact without
  · exact within _

/-- A path has come to a list, or none has. -/
def MayGain (path : Path) (old new : List Path) : Prop :=
  new = old ∨ ∃ before after, old = before ++ after ∧ new = before ++ path :: after

theorem MayGain.between {path : Path} {old new : List Path} (gains : MayGain path old new)
    (front back : List Path) : MayGain path (front ++ old ++ back) (front ++ new ++ back) := by
  rcases gains with rfl | ⟨before, after, rfl, rfl⟩
  · exact Or.inl rfl
  · exact Or.inr ⟨front ++ before, after ++ back, by simp, by simp⟩

/-- Two harvests differ in a skipped file at most. -/
structure Gains (path : Path) (old new : Harvest) : Prop where
  classes : new.classes = old.classes
  packages : new.packages = old.packages
  parsed : new.parsed = old.parsed
  skipped : MayGain path old.skipped new.skipped

theorem Gains.refl (path : Path) (harvest : Harvest) : Gains path harvest harvest :=
  ⟨rfl, rfl, rfl, Or.inl rfl⟩

theorem Gains.after {path : Path} {old new : Harvest} (gains : Gains path old new)
    (first : Harvest) : Gains path (first.append old) (first.append new) := by
  refine ⟨by simp [Harvest.append, gains.classes], by simp [Harvest.append, gains.packages],
    by simp [Harvest.append, gains.parsed], ?_⟩
  simpa [Harvest.append] using gains.skipped.between first.skipped []

theorem Gains.before {path : Path} {old new : Harvest} (gains : Gains path old new)
    (last : Harvest) : Gains path (old.append last) (new.append last) := by
  refine ⟨by simp [Harvest.append, gains.classes], by simp [Harvest.append, gains.packages],
    by simp [Harvest.append, gains.parsed], ?_⟩
  simpa [Harvest.append] using gains.skipped.between [] last.skipped

theorem Gains.package {path dir : Path} {old new : Harvest} (gains : Gains path old new) :
    Gains path (Harvest.ofPackage dir old) (Harvest.ofPackage dir new) :=
  ⟨rfl, by simp only [Harvest.ofPackage, gains.classes, gains.packages],
    gains.parsed, gains.skipped⟩

/-- Two parts differ in a skipped file at most, among the files or below the directories. -/
def PartGains (path : Path) (old new : Part) : Prop :=
  Gains path old.files new.files ∧ new.directories = old.directories ∨ new.files = old.files ∧
    Gains path old.directories new.directories

theorem PartGains.whole {path : Path} {old new : Part} (gains : PartGains path old new) :
    Gains path old.whole new.whole := by
  rcases gains with ⟨files, same⟩ | ⟨same, directories⟩
  · rw [Part.whole, Part.whole, same]
    exact files.before _
  · rw [Part.whole, Part.whole, same]
    exact directories.after _

theorem PartGains.refl (path : Path) (part : Part) : PartGains path part part :=
  Or.inl ⟨Gains.refl path part.files, rfl⟩

theorem PartGains.after {path : Path} {old new : Part} (gains : PartGains path old new)
    (first : Part) :
    PartGains path { files := first.files.append old.files,
                     directories := first.directories.append old.directories }
      { files := first.files.append new.files,
        directories := first.directories.append new.directories } := by
  rcases gains with ⟨files, same⟩ | ⟨same, directories⟩
  · exact Or.inl ⟨files.after first.files, by rw [same]⟩
  · exact Or.inr ⟨by rw [same], directories.after first.directories⟩

theorem PartGains.before {path : Path} {old new : Part} (gains : PartGains path old new)
    (last : Part) :
    PartGains path { files := old.files.append last.files,
                     directories := old.directories.append last.directories }
      { files := new.files.append last.files,
        directories := new.directories.append last.directories } := by
  rcases gains with ⟨files, same⟩ | ⟨same, directories⟩
  · exact Or.inl ⟨files.before last.files, by rw [same]⟩
  · exact Or.inr ⟨by rw [same], directories.before last.directories⟩

private theorem combine_nothing (name : String) (front back : List (String × Except Error Part)) :
    combine (front ++ (name, .ok {}) :: back) = combine (front ++ back) := by
  induction front with
  | nil =>
    simp only [List.nil_append, combine]
    cases combine back with
    | error => rfl
    | ok other => simp [Except.map, Harvest.append]
  | cons entry rest ih =>
    obtain ⟨own, result⟩ := entry
    cases result <;> simp only [List.cons_append, combine, ih]

private theorem combine_gains {path : Path} {name : String} {old new : Part}
    (gains : PartGains path old new) {front back : List (String × Except Error Part)} {whole : Part}
    (combined : combine (front ++ (name, .ok old) :: back) = .ok whole) :
    ∃ more, combine (front ++ (name, .ok new) :: back) = .ok more ∧ PartGains path whole more := by
  induction front generalizing whole with
  | nil =>
    obtain ⟨part, given, other, tail, rfl⟩ := combine_cons combined
    obtain rfl := Except.ok.inj given
    refine ⟨_, ?_, gains.before other⟩
    simp only [List.nil_append, combine, tail, Except.map]
  | cons entry rest ih =>
    obtain ⟨part, given, other, tail, rfl⟩ := combine_cons combined
    obtain ⟨more, longer, changed⟩ := ih tail
    obtain ⟨own, result⟩ := entry
    obtain rfl : result = .ok part := given
    refine ⟨_, ?_, changed.after part⟩
    simp only [List.cons_append, combine, longer, Except.map]

private theorem combine_part {name : String} {result : Except Error Part}
    {front back : List (String × Except Error Part)} {whole : Part}
    (combined : combine (front ++ (name, result) :: back) = .ok whole) :
    ∃ part, result = .ok part := by
  induction front generalizing whole with
  | nil =>
    obtain ⟨part, given, _⟩ := combine_cons combined
    exact ⟨part, given⟩
  | cons entry rest ih =>
    obtain ⟨_, _, other, tail, _⟩ := combine_cons combined
    exact ih tail

private theorem file_gains (path : Path) {content : ByteArray} (broken : declared? content = none) :
    PartGains path {} { files := if isJavaPath path then Harvest.ofFile path content else {} } := by
  refine Or.inl ⟨?_, rfl⟩
  split
  · rw [ofFile_eq, broken]
    exact ⟨rfl, rfl, rfl, Or.inr ⟨[], [], rfl, rfl⟩⟩
  · exact Gains.refl path {}

private theorem ofEntries_gains {path : Path} {found more : List (String × Except Error Part)}
    (gains : ∀ {whole}, combine (byName found) = .ok whole →
      ∃ other, combine (byName more) = .ok other ∧ PartGains path whole other)
    {inside : Harvest} (harvested : ofEntries found = .ok inside) :
    ∃ after, ofEntries more = .ok after ∧ Gains path inside after := by
  obtain ⟨whole, combined, rfl⟩ := map_ok harvested
  obtain ⟨other, again, changed⟩ := gains combined
  refine ⟨other.whole, ?_, changed.whole⟩
  simp only [ofEntries, again, Except.map]

/-- Down a line of names, a directory has one more file. -/
inductive Grew (content : ByteArray) :
    List String → List (String × Node) → List (String × Node) → Prop
  | added {name : String} {entries : List (String × Node)} (fresh : name ∉ entries.map Prod.fst) :
      Grew content [name] entries (entries ++ [(name, .file content)])
  | deeper {name : String} {names : List String} {before after old new : List (String × Node)}
      (inside : Grew content names old new) :
      Grew content (name :: names) (before ++ (name, .dir old) :: after)
      (before ++ (name, .dir new) :: after)

private theorem nodup_around {before after : List (String × Node)} {name : String} {node : Node} :
    ((before ++ (name, node) :: after).map Prod.fst).Nodup ↔
      name ∉ (before ++ after).map Prod.fst ∧ ((before ++ after).map Prod.fst).Nodup := by
  rw [(List.perm_middle.map Prod.fst).nodup_iff, List.map_cons, List.nodup_cons]

/-- A further file that cannot be read is skipped where it is listed. -/
theorem harvest_grew {scanner : Scanner} {content : ByteArray} (broken : declared? content = none)
    {names : List String} {entries others : List (String × Node)}
    (grew : Grew content names entries others) (proper : Proper (.dir entries)) {dir : Path}
    {inside : Harvest} (harvested : ofEntries (gatherAll scanner dir entries) = .ok inside) :
    ∃ more, ofEntries (gatherAll scanner dir others) = .ok more ∧
      Gains (trail dir names.reverse) inside more := by
  induction grew generalizing dir inside with
  | @added name entries fresh =>
    -- the file comes between the other entries, or nowhere if it is excluded
    obtain ⟨front, back, without, within⟩ :=
    @gathered_around scanner dir entries [] name (by simpa using proper.1) (by simpa using fresh)
    rw [List.append_nil] at without
    refine ofEntries_gains (fun {whole} combined => ?_) harvested
    rw [without] at combined
    rw [within]
    split
    · exact ⟨whole, combined, PartGains.refl _ whole⟩
    · rw [← combine_nothing name] at combined
      exact combine_gains (file_gains (dir.join name) broken) combined
  | @deeper name names before after old new inner ih =>
    obtain ⟨fresh, distinct⟩ := nodup_around.mp proper.1
    obtain ⟨front, back, _, within⟩ := gathered_around scanner dir distinct fresh
    have below : Proper (.dir old) :=
      (proper_entry proper.2 (List.mem_append_right before List.mem_cons_self)).2
    rw [List.reverse_cons, ← trail_join]
    refine ofEntries_gains (fun {whole} combined => ?_) harvested
    rw [within] at combined ⊢
    split at combined
    next excluded =>
      simp only [excluded, if_true]
      exact ⟨whole, combined, PartGains.refl _ whole⟩
    next listed =>
      simp only [listed]
      obtain ⟨part, given⟩ := combine_part combined
      obtain ⟨small, found, gathered, rfl⟩ := gather_dir given
      obtain ⟨more, again, gains⟩ := ih below gathered
      have grown : gather scanner (dir.join name) (.dir new) =
          .ok { directories := Harvest.ofPackage (dir.join name) more } := by
        simp only [gather, small, again, Except.map]
      have changed :
          PartGains (trail (dir.join name) names.reverse)
          { directories := Harvest.ofPackage (dir.join name) found }
          { directories := Harvest.ofPackage (dir.join name) more } := Or.inr ⟨rfl, gains.package⟩
      rw [given] at combined
      rw [grown]
      exact combine_gains changed combined

private theorem setEntry_around {name : String} {child : Node} {entries : List (String × Node)}
    (found : entries.lookup name = some child) :
    ∃ before after, entries = before ++ (name, child) :: after ∧
      ∀ node, Node.setEntry name node entries = before ++ (name, node) :: after := by
  induction entries with
  | nil => simp at found
  | cons entry rest ih =>
    obtain ⟨other, own⟩ := entry
    simp only [List.lookup_cons] at found
    split at found
    next same =>
      obtain rfl : name = other := by simpa using same
      obtain rfl := Option.some.inj found
      exact ⟨[], rest, rfl, fun node => by simp [Node.setEntry]⟩
    next different =>
      have apart : other ≠ name := fun same => by simp [same] at different
      obtain ⟨before, after, rfl, set⟩ := ih found
      exact ⟨(other, own) :: before, after, rfl, fun node => by simp [Node.setEntry, apart, set]⟩

private theorem lookup_none {name : String} {entries : List (String × Node)}
    (lacking : entries.lookup name = none) : name ∉ entries.map Prod.fst := by
  intro listed
  obtain ⟨⟨other, node⟩, present, rfl⟩ := List.mem_map.mp listed
  simpa using List.lookup_eq_none_iff.mp lacking (other, node) present

/-- A file that is put where nothing was makes the tree grow there. -/
theorem put_grew {content : ByteArray} {entries : List (String × Node)} {place : List String}
    {name : String} (there : dirAt (.dir entries) place = true)
    (lacking : (Node.dir entries).get? (place ++ [name]) = none) :
    ∃ others, (Node.file content).put (place ++ [name]) (.dir entries) = .dir others ∧
      Grew content (place ++ [name]) entries others := by
  induction place generalizing entries with
  | nil =>
    have fresh : entries.lookup name = none := (@get_entry _ [] _ name rfl).symm.trans lacking
    refine ⟨entries ++ [(name, .file content)], ?_, .added (lookup_none fresh)⟩
    simp [Node.put, setEntry_new fresh]
  | cons first place ih =>
    simp only [dirAt_cons, child_dir] at there
    obtain ⟨child, found, inside⟩ := (Option.any_eq_true _ _).mp there
    simp only [List.cons_append, Node.get?, child_dir, found] at lacking
    obtain ⟨before, after, rfl, set⟩ := setEntry_around found
    cases child with
    | file => cases place <;> simp [dirAt, Node.get?, child_file] at inside
    | dir old =>
      obtain ⟨new, put, grew⟩ := ih inside lacking
      exact ⟨_, by rw [List.cons_append, put_below found, put, set], grew.deeper⟩

private theorem ofSegments_names {names : List String} (named : ∀ name ∈ names, IsEntryName name) :
    Path.ofSegments names = names.map .normal := by
  rw [Path.ofSegments, List.filter_eq_self.mpr fun name listed =>
    by simp [idle_of_entry (named name listed)]]
  exact List.map_congr_left fun name listed => by simp [Path.component, (named name listed).notDots]

/-- What writing a file does where nothing was. -/
theorem writeBytes_new {disk grown : Disk} {path : Path} {content : ByteArray}
    (lacking : disk.has path = false) (written : disk.writeBytes path content = .ok grown) :
    ∃ place name, disk.spot path = .ok ⟨place ++ [name], false⟩ ∧
      dirAt disk.root place = true ∧ disk.root.get? (place ++ [name]) = none ∧
      grown = { disk with root := (Node.file content).put (place ++ [name]) disk.root } := by
  simp only [Disk.writeBytes] at written
  split at written
  · simp at written
  next spot found =>
    obtain ⟨names, asDir⟩ := spot
    simp only [Disk.has, Disk.node, found] at lacking
    cases here : disk.root.get? names with
    | none =>
      simp only [here] at written
      split at written
      · simp at written
      next isFile =>
        obtain rfl : asDir = false := by simpa using isFile
        obtain ⟨place, name, rfl, above⟩ := FileWrites.walk_file (spot_iff.mp found).walked
        exact ⟨place, name, found, above, here, (Except.ok.inj written).symm⟩
    | some node =>
      -- a file that is there can be read, and a directory cannot be written
      cases node with
      | dir => simp [here] at lacking
      | file => cases asDir <;> simp [here] at written lacking

/-- A new file below a directory makes the tree below it grow. -/
theorem writeBytes_grew {disk grown : Disk} {source : Path} {entries : List (String × Node)}
    (located : disk.node source = .ok (.dir entries)) {names : List String}
    (named : ∀ name ∈ names, IsEntryName name) (lacking : disk.has (trail source names) = false)
    {content : ByteArray} (written : disk.writeBytes (trail source names) content = .ok grown) :
    ∃ others, grown.node source = .ok (.dir others) ∧
      Grew content names.reverse entries others := by
  obtain ⟨base, ⟨asDir, spotted⟩, here⟩ := holds_of_node located
  obtain ⟨place, name, found, above, missing, rfl⟩ := writeBytes_new lacking written
  have some : names ≠ [] := by
    rintro rfl
    simp [Disk.has, trail, located] at lacking
  have short := (spot_iff.mp found).short
  have reached : place ++ [name] = base ++ names.reverse := by
    have walked :=
      PathPlaces.walk_place ((spot_trail spotted here named some short).symm.trans found)
    rwa [ofSegments_names (by simpa using named), PathPlaces.follow_normals] at walked
  -- the place is down from the source, so there is a directory to put the file in
  obtain ⟨front, last, reversed⟩ : ∃ front last, names.reverse = front ++ [last] := by
    obtain ⟨last, above, rfl⟩ := List.exists_cons_of_ne_nil some
    exact ⟨above.reverse, last, by simp⟩
  rw [reversed, ← List.append_assoc] at reached
  obtain ⟨rfl, same⟩ := List.append_inj' reached rfl
  obtain rfl : name = last := by simpa using same
  have inside : dirAt (.dir entries) front = true := by
    rw [dirAt_iff, get_append, here] at above
    exact dirAt_iff.mpr above
  have free : (Node.dir entries).get? (front ++ [name]) = none := by
    rwa [List.append_assoc, get_append, here] at missing
  obtain ⟨others, put, grew⟩ := @put_grew content _ _ _ inside free
  refine ⟨others, ?_, reversed ▸ grew⟩
  have closed : dirAt disk.root (base ++ front ++ [name]) = false := by simp only [dirAt, missing]
  have led :=
    @spot_same disk { disk with root :=
                                  (Node.file content).put (base ++ front ++ [name]) disk.root } rfl
    (fun _ => dirAt_put rfl closed) _ _ spotted
  have there : ((Node.file content).put (base ++ front ++ [name]) disk.root).get? base =
      .some (.dir others) := by
    rw [List.append_assoc, put_append here, put]
    exact get_put_there here
  simp only [Disk.node, led, there]

private theorem extract_yields {disk : Disk} {source : Path} {exclude : List String}
    {found : Extraction} (proper : Proper disk.root)
    (extracted : extract disk source exclude = .ok found) :
    ∃ harvest :
    Harvest, ofHarvest harvest = found ∧ Yields [] harvest (listedFiles disk source exclude) := by
  obtain ⟨entries, scanner, harvest, located, made, gathered, same⟩ := extract_harvest extracted
  obtain ⟨place, holds⟩ := holds_of_node located
  refine ⟨harvest, same, ?_⟩
  simp only [listedFiles, located, made]
  exact harvest_yields (.dir entries) (proper_get proper holds.here) [] holds.nonempty gathered

/-- A further file that cannot be read is skipped if it is listed, and nothing else that is
extracted changes. -/
theorem extract_grown {disk grown : Disk} {source : Path} {exclude : List String}
    {found : Extraction} (proper : Proper disk.root)
    (extracted : extract disk source exclude = .ok found) {names : List String}
    (named : ∀ name ∈ names, IsEntryName name) (lacking : disk.has (trail source names) = false)
    {content : ByteArray} (written : disk.writeBytes (trail source names) content = .ok grown)
    (broken : declared? content = none) :
    ∃ after, extract grown source exclude = .ok after ∧ after.project = found.project ∧
      after.filesParsed = found.filesParsed ∧
      MayGain (trail source names) found.filesSkipped after.filesSkipped := by
  obtain ⟨entries, scanner, harvest, located, made, gathered, rfl⟩ := extract_harvest extracted
  obtain ⟨others, there, grew⟩ := writeBytes_grew located named lacking written
  obtain ⟨place, holds⟩ := holds_of_node located
  obtain ⟨more, again, gains⟩ := harvest_grew broken grew (proper_get proper holds.here) gathered
  rw [names.reverse_reverse] at gains
  refine ⟨ofHarvest more, ?_, ?_, gains.parsed, gains.skipped⟩
  · simp only [extract, there, made, again, Except.map]
  · simp only [ofHarvest, gains.classes, gains.packages]

/-- The classes that extraction finds are those of the listed files that can be read, each at the
path of its directory, and the other listed files are those that are skipped. So one more file that
cannot be read changes the skipped files only. -/
theorem extraction_mirrors_tree {disk : Disk} {source : Path} {exclude : List String}
    {found : Extraction} (proper : Proper disk.root)
    (extracted : extract disk source exclude = .ok found) :
    found.project.placed.map (fun (path, c) => (path, c.unlinked)) =
      (listedFiles disk source exclude).flatMap JavaFile.placed ∧
      found.project.placed.map Prod.snd = found.project.allClasses ∧
      found.filesSkipped = ((listedFiles disk source exclude).filter JavaFile.isBroken).map
      JavaFile.path ∧
      found.filesParsed + found.filesSkipped.length = (listedFiles disk source exclude).length ∧
      ∀ (names : List String) (content : ByteArray) (grown : Disk),
      (∀ name ∈ names, IsEntryName name) →
        disk.has (trail source names) = false →
        disk.writeBytes (trail source names) content = .ok grown → declared? content = none →
        ∃ after, extract grown source exclude = .ok after ∧ after.project = found.project ∧
        after.filesParsed = found.filesParsed ∧
          MayGain (trail source names) found.filesSkipped after.filesSkipped := by
  obtain ⟨harvest, rfl, yields⟩ := extract_yields proper extracted
  refine ⟨?_, project_placed _, yields.skipped, yields.counted, ?_⟩
  · rw [ofHarvest, normalize_placed, ← placed_unlinked, ← yields.placed]
    rfl
  · intro names content grown named lacking written broken
    exact extract_grown proper extracted named lacking written broken

def wharfEntries : List (String × Node) :=
  [("Bad.java", .file "class Bad".toUTF8), ("Main.java", .file "class Main { Item item; }".toUTF8),
    ("gone", .dir [("Old.java", .file "class Old { }".toUTF8)]),
    ("shop", .dir [("item", .dir [("Item.java", .file "class Item { Item next; }".toUTF8)])])]

def wharf : Disk where
  root := .dir [("s", .dir wharfEntries)]
  cwd := []

private theorem wharf_proper : Proper wharf.root :=
  ⟨by decide, by decide,
    ⟨by decide, by decide, trivial, by decide, trivial, by decide,
      ⟨by decide, by decide, trivial, trivial⟩,
      by decide, ⟨by decide, by decide, ⟨by decide, by decide, trivial, trivial⟩, trivial⟩,
      trivial⟩, trivial⟩

/-- Entries that are sorted are gathered as they stand. -/
theorem ofEntries_sorted {found : List (String × Except Error Part)}
    (sorted : found.Pairwise fun a b => a.1 < b.1) :
    ofEntries found = (combine found).map Part.whole := by
  rw [ofEntries, byName_unique (List.Perm.refl _) sorted]

theorem wharf_mirrored : ∃ found grown after, extract wharf ⟨"s"⟩ ["gone"] = .ok found ∧
    found.project.placed.map (fun (path, c) => (path, c.name)) =
      [("", "Main"), ("shop/item", "Item")] ∧
    found.project.placed.map (fun (path, c) => (path, c.unlinked)) =
      (listedFiles wharf ⟨"s"⟩ ["gone"]).flatMap JavaFile.placed ∧
    found.filesSkipped = [⟨"s/Bad.java"⟩] ∧ (listedFiles wharf ⟨"s"⟩ ["gone"]).length = 3 ∧
    wharf.writeBytes ⟨"s/shop/Worse.java"⟩ ⟨#[255]⟩ = .ok grown ∧
    extract grown ⟨"s"⟩ ["gone"] = .ok after ∧
    after.project = found.project ∧ after.filesParsed = 2 ∧
    MayGain ⟨"s/shop/Worse.java"⟩ [⟨"s/Bad.java"⟩] after.filesSkipped := by
  have checked : ((Scanner.make ⟨"s"⟩ ["gone"]).toOption.any fun scanner =>
      decide ((gatherAll scanner ⟨"s"⟩ wharfEntries).Pairwise fun a b => a.1 < b.1) &&
        (((combine (gatherAll scanner ⟨"s"⟩ wharfEntries)).map Part.whole).toOption.any
          fun harvest =>
          decide ((ofHarvest harvest).project.placed.map (fun (path, c) => (path, c.name)) =
            [("", "Main"), ("shop/item", "Item")] ∧
            harvest.skipped = [⟨"s/Bad.java"⟩] ∧ harvest.parsed = 2))) = true := by decide +kernel
  have broken : (declared? ⟨#[255]⟩).isNone = true := by decide +kernel
  have named : ∀ name ∈ ["Worse.java", "shop"], IsEntryName name := by decide +kernel
  have path : trail ⟨"s"⟩ ["Worse.java", "shop"] = ⟨"s/shop/Worse.java"⟩ := by decide +kernel
  have lacking : wharf.has (trail ⟨"s"⟩ ["Worse.java", "shop"]) = false := by decide +kernel
  have writable :
      (wharf.writeBytes (trail ⟨"s"⟩ ["Worse.java", "shop"]) ⟨#[255]⟩).toOption.isSome = true := by
    decide +kernel
  have located : wharf.node ⟨"s"⟩ = .ok (.dir wharfEntries) := by rfl
  obtain ⟨scanner, made, holds⟩ := (Option.any_eq_true _ _).mp checked
  obtain ⟨ordered, holds⟩ := Bool.and_eq_true_iff.mp holds
  obtain ⟨harvest, gathered, holds⟩ := (Option.any_eq_true _ _).mp holds
  obtain ⟨placed, skipped, parsed⟩ := of_decide_eq_true holds
  have extracted : extract wharf ⟨"s"⟩ ["gone"] = .ok (ofHarvest harvest) := by
    simp only [extract, located, ok_of_toOption made, ofEntries_sorted (of_decide_eq_true ordered),
      ok_of_toOption gathered]
    rfl
  obtain ⟨grown, written⟩ := Option.isSome_iff_exists.mp writable
  obtain ⟨classes, _, _, counted, further⟩ := extraction_mirrors_tree wharf_proper extracted
  obtain ⟨after, again, project, same, gained⟩ :=
    further _ _ grown named lacking (ok_of_toOption written) (Option.isNone_iff_eq_none.mp broken)
  have listed : (listedFiles wharf ⟨"s"⟩ ["gone"]).length = 3 := by
    rw [← counted]
    simp only [ofHarvest, skipped, parsed, List.length_singleton]
  rw [path] at written gained
  exact ⟨_, grown, after, extracted, placed, classes, skipped, listed, ok_of_toOption written,
    again, project, same.trans parsed, skipped ▸ gained⟩

end ClassDiagram.Proofs.MirroredTree
