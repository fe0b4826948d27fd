import ClassDiagram.Proofs.Regeneration
import Mathlib.Data.List.Nodup

/-! Order in what extraction finds. Entries of a directory have names of their own and are taken by
name, so the classes of a package are sorted by their files, the packages in it by their
directories, and no two of them share an entry. -/

namespace ClassDiagram.Proofs.SortedHarvest
open Files Extraction Walks ScannedTree Regeneration

section
variable {α : Type}

theorem byName_perm (entries : List (String × α)) : (byName entries).Perm entries :=
  List.mergeSort_perm entries _

theorem byName_sorted (entries : List (String × α)) :
    (byName entries).Pairwise fun a b => a.1 ≤ b.1 := by
  have sorted := @List.pairwise_mergeSort _ (fun a b : String × α => decide (a.1 ≤ b.1))
    (fun a b c => by simpa using String.le_trans)
    (fun a b => by simpa using String.le_total a.1 b.1) entries
  simpa [byName] using sorted

theorem byName_increasing {entries : List (String × α)} (distinct : (entries.map Prod.fst).Nodup) :
    (byName entries).Pairwise fun a b => a.1 < b.1 := by
  have apart : (byName entries).Pairwise fun a b => a.1 ≠ b.1 :=
    List.pairwise_map.mp (((byName_perm entries).map Prod.fst).nodup_iff.mpr distinct)
  exact ((byName_sorted entries).and apart).imp fun both => Std.lt_of_le_of_ne both.1 both.2

/-- Entries that were in order already keep it when others are sorted in between. -/
theorem byName_part {entries part others : List (String × α)} (all : entries.Perm (part ++ others))
    (apart : ∀ a ∈ part, ∀ b ∈ others, a.1 ≠ b.1) (sorted : part.Pairwise fun a b => a.1 < b.1) :
    (byName entries).filter ((part.map Prod.fst).contains ·.1) = part := by
  have distinct : (part.map Prod.fst).Nodup := List.pairwise_map.mpr (sorted.imp String.ne_of_lt)
  have perm : ((byName entries).filter ((part.map Prod.fst).contains ·.1)).Perm part := by
    have own : part.filter ((part.map Prod.fst).contains ·.1) = part :=
      List.filter_eq_self.mpr fun a listed => by
      simpa using ⟨a.2, listed⟩
    have none : others.filter ((part.map Prod.fst).contains ·.1) = [] :=
      List.filter_eq_nil_iff.mpr fun b listed => by
      simpa using fun x present => apart (b.1, x) present b listed rfl
    have both := ((byName_perm entries).trans all).filter ((part.map Prod.fst).contains ·.1)
    rwa [List.filter_append, own, none, List.append_nil] at both
  refine List.Perm.eq_of_pairwise ?_ ((byName_sorted entries).filter _)
    (sorted.imp Std.le_of_lt) perm
  intro a b first second le ge
  exact List.inj_on_of_nodup_map distinct (perm.mem_iff.mp first) second (String.le_antisymm le ge)

theorem byName_flatMap {β : Type} {view : String × α → List β}
    {entries part others : List (String × α)} (all : entries.Perm (part ++ others))
    (apart : ∀ a ∈ part, ∀ b ∈ others, a.1 ≠ b.1) (sorted : part.Pairwise fun a b => a.1 < b.1)
    (none : ∀ b ∈ others, view b = []) : (byName entries).flatMap view = part.flatMap view := by
  have kept : ∀ some : List (String × α), (∀ a ∈ some, a ∈ part ++ others) →
      some.flatMap view = (some.filter ((part.map Prod.fst).contains ·.1)).flatMap view := by
    intro some inside
    induction some with
    | nil => rfl
    | cons a rest ih =>
      rw [List.flatMap_cons, ih fun b listed => inside b (by simp [listed]), List.filter_cons]
      split
      · rw [List.flatMap_cons]
      next missing =>
        have other : a ∈ others :=
          (List.mem_append.mp (inside a (by simp))).resolve_left fun own =>
            missing (by simpa using ⟨a.2, own⟩)
        rw [none a other, List.nil_append]
  rw [kept _ fun a => ((byName_perm entries).trans all).mem_iff.mp, byName_part all apart sorted]

end

def viewed {α : Type} (view : Part → List α) (entry : String × Except Error Part) : List α :=
  entry.2.toOption.elim [] view

private theorem combine_view {α : Type} {view : Part → List α} (empty : view {} = [])
    (joined : ∀ first second :
      Part, view { files := first.files.append second.files,
                   directories := first.directories.append second.directories } =
      view first ++ view second)
    {all : List (String × Except Error Part)} {whole : Part} (combined : combine all = .ok whole) :
    view whole = all.flatMap (viewed view) := by
  induction all generalizing whole with
  | nil =>
    simp only [combine, Except.ok.injEq] at combined
    simp [← combined, empty]
  | cons entry rest ih =>
    obtain ⟨part, given, other, tail, rfl⟩ := combine_cons combined
    rw [joined, ih tail, List.flatMap_cons, viewed, given]
    rfl

private theorem mem_viewed {α : Type} {view : Part → List α} {entry : String × Except Error Part}
    {x : α} : x ∈ viewed view entry ↔ ∃ part, entry.2 = .ok part ∧ x ∈ view part := by
  obtain ⟨name, result⟩ := entry
  cases result <;> simp [viewed, Except.toOption]

private theorem mem_views {α : Type} {view : Part → List α}
    {all : List (String × Except Error Part)} {x : α} (present : x ∈ all.flatMap (viewed view)) :
    ∃ name part, (name, .ok part) ∈ all ∧ x ∈ view part := by
  obtain ⟨⟨name, result⟩, member, inside⟩ := List.mem_flatMap.mp present
  obtain ⟨part, rfl, inside⟩ := mem_viewed.mp inside
  exact ⟨name, part, member, inside⟩

/-- Where each entry gives at most one thing, labelled by its own name, entries in order give things
in order. -/
theorem views_sorted {α : Type} {view : Part → List α} {label : α → String}
    {all : List (String × Except Error Part)} (sorted : all.Pairwise fun a b => a.1 < b.1)
    (labelled : ∀ name part, (name, .ok part) ∈ all → (∀ x ∈ view part, label x = name) ∧
      (view part).length ≤ 1) :
    (all.flatMap (viewed view)).Pairwise fun x y => label x < label y := by
  refine List.pairwise_flatMap.mpr ⟨?_, ?_⟩
  · rintro ⟨name, result⟩ member
    cases result with
    | error => simp [viewed, Except.toOption]
    | ok part =>
      have short := (labelled name part member).2
      show (view part).Pairwise _
      generalize view part = things at short
      cases things with
      | nil => simp
      | cons x more =>
        obtain rfl : more = [] := List.length_eq_zero_iff.mp (by simpa using short)
        simp
  · refine sorted.imp_of_mem ?_
    rintro ⟨name, result⟩ ⟨name', result'⟩ member member' less x present y present'
    obtain ⟨part, rfl, present⟩ := mem_viewed.mp present
    obtain ⟨part', rfl, present'⟩ := mem_viewed.mp present'
    rwa [(labelled name part member).1 x present, (labelled name' part' member').1 y present']

private theorem viewed_nil {α : Type} {view : Part → List α}
    {all : List (String × Except Error Part)}
    (none : ∀ name part, (name, .ok part) ∈ all → view part = []) :
    all.flatMap (viewed view) = [] := by
  rw [List.flatMap_eq_nil_iff]
  rintro ⟨name, result⟩ listed
  cases result with
  | error => rfl
  | ok part => exact none name part listed

/-- A file gives classes only, and a directory packages only. -/
structure Apart (part : Part) : Prop where
  classes : part.directories.classes = []
  packages : part.files.packages = []

/-- A directory gives what its entries give, by name. -/
theorem ofEntries_views {found : List (String × Except Error Part)} {inside : Harvest}
    (apart : ∀ name part, (name, .ok part) ∈ found → Apart part)
    (gathered : ofEntries found = .ok inside) :
    inside.classes = (byName found).flatMap (viewed (·.files.classes)) ∧
      inside.packages = (byName found).flatMap (viewed (·.directories.packages)) := by
  obtain ⟨whole, combined, rfl⟩ := map_ok gathered
  have sorted : ∀ name part, (name, .ok part) ∈ byName found → Apart part := fun name part listed =>
    apart name part ((byName_perm found).mem_iff.mp listed)
  have classes := @combine_view _ (·.files.classes) rfl (fun _ _ => rfl) _ _ combined
  have packages := @combine_view _ (·.directories.packages) rfl (fun _ _ => rfl) _ _ combined
  have noClasses := @combine_view _ (·.directories.classes) rfl (fun _ _ => rfl) _ _ combined
  have noPackages := @combine_view _ (·.files.packages) rfl (fun _ _ => rfl) _ _ combined
  rw [viewed_nil fun name part listed => (sorted name part listed).classes] at noClasses
  rw [viewed_nil fun name part listed => (sorted name part listed).packages] at noPackages
  simp only [Part.whole, Harvest.append, noClasses, noPackages, List.append_nil, List.nil_append]
  exact ⟨classes, packages⟩

def fileOf (c : Class) : String :=
  c.name ++ ".java"

/-- What one directory holds, sorted, each under a name of its own. -/
structure Arranged (classes : List Class) (packages : List Package) : Prop where
  named : ∀ c ∈ classes, IsEntryName (fileOf c)
  files : classes.Pairwise fun c d => fileOf c < fileOf d
  directories : packages.Pairwise fun p q => p.name < q.name
  apart : ∀ c ∈ classes, ∀ p ∈ packages, fileOf c ≠ p.name

mutual
/-- The package could be a directory, and so could those below. -/
def Orderly : Package → Prop
  | ⟨name, classes, packages⟩ => IsEntryName name ∧ Arranged classes packages ∧ AllOrderly packages

def AllOrderly : List Package → Prop
  | [] => True
  | p :: ps => Orderly p ∧ AllOrderly ps
end

private theorem allOrderly_iff {all : List Package} : AllOrderly all ↔ ∀ p ∈ all, Orderly p := by
  induction all with
  | nil => simp [AllOrderly]
  | cons p ps ih => simp [AllOrderly, ih]

/-- What the entry of a name gives: at most one class or package, and by that name. -/
structure EntryPart (name : String) (part : Part) : Prop where
  apart : Apart part
  classes : ∀ c ∈ part.files.classes, fileOf c = name
  packages : ∀ p ∈ part.directories.packages, p.name = name ∧ Orderly p
  single : part.files.classes.length + part.directories.packages.length ≤ 1

private theorem entries_arranged {found : List (String × Except Error Part)} {inside : Harvest}
    (distinct : (found.map Prod.fst).Nodup) (named : ∀ entry ∈ found, IsEntryName entry.1)
    (each : ∀ name part, (name, .ok part) ∈ found → EntryPart name part)
    (gathered : ofEntries found = .ok inside) :
    Arranged inside.classes inside.packages ∧ AllOrderly inside.packages := by
  obtain ⟨classes, packages⟩ :=
    ofEntries_views (fun name part listed => (each name part listed).apart) gathered
  have found_of : ∀ {entry}, entry ∈ byName found → entry ∈ found := (byName_perm found).mem_iff.mp
  have sorted := byName_increasing distinct
  rw [classes, packages]
  refine ⟨⟨?_, ?_, ?_, ?_⟩, allOrderly_iff.mpr ?_⟩
  · intro c present
    obtain ⟨name, part, member, present⟩ := mem_views present
    rw [(each name part (found_of member)).classes c present]
    exact named _ (found_of member)
  · refine views_sorted sorted fun name part member => ?_
    have entry := each name part (found_of member)
    exact ⟨entry.classes, Nat.le_trans (Nat.le_add_right _ _) entry.single⟩
  · refine views_sorted sorted fun name part member => ?_
    have entry := each name part (found_of member)
    exact ⟨fun p present => (entry.packages p present).1,
      Nat.le_trans (Nat.le_add_left _ _) entry.single⟩
  · intro c present p present' same
    obtain ⟨name, part, member, present⟩ := mem_views present
    obtain ⟨name', part', member', present'⟩ := mem_views present'
    have entry := each name part (found_of member)
    rw [entry.classes c present, ((each name' part' (found_of member')).packages p present').1]
      at same
    subst same
    -- one name is one entry, which does not give both
    have unique := List.inj_on_of_nodup_map distinct (found_of member) (found_of member') rfl
    obtain rfl := Except.ok.inj (Prod.mk.inj unique).2
    have some := List.length_pos_of_mem present
    have some' := List.length_pos_of_mem present'
    have single := entry.single
    omega
  · intro p present
    obtain ⟨name, part, member, present⟩ := mem_views present
    exact ((each name part (found_of member)).packages p present).2

theorem gatherAll_names (scanner : Scanner) (dir : Path) (entries : List (String × Node)) :
    ((gatherAll scanner dir entries).map Prod.fst).Sublist (entries.map Prod.fst) := by
  induction entries with
  | nil => simp [gatherAll]
  | cons entry rest ih =>
    obtain ⟨name, node⟩ := entry
    simp only [gatherAll]
    split
    · exact ih.cons name
    · exact ih.cons_cons name

private theorem file_entry {scanner : Scanner} {dir : Path} (nonempty : dir.text ≠ "")
    {name : String} (named : IsEntryName name) {content : ByteArray}
    (single : SingleTypes (sourcesAt scanner (dir.join name) (.file content))) :
    EntryPart name { files := if isJavaPath (dir.join name) then
                       Harvest.ofFile (dir.join name) content else {} } := by
  have nothing : ∀ skipped, EntryPart name { files := { skipped := skipped } } := fun skipped =>
    ⟨⟨rfl, rfl⟩, by simp, by simp, by simp⟩
  split
  next java =>
    simp only [Harvest.ofFile]
    split
    · exact nothing _
    next text decoded =>
      split
      · exact nothing _
      next types read =>
        have listed : (dir.join name, text) ∈
            sourcesAt scanner (dir.join name) (.file content) := by
          simp [sourcesAt, sourceText?, java, decoded, read]
        obtain ⟨atMost, stem⟩ := single _ listed types read
        refine ⟨⟨rfl, rfl⟩, ?_, by simp, by simpa using atMost⟩
        intro c present
        obtain ⟨type, among, rfl⟩ := List.mem_map.mp present
        exact Option.some.inj ((stem type among).symm.trans (join_fileName nonempty named))
  · exact nothing []

/-- What the entries of a proper directory give is in order. -/
theorem gathered_arranged {scanner : Scanner} {dir : Path} {entries : List (String × Node)}
    (proper : Proper (.dir entries))
    (each : ∀ name part, (name, .ok part) ∈ gatherAll scanner dir entries → EntryPart name part)
    {inside : Harvest} (gathered : ofEntries (gatherAll scanner dir entries) = .ok inside) :
    Arranged inside.classes inside.packages ∧ AllOrderly inside.packages := by
  have names := gatherAll_names scanner dir entries
  refine entries_arranged (names.nodup proper.1) (fun entry listed => ?_) each gathered
  obtain ⟨⟨name, node⟩, present, same⟩ :=
    List.mem_map.mp (names.subset (List.mem_map_of_mem listed))
  exact same ▸ (proper_entry proper.2 present).1

mutual
theorem gather_entry {scanner : Scanner} {dir : Path} (nonempty : dir.text ≠ "") {name : String}
    (named : IsEntryName name) (node : Node) (proper : Proper node)
    (single : SingleTypes (sourcesAt scanner (dir.join name) node))
    {part : Part} (gathered : gather scanner (dir.join name) node = .ok part) :
    EntryPart name part := by
  match node with
  | .file content =>
    simp only [gather, Except.ok.injEq] at gathered
    exact gathered ▸ file_entry nonempty named single
  | .dir entries =>
    have below : (dir.join name).text ≠ "" := join_nonempty nonempty (entry_relative named.noSlash)
    have each := gatherAll_entry below entries proper.2 single
    obtain ⟨_, inside, found, rfl⟩ := gather_dir gathered
    obtain ⟨arranged, orderly⟩ := gathered_arranged proper each found
    refine ⟨⟨rfl, rfl⟩, by simp, ?_, by simp [Harvest.ofPackage]⟩
    simp only [Harvest.ofPackage, join_fileName nonempty named, Option.getD_some,
      List.mem_singleton, forall_eq, true_and]
    exact ⟨named, arranged, orderly⟩
termination_by structural node

theorem gatherAll_entry {scanner : Scanner} {dir : Path} (nonempty : dir.text ≠ "")
    (entries : List (String × Node)) (proper : ProperEntries entries)
    (single : SingleTypes (sourcesIn scanner dir entries)) :
    ∀ name part, (name, .ok part) ∈ gatherAll scanner dir entries → EntryPart name part := by
  match entries with
  | [] => simp [gatherAll]
  | (own, node) :: rest =>
    obtain ⟨named, inner, others⟩ := proper
    intro name part member
    simp only [gatherAll, sourcesIn] at member single
    split at member
    next excluded =>
      simp only [excluded, if_true] at single
      exact gatherAll_entry nonempty rest others single name part member
    next free =>
      simp only [free] at single
      rcases List.mem_cons.mp member with same | member
      · obtain ⟨rfl, gathered⟩ := Prod.mk.inj same
        exact gather_entry nonempty named node inner
          (single.mono (List.subset_append_left _ _)) gathered.symm
      · exact gatherAll_entry nonempty rest others (single.mono (List.subset_append_right _ _))
          name part member
termination_by structural entries
end

end ClassDiagram.Proofs.SortedHarvest
