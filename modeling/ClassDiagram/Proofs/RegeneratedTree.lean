import ClassDiagram.Proofs.GeneratedTree

/-! Extraction from a tree that was generated. Every package is found again at its place among the
others, with what is read from the new files of its classes. -/

namespace ClassDiagram.Proofs.RegeneratedTree
open Files Extraction Walks DiskChanges Regeneration SortedHarvest GrownDirectories GeneratedTree

def reread (c : Class) : List Class :=
  ((Java.sourceTypes? (Java.skeletonText c)).getD []).map Java.SourceType.type

mutual
def rereadPackage : Package → Package
  | ⟨name, classes, packages⟩ => ⟨name, classes.flatMap reread, rereadAll packages⟩

def rereadAll : List Package → List Package
  | [] => []
  | p :: ps => rereadPackage p :: rereadAll ps
end

private theorem java_named {dir : Path} (nonempty : dir.text ≠ "") {c : Class}
    (named : IsEntryName (fileOf c)) (some : c.name ≠ "") :
    hasJavaName (dir.join (fileOf c)) = true := by
  have pieces : Text.pieces '.' (fileOf c).toList =
      Text.pieces '.' c.name.toList ++ ["java".toList] := by
    have cut := @pieces_concat '.' c.name.toList "java".toList (by decide)
    simpa [fileOf] using cut
  have solid : (Text.pieces '.' c.name.toList).reverse ≠ [[]] := by
    intro empty
    have joined := intercalate_pieces '.' c.name.toList
    rw [List.reverse_eq_iff.mp empty] at joined
    exact some (by simpa using joined.symm)
  simp only [hasJavaName, Path.extension?, join_fileName nonempty named, pieces,
    List.reverse_append, List.reverse_cons, List.reverse_nil,
    List.nil_append, List.singleton_append]
  cases shape : (Text.pieces '.' c.name.toList).reverse with
  | nil => exact absurd (List.reverse_eq_nil_iff.mp shape) (pieces_ne_nil _ _)
  | cons before more =>
    rw [shape] at solid
    have further : before = [] → more ≠ [] := by
      rintro rfl rfl
      exact solid rfl
    simpa using further

/-- An entry gives just these classes and packages. -/
def Gives (result : Except Error Part) (classes : List Class) (packages : List Package) : Prop :=
  ∃ part, result = .ok part ∧ Apart part ∧ part.files.classes = classes ∧
    part.directories.packages = packages

theorem Gives.views {result : Except Error Part} {classes : List Class} {packages : List Package}
    (gives : Gives result classes packages) (name : String) :
    viewed (·.files.classes) (name, result) = classes ∧
    viewed (·.directories.packages) (name, result) = packages := by
  obtain ⟨part, rfl, _, rfl, rfl⟩ := gives
  exact ⟨rfl, rfl⟩

def classPart (scanner : Scanner) (dir : Path) (c : Class) : String × Except Error Part :=
  (fileOf c, gather scanner (dir.join (fileOf c)) (classEntry c).2)

def packagePart (scanner : Scanner) (dir : Path) (p : Package) : String × Except Error Part :=
  (p.name, gather scanner (dir.join p.name) (packageEntry p).2)

/-- A new file gives what is read from it. -/
theorem gather_class {scanner : Scanner} {dir : Path} (nonempty : dir.text ≠ "") {c : Class}
    (named : IsEntryName (fileOf c)) (some : c.name ≠ "")
    (small : checkEntry (classFile dir c) = .ok ()) :
    Gives (classPart scanner dir c).2 (reread c) [] := by
  have listed : isJavaPath (dir.join (fileOf c)) = true :=
    isJavaPath_iff.mpr ⟨small, java_named nonempty named some⟩
  refine ⟨_, rfl, ?_⟩
  simp only [listed, if_true, Harvest.ofFile, decode_encoded, reread]
  split
  next refused => exact ⟨⟨rfl, rfl⟩, by simp [refused]⟩
  next types read => exact ⟨⟨rfl, rfl⟩, by simp [read]⟩

private theorem combine_of {all : List (String × Except Error Part)}
    (gathered : ∀ entry ∈ all, ∃ part, entry.2 = .ok part) : ∃ whole, combine all = .ok whole := by
  induction all with
  | nil => exact ⟨_, rfl⟩
  | cons entry rest ih =>
    obtain ⟨name, result⟩ := entry
    obtain ⟨part, rfl⟩ : ∃ part, result = .ok part := gathered (name, result) (by simp)
    obtain ⟨other, combined⟩ := ih fun entry listed => gathered entry (by simp [listed])
    simp only [combine, combined]
    exact ⟨_, rfl⟩

private theorem gatherAll_each {scanner : Scanner} (all : scanner.exclude = []) (dir : Path)
    (entries : List (String × Node)) :
    gatherAll scanner dir entries = entries.map fun entry =>
      (entry.1, gather scanner (dir.join entry.1) entry.2) := by
  induction entries with
  | nil => rfl
  | cons entry rest ih =>
    obtain ⟨name, node⟩ := entry
    have listed : scanner.excludes (dir.join name) = false := by simp [Scanner.excludes, all]
    simp [gatherAll, listed, ih]

private theorem packageEntries_eq (all : List Package) :
    packageEntries all = all.map packageEntry := by
  induction all with
  | nil => rfl
  | cons p ps ih => rw [packageEntries, ih, List.map_cons]

private theorem rereadAll_eq (all : List Package) : rereadAll all = all.map rereadPackage := by
  induction all with
  | nil => rfl
  | cons p ps ih => rw [rereadAll, ih, List.map_cons]

private theorem gatherAll_generated {scanner : Scanner} (all : scanner.exclude = []) (dir : Path)
    (classes : List Class) (packages : List Package) :
    gatherAll scanner dir (packageEntries packages ++ classes.map classEntry) =
      packages.map (packagePart scanner dir) ++ classes.map (classPart scanner dir) := by
  simp only [gatherAll_each all, packageEntries_eq, List.map_append, List.map_map,
    Function.comp_def, packageEntry_name]
  rfl

section
variable {scanner : Scanner} {dir : Path} {classes : List Class} {packages : List Package}
  (arranged : Arranged classes packages)
  (own : ∀ c ∈ classes, Gives (classPart scanner dir c).2 (reread c) [])
  (below : ∀ p ∈ packages, Gives (packagePart scanner dir p).2 [] [rereadPackage p])
include arranged own below

/-- By name, the classes come in their order, and so do the packages. -/
theorem parts_views :
    (byName (packages.map (packagePart scanner dir) ++ classes.map (classPart scanner dir))).flatMap
      (viewed (·.files.classes)) = classes.flatMap reread ∧
      (byName (packages.map (packagePart scanner dir) ++
        classes.map (classPart scanner dir))).flatMap (viewed (·.directories.packages)) =
        rereadAll packages := by
  have apart :
      ∀ a ∈ packages.map (packagePart scanner dir), ∀ b ∈ classes.map (classPart scanner dir),
      a.1 ≠ b.1 := by
    intro a listed b listed'
    obtain ⟨p, present, rfl⟩ := List.mem_map.mp listed
    obtain ⟨c, present', rfl⟩ := List.mem_map.mp listed'
    exact (arranged.apart c present' p present).symm
  constructor
  · rw [byName_flatMap List.perm_append_comm
      (fun a listed b listed' => (apart b listed' a listed).symm)
      (List.pairwise_map.mpr arranged.files), List.flatMap_map]
    · exact List.flatMap_congr fun c listed => ((own c listed).views (fileOf c)).1
    · intro b listed
      obtain ⟨p, present, rfl⟩ := List.mem_map.mp listed
      exact ((below p present).views p.name).1
  · rw [byName_flatMap (List.Perm.refl _) apart (List.pairwise_map.mpr arranged.directories),
      List.flatMap_map, rereadAll_eq]
    · rw [← List.flatMap_pure_eq_map]
      exact List.flatMap_congr fun p listed => ((below p listed).views p.name).2
    · intro b listed
      obtain ⟨c, present, rfl⟩ := List.mem_map.mp listed
      exact ((own c present).views (fileOf c)).2

/-- A generated directory gives its packages and classes in their order. -/
theorem entries_reread (all : scanner.exclude = []) :
    ∃ inside,
      ofEntries (gatherAll scanner dir (packageEntries packages ++ classes.map classEntry)) =
      .ok inside ∧
      inside.classes = classes.flatMap reread ∧ inside.packages = rereadAll packages := by
  rw [gatherAll_generated all]
  have given :
      ∀ entry ∈ packages.map (packagePart scanner dir) ++ classes.map (classPart scanner dir),
      ∃ classes packages, Gives entry.2 classes packages := by
    intro entry listed
    rcases List.mem_append.mp listed with listed | listed
    · obtain ⟨p, present, rfl⟩ := List.mem_map.mp listed
      exact ⟨_, _, below p present⟩
    · obtain ⟨c, present, rfl⟩ := List.mem_map.mp listed
      exact ⟨_, _, own c present⟩
  obtain ⟨whole, combined⟩ := combine_of fun entry listed => by
    obtain ⟨_, _, part, same, _⟩ := given entry ((byName_perm _).mem_iff.mp listed)
    exact ⟨part, same⟩
  have gathered :
      ofEntries (packages.map (packagePart scanner dir) ++ classes.map (classPart scanner dir)) =
      .ok whole.whole := by
    simp only [ofEntries, combined]
    rfl
  obtain ⟨classes', packages'⟩ := ofEntries_views (fun name part listed => by
    obtain ⟨_, _, part', same, apart, _⟩ := given _ listed
    exact Except.ok.inj same ▸ apart) gathered
  obtain ⟨classes'', packages''⟩ := parts_views arranged own below
  exact ⟨_, gathered, classes'.trans classes'', packages'.trans packages''⟩

end

mutual
theorem gather_package {scanner : Scanner} (all : scanner.exclude = []) {dir : Path}
    (nonempty : dir.text ≠ "") (p : Package) (orderly : Orderly p)
    (fits : Fits dir p) (some : ∀ c ∈ p.allClasses, c.name ≠ "") :
    Gives (packagePart scanner dir p).2 [] [rereadPackage p] := by
  match p with
  | ⟨name, classes, packages⟩ =>
    obtain ⟨named, arranged, below⟩ := orderly
    obtain ⟨small, files, inside⟩ := fits
    simp only [Package.allClasses, List.mem_append] at some
    have within : (dir.join name).text ≠ "" := join_nonempty nonempty (entry_relative named.noSlash)
    have inner :=
      gather_packages all within packages below inside fun c listed => some c (Or.inr listed)
    have own : ∀ c ∈ classes, Gives (classPart scanner (dir.join name) c).2 (reread c) [] :=
      fun c listed =>
      gather_class within (arranged.named c listed) (some c (Or.inl listed)) (files c listed)
    obtain ⟨found, gathered, classes', packages'⟩ := entries_reread arranged own inner all
    refine ⟨{ directories := Harvest.ofPackage (dir.join name) found }, ?_, ⟨rfl, rfl⟩, rfl, ?_⟩
    · simp only [packagePart, packageEntry, gather, small, gathered]
      rfl
    · simp only [Harvest.ofPackage, join_fileName nonempty named, Option.getD_some, classes',
        packages', rereadPackage]
termination_by structural p

private theorem gather_packages {scanner : Scanner} (all : scanner.exclude = []) {dir : Path}
    (nonempty : dir.text ≠ "") (packages : List Package) (orderly : AllOrderly packages)
    (fits : AllFit dir packages) (some : ∀ c ∈ Package.classesOf packages, c.name ≠ "") :
    ∀ p ∈ packages, Gives (packagePart scanner dir p).2 [] [rereadPackage p] := by
  match packages with
  | [] => simp
  | p :: ps =>
    simp only [Package.classesOf, List.mem_append] at some
    have own :=
      gather_package all nonempty p orderly.1 fits.1 fun c listed => some c (Or.inl listed)
    have rest :=
      gather_packages all nonempty ps orderly.2 fits.2 fun c listed => some c (Or.inr listed)
    simpa using ⟨own, rest⟩
termination_by structural packages
end

/-- Extraction from a generated tree. -/
theorem extract_reread {disk : Disk} {root : Path} {place : List String} {classes : List Class}
    {packages : List Package}
    (holds : Holds disk root place (packageEntries packages ++ classes.map classEntry))
    (arranged : Arranged classes packages) (orderly : AllOrderly packages)
    (fits : AllFit root packages) (small : ∀ c ∈ classes, checkEntry (classFile root c) = .ok ())
    (some : ∀ c ∈ classes ++ Package.classesOf packages, c.name ≠ "") :
    ∃ again, extract disk root [] = .ok again ∧
      again.project =
      ({ classes := classes.flatMap reread, packages := rereadAll packages } :
        Project).normalize := by
  simp only [List.mem_append] at some
  have below :=
    @gather_packages ⟨root, []⟩ rfl _ holds.nonempty packages orderly fits fun c listed =>
      some c (Or.inr listed)
  have own : ∀ c ∈ classes, Gives (classPart ⟨root, []⟩ root c).2 (reread c) [] := fun c listed =>
    gather_class holds.nonempty (arranged.named c listed) (some c (Or.inl listed)) (small c listed)
  obtain ⟨found, gathered, classes', packages'⟩ := entries_reread arranged own below rfl
  refine ⟨ofHarvest found, ?_, by rw [← classes', ← packages']; rfl⟩
  simp only [extract, holds.located, Scanner.make, patterns, Except.map, gathered]

end ClassDiagram.Proofs.RegeneratedTree
