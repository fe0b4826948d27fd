import ClassDiagram.Extraction

/-! What extraction finds in a tree of directories. Each package mirrors a directory: its classes
come from sources that lie there, and the packages in it mirror directories below. -/

namespace ClassDiagram.Proofs.ScannedTree
open Files Extraction

def sourceText? (path : Path) (content : ByteArray) : Option String :=
  if isJavaPath path then
    match Disk.decode content with
    | .ok text => if (Java.sourceTypes? text).isSome then some text else none
    | .error _ => none
  else none

mutual
def sourcesAt (scanner : Scanner) (path : Path) : Node → List (Path × String)
  | .file content => (sourceText? path content).toList.map (path, ·)
  | .dir entries => sourcesIn scanner path entries

def sourcesIn (scanner : Scanner) (dir : Path) : List (String × Node) → List (Path × String)
  | [] => []
  | (name, node) :: rest =>
    if scanner.excludes (dir.join name) then sourcesIn scanner dir rest
    else sourcesAt scanner (dir.join name) node ++ sourcesIn scanner dir rest
end

mutual
def directoriesAt (scanner : Scanner) (path : Path) : Node → List Path
  | .file _ => []
  | .dir entries => path :: directoriesIn scanner path entries

def directoriesIn (scanner : Scanner) (dir : Path) : List (String × Node) → List Path
  | [] => []
  | (name, node) :: rest =>
    if scanner.excludes (dir.join name) then directoriesIn scanner dir rest
    else directoriesAt scanner (dir.join name) node ++ directoriesIn scanner dir rest
end

theorem sources_listed {scanner : Scanner} {dir : Path} {entries : List (String × Node)}
    {name : String} {node : Node} (member : (name, node) ∈ entries)
    (listed : scanner.excludes (dir.join name) = false) :
    sourcesAt scanner (dir.join name) node ⊆ sourcesIn scanner dir entries := by
  induction entries with
  | nil => simp at member
  | cons entry rest ih =>
    obtain ⟨other, found⟩ := entry
    rcases List.mem_cons.mp member with same | member
    · obtain ⟨rfl, rfl⟩ := Prod.mk.inj same
      simp [sourcesIn, listed]
    · simp only [sourcesIn]
      split
      · exact ih member
      · exact List.subset_append_of_subset_right _ (ih member)

theorem directories_listed {scanner : Scanner} {dir : Path} {entries : List (String × Node)}
    {name : String} {node : Node} (member : (name, node) ∈ entries)
    (listed : scanner.excludes (dir.join name) = false) :
    directoriesAt scanner (dir.join name) node ⊆ directoriesIn scanner dir entries := by
  induction entries with
  | nil => simp at member
  | cons entry rest ih =>
    obtain ⟨other, found⟩ := entry
    rcases List.mem_cons.mp member with same | member
    · obtain ⟨rfl, rfl⟩ := Prod.mk.inj same
      simp [directoriesIn, listed]
    · simp only [directoriesIn]
      split
      · exact ih member
      · exact List.subset_append_of_subset_right _ (ih member)

structure Declares (path : Path) (content : ByteArray) (c : Class) (text : String)
    (types : List Java.SourceType) : Prop where
  named : isJavaPath path = true
  decoded : Disk.decode content = .ok text
  read : Java.sourceTypes? text = some types
  declared : c ∈ types.map Java.SourceType.type

theorem Declares.sourceText {path : Path} {content : ByteArray} {c : Class} {text : String}
    {types : List Java.SourceType} (declares : Declares path content c text types) :
    sourceText? path content = some text := by
  simp [sourceText?, declares.named, declares.decoded, declares.read]

/-- A listed file of a directory declares a class. -/
def FromFile (scanner : Scanner) (dir : Path) (entries : List (String × Node)) (c : Class) : Prop :=
  ∃ name content text types, (name, .file content) ∈ entries ∧
    scanner.excludes (dir.join name) = false ∧ Declares (dir.join name) content c text types

mutual
/-- A package mirrors the directory at a path within the limit. -/
def Mirrors (scanner : Scanner) (path : Path) (node : Node) : Package → Prop
  | ⟨name, classes, packages⟩ =>
    ∃ entries, node = .dir entries ∧ name = path.fileName?.getD "" ∧ checkEntry path = .ok () ∧
      (∀ c ∈ classes, FromFile scanner path entries c) ∧ AllMirror scanner path entries packages

def AllMirror (scanner : Scanner) (dir : Path) (entries : List (String × Node)) :
    List Package → Prop
  | [] => True
  | p :: ps => (∃ name node, (name, node) ∈ entries ∧ scanner.excludes (dir.join name) = false ∧
      Mirrors scanner (dir.join name) node p) ∧ AllMirror scanner dir entries ps
end

theorem mirrors_within {scanner : Scanner} {path : Path} {node : Node} {p : Package}
    (mirrors : Mirrors scanner path node p) : checkEntry path = .ok () := by
  obtain ⟨name, classes, packages⟩ := p
  obtain ⟨_, _, _, small, _⟩ := mirrors
  exact small

private theorem allMirror_of_forall {scanner : Scanner} {dir : Path}
    {entries : List (String × Node)} {all : List Package}
    (each : ∀ p ∈ all, ∃ name node, (name, node) ∈ entries ∧
      scanner.excludes (dir.join name) = false ∧
      Mirrors scanner (dir.join name) node p) : AllMirror scanner dir entries all := by
  induction all with
  | nil => trivial
  | cons p ps ih => exact ⟨each p (by simp), ih fun p member => each p (by simp [member])⟩

theorem map_ok {ε α β : Type} {f : α → β} {result : Except ε α} {value : β}
    (mapped : result.map f = .ok value) : ∃ inner, result = .ok inner ∧ f inner = value := by
  cases result with
  | error => simp [Except.map] at mapped
  | ok inner => exact ⟨inner, rfl, Except.ok.inj mapped⟩

theorem combine_cons {entry : String × Except Error Part} {rest : List (String × Except Error Part)}
    {whole : Part} (combined : combine (entry :: rest) = .ok whole) :
    ∃ part, entry.2 = .ok part ∧ ∃ other, combine rest = .ok other ∧
      { files := part.files.append other.files,
        directories := part.directories.append other.directories } = whole := by
  obtain ⟨name, result⟩ := entry
  cases result with
  | error => simp [combine] at combined
  | ok part => exact ⟨part, rfl, map_ok combined⟩

/-- What a directory gives if it can be opened. -/
theorem gather_dir {scanner : Scanner} {path : Path} {entries : List (String × Node)} {part : Part}
    (gathered : gather scanner path (.dir entries) = .ok part) : checkEntry path = .ok () ∧
      ∃ inside, ofEntries (gatherAll scanner path entries) = .ok inside ∧
      { directories := Harvest.ofPackage path inside } = part := by
  simp only [gather] at gathered
  split at gathered
  · simp at gathered
  next small => exact ⟨small, map_ok gathered⟩

/-- Whatever a combination holds comes from one of its parts. -/
theorem combine_origin {α : Type} {view : Part → List α} (empty : view {} = [])
    (split : ∀ first second x, x ∈
      view { files := first.files.append second.files,
             directories := first.directories.append second.directories } →
      x ∈ view first ∨ x ∈ view second)
    {all : List (String × Except Error Part)} {whole : Part} (combined : combine all = .ok whole) :
    ∀ x ∈ view whole, ∃ name part, (name, .ok part) ∈ all ∧ x ∈ view part := by
  induction all generalizing whole with
  | nil =>
    simp only [combine, Except.ok.injEq] at combined
    simp [← combined, empty]
  | cons entry rest ih =>
    obtain ⟨part, given, other, tail, rfl⟩ := combine_cons combined
    intro x member
    rcases split part other x member with member | member
    · exact ⟨entry.1, part, given ▸ List.mem_cons_self, member⟩
    · obtain ⟨name', part', listed, present⟩ := ih tail x member
      exact ⟨name', part', by simp [listed], present⟩

/-- What a node gives: classes if it is a file, and a mirror of it if it is a directory. -/
structure Held (scanner : Scanner) (path : Path) (node : Node) (part : Part) : Prop where
  classes : ∀ c ∈ part.whole.classes, ∃ content text types, node = .file content ∧
    Declares path content c text types
  packages : ∀ p ∈ part.whole.packages, Mirrors scanner path node p

private theorem file_held (scanner : Scanner) (path : Path) (content : ByteArray) :
    Held scanner path (.file content)
      { files := if isJavaPath path then Harvest.ofFile path content else {} } := by
  by_cases named : isJavaPath path = true
  · simp only [named, if_true, Harvest.ofFile]
    split
    · exact ⟨by simp [Part.whole, Harvest.append], by simp [Part.whole, Harvest.append]⟩
    next text decoded =>
      split
      · exact ⟨by simp [Part.whole, Harvest.append], by simp [Part.whole, Harvest.append]⟩
      next types read =>
        refine ⟨?_, by simp [Part.whole, Harvest.append]⟩
        intro c member
        exact ⟨content, text, types, rfl, named, decoded, read,
          by simpa [Part.whole, Harvest.append] using member⟩
  · exact ⟨by simp [named, Part.whole, Harvest.append], by simp [named, Part.whole, Harvest.append]⟩

theorem entries_held {scanner : Scanner} {dir : Path} {entries : List (String × Node)}
    {found : List (String × Except Error Part)}
    (each : ∀ name part, (name, .ok part) ∈ found → ∃ node, (name, node) ∈ entries ∧
      scanner.excludes (dir.join name) = false ∧ Held scanner (dir.join name) node part)
    {inside : Harvest} (gathered : ofEntries found = .ok inside) :
    (∀ c ∈ inside.classes, FromFile scanner dir entries c) ∧
      AllMirror scanner dir entries inside.packages := by
  obtain ⟨whole, combined, rfl⟩ := map_ok gathered
  have origin : ∀ {name part}, (name, .ok part) ∈ byName found → ∃ node, (name, node) ∈ entries ∧
      scanner.excludes (dir.join name) = false ∧ Held scanner (dir.join name) node part :=
    fun listed =>
    each _ _ (List.mem_mergeSort.mp listed)
  constructor
  · intro c member
    obtain ⟨name, part, listed, present⟩ := @combine_origin _ (fun part => part.whole.classes) rfl
      (by simp only [Part.whole, Harvest.append]; grind) _ _ combined c member
    obtain ⟨node, inside, free, held⟩ := origin listed
    obtain ⟨content, text, types, rfl, declares⟩ := held.classes c present
    exact ⟨name, content, text, types, inside, free, declares⟩
  · apply allMirror_of_forall
    intro p member
    obtain ⟨name, part, listed, present⟩ := @combine_origin _ (fun part => part.whole.packages) rfl
      (by simp only [Part.whole, Harvest.append]; grind) _ _ combined p member
    obtain ⟨node, inside, free, held⟩ := origin listed
    exact ⟨name, node, inside, free, held.packages p present⟩

mutual
theorem gather_held {scanner : Scanner} {path : Path} (node : Node) {part : Part}
    (gathered : gather scanner path node = .ok part) : Held scanner path node part := by
  match node with
  | .file content =>
    simp only [gather, Except.ok.injEq] at gathered
    exact gathered ▸ file_held scanner path content
  | .dir entries =>
    obtain ⟨small, inside, found, rfl⟩ := gather_dir gathered
    obtain ⟨classes, packages⟩ := entries_held (gatherAll_held entries) found
    refine ⟨by simp [Part.whole, Harvest.append, Harvest.ofPackage], ?_⟩
    intro p member
    simp only [Part.whole, Harvest.append, Harvest.ofPackage, List.nil_append, List.mem_singleton]
      at member
    subst member
    exact ⟨entries, rfl, rfl, small, classes, packages⟩
termination_by structural node

theorem gatherAll_held {scanner : Scanner} {dir : Path} (entries : List (String × Node)) :
    ∀ name part, (name, .ok part) ∈ gatherAll scanner dir entries → ∃ node, (name, node) ∈ entries ∧
      scanner.excludes (dir.join name) = false ∧ Held scanner (dir.join name) node part := by
  match entries with
  | [] => simp [gatherAll]
  | (own, node) :: rest =>
    have later := @gatherAll_held scanner dir rest
    intro name part member
    have below : (name, .ok part) ∈ gatherAll scanner dir rest →
        ∃ node', (name, node') ∈ (own, node) :: rest ∧
        scanner.excludes (dir.join name) = false ∧ Held scanner (dir.join name) node' part := by
      intro member
      obtain ⟨node', listed, free, held⟩ := later name part member
      exact ⟨node', by simp [listed], free, held⟩
    simp only [gatherAll] at member
    split at member
    · exact below member
    next free =>
      rcases List.mem_cons.mp member with same | member
      · obtain ⟨rfl, gathered⟩ := Prod.mk.inj same
        exact ⟨node, by simp, by simpa using free, gather_held node gathered.symm⟩
      · exact below member
termination_by structural entries
end

end ClassDiagram.Proofs.ScannedTree
