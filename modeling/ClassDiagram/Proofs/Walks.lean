import ClassDiagram.Files.Listing
import ClassDiagram.Proofs.JoinedTexts

/-! Where joined paths lead. On a disk such as a file system keeps it, the path of a directory
joined with the name of one of its entries leads to that entry. -/

namespace ClassDiagram.Proofs.Walks
open Files

structure IsEntryName (name : String) : Prop where
  nonempty : name ≠ ""
  noSlash : '/' ∉ name.toList
  noNul : '\x00' ∉ name.toList
  notDot : name ≠ "."
  notDots : name ≠ ".."
  short : name.utf8ByteSize ≤ nameLimit

instance (name : String) : Decidable (IsEntryName name) :=
  decidable_of_iff (name ≠ "" ∧ '/' ∉ name.toList ∧ '\x00' ∉ name.toList ∧ name ≠ "." ∧
      name ≠ ".." ∧ name.utf8ByteSize ≤ nameLimit)
    ⟨fun ⟨a, b, c, d, e, f⟩ => ⟨a, b, c, d, e, f⟩, fun ⟨a, b, c, d, e, f⟩ => ⟨a, b, c, d, e, f⟩⟩

mutual
/-- Entries have names of their own, each of which can be one. -/
def Proper : Node → Prop
  | .file _ => True
  | .dir entries => (entries.map Prod.fst).Nodup ∧ ProperEntries entries

def ProperEntries : List (String × Node) → Prop
  | [] => True
  | (name, node) :: rest => IsEntryName name ∧ Proper node ∧ ProperEntries rest
end

theorem proper_entry {entries : List (String × Node)} (proper : ProperEntries entries)
    {name : String} {node : Node} (member : (name, node) ∈ entries) :
    IsEntryName name ∧ Proper node := by
  induction entries with
  | nil => simp at member
  | cons entry rest ih =>
    obtain ⟨other, found⟩ := entry
    obtain ⟨named, own, others⟩ := proper
    rcases List.mem_cons.mp member with same | member
    · obtain ⟨rfl, rfl⟩ := Prod.mk.inj same
      exact ⟨named, own⟩
    · exact ih others member

theorem lookup_of_mem {entries : List (String × Node)} (distinct : (entries.map Prod.fst).Nodup)
    {name : String} {node : Node} (member : (name, node) ∈ entries) :
    entries.lookup name = some node := by
  induction entries with
  | nil => simp at member
  | cons entry rest ih =>
    obtain ⟨other, found⟩ := entry
    obtain ⟨fresh, distinct⟩ := List.nodup_cons.mp distinct
    rcases List.mem_cons.mp member with same | below
    · obtain ⟨rfl, rfl⟩ := Prod.mk.inj same
      simp
    · have different : (name == other) = false := by
        simp only [beq_eq_false_iff_ne, ne_eq]
        rintro rfl
        exact fresh (List.mem_map.mpr ⟨(name, node), below, rfl⟩)
      simp [List.lookup_cons, different, ih distinct below]

private theorem mem_of_lookup {entries : List (String × Node)} {name : String} {node : Node}
    (found : entries.lookup name = some node) : (name, node) ∈ entries := by
  obtain ⟨before, after, rfl, _⟩ := List.lookup_eq_some_iff.mp found
  simp

theorem get_append {root : Node} {first second : List String} :
    root.get? (first ++ second) = (root.get? first).bind (·.get? second) := by
  induction first generalizing root with
  | nil => simp [Node.get?]
  | cons name first ih =>
    simp only [List.cons_append, Node.get?]
    cases root.child? name with
    | none => rfl
    | some child => exact ih

theorem get_entry {root : Node} {place : List String} {entries : List (String × Node)}
    {name : String} (here : root.get? place = some (.dir entries)) :
    root.get? (place ++ [name]) = entries.lookup name := by
  rw [get_append, here]
  simp only [Option.bind_some, Node.get?, Node.child?, Node.entries]
  cases entries.lookup name with
  | none => rfl
  | some child => rfl

theorem proper_get {root node : Node} {names : List String} (proper : Proper root)
    (found : root.get? names = some node) : Proper node := by
  induction names generalizing root with
  | nil => exact Option.some.inj found ▸ proper
  | cons name names ih =>
    simp only [Node.get?] at found
    split at found
    next child located =>
      refine ih ?_ found
      cases root with
      | file => simp [Node.child?, Node.entries] at located
      | dir entries =>
        simp only [Node.child?, Node.entries] at located
        exact (proper_entry proper.2 (mem_of_lookup located)).2
    next => simp at found

theorem pieces_ne_nil (separator : Char) (text : List Char) : Text.pieces separator text ≠ [] := by
  cases text with
  | nil => simp [Text.pieces]
  | cons c text =>
    simp only [Text.pieces]
    split
    · simp
    · split <;> simp

theorem intercalate_pieces (separator : Char) (text : List Char) :
    [separator].intercalate (Text.pieces separator text) = text := by
  induction text with
  | nil => rfl
  | cons c text ih =>
    rw [Text.pieces]
    obtain ⟨piece, more, shape⟩ := List.exists_cons_of_ne_nil (pieces_ne_nil separator text)
    rw [shape] at ih ⊢
    split
    next same => rw [List.intercalate_cons_cons, ih, same]; rfl
    next =>
      cases more with
      | nil => simpa using ih
      | cons next more =>
        simp only [List.intercalate_cons_cons] at ih ⊢
        rw [List.cons_append, List.cons_append, ih]

theorem pieces_concat {separator : Char} (text : List Char) {piece : List Char}
    (whole : separator ∉ piece) :
    Text.pieces separator (text ++ separator :: piece) = Text.pieces separator text ++ [piece] := by
  induction text with
  | nil => simp [Text.pieces, JoinedTexts.pieces_last whole]
  | cons c text ih =>
    simp only [List.cons_append, Text.pieces, ih]
    split
    · rfl
    · cases first : Text.pieces separator text with
      | nil => exact absurd first (pieces_ne_nil separator text)
      | cons => rfl

theorem segments_ne_nil (p : Path) : p.segments ≠ [] := by
  simp [Path.segments, pieces_ne_nil]

theorem segments_text (p : Path) : "/".intercalate p.segments = p.text := by
  apply String.toList_inj.mp
  simpa [Path.segments, String.toList_intercalate, Function.comp_def]
    using intercalate_pieces '/' p.text.toList

theorem segments_plain {name : String} (noSlash : '/' ∉ name.toList) :
    Path.segments ⟨name⟩ = [name] := by
  simp [Path.segments, JoinedTexts.pieces_last noSlash]

theorem entry_relative {name : String} (noSlash : '/' ∉ name.toList) :
    Path.isAbsolute ⟨name⟩ = false := by
  simp only [Path.isAbsolute, beq_eq_false_iff_ne, ne_eq]
  intro starts
  exact noSlash (List.mem_of_mem_head? starts)

/-- Joining puts one slash between a path and a name. -/
theorem join_text {dir : Path} (some : dir.text ≠ "") {name : String}
    (relative : Path.isAbsolute ⟨name⟩ = false) :
    ∃ base, (dir.join name).text.toList = base ++ '/' :: name.toList ∧
      (dir.text.toList = base ∨ dir.text.toList = base ++ ['/']) := by
  simp only [Path.join, relative, Bool.false_or, beq_iff_eq, some, if_false]
  split
  next ends =>
    obtain ⟨base, same⟩ := List.getLast?_eq_some_iff.mp ends
    exact ⟨base, by simp [same], Or.inr same⟩
  next => exact ⟨dir.text.toList, by simp, Or.inl rfl⟩

theorem join_segments {dir : Path} (some : dir.text ≠ "") {name : String}
    (noSlash : '/' ∉ name.toList) :
    ∃ front, (dir.join name).segments = front ++ [name] ∧ front ≠ [] ∧
      (dir.segments = front ∨ dir.segments = front ++ [""]) := by
  obtain ⟨base, joined, own⟩ := join_text some (entry_relative noSlash)
  refine ⟨(Text.pieces '/' base).map String.ofList, ?_, by simp [pieces_ne_nil], ?_⟩
  · simp [Path.segments, joined, pieces_concat base noSlash]
  · rcases own with own | own
    · exact Or.inl (by simp [Path.segments, own])
    · exact Or.inr (by simp [Path.segments, own, @pieces_concat _ base []])

theorem join_nonempty {dir : Path} (some : dir.text ≠ "") {name : String}
    (relative : Path.isAbsolute ⟨name⟩ = false) : (dir.join name).text ≠ "" := by
  obtain ⟨base, joined, _⟩ := join_text some relative
  intro empty
  simp [empty] at joined

theorem join_isAbsolute {dir : Path} (some : dir.text ≠ "") {name : String}
    (relative : Path.isAbsolute ⟨name⟩ = false) : (dir.join name).isAbsolute = dir.isAbsolute := by
  obtain ⟨first, rest, same⟩ : ∃ first rest, dir.text.toList = first :: rest :=
    List.exists_cons_of_ne_nil (by simpa using some)
  simp only [Path.isAbsolute, Path.join] at relative ⊢
  simp only [relative, Bool.false_or, beq_iff_eq, some, if_false]
  split <;> simp [same]

theorem idle_of_entry {name : String} (named : IsEntryName name) : Path.isIdle name = false := by
  simp [Path.isIdle, named.nonempty, named.notDot]

/-- A path that was joined before does not end with a slash. -/
theorem join_again_segments {dir : Path} (some : dir.text ≠ "") {first second : String}
    (named : IsEntryName first) (noSlash : '/' ∉ second.toList) :
    ((dir.join first).join second).segments = (dir.join first).segments ++ [second] := by
  obtain ⟨front, joined, _⟩ := join_segments some named.noSlash
  obtain ⟨front', again, _, same | slashed⟩ :=
    join_segments (join_nonempty some (entry_relative named.noSlash)) noSlash
  · rw [again, same]
  · have last := congrArg List.getLast? (joined.symm.trans slashed)
    simp only [List.getLast?_concat, Option.some.injEq] at last
    exact absurd last named.nonempty

theorem join_last {dir : Path} (some : dir.text ≠ "") {name : String} (named : IsEntryName name) :
    (dir.join name).components.getLast? = .some (.normal name) := by
  obtain ⟨front, joined, full, _⟩ := join_segments some named.noSlash
  have last : ∀ before, Path.ofSegments (before ++ [name]) =
      Path.ofSegments before ++ [.normal name] := by
    intro before
    simp [Path.ofSegments, List.filter_append, idle_of_entry named, Path.component, named.notDots]
  cases front with
  | nil => exact absurd rfl full
  | cons first more =>
    have own := last (first :: more)
    simp only [List.cons_append] at own
    simp only [Path.components, joined, List.cons_append, last, own]
    split
    · simp [List.getLast?_cons]
    · split <;> simp [List.getLast?_cons]

theorem join_fileName {dir : Path} (some : dir.text ≠ "") {name : String}
    (named : IsEntryName name) : (dir.join name).fileName? = .some name := by
  simp [Path.fileName?, join_last some named]

/-- A segment that leads from a directory to one of its entries. -/
structure Descends (segment : String) : Prop where
  busy : Path.isIdle segment = false
  notUp : segment ≠ ".."
  short : segment.utf8ByteSize ≤ nameLimit

theorem IsEntryName.descends {name : String} (named : IsEntryName name) : Descends name :=
  ⟨idle_of_entry named, named.notDots, named.short⟩

theorem solid_nonempty {segments : List String} (solid : segments.all (· == "") = false) :
    segments ≠ [] := by
  rintro rfl
  simp at solid

section
variable {root : Node} {place rest : List String} {entries : List (String × Node)}
  {segment : String} (here : root.get? place = some (.dir entries))
include here

theorem walk_skip (idle : Path.isIdle segment = true) :
    Disk.walk root place (segment :: rest) = Disk.walk root place rest := by
  simp [Disk.walk, here, idle]

theorem walk_up : Disk.walk root place (".." :: rest) = Disk.walk root place.dropLast rest := by
  have busy : Path.isIdle ".." = false := by decide
  simp [Disk.walk, here, busy]

theorem walk_down (down : Descends segment) (solid : rest.all (· == "") = false) {child : Node}
    (known : root.get? (place ++ [segment]) = some child) :
    Disk.walk root place (segment :: rest) = Disk.walk root (place ++ [segment]) rest := by
  rw [get_entry here] at known
  simp only [Disk.walk, here, down.busy, beq_iff_eq, down.notUp, Nat.not_lt.mpr down.short,
    List.isEmpty_iff, solid_nonempty solid, solid,
    known, Option.isNone_some, Bool.false_eq_true, if_false]

/-- Nothing is found below a directory that is missing. -/
theorem walk_missing (down : Descends segment) (solid : rest.all (· == "") = false)
    (missing : root.get? (place ++ [segment]) = none) :
    Disk.walk root place (segment :: rest) = .error .notFound := by
  rw [get_entry here] at missing
  simp only [Disk.walk, here, down.busy, beq_iff_eq, down.notUp, Nat.not_lt.mpr down.short,
    List.isEmpty_iff, solid_nonempty solid, solid,
    missing, Option.isNone_none, Bool.false_eq_true, if_false, if_true]

end

/-- How a walk gets to its end. Each segment is read in a directory, and only behind the last name
may there be none. -/
inductive WalksTo (root : Node) : List String → List String → Spot → Prop where
  | done {place} : WalksTo root place [] ⟨place, true⟩
  | skip {place entries segment rest spot} (here : root.get? place = some (.dir entries))
      (idle : Path.isIdle segment = true)
      (further : WalksTo root place rest spot) : WalksTo root place (segment :: rest) spot
  | up {place entries rest spot} (here : root.get? place = some (.dir entries))
      (further : WalksTo root place.dropLast rest spot) : WalksTo root place (".." :: rest) spot
  | last {place entries segment} (here : root.get? place = some (.dir entries))
      (down : Descends segment) : WalksTo root place [segment] ⟨place ++ [segment], false⟩
  | slashed {place entries segment rest} (here : root.get? place = some (.dir entries))
      (down : Descends segment) (more : rest ≠ [])
      (empty : rest.all (· == "") = true) :
      WalksTo root place (segment :: rest) ⟨place ++ [segment], true⟩
  | down {place entries segment rest spot} (here : root.get? place = some (.dir entries))
      (down : Descends segment)
      (solid : rest.all (· == "") = false) (further : WalksTo root (place ++ [segment]) rest spot) :
      WalksTo root place (segment :: rest) spot

/-- A walk that has somewhere to go starts in a directory. -/
theorem WalksTo.starts {root : Node} {place segments : List String} {spot : Spot}
    (way : WalksTo root place segments spot) (some : segments ≠ []) :
    ∃ entries, root.get? place = .some (.dir entries) := by
  cases way with
  | done => exact absurd rfl some
  | skip here | up here | last here | slashed here | down here => exact ⟨_, here⟩

theorem walk_way {root : Node} {place segments : List String} {spot : Spot}
    (walked : Disk.walk root place segments = .ok spot) : WalksTo root place segments spot := by
  induction segments generalizing place with
  | nil =>
    obtain rfl := Except.ok.inj walked
    exact .done
  | cons segment rest ih =>
    simp only [Disk.walk] at walked
    split at walked
    · simp at walked
    · simp at walked
    next entries here =>
      split at walked
      next idle => exact .skip here idle (ih walked)
      next busy =>
        split at walked
        next up =>
          obtain rfl := beq_iff_eq.mp up
          exact .up here (ih walked)
        next other =>
          split at walked
          · simp at walked
          next short =>
            have down : Descends segment :=
              ⟨by simpa using busy, by simpa using other, Nat.le_of_not_lt short⟩
            split at walked
            next ended =>
              obtain rfl := List.isEmpty_iff.mp ended
              obtain rfl := Except.ok.inj walked
              exact .last here down
            next more =>
              split at walked
              next empty =>
                obtain rfl := Except.ok.inj walked
                exact .slashed here down (by simpa using more) empty
              next solid =>
                split at walked
                · simp at walked
                · exact .down here down (by simpa using solid) (ih walked)

theorem WalksTo.walk {root : Node} {place segments : List String} {spot : Spot}
    (way : WalksTo root place segments spot) : Disk.walk root place segments = .ok spot := by
  induction way with
  | done => rfl
  | skip here idle _ ih => rw [walk_skip here idle, ih]
  | up here _ ih => rw [walk_up here, ih]
  | last here down => simp [Disk.walk, here, down.busy, down.notUp, Nat.not_lt.mpr down.short]
  | slashed here down more empty =>
    simp only [Disk.walk, here, down.busy, beq_iff_eq, down.notUp, Nat.not_lt.mpr down.short,
      List.isEmpty_iff, more, empty, Bool.false_eq_true, if_false, if_true]
  | down here down solid further ih =>
    obtain ⟨_, below⟩ := further.starts (solid_nonempty solid)
    rw [walk_down here down solid below, ih]

theorem walk_name {root : Node} {place : List String} {entries : List (String × Node)}
    {name : String} (here : root.get? place = some (.dir entries)) (named : IsEntryName name) :
    Disk.walk root place [name] = .ok ⟨place ++ [name], false⟩ :=
  (WalksTo.last here named.descends).walk

/-- Empty segments lead nowhere. -/
theorem walk_idle {root : Node} {place : List String} {entries : List (String × Node)}
    (here : root.get? place = some (.dir entries)) {idle : List String}
    (empty : idle.all (· == "") = true) (more : List String) :
    Disk.walk root place (idle ++ more) = Disk.walk root place more := by
  induction idle with
  | nil => rfl
  | cons segment idle ih =>
    simp only [List.all_cons, Bool.and_eq_true, beq_iff_eq] at empty
    obtain ⟨rfl, empty⟩ := empty
    rw [List.cons_append, walk_skip here (by decide)]
    exact ih (by simpa using empty)

/-- A walk to a directory goes on from there. -/
theorem walk_on {root : Node} {place : List String} {segments : List String} {spot : Spot}
    {entries : List (String × Node)} (walked : Disk.walk root place segments = .ok spot)
    (here : root.get? spot.names = some (.dir entries)) {more : List String}
    (solid : more.all (· == "") = false) :
    Disk.walk root place (segments ++ more) = Disk.walk root spot.names more := by
  have other : ∀ front : List String, (front ++ more).all (· == "") = false := fun front => by
    simp only [List.all_append, solid, Bool.and_false]
  induction walk_way walked with
  | done => rfl
  | skip start idle further ih => rw [List.cons_append, walk_skip start idle, ih further.walk here]
  | up start further ih => rw [List.cons_append, walk_up start, ih further.walk here]
  | last start down => exact walk_down start down solid here
  | slashed start down _ empty =>
    rw [List.cons_append, walk_down start down (other _) here, walk_idle here empty]
  | down start down solid' further ih =>
    obtain ⟨_, below⟩ := further.starts (solid_nonempty solid')
    rw [List.cons_append, walk_down start down (other _) below, ih further.walk here]

/-- A trailing slash makes no difference before further names. -/
theorem walk_slash {root : Node} {place : List String} {more : List String}
    (solid : more.all (· == "") = false) (segments : List String) :
    Disk.walk root place (segments ++ "" :: more) = Disk.walk root place (segments ++ more) := by
  obtain ⟨first, behind, rfl⟩ : ∃ first behind, more = first :: behind :=
    List.exists_cons_of_ne_nil (by rintro rfl; simp at solid)
  induction segments generalizing place with
  | nil =>
    have skipped : Path.isIdle "" = true := by decide
    simp only [List.nil_append]
    rw [Disk.walk]
    split
    next none => simp [Disk.walk, none]
    next file => simp [Disk.walk, file]
    next => simp [skipped]
  | cons segment rest ih =>
    have other : ∀ front : List String, (front ++ first :: behind).all (· == "") = false :=
      fun front => by
      simp only [List.all_append, solid, Bool.and_false]
    have split : rest ++ "" :: first :: behind = (rest ++ [""]) ++ first :: behind := by simp
    simp only [List.cons_append, Disk.walk, ih]
    rw [split, other, other]
    simp

theorem checkEntry_iff {path : Path} :
    checkEntry path = .ok () ↔ path.text.utf8ByteSize ≤ pathLimit := by
  simp only [checkEntry]
  split
  next long => simpa using long
  next within => simpa using within

theorem isJavaPath_iff {path : Path} :
    isJavaPath path = true ↔ checkEntry path = .ok () ∧ hasJavaName path = true := by
  simp [isJavaPath, checkEntry_iff]

/-- A path that leads to a directory has a spot for it. -/
theorem node_spot {disk : Disk} {path : Path} {node : Node} (located : disk.node path = .ok node) :
    ∃ spot, disk.spot path = .ok spot ∧ disk.root.get? spot.names = some node := by
  simp only [Disk.node] at located
  split at located
  · simp at located
  next spot found =>
    refine ⟨spot, found, ?_⟩
    split at located
    · simp at located
    next file =>
      split at located
      · simp at located
      · exact Except.ok.inj located ▸ file
    next dir => exact Except.ok.inj located ▸ dir

structure Spotted (disk : Disk) (path : Path) (spot : Spot) : Prop where
  noNul : '\x00' ∉ path.text.toList
  nonempty : path.text ≠ ""
  short : path.text.utf8ByteSize ≤ pathLimit
  walked : Disk.walk disk.root (if path.isAbsolute then [] else disk.cwd) path.segments = .ok spot

theorem spot_iff {disk : Disk} {path : Path} {spot : Spot} :
    disk.spot path = .ok spot ↔ Spotted disk path spot := by
  simp only [Disk.spot]
  constructor
  · intro found
    split at found
    · simp at found
    next noNul =>
      split at found
      · simp at found
      next nonempty =>
        split at found
        · simp at found
        next short =>
          exact ⟨by simpa using noNul, by simpa using nonempty, Nat.not_lt.mp short, found⟩
  · intro ⟨noNul, nonempty, short, walked⟩
    simp [noNul, nonempty, Nat.not_lt.mpr short, walked]

/-- The path down a line of names, given innermost first. -/
def trail (dir : Path) : List String → Path
  | [] => dir
  | name :: above => (trail dir above).join name

section
variable {dir : Path} (nonempty : dir.text ≠ "") {names : List String}
  (named : ∀ name ∈ names, IsEntryName name)
include nonempty named

theorem trail_nonempty : (trail dir names).text ≠ "" := by
  induction names with
  | nil => exact nonempty
  | cons name above ih =>
    exact join_nonempty (ih fun name listed => named name (by simp [listed]))
      (entry_relative (named name (by simp)).noSlash)

theorem trail_isAbsolute : (trail dir names).isAbsolute = dir.isAbsolute := by
  induction names with
  | nil => rfl
  | cons name above ih =>
    have inner : ∀ name ∈ above, IsEntryName name :=
      fun name listed => named name (by simp [listed])
    rw [trail,
      join_isAbsolute (trail_nonempty nonempty inner)
      (entry_relative (named name (by simp)).noSlash), ih inner]

private theorem trail_noNul (clear : '\x00' ∉ dir.text.toList) :
    '\x00' ∉ (trail dir names).text.toList := by
  induction names with
  | nil => exact clear
  | cons name above ih =>
    have inner : ∀ name ∈ above, IsEntryName name :=
      fun name listed => named name (by simp [listed])
    have own := named name (by simp)
    obtain ⟨base, joined, same⟩ :=
      join_text (trail_nonempty nonempty inner) (entry_relative own.noSlash)
    have none := ih inner
    rw [trail, joined]
    have clear : '\x00' ∉ base := by
      rcases same with same | same <;> simp_all
    simp [clear, own.noNul]

theorem trail_segments (some : names ≠ []) :
    ∃ front, (trail dir names).segments = front ++ names.reverse ∧
    (dir.segments = front ∨ dir.segments = front ++ [""]) := by
  induction names with
  | nil => exact absurd rfl some
  | cons name above ih =>
    have own := named name (by simp)
    cases above with
    | nil =>
      obtain ⟨front, segments, _, whole⟩ := join_segments nonempty own.noSlash
      exact ⟨front, by simpa [trail] using segments, whole⟩
    | cons next above =>
      have inner : ∀ name ∈ next :: above, IsEntryName name :=
        fun name listed => named name (by simp [listed])
      have before := trail_nonempty nonempty fun name listed =>
        inner name (List.mem_cons_of_mem next listed)
      obtain ⟨front, segments, whole⟩ := ih inner (by simp)
      refine ⟨front, ?_, whole⟩
      rw [trail, trail, join_again_segments before (inner next (by simp)) own.noSlash,
        ← trail, segments]
      simp

end

/-- A path down a line of names is walked from the directory that it starts with. -/
theorem spot_trail {disk : Disk} {dir : Path} {spot : Spot} {entries : List (String × Node)}
    (found : disk.spot dir = .ok spot) (here : disk.root.get? spot.names = some (.dir entries))
    {names : List String} (named : ∀ name ∈ names, IsEntryName name)
    (some : names ≠ []) (short : (trail dir names).text.utf8ByteSize ≤ pathLimit) :
    disk.spot (trail dir names) = Disk.walk disk.root spot.names names.reverse := by
  obtain ⟨noNul, nonempty, _, walked⟩ := spot_iff.mp found
  have clear := trail_noNul nonempty named noNul
  have solid : names.reverse.all (· == "") = false := by
    obtain ⟨name, above, rfl⟩ := List.exists_cons_of_ne_nil some
    simp [(named name (by simp)).nonempty]
  have behind :
      Disk.walk disk.root (if dir.isAbsolute then [] else disk.cwd) (trail dir names).segments =
      Disk.walk disk.root spot.names names.reverse := by
    have longer := walk_on walked here solid
    obtain ⟨front, segments, whole | slashed⟩ := trail_segments nonempty named some
    · rw [segments, ← whole]
      exact longer
    · rw [segments, ← walk_slash solid]
      rwa [slashed, List.append_assoc] at longer
  simp only [Disk.spot, List.contains_eq_mem, clear, decide_false, Bool.false_eq_true,
    if_false, beq_iff_eq,
    trail_nonempty nonempty named, Nat.not_lt.mpr short, trail_isAbsolute nonempty named, behind]

theorem spot_join {disk : Disk} {dir : Path} {spot : Spot} {entries : List (String × Node)}
    {name : String} (found : disk.spot dir = .ok spot)
    (here : disk.root.get? spot.names = some (.dir entries)) (named : IsEntryName name)
    (small : checkEntry (dir.join name) = .ok ()) :
    disk.spot (dir.join name) = .ok ⟨spot.names ++ [name], false⟩ := by
  have walked :=
    @spot_trail _ _ _ _ found here [name] (by simpa using named) (by simp) (checkEntry_iff.mp small)
  exact walked.trans (walk_name here named)

theorem node_join {disk : Disk} {dir : Path} {entries : List (String × Node)} {name : String}
    {child : Node} (located : disk.node dir = .ok (.dir entries)) (named : IsEntryName name)
    (small : checkEntry (dir.join name) = .ok ()) (found : entries.lookup name = some child) :
    disk.node (dir.join name) = .ok child := by
  obtain ⟨spot, spotted, here⟩ := node_spot located
  have there : disk.root.get? (spot.names ++ [name]) = some child := (get_entry here).trans found
  simp only [Disk.node, spot_join spotted here named small, there]
  cases child <;> rfl

theorem isDir_node {disk : Disk} {path : Path} (isDir : disk.isDir path = true) :
    ∃ entries, disk.node path = .ok (.dir entries) := by
  simp only [Disk.isDir] at isDir
  split at isDir
  next entries found => exact ⟨entries, found⟩
  next => simp at isDir

/-- A directory that is there need not be made. -/
theorem makeDirs_there {disk : Disk} {path : Path} {entries : List (String × Node)}
    (located : disk.node path = .ok (.dir entries)) : disk.makeDirs path = (.ok (), disk) := by
  obtain ⟨spot, found, here⟩ := node_spot located
  have there : disk.makeDir path = .error .exists := by simp [Disk.makeDir, found, here]
  have isDir : disk.isDir path = true := by simp [Disk.isDir, located]
  simp only [Disk.makeDirs, Path.lineage, Path.ancestors]
  split
  · rfl
  · simp [Disk.makeDirsAlong, there, isDir]

private theorem slashed_relative {first second : String} (filled : first ≠ "")
    (relative : Path.isAbsolute ⟨first⟩ = false) :
    Path.isAbsolute ⟨first ++ "/" ++ second⟩ = false := by
  obtain ⟨c, rest, same⟩ : ∃ c rest, first.toList = c :: rest :=
    List.exists_cons_of_ne_nil (by simpa using filled)
  simpa [Path.isAbsolute, same] using relative

/-- A name that does not end with a slash is one step of the way. -/
theorem join_over (dir : Path) {first second : String} (filled : first ≠ "")
    (relative : Path.isAbsolute ⟨first⟩ = false) (solid : first.toList.getLast? ≠ some '/')
    (relative' : Path.isAbsolute ⟨second⟩ = false) :
    (dir.join first).join second = dir.join (first ++ "/" ++ second) := by
  have whole := @slashed_relative first second filled relative
  have behind : ∀ text : String, (⟨text ++ first⟩ : Path).join second =
      ⟨text ++ (first ++ "/" ++ second)⟩ := by
    intro text
    simp [Path.join, relative', solid, filled, String.append_assoc]
  by_cases empty : dir.text = ""
  · have alone : ∀ name, dir.join name = ⟨name⟩ := by simp [Path.join, empty]
    rw [alone, alone]
    simpa using behind ""
  · have shape : ∀ name, Path.isAbsolute ⟨name⟩ = false →
        dir.join name = if dir.text.toList.getLast? == some '/' then ⟨dir.text ++ name⟩
        else ⟨(dir.text ++ "/") ++ name⟩ := by
      intro name relative
      simp [Path.join, relative, empty]
    rw [shape _ relative, shape _ whole]
    split
    · exact behind dir.text
    · exact behind (dir.text ++ "/")

theorem join_join (dir : Path) {first second : String} (named : IsEntryName first)
    (relative : Path.isAbsolute ⟨second⟩ = false) :
    (dir.join first).join second = dir.join (first ++ "/" ++ second) :=
  join_over dir named.nonempty (entry_relative named.noSlash)
    (fun ends => named.noSlash (List.mem_of_getLast? ends)) relative

theorem entry_components {name : String} (named : IsEntryName name) :
    Path.components ⟨name⟩ = [.normal name] := by
  simp [Path.components, segments_plain named.noSlash, entry_relative named.noSlash, named.notDot,
    Path.ofSegments, idle_of_entry named, Path.component, named.notDots]

theorem downward_parts {name : String} (down : Path.isDownward ⟨name⟩ = true) :
    Path.isAbsolute ⟨name⟩ = false ∧
    Path.components ⟨name⟩ = Path.ofSegments (Path.segments ⟨name⟩) := by
  cases segments : Path.segments ⟨name⟩ with
  | nil => exact absurd segments (segments_ne_nil _)
  | cons first rest =>
    simp only [Path.isDownward, Path.components, segments] at down ⊢
    split at down
    · simp at down
    next relative =>
      split at down
      · simp at down
      next other => simp [relative, other]

theorem downward_join {first second : String} (named : IsEntryName first)
    (down : Path.isDownward ⟨second⟩ = true) : Path.isDownward ⟨first ++ "/" ++ second⟩ = true := by
  obtain ⟨relative, parts⟩ := downward_parts down
  have segments : Path.segments ⟨first ++ "/" ++ second⟩ = first :: Path.segments ⟨second⟩ := by
    simp [Path.segments, JoinedTexts.pieces_cons named.noSlash]
  have whole := @slashed_relative first second named.nonempty (entry_relative named.noSlash)
  have components : Path.components ⟨first ++ "/" ++ second⟩ =
      .normal first :: Path.components ⟨second⟩ := by
    rw [parts]
    simp [Path.components, segments, whole, named.notDot, Path.ofSegments, idle_of_entry named,
      Path.component, named.notDots]
  simpa [Path.isDownward, components] using down

end ClassDiagram.Proofs.Walks
