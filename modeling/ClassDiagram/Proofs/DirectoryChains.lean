import ClassDiagram.Proofs.PathPlaces
import ClassDiagram.Proofs.RepeatedGeneration

/-! Making a directory far below another one. The directories in between are made on the way, so it
makes no difference whether the upper one was made before, as long as the path to it is spelled to
the end: a dot behind its name asks for a directory that is there already. -/

namespace ClassDiagram.Proofs.DirectoryChains
open Files Walks DiskChanges PathPlaces RepeatedGeneration

private theorem trimIdle_onto (idle : List String) {busy : String}
    (counts : Path.isIdle busy = false) (rest : List String) :
    Path.trimIdle (idle ++ busy :: rest) = idle.dropWhile Path.isIdle ++ busy :: rest := by
  induction idle with
  | nil => cases rest <;> simp [Path.trimIdle, counts]
  | cons segment idle ih =>
    obtain ⟨next, more, shape⟩ : ∃ next more, idle ++ busy :: rest = next :: more :=
      List.exists_cons_of_ne_nil (by simp)
    rw [shape] at ih
    cases kind : Path.isIdle segment <;> simp [Path.trimIdle, shape, kind, ih]

/-- The last segment that counts, with those behind it. -/
theorem last_counting {segments : List String} (some : Path.ofSegments segments ≠ []) :
    ∃ front busy idle, segments = front ++ busy :: idle ∧
    Path.isIdle busy = false ∧ ∀ segment ∈ idle, Path.isIdle segment = true := by
  induction segments using List.reverseRecOn with
  | nil => exact absurd rfl some
  | append_singleton segments last ih =>
    cases kind : Path.isIdle last with
    | false => exact ⟨segments, last, [], rfl, kind, by simp⟩
    | true =>
      rw [ofSegments_append, ofSegments_idle kind] at some
      obtain ⟨front, busy, idle, rfl, counts, trailing⟩ :=
        ih (by simpa [Path.ofSegments] using some)
      refine ⟨front, busy, idle ++ [last], by simp, counts, fun segment listed => ?_⟩
      rcases List.mem_append.mp listed with listed | listed
      · exact trailing segment listed
      · exact List.mem_singleton.mp listed ▸ kind

/-- The parent of a path ends before the last segment that counts. -/
theorem parent_of {p : Path} {front idle : List String} {busy : String}
    (spelled : p.segments = front ++ busy :: idle) (counts : Path.isIdle busy = false)
    (trailing : ∀ segment ∈ idle, Path.isIdle segment = true) :
    p.parent? = some (Path.ofReversed p.isAbsolute (Path.trimIdle front.reverse)) := by
  have skipped : Path.trimIdle p.segments.reverse = busy :: front.reverse := by
    have none : idle.reverse.dropWhile Path.isIdle = [] :=
      List.dropWhile_eq_nil_iff.mpr (by simpa using trailing)
    rw [spelled, List.reverse_append, List.reverse_cons, List.append_assoc, List.singleton_append,
      trimIdle_onto _ counts, none, List.nil_append]
  have last : Path.ofSegments (busy :: idle) = [Path.component busy] := by
    have none : Path.ofSegments idle = [] := by simpa [Path.ofSegments] using trailing
    rw [ofSegments_busy counts, none]
  have ended : p.components.getLast? = some (Path.component busy) := by
    rw [components_eq, spelled]
    cases front with
    | nil =>
      -- a path that starts with a segment that counts is relative
      have relative : p.isAbsolute = false := by
        by_contra absolute
        obtain ⟨next, rest, shape⟩ := absolute_iff.mp (by simpa using absolute)
        obtain ⟨rfl, _⟩ := List.cons.inj (spelled.symm.trans shape)
        simp [Path.isIdle] at counts
      have notDot : (busy == ".") = false := by
        cases dot : busy == "." with
        | false => rfl
        | true => simp [Path.isIdle, dot] at counts
      simp [componentsOf, relative, notDot, last]
    | cons first front => rw [componentsOf_append _ (by simp), last, List.getLast?_concat]
  simp only [Path.parent?, ended, skipped, List.tail_cons]
  by_cases up : busy = ".." <;> simp [Path.component, up]

private theorem trimIdle_last {segments : List String}
    (idle : ∀ segment ∈ segments, Path.isIdle segment = true) :
    (Path.trimIdle segments).length ≤ 1 := by
  fun_induction Path.trimIdle segments with
  | case1 segment next rest kind ih =>
    exact ih fun segment listed => idle segment (by simp [listed])
  | case2 segment next rest kind => exact absurd (idle segment (by simp)) kind
  | case3 segments other =>
    rcases segments with _ | ⟨first, _ | ⟨second, rest⟩⟩
    · simp
    · simp
    · exact absurd rfl (other first second rest)

/-- Where no segment counts, there is a dot at most, and nothing above it. -/
theorem parent_idle {p q : Path} (idle : ∀ segment ∈ p.segments, Path.isIdle segment = true)
    (above : p.parent? = some q) : q.components = [] := by
  have none : Path.trimIdle (Path.trimIdle p.segments.reverse).tail = [] := by
    have single := @trimIdle_last p.segments.reverse (by simpa using idle)
    cases shape : Path.trimIdle p.segments.reverse with
    | nil => rfl
    | cons first rest =>
      obtain rfl : rest = [] := by simpa [shape] using single
      rfl
  have relative : p.isAbsolute = false := by
    cases absolute : p.isAbsolute with
    | false => rfl
    | true =>
      obtain ⟨next, rest, shape⟩ := absolute_iff.mp absolute
      have behind : ∀ segment ∈ next :: rest, Path.isIdle segment = true := fun segment listed =>
        idle segment (by rw [shape]; exact List.mem_cons_of_mem "" listed)
      have nothing : Path.ofSegments (next :: rest) = [] := by simpa [Path.ofSegments] using behind
      have root : p.components = [.root] := by
        rw [components_eq, shape, absolute, componentsOf, if_pos rfl, nothing]
      simp [Path.parent?, root] at above
  have empty : Path.components ⟨""⟩ = [] := by decide
  simp only [Path.parent?, none, relative] at above
  split at above
  · simp at above
  · simp at above
  · rw [← Option.some.inj above]
    exact empty

private theorem parent_shorter {p q : Path} (above : p.parent? = some q) :
    q.components.length < p.components.length := by
  by_cases some : Path.ofSegments p.segments = []
  · have filled : p.components ≠ [] := by
      intro nothing
      simp [Path.parent?, nothing] at above
    rw [parent_idle (by simpa [Path.ofSegments] using some) above]
    exact List.length_pos_iff.mpr filled
  · obtain ⟨front, busy, idle, spelled, counts, trailing⟩ := last_counting some
    obtain rfl := Option.some.inj ((parent_of spelled counts trailing).symm.trans above)
    have suffix := trimIdle_suffix front.reverse
    generalize Path.trimIdle front.reverse = kept at suffix
    obtain ⟨back, parts⟩ := suffix
    have whole : p.segments = kept.reverse ++ (back.reverse ++ busy :: idle) := by
      have same := congrArg List.reverse parts
      simp only [List.reverse_append, List.reverse_reverse] at same
      rw [spelled, ← same, List.append_assoc]
    obtain ⟨more, longer, added⟩ := ofReversed_components whole
    rw [List.reverse_reverse] at longer
    rw [longer, List.length_append]
    have grown : more ≠ [] := added (by simp [ofSegments_append, ofSegments_busy counts])
    exact Nat.lt_add_of_pos_right (List.length_pos_iff.mpr grown)

/-- As many steps as there are components lead to the end. -/
theorem ancestors_enough {fuel more : Nat} {p : Path} (enough : p.components.length ≤ fuel)
    (enough' : p.components.length ≤ more) : Path.ancestors fuel p = Path.ancestors more p := by
  induction fuel generalizing more p with
  | zero =>
    have none : p.components = [] := by simpa using enough
    cases more <;> simp [Path.ancestors, none]
  | succ fuel ih =>
    cases more with
    | zero =>
      have none : p.components = [] := by simpa using enough'
      simp [Path.ancestors, none]
    | succ more =>
      simp only [Path.ancestors]
      cases above : p.parent? with
      | none => rfl
      | some q =>
        have shorter := parent_shorter above
        have same : Path.ancestors fuel q = Path.ancestors more q := ih (by omega) (by omega)
        simp only [same]

private theorem components_le (p : Path) : p.components.length ≤ p.segments.length := by
  have counted : ∀ segments, (Path.ofSegments segments).length ≤ segments.length :=
    fun segments => by
    rw [Path.ofSegments, List.length_map]
    exact List.length_filter_le _ _
  rw [components_eq]
  cases p.segments with
  | nil => simp [componentsOf]
  | cons first rest =>
    have rest' := counted rest
    have all := counted (first :: rest)
    simp only [componentsOf]
    split
    · simpa using rest'
    · split
      · simpa using rest'
      · exact all

private theorem lineage_above {p q : Path} (above : p.parent? = some q) :
    p.lineage = p :: q.lineage := by
  have shorter := parent_shorter above
  have most := components_le p
  have most' := components_le q
  have filled : p.components.isEmpty = false := by
    cases shape : p.components with
    | nil => simp [shape] at shorter
    | cons => rfl
  have same : Path.ancestors p.segments.length q = Path.ancestors (q.segments.length + 1) q :=
    ancestors_enough (by omega) (by omega)
  rw [Path.lineage, Path.ancestors, filled, above, Path.lineage, ← same]
  rfl

/-- A walk that cannot go on for another reason than that something is missing cannot go on
later. -/
theorem walk_stuck {old new : Disk} (stays : Stays old new) {segments : List String}
    {place : List String} {fault : Fault} (stuck : Disk.walk old.root place segments = .error fault)
    (other : fault ≠ .notFound) :
    Disk.walk new.root place segments = .error fault := by
  induction segments generalizing place with
  | nil => simp [Disk.walk] at stuck
  | cons segment rest ih =>
    cases here : old.root.get? place with
    | none =>
      simp only [Disk.walk, here] at stuck
      exact absurd (Except.error.inj stuck).symm other
    | some node =>
      cases node with
      | file content =>
        have there := fileAt_iff.mp ((stays.files place).trans (fileAt_iff.mpr here))
        simp only [Disk.walk, here] at stuck
        simp only [Disk.walk, there, stuck]
      | dir entries =>
        obtain ⟨others, there⟩ := dirAt_iff.mp (stays.dirs place (dirAt_iff.mpr ⟨entries, here⟩))
        by_cases idle : Path.isIdle segment = true
        · rw [walk_skip here idle] at stuck
          rw [walk_skip there idle]
          exact ih stuck
        by_cases up : segment = ".."
        · subst up
          rw [walk_up here] at stuck
          rw [walk_up there]
          exact ih stuck
        by_cases long : nameLimit < segment.utf8ByteSize
        · simpa [Disk.walk, here, there, idle, up, long] using stuck
        have down : Descends segment := ⟨by simpa using idle, up, Nat.le_of_not_lt long⟩
        cases solid : rest.all (· == "") with
        | true =>
          -- the walk ends with this segment
          by_cases ended : rest = []
          · subst ended
            cases (WalksTo.last here down).walk.symm.trans stuck
          · cases (WalksTo.slashed here down ended solid).walk.symm.trans stuck
        | false =>
          cases below : old.root.get? (place ++ [segment]) with
          | none =>
            rw [walk_missing here down solid below] at stuck
            exact absurd (Except.error.inj stuck).symm other
          | some child =>
            obtain ⟨later, known⟩ := stays.present below
            rw [walk_down here down solid below] at stuck
            rw [walk_down there down solid known]
            exact ih stuck

private theorem spot_stuck {old new : Disk} (stays : Stays old new) {path : Path} {fault : Fault}
    (stuck : old.spot path = .error fault) (other : fault ≠ .notFound) :
    new.spot path = .error fault := by
  simp only [Disk.spot] at stuck ⊢
  split at stuck
  next nul =>
    rw [if_pos nul]
    exact stuck
  next clear =>
    simp only [clear, Bool.false_eq_true, if_false]
    split at stuck
    · exact absurd (Except.error.inj stuck).symm other
    next filled =>
      simp only [filled, Bool.false_eq_true, if_false]
      split at stuck
      next long => simpa [long] using stuck
      next short =>
        simp only [short, if_false]
        rw [stays.cwd]
        exact walk_stuck stays stuck other

/-- Something that is there can be there already, but is not missing. -/
theorem makeDir_missing {disk : Disk} {path : Path}
    (failed : disk.makeDir path = .error .notFound) : disk.isDir path = false := by
  by_contra isDir
  obtain ⟨entries, located⟩ := isDir_node (by simpa using isDir)
  obtain ⟨spot, found, here⟩ := node_spot located
  simp [Disk.makeDir, found, here] at failed

private theorem made_dirs {disk : Disk} {path : Path} (made : Made disk path) :
    disk.makeDirs path = (.ok (), disk) := by
  rcases made with nowhere | ⟨entries, located⟩
  · simp [Disk.makeDirs, nowhere, Disk.makeDirsAlong]
  · exact makeDirs_there located

section
variable {p q : Path} (above : q.parent? = some p)
include above

private theorem makeDirs_above (disk : Disk) : disk.makeDirs q =
    match disk.makeDir q with
    | .ok made => (.ok (), made)
    | .error .notFound =>
      match disk.makeDirs p with
      | (.error fault, upper) => (.error fault, upper)
      | (.ok (), upper) =>
        match upper.makeDir q with
        | .ok made => (.ok (), made)
        | .error fault => (if upper.isDir q then .ok () else .error fault, upper)
    | .error fault => (if disk.isDir q then .ok () else .error fault, disk) := by
  rw [Disk.makeDirs, lineage_above above, Disk.makeDirsAlong]
  rfl

omit above in
/-- Behind a parent that is there, making the parent first changes nothing. -/
theorem makeDirs_reached {disk made : Disk} (there : Made disk p) :
    disk.makeDirs q = (.ok (), made) ↔ ∃ upper, disk.makeDirs p = (.ok (), upper) ∧
      upper.makeDirs q = (.ok (), made) := by
  have same := made_dirs there
  constructor
  · exact fun done => ⟨disk, same, done⟩
  · rintro ⟨upper, first, second⟩
    rwa [← (Prod.mk.inj (same.symm.trans first)).2] at second

/-- Where something is missing on the way, the parent is made first anyway. -/
theorem makeDirs_climbed {disk made : Disk} (missing : disk.makeDir q = .error .notFound) :
    disk.makeDirs q = (.ok (), made) ↔ ∃ upper, disk.makeDirs p = (.ok (), upper) ∧
      upper.makeDirs q = (.ok (), made) := by
  have whole := makeDirs_above above disk
  rw [missing] at whole
  constructor
  · intro done
    rw [whole] at done
    cases first : disk.makeDirs p with
    | mk result upper =>
      cases result with
      | error => simp [first] at done
      | ok =>
        refine ⟨upper, rfl, ?_⟩
        simp only [first] at done
        rw [makeDirs_above above]
        split at done
        next new makes => simpa [makes] using done
        next fault again =>
          -- if it were still missing, this would have been the end
          have notMissing : fault ≠ .notFound := by
            rintro rfl
            simp [makeDir_missing again] at done
          simp only [again]
          exact done
  · rintro ⟨upper, first, second⟩
    rw [whole]
    simp only [first]
    rw [makeDirs_above above] at second
    have still := made_dirs (makeDirs_made first)
    split at second
    next new makes => simpa [makes] using second
    next again => simpa [again, still] using second
    next fault _ again =>
      simp only [again]
      exact second

/-- A path that cannot be walked for another reason than that something is missing is never made. -/
theorem makeDirs_never {disk later made : Disk} {fault : Fault} (stuck : disk.spot q = .error fault)
    (other : fault ≠ .notFound) (stays : Stays disk later) : later.makeDirs q ≠ (.ok (), made) := by
  intro done
  rcases makeDirs_made done with nowhere | ⟨entries, located⟩
  · simp [lineage_above above] at nowhere
  · obtain ⟨spot, led, _⟩ := node_spot located
    cases led.symm.trans (spot_stuck (stays.trans (makeDirs_stays done)) stuck other)

/-- A directory is made just as well after its parent. -/
theorem makeDirs_parent
    (passes : ∀ (disk : Disk) (spot : Spot), disk.spot q = .ok spot → Made disk p)
    {disk made : Disk} :
    disk.makeDirs q = (.ok (), made) ↔ ∃ upper, disk.makeDirs p = (.ok (), upper) ∧
      upper.makeDirs q = (.ok (), made) := by
  cases found : disk.spot q with
  | ok spot => exact makeDirs_reached (passes disk spot found)
  | error fault =>
    have failed : disk.makeDir q = .error fault := by simp [Disk.makeDir, found]
    by_cases missing : fault = .notFound
    · exact makeDirs_climbed above (missing ▸ failed)
    · constructor
      · exact fun done => absurd done (makeDirs_never above found missing (.refl disk))
      · rintro ⟨upper, first, second⟩
        exact absurd second (makeDirs_never above found missing (makeDirs_stays first))

end

/-- The path is the base followed by segments, some of which count. -/
structure Extends (base path : Path) (added : List String) : Prop where
  filled : base.text ≠ ""
  segments : path.segments = base.segments ++ added
  counts : Path.ofSegments added ≠ []

theorem Extends.text {base path : Path} {added : List String} (longer : Extends base path added) :
    path.text = base.text ++ "/" ++ "/".intercalate added := by
  have some : added ≠ [] := by
    rintro rfl
    exact longer.counts rfl
  rw [← segments_text path, longer.segments, ← segments_text base]
  exact String.intercalate_append_of_ne_nil (segments_ne_nil base) some

/-- A walk goes through the directories on its way. -/
theorem walk_through {root : Node} {place front back : List String} {spot : Spot}
    (walked : Disk.walk root place (front ++ back) = .ok spot)
    (counts : Path.ofSegments back ≠ []) :
    ∃ between, Disk.walk root place front = .ok between ∧ dirAt root between.names = true := by
  have solid : back.all (· == "") = false := by
    cases empty : back.all (· == "") with
    | false => rfl
    | true => exact absurd (ofSegments_empty empty) counts
  have other : ∀ front : List String, (front ++ back).all (· == "") = false := fun front => by
    simp only [List.all_append, solid, Bool.and_false]
  induction front generalizing place with
  | nil =>
    exact ⟨⟨place, true⟩, rfl, dirAt_iff.mpr ((walk_way walked).starts (solid_nonempty solid))⟩
  | cons segment rest ih =>
    have solid' := other rest
    rw [List.cons_append] at walked
    generalize rest ++ back = more at walked solid' ih
    cases walk_way walked with
    | last => simp at solid'
    | slashed _ _ _ empty => simp [solid'] at empty
    | skip here idle further =>
      rw [walk_skip here idle]
      exact ih further.walk
    | up here further =>
      rw [walk_up here]
      exact ih further.walk
    | down here down _ further =>
      obtain ⟨inner, below⟩ := further.starts (solid_nonempty solid')
      have inside : dirAt root (place ++ [segment]) = true := dirAt_iff.mpr ⟨inner, below⟩
      cases empty : rest.all (· == "") with
      | false =>
        rw [walk_down here down empty below]
        exact ih further.walk
      | true =>
        by_cases ended : rest = []
        · subst ended
          exact ⟨_, (WalksTo.last here down).walk, inside⟩
        · exact ⟨_, (WalksTo.slashed here down ended empty).walk, inside⟩

/-- Where a longer path can be walked, the shorter one leads to a directory. -/
theorem Extends.passes {base path : Path} {added : List String} (longer : Extends base path added)
    {disk : Disk} {spot : Spot} (found : disk.spot path = .ok spot) : Made disk base := by
  obtain ⟨noNul, _, short, walked⟩ := spot_iff.mp found
  have text := longer.text
  have absolute : path.isAbsolute = base.isAbsolute := by
    obtain ⟨c, rest, same⟩ : ∃ c rest, base.text.toList = c :: rest :=
      List.exists_cons_of_ne_nil (by simpa using longer.filled)
    simp [Path.isAbsolute, text, same]
  have small : base.text.utf8ByteSize ≤ path.text.utf8ByteSize := by
    simp only [text, String.utf8ByteSize_append]
    omega
  rw [longer.segments, absolute] at walked
  obtain ⟨between, led, there⟩ := walk_through walked longer.counts
  obtain ⟨entries, here⟩ := dirAt_iff.mp there
  have spotted : disk.spot base = .ok between := spot_iff.mpr
    ⟨fun nul => noNul (by simp [text, nul]), longer.filled, Nat.le_trans small short, led⟩
  exact Or.inr ⟨entries, by simp only [Disk.node, spotted, here]⟩

/-- The path ends with a segment that counts. -/
def Ended (path : Path) : Prop :=
  ∃ front last, path.segments = front ++ [last] ∧ Path.isIdle last = false

private theorem ended_iff {path : Path} :
    path.segments.getLast?.any (!Path.isIdle ·) = true ↔ Ended path := by
  rw [Option.any_eq_true]
  constructor
  · rintro ⟨last, ends, counts⟩
    obtain ⟨front, spelled⟩ := List.getLast?_eq_some_iff.mp ends
    exact ⟨front, last, spelled, by simpa using counts⟩
  · rintro ⟨front, last, spelled, counts⟩
    exact ⟨last, by simp [spelled], by simpa using counts⟩

instance (path : Path) : Decidable (Ended path) :=
  decidable_of_iff _ ended_iff

theorem Ended.filled {path : Path} (ended : Ended path) : path.text ≠ "" := by
  obtain ⟨front, last, spelled, counts⟩ := ended
  intro empty
  have single : path.segments = [""] := by
    obtain ⟨text⟩ := path
    obtain rfl : text = "" := empty
    rfl
  obtain ⟨_, same⟩ :=
    List.append_inj' (spelled.symm.trans (single.trans (List.nil_append _).symm)) rfl
  obtain rfl := List.singleton_inj.mp same
  simp [Path.isIdle] at counts

/-- What is kept of the segments behind the base when the last one that counts goes. -/
theorem Extends.parent {base path : Path} {added : List String} (longer : Extends base path added)
    (ended : Ended base) : ∃ above, path.parent? = some above ∧ (∃ back, Extends above path back) ∧
      (above = base ∨ ∃ kept, kept.length < added.length ∧ Extends base above kept) := by
  obtain ⟨front, busy, idle, rfl, counts, trailing⟩ := last_counting longer.counts
  obtain ⟨start, last, spelled, solid⟩ := ended
  have dropped : Path.trimIdle (base.segments ++ front).reverse =
      (base.segments ++ (front.reverse.dropWhile Path.isIdle).reverse).reverse := by
    rw [spelled]
    simpa using trimIdle_onto front.reverse solid start.reverse
  have parts :
      front = (front.reverse.dropWhile Path.isIdle).reverse ++
      (front.reverse.takeWhile Path.isIdle).reverse := by
    rw [← List.reverse_append, List.takeWhile_append_dropWhile, List.reverse_reverse]
  have above := parent_of (by rw [longer.segments, List.append_assoc]) counts trailing
  rw [dropped] at above
  have size : (front.reverse.dropWhile Path.isIdle).reverse.length ≤ front.length := by
    rw [List.length_reverse]
    exact Nat.le_trans (List.length_dropWhile_le _ _) (by simp)
  have kind : (front.reverse.dropWhile Path.isIdle).reverse = [] ∨
      Path.ofSegments (front.reverse.dropWhile Path.isIdle).reverse ≠ [] := by
    cases shape : front.reverse.dropWhile Path.isIdle with
    | nil => exact Or.inl rfl
    | cons first rest =>
      have stopped := List.head?_dropWhile_not Path.isIdle front.reverse
      rw [shape] at stopped
      have busy : Path.isIdle first = false := by simpa using stopped
      exact Or.inr (by rw [List.reverse_cons, ofSegments_append, ofSegments_busy busy]; simp)
  generalize (front.reverse.dropWhile Path.isIdle).reverse = kept at parts above size kind
  generalize (front.reverse.takeWhile Path.isIdle).reverse = left at parts
  subst parts
  have listed : ∀ segment ∈ base.segments ++ kept, segment ∈ path.segments := by
    intro segment member
    rw [longer.segments]
    simp only [List.mem_append] at member ⊢
    tauto
  have own : Path.segments ⟨"/".intercalate (base.segments ++ kept)⟩ = base.segments ++ kept :=
    segments_intercalate (by simp [segments_ne_nil]) fun segment member =>
      segments_whole (listed segment member)
  have filled : "/".intercalate (base.segments ++ kept) ≠ "" := by
    intro empty
    have nothing : Path.segments ⟨""⟩ = [""] := rfl
    rw [empty, nothing, spelled, List.append_assoc, List.singleton_append] at own
    obtain ⟨_, rest⟩ | ⟨_, rest⟩ := List.append_eq_singleton_iff.mp own.symm
    · obtain rfl := (List.cons.inj rest).1
      simp [Path.isIdle] at solid
    · simp at rest
  have same : Path.ofReversed path.isAbsolute (base.segments ++ kept).reverse =
      ⟨"/".intercalate (base.segments ++ kept)⟩ := by
    simp [Path.ofReversed, filled]
  rw [same] at above
  refine ⟨_, above,
    ⟨left ++ busy :: idle, filled, by rw [own, longer.segments]; simp,
      by simp [ofSegments_append, ofSegments_busy counts]⟩, ?_⟩
  rcases kind with rfl | some
  · left
    rw [List.append_nil, segments_text]
  · exact Or.inr ⟨kept, by simp only [List.length_append, List.length_cons] at size ⊢; omega,
      longer.filled, own, some⟩

/-- A directory is made just as well after one further up, if the path to that is spelled to its
end. -/
theorem makeDirs_over {base path : Path} (ended : Ended base) {added : List String}
    (longer : Extends base path added) {disk made : Disk} :
    disk.makeDirs path = (.ok (), made) ↔ ∃ upper, disk.makeDirs base = (.ok (), upper) ∧
      upper.makeDirs path = (.ok (), made) := by
  induction size : added.length using Nat.strongRecOn generalizing path added disk made with
  | ind size ih =>
    obtain ⟨above, up, ⟨back, last⟩, between⟩ := longer.parent ended
    have step := fun {disk made : Disk} =>
      @makeDirs_parent above path up (fun _ _ => last.passes) disk made
    rcases between with rfl | ⟨kept, shorter, inner⟩
    · exact step
    · have upper := fun {disk made : Disk} =>
        @ih kept.length (size ▸ shorter) above kept inner disk made rfl
      constructor
      · intro done
        obtain ⟨second, first, done⟩ := step.mp done
        obtain ⟨start, base, first⟩ := upper.mp first
        exact ⟨start, base, step.mpr ⟨second, first, done⟩⟩
      · rintro ⟨start, base, done⟩
        obtain ⟨second, first, done⟩ := step.mp done
        exact step.mpr ⟨second, upper.mpr ⟨start, base, first⟩, done⟩

/-- Something in a name that leads down counts. -/
theorem downward_counts {name : String} (nonempty : name ≠ "")
    (down : Path.isDownward ⟨name⟩ = true) : Path.ofSegments (Path.segments ⟨name⟩) ≠ [] := by
  cases spelled : Path.segments ⟨name⟩ with
  | nil => exact absurd spelled (segments_ne_nil _)
  | cons first rest =>
    cases idle : Path.isIdle first with
    | false => simp [ofSegments_busy idle]
    | true =>
      exfalso
      have relative := (downward_parts down).1
      by_cases empty : first = ""
      · -- the empty segment stands for the whole name or makes it absolute
        subst empty
        cases rest with
        | nil =>
          have text := segments_text ⟨name⟩
          rw [spelled] at text
          exact nonempty text.symm
        | cons next rest =>
          exact absurd (absolute_iff.mpr ⟨next, rest, spelled⟩) (by simp [relative])
      · obtain rfl : first = "." := by simpa [Path.isIdle, empty] using idle
        simp [Path.isDownward, components_eq, componentsOf, relative, spelled] at down

theorem Ended.solid {path : Path} (ended : Ended path) : path.text.toList.getLast? ≠ some '/' := by
  intro slashed
  obtain ⟨base, same⟩ := List.getLast?_eq_some_iff.mp slashed
  obtain ⟨front, last, spelled, counts⟩ := ended
  have empty : path.segments = (Text.pieces '/' base).map String.ofList ++ [""] := by
    simp [Path.segments, same, pieces_append, Text.pieces]
  obtain ⟨_, rest⟩ := List.append_inj' (spelled.symm.trans empty) rfl
  obtain rfl := List.singleton_inj.mp rest
  simp [Path.isIdle] at counts

/-- The segments of a name follow those of the path it is joined to. -/
theorem join_onto (dir : Path) {name : String} (relative : Path.isAbsolute ⟨name⟩ = false) :
    ∃ front, (dir.join name).segments = front ++ Path.segments ⟨name⟩ := by
  by_cases empty : dir.text = ""
  · exact ⟨[], by simp [Path.join, empty]⟩
  · obtain ⟨base, joined, _⟩ := join_text empty relative
    exact ⟨(Text.pieces '/' base).map String.ofList, by simp [Path.segments, joined, pieces_append]⟩

theorem Ended.join {name : String} (ended : Ended ⟨name⟩)
    (relative : Path.isAbsolute ⟨name⟩ = false) (dir : Path) : Ended (dir.join name) := by
  obtain ⟨front, segments⟩ := join_onto dir relative
  obtain ⟨start, last, spelled, counts⟩ := ended
  exact ⟨front ++ start, last, by rw [segments, spelled, List.append_assoc], counts⟩

theorem Ended.joined {dir : Path} (ended : Ended dir) {name : String}
    (relative : Path.isAbsolute ⟨name⟩ = false) : dir.join name = ⟨dir.text ++ "/" ++ name⟩ := by
  simp [Path.join, relative, ended.filled, ended.solid]

theorem Ended.extends {dir : Path} (ended : Ended dir) {name : String} (nonempty : name ≠ "")
    (down : Path.isDownward ⟨name⟩ = true) :
    Extends dir (dir.join name) (Path.segments ⟨name⟩) where
  filled := ended.filled
  segments := by simp [ended.joined (downward_parts down).1, Path.segments, pieces_append]
  counts := downward_counts nonempty down

end ClassDiagram.Proofs.DirectoryChains
