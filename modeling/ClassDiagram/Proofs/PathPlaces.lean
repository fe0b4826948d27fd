import ClassDiagram.Proofs.Walks

/-! Where a path leads, read off its components. A walk that ends at all ends at the place that the
components name. The paths above a path start with some of its components, and joining a name that
leads down adds components that go down. -/

namespace ClassDiagram.Proofs.PathPlaces
open Files Walks

/-- The place that a component leads to from another one. -/
def follow (place : List String) : Component → List String
  | .root => []
  | .current => place
  | .parent => place.dropLast
  | .normal name => place ++ [name]

def placeOf (cwd : List String) (path : Path) : List String :=
  path.components.foldl follow cwd

theorem follow_normals (place names : List String) :
    (names.map Component.normal).foldl follow place = place ++ names := by
  induction names generalizing place with
  | nil => simp
  | cons name names ih => simp [follow, ih]

theorem ofSegments_idle {segment : String} (idle : Path.isIdle segment = true)
    (rest : List String) : Path.ofSegments (segment :: rest) = Path.ofSegments rest := by
  simp [Path.ofSegments, idle]

theorem ofSegments_busy {segment : String} (busy : Path.isIdle segment = false)
    (rest : List String) :
    Path.ofSegments (segment :: rest) = Path.component segment :: Path.ofSegments rest := by
  simp [Path.ofSegments, busy]

theorem ofSegments_append (first second : List String) :
    Path.ofSegments (first ++ second) = Path.ofSegments first ++ Path.ofSegments second := by
  simp [Path.ofSegments]

theorem ofSegments_empty {segments : List String} (empty : segments.all (· == "") = true) :
    Path.ofSegments segments = [] := by
  have idle : ∀ segment ∈ segments, Path.isIdle segment = true := by
    intro segment member
    have none : segment = "" := by simpa using List.all_eq_true.mp empty segment member
    simp [none, Path.isIdle]
  simpa [Path.ofSegments] using idle

def componentsOf (absolute : Bool) : List String → List Component
  | [] => []
  | first :: rest =>
    if absolute then .root :: Path.ofSegments rest
    else if first == "." then .current :: Path.ofSegments rest
    else Path.ofSegments (first :: rest)

theorem components_eq (p : Path) : p.components = componentsOf p.isAbsolute p.segments := by
  simp only [Path.components]
  split
  next first rest shape => simp only [shape, componentsOf]
  next shape => simp only [shape, componentsOf]

theorem componentsOf_append (absolute : Bool) {front : List String} (some : front ≠ [])
    (back : List String) :
    componentsOf absolute (front ++ back) =
      componentsOf absolute front ++ Path.ofSegments back := by
  obtain ⟨first, rest, rfl⟩ := List.exists_cons_of_ne_nil some
  have whole := ofSegments_append (first :: rest) back
  simp only [List.cons_append] at whole
  simp only [List.cons_append, componentsOf, ofSegments_append rest, whole]
  split
  · rfl
  · split <;> rfl

private theorem relative_components {p : Path} (relative : p.isAbsolute = false)
    (place : List String) :
    p.components.foldl follow place = (Path.ofSegments p.segments).foldl follow place := by
  rw [components_eq, relative]
  cases shape : p.segments with
  | nil => exact absurd shape (segments_ne_nil p)
  | cons first rest =>
    simp only [componentsOf, Bool.false_eq_true, if_false]
    split
    next dot =>
      have idle : Path.isIdle first = true := by simp_all [Path.isIdle]
      rw [ofSegments_idle idle]
      rfl
    next => rfl

/-- An absolute path starts with an empty segment before others. -/
theorem absolute_iff {p : Path} :
    p.isAbsolute = true ↔ ∃ next rest, p.segments = "" :: next :: rest := by
  constructor
  · intro absolute
    obtain ⟨text, spelled⟩ : ∃ text, p.text.toList = '/' :: text := by
      simp only [Path.isAbsolute, beq_iff_eq] at absolute
      exact List.head?_eq_some_iff.mp absolute
    obtain ⟨next, rest, shape⟩ := List.exists_cons_of_ne_nil (pieces_ne_nil '/' text)
    exact ⟨String.ofList next, rest.map String.ofList,
      by simp [Path.segments, spelled, Text.pieces, shape]⟩
  · rintro ⟨next, rest, shape⟩
    have text := segments_text p
    rw [shape] at text
    simp [Path.isAbsolute, ← text, String.toList_intercalate]

private theorem absolute_components {p : Path} (absolute : p.isAbsolute = true)
    (place : List String) :
    p.components.foldl follow place = (Path.ofSegments p.segments).foldl follow [] := by
  obtain ⟨next, rest, shape⟩ := absolute_iff.mp absolute
  have idle : Path.isIdle "" = true := by decide
  rw [components_eq, absolute, shape, ofSegments_idle idle]
  rfl

private theorem component_down {segment : String} (down : Descends segment) :
    Path.component segment = .normal segment := by
  simp [Path.component, down.notUp]

/-- A walk ends at the place that its segments name. -/
theorem walk_place {root : Node} {place segments : List String} {spot : Spot}
    (walked : Disk.walk root place segments = .ok spot) :
    spot.names = (Path.ofSegments segments).foldl follow place := by
  induction walk_way walked with
  | done => rfl
  | skip _ idle further ih => rw [ofSegments_idle idle, ih further.walk]
  | up _ further ih =>
    rw [ofSegments_busy (by decide), ih further.walk]
    rfl
  | last _ down =>
    rw [ofSegments_busy down.busy, component_down down]
    rfl
  | slashed _ down _ empty =>
    rw [ofSegments_busy down.busy, component_down down, ofSegments_empty empty]
    rfl
  | down _ down _ further ih =>
    rw [ofSegments_busy down.busy, component_down down, ih further.walk]
    rfl

theorem spot_place {disk : Disk} {path : Path} {spot : Spot} (found : disk.spot path = .ok spot) :
    spot.names = placeOf disk.cwd path := by
  have walked := walk_place (spot_iff.mp found).walked
  cases absolute : path.isAbsolute with
  | true =>
    rw [absolute] at walked
    exact walked.trans (absolute_components absolute disk.cwd).symm
  | false =>
    rw [absolute] at walked
    exact walked.trans (relative_components absolute disk.cwd).symm

theorem pieces_whole {separator : Char} {text piece : List Char}
    (member : piece ∈ Text.pieces separator text) : separator ∉ piece := by
  induction text generalizing piece with
  | nil =>
    rw [List.mem_singleton.mp member]
    simp
  | cons c text ih =>
    rw [Text.pieces] at member
    split at member
    · rcases List.mem_cons.mp member with rfl | member
      · simp
      · exact ih member
    next other =>
      split at member
      next first more shape =>
        rcases List.mem_cons.mp member with rfl | member
        · have inner : separator ∉ first := ih (by simp [shape])
          simpa using ⟨Ne.symm other, inner⟩
        · exact ih (by simp [shape, member])
      next shape => exact absurd shape (pieces_ne_nil separator text)

theorem pieces_intercalate {separator : Char} {parts : List (List Char)} (some : parts ≠ [])
    (whole : ∀ part ∈ parts, separator ∉ part) :
    Text.pieces separator ([separator].intercalate parts) = parts := by
  induction parts with
  | nil => exact absurd rfl some
  | cons part parts ih =>
    cases parts with
    | nil => simpa using JoinedTexts.pieces_last (whole part (by simp))
    | cons next parts =>
      rw [List.intercalate_cons_cons, List.append_assoc, List.singleton_append,
        JoinedTexts.pieces_cons (whole part (by simp)),
        ih (by simp) fun other member => whole other (by simp [member])]

theorem segments_whole {p : Path} {segment : String} (member : segment ∈ p.segments) :
    '/' ∉ segment.toList := by
  obtain ⟨piece, listed, rfl⟩ := List.mem_map.mp member
  simpa using pieces_whole listed

/-- Segments that are joined by slashes are the segments of what results. -/
theorem segments_intercalate {segments : List String} (some : segments ≠ [])
    (whole : ∀ segment ∈ segments, '/' ∉ segment.toList) :
    Path.segments ⟨"/".intercalate segments⟩ = segments := by
  have parts :=
    @pieces_intercalate '/' (segments.map String.toList) (by simpa using some)
      (by simpa using whole)
  have text : ("/".intercalate segments).toList =
      ['/'].intercalate (segments.map String.toList) := by
    simp [String.toList_intercalate]
  simp [Path.segments, text, parts]

theorem trimIdle_suffix (segments : List String) : Path.trimIdle segments <:+ segments := by
  fun_induction Path.trimIdle segments with
  | case1 segment next rest idle ih => exact ih.trans (List.suffix_cons segment (next :: rest))
  | case2 => exact List.suffix_rfl
  | case3 => exact List.suffix_rfl

private theorem componentsOf_some (absolute : Bool) {segments : List String}
    (some : Path.ofSegments segments ≠ []) : componentsOf absolute segments ≠ [] := by
  cases segments with
  | nil => exact absurd rfl some
  | cons first rest =>
    simp only [componentsOf]
    split
    · simp
    · split
      · simp
      · exact some

/-- A path that some of the first segments make up has some of the first components, and not all of
them if another segment counts. -/
theorem ofReversed_components {p : Path} {front back : List String}
    (whole : p.segments = front ++ back) :
    ∃ more, p.components = (Path.ofReversed p.isAbsolute front.reverse).components ++ more ∧
      (Path.ofSegments back ≠ [] → more ≠ []) := by
  have counted : Path.ofSegments back ≠ [] → Path.ofSegments p.segments ≠ [] := by
    rw [whole, ofSegments_append]
    simp +contextual
  simp only [Path.ofReversed, List.reverse_reverse]
  by_cases empty : "/".intercalate front = ""
  · -- nothing is left but the root of an absolute path
    cases absolute : p.isAbsolute with
    | true =>
      obtain ⟨next, rest, shape⟩ := absolute_iff.mp absolute
      have rooted : p.components = .root :: Path.ofSegments (next :: rest) := by
        rw [components_eq, absolute, shape]
        rfl
      have root : Path.components ⟨"/"⟩ = [.root] := by decide
      have idle : Path.isIdle "" = true := by decide
      refine ⟨Path.ofSegments (next :: rest), by simp [empty, rooted, root], fun other => ?_⟩
      have some := counted other
      rwa [shape, ofSegments_idle idle] at some
    | false =>
      have nothing : Path.components ⟨""⟩ = [] := by decide
      refine ⟨p.components, by simp [empty, nothing], fun other => ?_⟩
      rw [components_eq]
      exact componentsOf_some _ (counted other)
  · have some : front ≠ [] := by
      rintro rfl
      exact empty (by decide)
    have slashless : ∀ segment ∈ front, '/' ∉ segment.toList :=
      fun segment member => segments_whole (by rw [whole]; simp [member])
    have own : Path.segments ⟨"/".intercalate front⟩ = front := segments_intercalate some slashless
    have absolute : Path.isAbsolute ⟨"/".intercalate front⟩ = p.isAbsolute := by
      rw [Bool.eq_iff_iff, absolute_iff, absolute_iff, own, whole]
      constructor
      · rintro ⟨next, rest, rfl⟩
        exact ⟨next, rest ++ back, rfl⟩
      · rintro ⟨next, rest, shape⟩
        cases front with
        | nil => exact absurd rfl some
        | cons first front =>
          obtain ⟨rfl, _⟩ := List.cons.inj shape
          cases front with
          | nil => exact absurd (by simp) empty
          | cons second front => exact ⟨second, front, rfl⟩
    have unchanged : (p.isAbsolute && "/".intercalate front == "") = false := by simp [empty]
    refine ⟨Path.ofSegments back, ?_, id⟩
    rw [unchanged, components_eq, components_eq, if_neg (by simp), own, absolute, whole,
      componentsOf_append _ some]

private theorem parent_components {p q : Path} (above : p.parent? = some q) :
    q.components <+: p.components := by
  simp only [Path.parent?] at above
  split at above
  · simp at above
  · simp at above
  · obtain rfl := Option.some.inj above
    have suffix : Path.trimIdle (Path.trimIdle p.segments.reverse).tail <:+ p.segments.reverse :=
      (trimIdle_suffix _).trans ((List.tail_suffix _).trans (trimIdle_suffix _))
    generalize Path.trimIdle (Path.trimIdle p.segments.reverse).tail = front at suffix
    obtain ⟨back, whole⟩ := suffix
    have parts : p.segments = front.reverse ++ back.reverse := by
      rw [← List.reverse_append, whole, List.reverse_reverse]
    obtain ⟨more, longer, _⟩ := ofReversed_components parts
    rw [List.reverse_reverse] at longer
    exact ⟨more, longer.symm⟩

theorem ancestor_components {fuel : Nat} {p q : Path} (member : q ∈ Path.ancestors fuel p) :
    q.components <+: p.components := by
  induction fuel generalizing p with
  | zero => simp [Path.ancestors] at member
  | succ fuel ih =>
    simp only [Path.ancestors] at member
    split at member
    · simp at member
    · rcases List.mem_cons.mp member with rfl | member
      · exact List.prefix_rfl
      · split at member
        next parent above => exact (ih member).trans (parent_components above)
        next => simp at member

theorem pieces_append {separator : Char} (text more : List Char) :
    Text.pieces separator (text ++ separator :: more) =
      Text.pieces separator text ++ Text.pieces separator more := by
  induction text with
  | nil => simp [Text.pieces]
  | cons c text ih =>
    simp only [List.cons_append, Text.pieces, ih]
    split
    · rfl
    · obtain ⟨first, rest, shape⟩ := List.exists_cons_of_ne_nil (pieces_ne_nil separator text)
      simp [shape]

/-- Joining a name that leads down adds its components. -/
theorem join_components {name : String} (down : Path.isDownward ⟨name⟩ = true) (dir : Path) :
    (dir.join name).components = dir.components ++ Path.components ⟨name⟩ := by
  obtain ⟨relative, own⟩ := downward_parts down
  by_cases empty : dir.text = ""
  · have nothing : Path.components ⟨""⟩ = [] := by decide
    obtain ⟨text⟩ := dir
    obtain rfl : text = "" := empty
    simp [Path.join, nothing]
  · obtain ⟨base, joined, written⟩ := join_text empty relative
    have segments : (dir.join name).segments =
        (Text.pieces '/' base).map String.ofList ++ Path.segments ⟨name⟩ := by
      simp [Path.segments, joined, pieces_append]
    have some : (Text.pieces '/' base).map String.ofList ≠ [] := by simp [pieces_ne_nil]
    -- a slash at the end of the directory is an idle segment
    have same : dir.components =
        componentsOf dir.isAbsolute ((Text.pieces '/' base).map String.ofList) := by
      rw [components_eq]
      rcases written with written | written
      · simp [Path.segments, written]
      · have slashed : dir.segments = (Text.pieces '/' base).map String.ofList ++ [""] := by
          simp [Path.segments, written, pieces_append, Text.pieces]
        have idle : Path.ofSegments [""] = [] := by decide
        rw [slashed, componentsOf_append _ some, idle, List.append_nil]
    rw [components_eq, join_isAbsolute empty relative, segments,
      componentsOf_append _ some, same, own]

/-- A name of something in a directory, as far as paths are concerned. -/
structure IsName (name : String) : Prop where
  nonempty : name ≠ ""
  notDot : name ≠ "."
  notDots : name ≠ ".."
  noSlash : '/' ∉ name.toList

/-- A name that leads down is a line of names. -/
theorem downward_names {name : String} (down : Path.isDownward ⟨name⟩ = true) :
    ∃ names :
    List String, (∀ name ∈ names, IsName name) ∧ Path.components ⟨name⟩ = names.map .normal := by
  obtain ⟨_, own⟩ := downward_parts down
  have solid : ∀ segment ∈ (Path.segments ⟨name⟩).filter (!Path.isIdle ·), Path.component segment =
      .normal segment ∧ IsName segment := by
    intro segment member
    obtain ⟨listed, busy⟩ := List.mem_filter.mp member
    have among : Path.component segment ∈ Path.components ⟨name⟩ := by
      rw [own]
      exact List.mem_map_of_mem member
    have normal := List.all_eq_true.mp down _ among
    simp only [Path.isIdle, Bool.not_or, Bool.and_eq_true, Bool.not_eq_true', beq_eq_false_iff_ne]
      at busy
    by_cases up : segment = ".."
    · simp [Path.component, up] at normal
    · exact ⟨by simp [Path.component, up], busy.1, busy.2, up, segments_whole listed⟩
  refine ⟨(Path.segments ⟨name⟩).filter (!Path.isIdle ·),
    fun segment member => (solid segment member).2, ?_⟩
  rw [own, Path.ofSegments]
  exact List.map_congr_left fun segment member => (solid segment member).1

def Below (root path : Path) : Prop :=
  ∃ names : List String, (∀ name ∈ names, IsName name) ∧
    path.components = root.components ++ names.map .normal

theorem Below.refl (root : Path) : Below root root :=
  ⟨[], by simp, by simp⟩

theorem Below.join {root dir : Path} (below : Below root dir) {name : String}
    (down : Path.isDownward ⟨name⟩ = true) : Below root (dir.join name) := by
  obtain ⟨names, named, parts⟩ := below
  obtain ⟨more, named', parts'⟩ := downward_names down
  refine ⟨names ++ more, fun name member => ?_,
    by rw [join_components down, parts, parts', List.map_append, List.append_assoc]⟩
  exact (List.mem_append.mp member).elim (named name) (named' name)

/-- A path above one that is below a root is above the root or below it. -/
theorem Below.lineage {root dir path : Path} (below : Below root dir)
    (member : path ∈ dir.lineage) : path.components <+: root.components ∨ Below root path := by
  obtain ⟨names, named, parts⟩ := below
  obtain ⟨back, whole⟩ := ancestor_components member
  rw [parts, List.append_eq_append_iff] at whole
  rcases whole with ⟨between, above, _⟩ | ⟨between, own, behind⟩
  · exact Or.inl ⟨between, above.symm⟩
  · obtain ⟨some, rest, rfl, rfl, _⟩ := List.map_eq_append_iff.mp behind
    exact Or.inr ⟨some, fun name member => named name (by simp [member]), own⟩

theorem Below.place {root path : Path} (below : Below root path) (cwd : List String) :
    ∃ names :
    List String, (∀ name ∈ names, IsName name) ∧ placeOf cwd path = placeOf cwd root ++ names := by
  obtain ⟨names, named, parts⟩ := below
  exact ⟨names, named, by rw [placeOf, parts, List.foldl_append, follow_normals]; rfl⟩

/-- A path with a slash in it has more than one component, if its last segment counts. -/
theorem slashed_components {p : Path} {base piece : List Char}
    (spelled : p.text.toList = base ++ '/' :: piece) (whole : '/' ∉ piece)
    (busy : Path.isIdle (String.ofList piece) = false) :
    ∃ first more, p.components = first :: more ++ [Path.component (String.ofList piece)] := by
  have segments : p.segments =
      (Text.pieces '/' base).map String.ofList ++ [String.ofList piece] := by
    simp [Path.segments, spelled, pieces_concat base whole]
  obtain ⟨first, more, shape⟩ :=
    List.exists_cons_of_ne_nil
      (show (Text.pieces '/' base).map String.ofList ≠ [] by simp [pieces_ne_nil])
  rw [components_eq, segments, shape, componentsOf_append _ (by simp), ofSegments_busy busy]
  suffices some : componentsOf p.isAbsolute (first :: more) ≠ [] by
    obtain ⟨front, rest, same⟩ := List.exists_cons_of_ne_nil some
    exact ⟨front, rest, by rw [same]; rfl⟩
  intro nothing
  simp only [componentsOf] at nothing
  split at nothing
  · simp at nothing
  next relative =>
    split at nothing
    · simp at nothing
    next notDot =>
      -- the first segment is empty, and so the path is absolute
      have idle : Path.isIdle first = true := by
        cases kind : Path.isIdle first with
        | true => rfl
        | false => simp [ofSegments_busy kind] at nothing
      obtain rfl : first = "" := by simpa [Path.isIdle, notDot] using idle
      refine relative (absolute_iff.mpr ?_)
      rw [segments, shape]
      cases more with
      | nil => exact ⟨_, _, rfl⟩
      | cons next more => exact ⟨_, _, rfl⟩

/-- The file of a class is its name with an ending, or it is no name for a file. -/
theorem javaFile_named {name : String} (isFile : Path.isFileName ⟨name ++ ".java"⟩ = true) :
    IsName (name ++ ".java") ∧ Path.components ⟨name ++ ".java"⟩ = [.normal (name ++ ".java")] := by
  have ended : ∀ stem :
      List Char, ∀ text ∈ ["", ".", ".."], String.ofList (stem ++ ".java".toList) ≠ text := by
    intro stem text listed same
    have size := congrArg (·.toList.length) same
    simp only [List.mem_cons, List.not_mem_nil, or_false] at listed
    rcases listed with rfl | rfl | rfl <;> simp at size
  have busy : ∀ stem : List Char, Path.isIdle (String.ofList (stem ++ ".java".toList)) = false := by
    intro stem
    simp only [Path.isIdle, Bool.or_eq_false_iff, beq_eq_false_iff_ne]
    exact ⟨ended stem "" (by simp), ended stem "." (by simp)⟩
  by_cases slash : '/' ∈ name.toList
  · -- a slash before the ending makes for a second component
    obtain ⟨back, front, split, whole⟩ := List.eq_append_cons_of_mem (List.mem_reverse.mpr slash)
    have parts : name.toList = front.reverse ++ '/' :: back.reverse := by
      rw [← List.reverse_reverse name.toList, split]
      simp
    obtain ⟨first, more, components⟩ :=
      @slashed_components ⟨name ++ ".java"⟩ front.reverse (back.reverse ++ ".java".toList)
      (by simp [parts]) (by simpa using whole) (busy back.reverse)
    simp only [Path.isFileName, components] at isFile
    cases more <;> simp at isFile
  · have noSlash : '/' ∉ (name ++ ".java").toList := by simpa using slash
    have text : String.ofList (name.toList ++ ".java".toList) = name ++ ".java" := by
      simp [String.ofList_append]
    have idle := busy name.toList
    have other := ended name.toList
    rw [text] at idle other
    have named : IsName (name ++ ".java") :=
      ⟨other "" (by simp), other "." (by simp), other ".." (by simp), noSlash⟩
    refine ⟨named, ?_⟩
    have single : Path.ofSegments [name ++ ".java"] = [.normal (name ++ ".java")] := by
      rw [ofSegments_busy idle, Path.component, if_neg (by simpa using named.notDots)]
      rfl
    simp [components_eq, segments_plain noSlash, entry_relative noSlash, componentsOf,
      named.notDot, single]

end ClassDiagram.Proofs.PathPlaces
