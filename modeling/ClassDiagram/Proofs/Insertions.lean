import ClassDiagram.Proofs.EnumBodies
import ClassDiagram.Proofs.MergedMembers

/-! What merging leaves of a source. New lines are put in at one place: behind the line of the
anchor if that line may stay whole, else in the middle of it. All else is kept, and so are line
breaks with carriage returns. -/

namespace ClassDiagram.Proofs.Insertions
open Java Text TokenTrees BodyPieces SourceCuts GeneratedText SplicedText GrownSources MemberPlaces
  EnumBodies MergedMembers DiskChanges FileWrites
open Files (Disk)

/-- A separator cuts a text into the pieces before it and those behind it. -/
theorem pieces_cut (separator : Char) (first second : List Char) :
    pieces separator (first ++ separator :: second) =
      pieces separator first ++ pieces separator second := by
  induction first with
  | nil => simp [pieces]
  | cons c first ih =>
    rw [List.cons_append, pieces, pieces, ih]
    split
    · rfl
    · cases here : pieces separator first with
      | nil => exact absurd here (Walks.pieces_ne_nil separator first)
      | cons => rfl

/-- Where two texts meet, the last piece of the one and the first piece of the other become one. -/
theorem pieces_join (separator : Char) (first second : List Char) :
    ∃ earlier last next later, pieces separator first = earlier ++ [last] ∧
    pieces separator second = next :: later ∧
    pieces separator (first ++ second) = earlier ++ (last ++ next) :: later := by
  obtain ⟨next, later, behind⟩ := List.exists_cons_of_ne_nil (Walks.pieces_ne_nil separator second)
  induction first with
  | nil => exact ⟨[], [], next, later, rfl, behind, by simp [behind]⟩
  | cons c first ih =>
    obtain ⟨earlier, last, next', later', before, behind', whole⟩ := ih
    rw [List.cons_append, pieces, pieces, before, whole]
    split
    · exact ⟨[] :: earlier, last, next', later', rfl, behind', rfl⟩
    · cases earlier with
      | nil => exact ⟨[], c :: last, next', later', rfl, behind', rfl⟩
      | cons piece earlier =>
        exact ⟨(c :: piece) :: earlier, last, next', later', rfl, behind', rfl⟩

section
variable {newline : List Char} (isLineBreak : IsLineBreak newline)
include isLineBreak

private theorem newline_ended : ∃ start, newline = start ++ ['\n'] ∧ '\n' ∉ start := by
  rcases isLineBreak with rfl | rfl
  · exact ⟨[], rfl, by simp⟩
  · exact ⟨['\r'], rfl, by simp⟩

private theorem block_ended (needsSeparator : Bool) (lines : List String) :
    block newline needsSeparator lines = [] ∨
    ∃ start, block newline needsSeparator lines = start ++ ['\n'] := by
  obtain ⟨start, rfl, _⟩ := newline_ended isLineBreak
  simp only [block]
  generalize (if needsSeparator then [indent ++ ";"] else []) ++ lines = all
  rcases List.eq_nil_or_concat all with rfl | ⟨front, last, rfl⟩
  · exact Or.inl rfl
  · exact Or.inr ⟨(front.flatMap fun line => line.toList ++ (start ++ ['\n'])) ++
      (last.toList ++ start), by simp⟩

/-- The pieces of what follows a block are the last ones. -/
theorem pieces_block (needsSeparator : Bool) (lines : List String) (rest : List Char) :
    ∃ inserted, pieces '\n' (block newline needsSeparator lines ++ rest) =
      inserted ++ pieces '\n' rest := by
  rcases block_ended isLineBreak needsSeparator lines with nothing | ⟨start, ended⟩
  · exact ⟨[], by rw [nothing]; rfl⟩
  · exact ⟨pieces '\n' start, by rw [ended, List.append_assoc]; exact pieces_cut '\n' start rest⟩

end

/-- Before every line feed stands a carriage return. -/
def Returned (text : List Char) : Prop :=
  ∀ before after, text = before ++ '\n' :: after → before.getLast? = some '\r'

theorem Returned.left {first second : List Char} (returned : Returned (first ++ second)) :
    Returned first := by
  rintro before after rfl
  exact returned before (after ++ second) (by simp)

theorem Returned.right {first second : List Char} (returned : Returned (first ++ second))
    (inLine : second.head? ≠ some '\n') : Returned second := by
  rintro before after rfl
  have last := returned (first ++ before) after (by simp)
  cases before with
  | nil => simp at inLine
  | cons c before => simpa [List.getLast?_append] using last

theorem Returned.append {first second : List Char} (one : Returned first) (two : Returned second) :
    Returned (first ++ second) := by
  intro before after whole
  rcases List.append_eq_append_iff.mp whole with ⟨middle, rfl, behind⟩ | ⟨middle, rfl, behind⟩
  · have last := two middle after behind
    simp [List.getLast?_append, last]
  · cases middle with
    | nil =>
      have none := two [] after (by simpa using behind.symm)
      simp at none
    | cons c middle =>
      obtain ⟨rfl, _⟩ := List.cons.inj behind
      exact one before middle rfl

theorem Returned.line {line : List Char} (oneLine : '\n' ∉ line) :
    Returned (line ++ ['\r', '\n']) := by
  intro before after whole
  have ended : (line ++ ['\r']) ++ ['\n'] = before ++ '\n' :: after := by simpa using whole
  rcases List.append_eq_append_iff.mp ended with ⟨middle, rfl, behind⟩ | ⟨middle, same, behind⟩
  · obtain rfl : middle = [] := by
      cases middle with
      | nil => rfl
      | cons => simp at behind
    simp
  · cases middle with
    | nil =>
      rw [List.append_nil] at same
      simp [← same]
    | cons c middle =>
      obtain ⟨rfl, _⟩ := List.cons.inj behind
      have inside : '\n' ∈ line ++ ['\r'] := by simp [same]
      simp [oneLine] at inside

theorem Returned.block {needsSeparator : Bool} {lines : List String}
    (oneLine : ∀ line ∈ lines, '\n' ∉ line.toList) :
    Returned (block ['\r', '\n'] needsSeparator lines) := by
  have separator : '\n' ∉ (indent ++ ";").toList := by decide
  have all : ∀ line ∈ (if needsSeparator then [indent ++ ";"] else []) ++ lines, '\n' ∉
      line.toList := by
    intro line member
    rcases List.mem_append.mp member with member | member
    · split at member
      · exact List.mem_singleton.mp member ▸ separator
      · simp at member
    · exact oneLine line member
  simp only [Java.block]
  generalize (if needsSeparator then [indent ++ ";"] else []) ++ lines = listed at all
  induction listed with
  | nil =>
    intro before after whole
    simp at whole
  | cons line listed ih =>
    rw [List.flatMap_cons]
    exact (Returned.line (all line (by simp))).append
      (ih fun other member => all other (by simp [member]))

private theorem hasCarriageReturns_append (before after : List Char) :
    hasCarriageReturns (before ++ '\r' :: '\n' :: after) = true := by
  induction before with
  | nil => rfl
  | cons c before ih =>
    rw [List.cons_append]
    by_cases here : c = '\r' ∧ ∃ rest, before ++ '\r' :: '\n' :: after = '\n' :: rest
    · obtain ⟨rfl, rest, same⟩ := here
      rw [same]
      rfl
    · rw [hasCarriageReturns]
      · exact ih
      · rintro rest rfl same
        exact here ⟨rfl, rest, same⟩

/-- Then such line breaks are used for new lines as well. -/
theorem lineBreak_returned {source : List Char} (returned : Returned source)
    (feed : '\n' ∈ source) : lineBreak source = ['\r', '\n'] := by
  obtain ⟨before, after, rfl⟩ := List.append_of_mem feed
  obtain ⟨start, rfl⟩ := List.getLast?_eq_some_iff.mp (returned before after rfl)
  simp [lineBreak, hasCarriageReturns_append]

/-- How lines get into a source that the anchor cuts into a head and a tail. The source is kept in
two parts with the new lines between them: if the line of the anchor may stay whole, they go behind
it and no line is lost, else the line is split at the anchor and only that one. -/
structure Inserted (source head tail : List Char) (needsSeparator : Bool) (lines : List String)
    (text before after : List Char) : Prop where
  source_eq : source = before ++ after
  split : isLoose (tail.takeWhile (· != '\n')) = false → before = head ∧
    text = before ++ (lineBreak source ++ block (lineBreak source) needsSeparator lines) ++ after ∧
    ∃ earlier first second later inserted, pieces '\n' source =
    earlier ++ (first ++ second) :: later ∧
      pieces '\n' text = earlier ++ (first ++ (lineBreak source).dropLast) ::
      (inserted ++ second :: later)
  loose : isLoose (tail.takeWhile (· != '\n')) = true →
    (endsLine before = true ∧
      text = before ++ block (lineBreak source) needsSeparator lines ++ after ∧
      (pieces '\n' source).Sublist (pieces '\n' text)) ∨
    (endsLine before = false ∧ after = [] ∧ '\n' ∉ tail ∧
      text = before ++ (lineBreak source ++ block (lineBreak source) needsSeparator lines) ++ after)
  returned : Returned source → '\n' ∈ source → (∀ line ∈ lines, '\n' ∉ line.toList) → Returned text

private theorem cut_past {offset : Nat} {text : List Char} (past : byteLength text ≤ offset) :
    cut? offset text = some (text, []) := by
  induction text generalizing offset with
  | nil => cases offset <;> rfl
  | cons c text ih =>
    have size := c.utf8Size_pos
    rw [byteLength] at past
    obtain ⟨offset, rfl⟩ : ∃ smaller, offset = smaller + 1 := ⟨offset - 1, by omega⟩
    rw [cut?, if_pos (by omega), ih (by omega)]
    rfl

section
variable {source head tail : List Char} (needsSeparator : Bool) (lines : List String)

private theorem inserted_split (whole : source = head ++ tail)
    (tight : isLoose (tail.takeWhile (· != '\n')) = false) :
    Inserted source head tail needsSeparator lines
      (head ++ (lineBreak source ++ block (lineBreak source) needsSeparator lines) ++ tail)
        head tail := by
  have isLineBreak := lineBreak_isLineBreak source
  refine ⟨whole, fun _ => ⟨rfl, rfl, ?_⟩, fun loose => absurd loose (by simp [tight]), ?_⟩
  · obtain ⟨earlier, first, second, later, before, behind, joined⟩ := pieces_join '\n' head tail
    obtain ⟨start, newline, oneLine⟩ := newline_ended isLineBreak
    obtain ⟨inserted, inner⟩ := pieces_block isLineBreak needsSeparator lines tail
    refine ⟨earlier, first, second, later, inserted, by rw [whole, joined], ?_⟩
    obtain ⟨earlier', first', next, later', before', single, joined'⟩ := pieces_join '\n' head start
    rw [JoinedTexts.pieces_last oneLine] at single
    obtain ⟨rfl, rfl⟩ := List.cons.inj single
    obtain ⟨rfl, same⟩ := List.append_inj' (before.symm.trans before') rfl
    obtain ⟨rfl, _⟩ := List.cons.inj same
    have cut :=
      pieces_cut '\n' (head ++ start) (block (lineBreak source) needsSeparator lines ++ tail)
    rw [joined', inner, behind] at cut
    rw [newline, List.dropLast_concat, ← newline]
    simpa [newline] using cut
  · intro returned feed oneLine
    have inLine : tail.head? ≠ some '\n' := by
      intro head
      obtain ⟨rest, rfl⟩ := List.head?_eq_some_iff.mp head
      simp [isLoose, trim, trimEnd, skipBlanks] at tight
    rw [lineBreak_returned returned feed]
    rw [whole] at returned
    exact (returned.left.append ((@Returned.line [] (by simp)).append (.block oneLine))).append
      (returned.right inLine)

private theorem inserted_behind {before after : List Char} (parts : source = before ++ after)
    (ended : endsLine before = true) (loose : isLoose (tail.takeWhile (· != '\n')) = true) :
    Inserted source head tail needsSeparator lines
      (before ++ block (lineBreak source) needsSeparator lines ++ after) before after := by
  have isLineBreak := lineBreak_isLineBreak source
  obtain ⟨start, rfl⟩ := List.getLast?_eq_some_iff.mp (beq_iff_eq.mp ended)
  refine ⟨parts, fun tight => absurd tight (by simp [loose]), fun _ => Or.inl ⟨ended, rfl, ?_⟩, ?_⟩
  · obtain ⟨inserted, inner⟩ := pieces_block isLineBreak needsSeparator lines after
    have old := pieces_cut '\n' start after
    have new := pieces_cut '\n' start (block (lineBreak source) needsSeparator lines ++ after)
    rw [inner] at new
    have split : ∀ rest, start ++ ['\n'] ++ rest = start ++ '\n' :: rest := by simp
    rw [List.append_assoc (start ++ ['\n']), split, new, parts, split, old]
    exact (List.Sublist.refl _).append (List.sublist_append_right _ _)
  · intro returned feed oneLine
    rw [lineBreak_returned returned feed]
    rw [parts] at returned
    have inLine : after.head? ≠ some '\n' := by
      intro head
      obtain ⟨rest, rfl⟩ := List.head?_eq_some_iff.mp head
      have last := returned (start ++ ['\n']) rest rfl
      simp at last
    exact (returned.left.append (.block oneLine)).append (returned.right inLine)

private theorem inserted_last (unended : endsLine source = false) (oneLine : '\n' ∉ tail)
    (loose : isLoose (tail.takeWhile (· != '\n')) = true) :
    Inserted source head tail needsSeparator lines
      (source ++ (lineBreak source ++ block (lineBreak source) needsSeparator lines) ++ [])
        source [] := by
  refine ⟨by simp, fun tight => absurd tight (by simp [loose]),
    fun _ => Or.inr ⟨unended, rfl, oneLine, rfl⟩, ?_⟩
  intro returned feed oneLine
  rw [lineBreak_returned returned feed, List.append_nil]
  exact returned.append ((@Returned.line [] (by simp)).append (.block oneLine))

end

/-- A text is one line, or its first line ends with a line feed. -/
theorem splitLine_cases (text : List Char) : (splitLine text = (text, []) ∧ '\n' ∉ text) ∨
    ∃ rest, splitLine text = (text.takeWhile (· != '\n') ++ ['\n'], rest) ∧
      text = text.takeWhile (· != '\n') ++ '\n' :: rest := by
  cases feed : text.dropWhile (· != '\n') with
  | nil =>
    exact Or.inl ⟨by simp only [splitLine, feed],
      fun member => by simpa using List.dropWhile_eq_nil_iff.mp feed _ member⟩
  | cons c rest =>
    obtain rfl : c = '\n' := by
      have stopped := List.head?_dropWhile_not (· != '\n') text
      simpa [feed] using stopped
    refine Or.inr ⟨rest, by simp only [splitLine, feed], ?_⟩
    rw [← feed]
    exact List.takeWhile_append_dropWhile.symm

/-- At every place between two characters, and past the end, lines can be put in, and nothing is
lost. -/
theorem splice_inserts {source : String} {head tail : List Char}
    (whole : source.toList = head ++ tail) {anchor : Anchor}
    (here : anchor.offset = byteLength head ∨ tail = [] ∧ byteLength head ≤ anchor.offset)
    (lines : List String) :
    ∃ text before after, splice? source anchor lines = some text ∧
      Inserted source.toList head tail anchor.needsSeparator lines text.toList before after := by
  have cut : cut? anchor.offset source.toList = some (head, tail) := by
    rcases here with same | ⟨rfl, past⟩
    · rw [same, whole]
      exact cut_append head tail
    · rw [whole, List.append_nil]
      exact cut_past past
  have finish : ∀ {chars before after : List Char}, splice? source anchor lines =
      some (String.ofList chars) →
      Inserted source.toList head tail anchor.needsSeparator lines chars before after →
      ∃ text before after,
        splice? source anchor lines = some text ∧
        Inserted source.toList head tail anchor.needsSeparator lines text.toList before after :=
    fun spliced inserted => ⟨_, _, _, spliced, by rwa [String.toList_ofList]⟩
  cases loose : isLoose (tail.takeWhile (· != '\n')) with
  | false =>
    have inserted := inserted_split anchor.needsSeparator lines whole loose
    refine finish ?_ inserted
    simp only [splice?, cut, Option.map_some, loose, Bool.false_eq_true, if_false,
      List.append_assoc]
  | true =>
    obtain ⟨line, oneLine⟩ | ⟨rest, line, parts⟩ := splitLine_cases tail
    · cases ended : endsLine source.toList with
      | false =>
        refine finish ?_ (inserted_last anchor.needsSeparator lines ended oneLine loose)
        simp only [splice?, cut, Option.map_some, loose, if_true, line, ← whole, ended,
          Bool.false_eq_true, if_false]
        simp only [List.append_assoc]
      | true =>
        have inserted :=
          @inserted_behind _ head _ anchor.needsSeparator lines _ []
            (List.append_nil _).symm ended loose
        refine finish ?_ inserted
        simp only [splice?, cut, Option.map_some, loose, if_true, line, ← whole, ended]
        simp only [List.append_assoc, List.nil_append]
    · have ended : endsLine (head ++ (tail.takeWhile (· != '\n') ++ ['\n'])) = true := by
        simp [endsLine]
      have behind : source.toList = head ++ (tail.takeWhile (· != '\n') ++ ['\n']) ++ rest := by
        rw [whole]
        nth_rewrite 1 [parts]
        simp
      refine finish ?_ (inserted_behind anchor.needsSeparator lines behind ended loose)
      simp only [splice?, cut, Option.map_some, loose, if_true, line, ended, List.append_assoc,
        List.nil_append]

/-- New members of a type of any kind go behind a token of its body. -/
theorem exists_anchored {source : String} {found : SourceType} (sole : Sole source found) :
    ∃ first second, Anchored sole first second := by
  cases kind : found.type.kind with
  | plain =>
    have body : Grammar.isBody (bodyRule sole.heading.1) = true := by
      rw [sole.heading_kind, kind]
      rfl
    have offset : found.anchor.offset =
        (Outline.lastFieldStop? (Tree.pieces false sole.inside)).getD sole.opening.stop := by
      have same := congrArg (·.anchor.offset) sole.found_eq
      have bare :
          (headingClass (sole.front ++ [GrownSources.body sole.opening sole.closing sole.inside])
            sole.heading).kind = .plain :=
        sole.bare_kind.trans kind
      simpa only [Outline.bodyType, bare] using same
    obtain ⟨first, second, before, t, parts, ended, isEdge, stop, _⟩ :=
      members_place (body_closes body sole.derived) sole.well_inside (.opening sole.opens)
    refine ⟨first.flatten, second.flatten, ?_, before, t, ended, isEdge, offset.trans stop⟩
    rw [← pieces_flatten sole.inside, parts, List.flatten_append]
  | interface =>
    have offset : found.anchor.offset = sole.opening.stop := by
      have same := congrArg (·.anchor.offset) sole.found_eq
      have bare :
          (headingClass (sole.front ++ [GrownSources.body sole.opening sole.closing sole.inside])
            sole.heading).kind = .interface :=
        sole.bare_kind.trans kind
      simpa only [Outline.bodyType, bare] using same
    exact ⟨[], sole.inside, rfl, [], sole.opening, rfl, .opening sole.opens, offset⟩
  | enum =>
    rcases enum_place sole kind with ⟨_, _, isOpen⟩ | ⟨_, _, _, _, separated⟩
    · exact ⟨_, _, isOpen.anchored⟩
    · exact ⟨_, _, separated.anchored⟩

/-- The brace that closes the body follows, so that a line that may stay whole is not the last
one. -/
theorem anchor_followed {source : String} {found : SourceType}
    (single : sourceTypes? source = some [found]) :
    ∃ head tail, source.toList = head ++ tail ∧ found.anchor.offset = byteLength head ∧
      (isLoose (tail.takeWhile (· != '\n')) = true → '\n' ∈ tail) := by
  obtain ⟨sole⟩ := exists_sole single
  obtain ⟨first, second, whole, before, t, ended, isEdge, here⟩ := exists_anchored sole
  obtain ⟨head, tail, place, open'⟩ := sole.place whole ended isEdge
  refine ⟨head, tail, place.source_eq, here.trans place.stop, fun loose => ?_⟩
  have scanned := place.scanned
  rw [open'] at scanned
  obtain ⟨behind, parts, _⟩ := loose_continues rfl scanned (by simp) loose
  rw [parts]
  simp

/-- Merging destroys nothing. Unless it merged, the disk stays as it was. Where it merged, the file
has the new lines at one place, between whole lines if the line of the anchor may stay whole, and
every other file is as it was. Lines can be put into any text at any place between two characters
and past the end. -/
theorem merge_keeps_content {disk changed : Disk} {path : Path} {model : Class}
    {outcome : Except Error Outcome}
    (run : (mergeFile path model).run.run disk = (outcome, changed)) :
    ((∀ fields methods, outcome ≠ .ok (.merged fields methods)) → changed = disk) ∧
    (∀ fields methods, outcome = .ok (.merged fields methods) →
      ∃ source existing head tail text before after,
      disk.readText path = .ok source ∧ sourceTypes? source = some [existing] ∧
      source.toList = head ++ tail ∧
      existing.anchor.offset = byteLength head ∧ changed.readText path = .ok text ∧
      Inserted source.toList head tail existing.anchor.needsSeparator
      ((Missing.between existing.type model).lines model.isInterface) text.toList before after ∧
      (isLoose (tail.takeWhile (· != '\n')) = true → endsLine before = true) ∧
      ∃ place, disk.spot path = .ok ⟨place, false⟩ ∧ ∀ names, names ≠ place →
      fileAt changed.root names = fileAt disk.root names) ∧
    ∀ (source : String) (head tail : List Char) (anchor : Anchor) (lines : List String),
      source.toList = head ++ tail →
      (anchor.offset = byteLength head ∨ tail = [] ∧ byteLength head ≤ anchor.offset) →
      ∃ text before after, splice? source anchor lines = some text ∧
        Inserted source.toList head tail anchor.needsSeparator lines text.toList before after := by
  refine ⟨?_, ?_, fun source head tail anchor lines whole here => splice_inserts whole here lines⟩
  · intro unmerged
    rcases mergeFile_cases run with ⟨same, _⟩ |
      ⟨_, _, ⟨same, _⟩ | ⟨fields, methods, _, _, _, merged⟩⟩
    · exact same
    · exact same
    · exact absurd merged (unmerged fields methods)
  · rintro fields methods rfl
    obtain ⟨_, _, failed⟩ | ⟨source, read, ⟨_, unmerged, _⟩ | ⟨_, _, text, merged, written, _⟩⟩ :=
      mergeFile_cases run
    · exact nomatch failed
    · exact absurd rfl (unmerged fields methods)
    obtain ⟨existing, single, _, _, spliced⟩ := merge_merged merged
    obtain ⟨head, tail, whole, here, followed⟩ := anchor_followed single
    obtain ⟨text', before, after, spliced', inserted⟩ :=
      splice_inserts whole (Or.inl here)
        ((Missing.between existing.type model).lines model.isInterface)
    obtain rfl := Option.some.inj (spliced.symm.trans spliced')
    obtain ⟨place, name, writes⟩ := writeText_writes written
    refine ⟨source, existing, head, tail, text, before, after, read, single, whole, here,
      writes.read, inserted, ?_, _, writes.spotted, fun names other => writes.files other⟩
    intro loose
    rcases inserted.loose loose with ⟨ended, _⟩ | ⟨_, _, lastLine, _⟩
    · exact ended
    · exact absurd (followed loose) lastLine

def tintText : String :=
  "enum Tint \x7b RED, // warm\r\n\x7d\r\n"

def tints : Disk where
  root := .dir [("Tint.java", .file tintText.toUTF8)]
  cwd := []

def brightTint : Class where
  name := "Tint"
  kind := .enum
  methods := [{ name := "mix", returnType := "int" }]

private theorem tintText_returned : Returned tintText.toList :=
  (@Returned.line "enum Tint \x7b RED, // warm".toList (by decide)).append
    (@Returned.line "\x7d".toList (by decide))

theorem tint_kept :
    ∃ changed text before after, (mergeFile ⟨"Tint.java"⟩ brightTint).run.run tints =
      (.ok (.merged 0 1), changed) ∧
    changed.readText ⟨"Tint.java"⟩ = .ok text ∧ tintText.toList = before ++ after ∧
    endsLine before = true ∧
    (pieces '\n' tintText.toList).Sublist (pieces '\n' text.toList) ∧ Returned text.toList := by
  have ran : ((mergeFile ⟨"Tint.java"⟩ brightTint).run.run tints).1.toOption =
      some (.merged 0 1) := by decide +kernel
  have typed :
      ((sourceTypes? tintText).any fun types =>
        types.map (fun found => found.anchor.offset) == [16]) = true := by decide +kernel
  have read : tints.readText ⟨"Tint.java"⟩ = .ok tintText := decode_encoded tintText
  obtain ⟨changed, run⟩ := run_of_value ran
  obtain ⟨source, existing, head, tail, text, before, after, read', single, whole, here, reread,
      inserted, ended, _⟩ :=
    (merge_keeps_content run).2.1 0 1 rfl
  obtain rfl := Except.ok.inj (read.symm.trans read')
  obtain ⟨types, found, offsets⟩ := (Option.any_eq_true _ _).mp typed
  obtain rfl := Option.some.inj (single.symm.trans found)
  have cut := cut_append head tail
  rw [← whole, ← here, show existing.anchor.offset = 16 by simpa using offsets] at cut
  have place : cut? 16 tintText.toList =
      some ("enum Tint \x7b RED,".toList, " // warm\r\n\x7d\r\n".toList) := by decide +kernel
  obtain ⟨rfl, rfl⟩ := Prod.mk.inj (Option.some.inj (place.symm.trans cut))
  have loose : isLoose (" // warm\r\n\x7d\r\n".toList.takeWhile (· != '\n')) = true := by
    decide +kernel
  have plain : PlainMembers brightTint.fields brightTint.methods :=
    ⟨by decide +kernel, by decide +kernel⟩
  have missing := missing_plain plain existing.type
  have oneLine :
      ∀ line ∈ (Missing.between existing.type brightTint).lines brightTint.isInterface, '\n' ∉
      line.toList := by
    intro line listed feed
    have written := written_lines (fun field listed => (missing.fields field listed).spelled)
      (fun method listed => (missing.methods method listed).spelled) _ line listed
    exact absurd (written _ feed) (by decide +kernel)
  rcases inserted.loose loose with ⟨_, _, kept⟩ | ⟨unended, _⟩
  · exact ⟨changed, text, before, after, run, reread, inserted.source_eq, ended loose, kept,
      inserted.returned tintText_returned (by decide +kernel) oneLine⟩
  · simp [ended loose] at unended

end ClassDiagram.Proofs.Insertions
