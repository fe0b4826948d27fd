import ClassDiagram.Text.Lines

/-! Cutting a joined text gives back its parts: lines joined by line feeds, and pieces joined by a
separator that none of them holds. -/

namespace ClassDiagram.Proofs.JoinedTexts
open Text

theorem mem_intercalate {c : Char} {separator : List Char} {parts : List (List Char)}
    (member : c ∈ separator.intercalate parts) : c ∈ separator ∨ ∃ part ∈ parts, c ∈ part := by
  induction parts with
  | nil => simp at member
  | cons first rest ih =>
    cases rest with
    | nil => exact Or.inr ⟨first, by simp, by simpa using member⟩
    | cons next rest =>
      rw [List.intercalate_cons_cons, List.mem_append, List.mem_append] at member
      rcases member with (member | member) | member
      · exact Or.inr ⟨first, by simp, member⟩
      · exact Or.inl member
      · rcases ih member with inside | ⟨part, present, inside⟩
        · exact Or.inl inside
        · exact Or.inr ⟨part, by simp [present], inside⟩

/-- A line that a line feed behind it leaves whole. -/
structure IsLine (line : List Char) : Prop where
  oneLine : '\n' ∉ line
  noReturn : line.getLast? ≠ some '\r'

/-- A character within a line goes with the line that the rest starts with. -/
private theorem lines_char {c : Char} {rest line : List Char} {more : List (List Char)}
    (feed : c ≠ '\n')
    (ret : c = '\r' → rest.head? ≠ some '\n') (behind : lines rest = line :: more) :
    lines (c :: rest) = (c :: line) :: more := by
  rw [lines, behind]
  · exact feed
  · rintro after rfl rfl
    exact ret rfl rfl

private theorem IsLine.tail {c d : Char} {line : List Char} (whole : IsLine (c :: d :: line)) :
    IsLine (d :: line) :=
  ⟨fun member => whole.oneLine (by simp [member]), by simpa using whole.noReturn⟩

/-- Within a whole line a carriage return stands before no line feed. -/
private theorem IsLine.head {c : Char} {line rest : List Char} (whole : IsLine (c :: line)) :
    c ≠ '\n' ∧ (c = '\r' → (line ++ rest).head? ≠ some '\n') := by
  refine ⟨fun same => whole.oneLine (by simp [same]), ?_⟩
  rintro rfl next
  cases line with
  | nil => exact absurd rfl whole.noReturn
  | cons d line =>
    have same : d = '\n' := by simpa using next
    exact absurd (by simp [same]) whole.oneLine

private theorem lines_cons {line rest : List Char} (whole : IsLine line) :
    lines (line ++ '\n' :: rest) = line :: lines rest := by
  induction line with
  | nil => simp [lines]
  | cons c line ih =>
    obtain ⟨feed, ret⟩ := @IsLine.head _ _ ('\n' :: rest) whole
    apply lines_char feed ret
    cases line with
    | nil => simp [lines]
    | cons d line => exact ih whole.tail

private theorem lines_last {line : List Char} (whole : IsLine line) (some : line ≠ []) :
    lines line = [line] := by
  induction line with
  | nil => exact absurd rfl some
  | cons c line ih =>
    obtain ⟨feed, ret⟩ := @IsLine.head _ _ [] whole
    cases line with
    | nil => simp [lines]
    | cons d line =>
      apply lines_char feed (by simpa using ret)
      exact ih whole.tail (by simp)

/-- Lines joined by line feeds are read as they were, if the last one is not empty. -/
theorem lines_join {all : List (List Char)} (whole : ∀ line ∈ all, IsLine line)
    (ends : all.getLast? ≠ some []) : lines (['\n'].intercalate all) = all := by
  induction all with
  | nil => simp [List.intercalate, lines]
  | cons line rest ih =>
    cases rest with
    | nil =>
      rw [List.intercalate_singleton]
      exact lines_last (whole line (by simp)) (by simpa using ends)
    | cons next rest =>
      rw [List.intercalate_cons_cons, List.append_assoc, List.singleton_append,
        lines_cons (whole line (by simp))]
      rw [ih (fun line member => whole line (by simp [member])) (by simpa using ends)]

theorem piece_subset {separator : Char} {text piece : List Char}
    (listed : piece ∈ pieces separator text) : piece ⊆ text := by
  induction text generalizing piece with
  | nil => simpa [pieces] using listed
  | cons c text ih =>
    rw [pieces] at listed
    split at listed
    · rcases List.mem_cons.mp listed with rfl | listed
      · simp
      · exact List.subset_cons_of_subset c (ih listed)
    · split at listed
      next first more cut =>
        rcases List.mem_cons.mp listed with rfl | listed
        · exact List.cons_subset_cons c (ih (by simp [cut]))
        · exact List.subset_cons_of_subset c (ih (by simp [cut, listed]))
      next => simp_all

theorem pieces_cons {separator : Char} {piece rest : List Char} (whole : separator ∉ piece) :
    pieces separator (piece ++ separator :: rest) = piece :: pieces separator rest := by
  induction piece with
  | nil => simp [pieces]
  | cons c piece ih =>
    have other : c ≠ separator := fun same => whole (by simp [same])
    rw [List.cons_append, pieces, ih fun member => whole (by simp [member])]
    simp [other]

theorem pieces_last {separator : Char} {piece : List Char} (whole : separator ∉ piece) :
    pieces separator piece = [piece] := by
  induction piece with
  | nil => rfl
  | cons c piece ih =>
    have other : c ≠ separator := fun same => whole (by simp [same])
    rw [pieces, ih fun member => whole (by simp [member])]
    simp [other]

private theorem intercalate_head {c : Char} {separator first : List Char}
    {more : List (List Char)} :
    separator.intercalate ((c :: first) :: more) = c :: separator.intercalate (first :: more) := by
  cases more <;> simp

/-- Pieces that a separator and a blank join: each one but the first keeps the blank. -/
theorem pieces_join {separator pad : Char} {first : List Char} {more : List (List Char)}
    (different : pad ≠ separator) (whole : ∀ piece ∈ first :: more, separator ∉ piece) :
    pieces separator ([separator, pad].intercalate (first :: more)) =
      first :: more.map (pad :: ·) := by
  induction more generalizing first with
  | nil =>
    rw [List.intercalate_singleton, pieces_last (whole first (by simp))]
    rfl
  | cons next more ih =>
    have behind := @ih (pad :: next) (by
      intro piece member
      rcases List.mem_cons.mp member with rfl | member
      · simpa using ⟨different.symm, whole next (by simp)⟩
      · exact whole piece (by simp [member]))
    rw [intercalate_head] at behind
    rw [List.intercalate_cons_cons, List.append_assoc, List.cons_append,
      pieces_cons (whole first (by simp)), List.singleton_append, behind]
    rfl

end ClassDiagram.Proofs.JoinedTexts
