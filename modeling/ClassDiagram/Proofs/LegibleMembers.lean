import ClassDiagram.Proofs.BodyLines

/-! What a line of a class body is read as, its written line is read as again. The texts of a member
are cut out of the line without the blanks around them, so they are trimmed, and they have neither
the comma nor the parenthesis at which they would be cut once more. -/

namespace ClassDiagram.Diagram

def Entry.Legible : Entry → Prop
  | field f => f.Clean
  | method m => m.Legible
  | constant text => IsConstantText text

end ClassDiagram.Diagram

namespace ClassDiagram.Proofs.LegibleMembers
open Text Diagram Blanks JoinedTexts MemberLines BodyLines

/-- A line that neither ends within a text nor closes a block. -/
structure IsBodyLine (line : List Char) : Prop where
  oneLine : '\n' ∉ line
  noBrace : '}' ∉ line

theorem trim_subset (line : List Char) : trim line ⊆ line := by
  obtain ⟨_, _, _, _, whole, _⟩ := trim_splits line
  intro c member
  rw [whole]
  simp [member]

private theorem typeText_isLine {line : List Char} (body : IsBodyLine line) {type : String}
    (typed : IsTypeText type) (inside : type.toList ⊆ line) : IsLineText type :=
  ⟨typeText_nonempty typed, typeText_trimmed typed, fun member => body.oneLine (inside member),
    fun member => body.noBrace (inside member)⟩

section
variable {line : List Char} (body : IsBodyLine line)
include body

private theorem field_legible {field : Field} (read : field? (trim line) = some field) :
    field.Clean := by
  obtain ⟨_, _, _, _, _, _, solid⟩ := trim_splits line
  obtain ⟨rest, opens, blanks, _, typed, rfl⟩ := (field_iff solid).mp read
  refine ⟨?_, typeText_isLine body typed fun c member =>
    trim_subset line ((opens_suffix opens).subset (by simp [member]))⟩
  obtain ⟨_, _, _, _, _, named, _⟩ := opens
  exact named

private theorem constant_legible {text : String} (some : text ≠ "")
    (whole : text.toList = trim line) (noMethod : method? (trim line) = none)
    (noField : field? (trim line) = none) : IsConstantText text :=
  ⟨typeText_isLine body (typeText_of_trim whole.symm some) (whole ▸ trim_subset line),
    whole ▸ noMethod, whole ▸ noField⟩

private theorem parameter_legible {piece : List Char} (inside : piece ⊆ line)
    (noComma : ',' ∉ piece) {parameter : Parameter} (read : parameter? piece = some parameter) :
    parameter.Clean := by
  obtain ⟨blanks, more, rest, _, named, _, rfl, left, some⟩ := parameter_iff.mp read
  have type : parameter.type.toList ⊆ blanks ++ parameter.name.toList ++ more ++ ':' :: rest := by
    intro c member
    rw [← left] at member
    simp [trim_subset rest member]
  exact ⟨named, typeText_isLine body (typeText_of_trim left some) fun _ member =>
    inside (type member), fun member => noComma (type member)⟩

/-- No type follows a parenthesis within the return type: there the parameters would have been
longer. -/
theorem method_legible {method : Method} (read : method? (trim line) = some method) :
    method.Legible := by
  obtain ⟨_, _, _, _, _, _, solid⟩ := trim_splits line
  obtain ⟨inside, ⟨blanks, _, opens, blank, spaces, blank', typed, rfl⟩, longest, listed⟩ :=
    (method_iff solid).mp read
  have within := List.Subset.trans (opens_suffix opens).subset (trim_subset line)
  have returnType : IsLineText method.returnType :=
    typeText_isLine body typed fun c member => within (by simp [member])
  have last : ∀ front rest type, method.returnType.toList = front ++ ')' :: rest →
      afterColon? rest ≠ some type := by
    intro front rest type split follows
    let other := inside ++ ')' :: (blanks ++ ':' :: (spaces ++ front))
    have shape : inside ++ ')' :: (blanks ++ ':' :: (spaces ++ method.returnType.toList)) =
        other ++ ')' :: rest := by
      simp [other, split]
    rw [shape] at opens
    have longer := longest _ _ other type ((methodText_iff solid).mpr ⟨rest, opens, follows⟩)
    simp only [other, List.length_append, List.length_cons] at longer
    omega
  refine ⟨?_, returnType, fun before => ?_, ?_⟩
  · obtain ⟨_, _, _, _, _, named, _⟩ := opens
    exact named
  · refine closing_iff.mpr ⟨⟨_, rfl, colon_read returnType⟩,
      fun other rest type whole follows => Nat.le_of_not_lt fun beyond => ?_⟩
    obtain ⟨front, rfl⟩ : ∃ front, other = before ++ front := by
      have prefixed :=
        List.prefix_of_prefix_length_le (List.prefix_append before _)
          (whole ▸ List.prefix_append other _) (by omega)
      exact ⟨_, (List.prefix_iff_eq_append.mp prefixed).symm⟩
    rw [List.append_assoc, List.append_cancel_left_eq] at whole
    match front with
    | [] => simp at beyond
    | [_] => simp at whole
    | [_, _] => simp at whole
    | _ :: _ :: _ :: front =>
      simp only [List.cons_append, List.cons.injEq] at whole
      exact last front rest type whole.2.2.2 follows
  · intro parameter member
    rw [listed] at member
    obtain ⟨piece, cut, found⟩ := List.mem_filterMap.mp member
    refine parameter_legible body (fun c member => within ?_) (PathPlaces.pieces_whole cut) found
    simp [piece_subset cut member]

private theorem entry_legible {entry : Entry} (read : entryOf? line = some entry) :
    entry.Legible := by
  obtain ⟨_, isMethod, isField, isConstant⟩ := entry_cases line
  cases entry with
  | field field => exact field_legible body ((isField field).mp read).2
  | method method => exact method_legible body ((isMethod method).mp read)
  | constant text =>
    obtain ⟨⟨some, whole⟩, noMethod, noField⟩ := (isConstant text).mp read
    exact constant_legible body some whole noMethod noField

/-- What a line adds to a class is legible. -/
theorem addLine_legible {c : Class} (legible : c.Legible) : (addLine c line).Legible := by
  rw [addLine]
  split
  next entry read =>
    have own := entry_legible body read
    cases entry with
    | field field =>
      exact ⟨by simpa [Entry.addTo, Class.addField, or_imp, forall_and] using ⟨legible.fields, own⟩,
        legible.methods, legible.constants⟩
    | method method =>
      exact ⟨legible.fields,
        by simpa [Entry.addTo, Class.addMethod, or_imp, forall_and] using ⟨legible.methods, own⟩,
        legible.constants⟩
    | constant text =>
      exact ⟨legible.fields, legible.methods,
        by simpa [Entry.addTo, Class.addConstant, or_imp, forall_and]
          using ⟨legible.constants, own⟩⟩
  next => exact legible

end

end ClassDiagram.Proofs.LegibleMembers
