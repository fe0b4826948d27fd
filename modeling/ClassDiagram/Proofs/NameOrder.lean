import ClassDiagram.Files.Listing
import Mathlib.Data.List.Basic

/-! Names by their bytes. A directory is listed in the order of the bytes of its names, and sorting
by characters comes to the same: the bytes of a greater character are greater at the first place
where they differ. -/

namespace ClassDiagram.Files

def nameBytes (name : String) : List UInt8 :=
  name.toUTF8.data.toList

def byBytes (entries : List (String × α)) : List (String × α) :=
  entries.mergeSort fun a b => decide (nameBytes a.1 ≤ nameBytes b.1)

end ClassDiagram.Files

namespace ClassDiagram.Proofs.NameOrder
open Files

private theorem byte_lt {m n : Nat} (first : m < 256) (second : n < 256) :
    UInt8.ofNat m < UInt8.ofNat n ↔ m < n := by
  rw [UInt8.lt_iff_toNat_lt, UInt8.toNat_ofNat', UInt8.toNat_ofNat', Nat.mod_eq_of_lt first,
    Nat.mod_eq_of_lt second]

private theorem byte_eq {m n : Nat} (first : m < 256) (second : n < 256) :
    UInt8.ofNat m = UInt8.ofNat n ↔ m = n := by
  rw [← UInt8.toNat_inj, UInt8.toNat_ofNat', UInt8.toNat_ofNat', Nat.mod_eq_of_lt first,
    Nat.mod_eq_of_lt second]

/-- Of the digits to base 64, the first that differs is smaller in the smaller number. -/
theorem digit_lt {m n : Nat} (less : m < n) : m / 262144 < n / 262144 ∨ m / 262144 = n / 262144 ∧
    (m / 4096 % 64 < n / 4096 % 64 ∨ m / 4096 = n / 4096 ∧
      (m / 64 % 64 < n / 64 % 64 ∨ m / 64 = n / 64 ∧ m % 64 < n % 64)) := by
  have shifted : ∀ m : Nat, m / 4096 = m / 64 / 64 ∧ m / 262144 = m / 64 / 64 / 64 := fun m => by
    simp only [Nat.div_div_eq_div_mul]
    trivial
  have digit : ∀ {m n : Nat}, m < n → m / 64 < n / 64 ∨ m / 64 = n / 64 ∧ m % 64 < n % 64 := by
    omega
  rw [(shifted m).1, (shifted m).2, (shifted n).1, (shifted n).2]
  rcases digit less with high | ⟨same, low⟩
  · rcases digit high with high | ⟨same, low⟩
    · rcases digit high with high | ⟨same, low⟩
      · exact Or.inl high
      · exact Or.inr ⟨same, Or.inl low⟩
    · exact Or.inr ⟨by rw [same], Or.inr ⟨same, Or.inl low⟩⟩
  · exact Or.inr ⟨by rw [same], Or.inr ⟨by rw [same], Or.inr ⟨same, low⟩⟩⟩

/-- The bytes of a smaller character are smaller, whatever follows. -/
theorem encoded_lt {a b : Char} (less : a < b) (s t : List UInt8) :
    String.utf8EncodeChar a ++ s < String.utf8EncodeChar b ++ t := by
  have order : a.val.toNat < b.val.toNat := less
  have bound : b.val.toNat < 0x110000 := by
    have valid := b.valid
    simp only [UInt32.isValidChar, Nat.isValidChar] at valid
    omega
  have digits := digit_lt order
  simp only [String.utf8EncodeChar]
  generalize a.val.toNat = v at order digits
  generalize b.val.toNat = w at order bound digits
  -- a longer encoding starts with a greater byte, and in encodings of one length the digits are
  -- compared
  split_ifs <;> try omega
  all_goals
    simp (disch := omega) only [List.cons_append, List.nil_append, List.cons_lt_cons_iff,
      Nat.mod_eq_of_lt, byte_lt, byte_eq]
    omega

private theorem nameBytes_eq (name : String) :
    nameBytes name = name.toList.flatMap String.utf8EncodeChar := by
  rw [nameBytes, String.toUTF8_eq_toByteArray, ← String.utf8Encode_toList]
  simp [List.utf8Encode]

private theorem encoded_ne_nil (c : Char) : String.utf8EncodeChar c ≠ [] := by
  simp only [String.utf8EncodeChar]
  split_ifs <;> simp

private theorem bytes_lt {first second : List Char} (less : first < second) :
    first.flatMap String.utf8EncodeChar < second.flatMap String.utf8EncodeChar := by
  induction first generalizing second with
  | nil =>
    cases second with
    | nil => exact absurd less (List.lt_irrefl _)
    | cons c second =>
      obtain ⟨byte, bytes, shape⟩ := List.exists_cons_of_ne_nil (encoded_ne_nil c)
      rw [List.flatMap_cons, shape]
      exact List.nil_lt_cons _ _
  | cons c first ih =>
    cases second with
    | nil => exact absurd less (List.not_lt_nil _)
    | cons d second =>
      rw [List.flatMap_cons, List.flatMap_cons]
      rcases List.cons_lt_cons_iff.mp less with smaller | ⟨rfl, further⟩
      · exact encoded_lt smaller _ _
      · exact List.append_left_lt (ih further)

private theorem nameBytes_lt {first second : String} (less : first < second) :
    nameBytes first < nameBytes second := by
  rw [nameBytes_eq, nameBytes_eq]
  exact bytes_lt less

private theorem nameBytes_le {first second : String} :
    nameBytes first ≤ nameBytes second ↔ first ≤ second := by
  constructor
  · intro le
    exact String.not_lt.mp fun less => List.not_lt.mpr le (nameBytes_lt less)
  · intro le
    by_cases same : first = second
    · exact same ▸ List.le_refl _
    · exact List.le_of_lt (nameBytes_lt (Std.lt_of_le_of_ne le same))

theorem byBytes_eq {α : Type} (entries : List (String × α)) : byBytes entries = byName entries := by
  simp only [byBytes, byName, nameBytes_le]

end ClassDiagram.Proofs.NameOrder
