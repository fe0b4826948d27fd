import ClassDiagram.Text.Blank
import ClassDiagram.Text.Word

/-! Blanks around and inside a text. Names hold no blanks, so a name is skipped, trimmed and split
off as one piece whatever stands around it. -/

namespace ClassDiagram.Proofs.Blanks
open Text

def apart (first second : Ranges) : Bool :=
  first.all fun (low, high) => second.all fun (low', high') => high < low' || high' < low

theorem apart_excludes {first second : Ranges} {c : Char} (separate : apart first second = true)
    (inside : first.has c = true) : second.has c = false := by
  simp only [apart, List.all_eq_true, Bool.or_eq_true, decide_eq_true_eq] at separate
  simp only [Ranges.has, List.any_eq_true, Bool.and_eq_true, decide_eq_true_eq] at inside
  obtain ⟨range, member, low, high⟩ := inside
  simp only [Ranges.has, List.any_eq_false, Bool.and_eq_true, decide_eq_true_eq]
  intro other present within
  have gap := separate range member other present
  omega

instance (priority := high) decidableForallChar (text : List Char) (P : Char → Prop)
    [DecidablePred P] : Decidable (∀ c ∈ text, P c) :=
  List.decidableBAll P text

/-- What holds of the first 128 code points holds of every ASCII character. -/
theorem ascii {P : Char → Prop} (all : ∀ n < 128, P (Char.ofNat n)) {c : Char}
    (small : c.toNat < 128) : P c := by
  simpa only [Char.ofNat_toNat] using all c.toNat small

private theorem word_not_blank {c : Char} (word : isWord c = true) : isBlank c = false := by
  by_cases small : c.toNat < 128
  · exact ascii (P := fun c => isWord c = true → isBlank c = false) (by decide) small word
  · cases blank : isBlank c with
    | false => rfl
    | true =>
      simp only [isBlank, small, ite_false] at blank
      have starts := @apart_excludes _ nameStarts _ (by decide +kernel) blank
      have tails := @apart_excludes _ nameTails _ (by decide +kernel) blank
      have extra := @apart_excludes _ extraWords _ (by decide +kernel) blank
      simp [isWord, small, starts, tails, extra] at word

theorem name_not_blank {c : Char} (name : isNameChar c = true) : isBlank c = false := by
  simp only [isNameChar, Bool.or_eq_true, beq_iff_eq] at name
  rcases name with word | rfl
  · exact word_not_blank word
  · decide

theorem qualified_not_blank {c : Char} (qualified : isQualifiedChar c = true) :
    isBlank c = false := by
  simp only [isQualifiedChar, Bool.or_eq_true, beq_iff_eq] at qualified
  rcases qualified with name | rfl
  · exact name_not_blank name
  · decide

theorem takeWhile_stops {p : α → Bool} {run tail : List α} (inside : ∀ c ∈ run, p c = true)
    (stops : ∀ c ∈ tail.head?, p c = false) : (run ++ tail).takeWhile p = run := by
  rw [List.takeWhile_append_of_pos inside]
  cases tail with
  | nil => simp
  | cons c tail => simp [stops c (by simp)]

theorem dropWhile_stops {p : α → Bool} {run tail : List α} (inside : ∀ c ∈ run, p c = true)
    (stops : ∀ c ∈ tail.head?, p c = false) : (run ++ tail).dropWhile p = tail := by
  rw [List.dropWhile_append_of_pos inside]
  cases tail with
  | nil => simp
  | cons c tail => simp [stops c (by simp)]

theorem skip_blanks {spaces text : List Char} (blank : ∀ c ∈ spaces, isBlank c = true) :
    skipBlanks (spaces ++ text) = skipBlanks text :=
  List.dropWhile_append_of_pos blank

theorem skip_solid {c : Char} {text : List Char} (solid : isBlank c = false) :
    skipBlanks (c :: text) = c :: text := by
  simp [skipBlanks, solid]

theorem skip_to_solid {spaces text : List Char} (blank : ∀ c ∈ spaces, isBlank c = true)
    (solid : ∀ c ∈ text.head?, isBlank c = false) : skipBlanks (spaces ++ text) = text :=
  dropWhile_stops blank solid

private theorem skip_length (text : List Char) : (skipBlanks text).length ≤ text.length :=
  (List.dropWhile_sublist isBlank).length_le

private theorem trimEnd_length (text : List Char) : (trimEnd text).length ≤ text.length := by
  simpa [trimEnd] using (List.dropWhile_sublist (l := text.reverse) isBlank).length_le

private theorem trimEnd_solid {c : Char} {text : List Char} (solid : isBlank c = false) :
    trimEnd (text ++ [c]) = text ++ [c] := by
  simp [trimEnd, solid]

theorem trim_pad {spaces text : List Char} (blank : ∀ c ∈ spaces, isBlank c = true) :
    trim (spaces ++ text) = trim text := by
  rw [trim, skip_blanks blank, trim]

/-- A text that trimming keeps starts with something other than a blank. -/
theorem trimmed_head {c : Char} {text : List Char} (trimmed : trim (c :: text) = c :: text) :
    isBlank c = false := by
  cases blank : isBlank c with
  | false => rfl
  | true =>
    have shorter : (trim (c :: text)).length ≤ text.length := by
      rw [trim, skipBlanks, List.dropWhile_cons_of_pos blank]
      exact Nat.le_trans (trimEnd_length _) (skip_length text)
    rw [trimmed, List.length_cons] at shorter
    omega

theorem trimmed_last {c : Char} {text : List Char} (trimmed : trim (text ++ [c]) = text ++ [c]) :
    isBlank c = false := by
  cases blank : isBlank c with
  | false => rfl
  | true =>
    have kept : skipBlanks (text ++ [c]) = text ++ [c] := by
      cases text with
      | nil => simp [trim, skipBlanks, blank, trimEnd] at trimmed
      | cons first rest => exact skip_solid (trimmed_head trimmed)
    rw [trim, kept, trimEnd, List.reverse_append, List.reverse_singleton, List.singleton_append,
      List.dropWhile_cons_of_pos blank] at trimmed
    have shorter := trimEnd_length text
    rw [trimEnd, trimmed, List.length_append, List.length_singleton] at shorter
    omega

theorem trim_of_ends {first last : Char} {text : List Char} (start : isBlank first = false)
    (stop : isBlank last = false) (shape : text.head? = some first)
    (ending : text.getLast? = some last) :
    trim text = text := by
  obtain ⟨rest, rfl⟩ := List.head?_eq_some_iff.mp shape
  obtain ⟨init, same⟩ := List.getLast?_eq_some_iff.mp ending
  rw [trim, skip_solid start, same, trimEnd_solid stop]

theorem trim_solid {text : List Char} (solid : ∀ c ∈ text, isBlank c = false) :
    trim text = text := by
  cases text with
  | nil => rfl
  | cons first rest =>
    have last : (first :: rest).getLast? = some ((first :: rest).getLast (by simp)) :=
      List.getLast?_eq_some_getLast _
    exact trim_of_ends (solid first (by simp)) (solid _ (List.getLast_mem (by simp))) rfl last

private theorem words_blank {c : Char} {text : List Char} (blank : isBlank c = true) :
    words (c :: text) = words text := by
  cases text with
  | nil => simp [words, blank]
  | cons d rest => simp [words, blank]

theorem words_pad {spaces text : List Char} (blank : ∀ c ∈ spaces, isBlank c = true) :
    words (spaces ++ text) = words text := by
  induction spaces with
  | nil => rfl
  | cons c spaces ih =>
    rw [List.cons_append, words_blank (blank c (by simp))]
    exact ih fun d member => blank d (by simp [member])

/-- A character that is no blank extends the word behind it, if there is one, and else is a word. -/
theorem words_solid {c : Char} {text : List Char} (solid : isBlank c = false) :
    ∃ word more, words (c :: text) = (c :: word) :: more ∧
      ∀ other ∈ more, other ∈ words text := by
  cases text with
  | nil => exact ⟨[], [], by simp [words, solid], by simp⟩
  | cons d rest =>
    by_cases blank : isBlank d = true
    · exact ⟨[], words (d :: rest), by simp [words, solid, blank], fun _ member => member⟩
    · cases behind : words (d :: rest) with
      | nil => exact ⟨[], [], by simp [words, solid, blank, behind], by simp⟩
      | cons word more =>
        exact ⟨word, more, by simp [words, solid, blank, behind], fun _ member => by simp [member]⟩

/-- A blank ends the words before it. -/
theorem words_split {blank : Char} {before after : List Char} (between : isBlank blank = true) :
    words (before ++ blank :: after) = words before ++ words after := by
  induction before with
  | nil => simp [words_blank between, words]
  | cons c before ih =>
    by_cases space : isBlank c = true
    · rw [List.cons_append, words_blank space, words_blank space, ih]
    · cases before with
      | nil => simp [words, space, between, words_blank between]
      | cons d rest =>
        by_cases next : isBlank d = true
        · simp only [List.cons_append, words, space, next, Bool.false_eq_true, ite_true, ite_false]
            at ih ⊢
          rw [ih]
        · obtain ⟨word, more, same, _⟩ := @words_solid _ rest (Bool.not_eq_true _ ▸ next)
          simp only [List.cons_append] at ih
          simp only [List.cons_append, words, space, next, Bool.false_eq_true, ite_false, ih, same]

theorem words_of_solid {text : List Char} (solid : ∀ c ∈ text, isBlank c = false)
    (some : text ≠ []) : words text = [text] := by
  induction text with
  | nil => exact absurd rfl some
  | cons c rest ih =>
    cases rest with
    | nil => simp [words, solid c]
    | cons d rest =>
      have behind := ih (fun x member => solid x (by simp [member])) (by simp)
      simp [words, solid c, solid d, behind]

/-- A character put before a text joins one word at most. -/
theorem words_cons {c : Char} {text word : List Char} (member : word ∈ words (c :: text)) :
    c ∈ word ∨ word ∈ words text := by
  by_cases blank : isBlank c = true
  · rw [words_blank blank] at member
    exact Or.inr member
  · obtain ⟨first, more, same, old⟩ := @words_solid _ text (Bool.not_eq_true _ ▸ blank)
    rw [same] at member
    rcases List.mem_cons.mp member with rfl | member
    · exact Or.inl (by simp)
    · exact Or.inr (old word member)

/-- A character put behind a text joins its last word or is a word of its own. -/
theorem words_concat {c : Char} (solid : isBlank c = false) (text : List Char) :
    ∃ init tail, words (text ++ [c]) = init ++ [tail ++ [c]] ∧
      words text = init ++ (if tail = [] then [] else [tail]) := by
  induction text with
  | nil => exact ⟨[], [], by simp [words, solid], by simp [words]⟩
  | cons d text ih =>
    obtain ⟨init, tail, longer, same⟩ := ih
    by_cases space : isBlank d = true
    · rw [List.cons_append, words_blank space, words_blank space]
      exact ⟨init, tail, longer, same⟩
    · cases text with
      | nil => exact ⟨[], [d], by simp [words, space, solid], by simp [words, space]⟩
      | cons e rest =>
        simp only [List.cons_append] at longer
        by_cases next : isBlank e = true
        · refine ⟨[d] :: init, tail, ?_, ?_⟩
          · simp [words, space, next, longer]
          · simp [words, space, next, same]
        · obtain ⟨word, more, first, _⟩ := @words_solid _ rest (Bool.not_eq_true _ ▸ next)
          rw [first] at same
          cases init with
          | nil =>
            by_cases none : tail = []
            · simp [none] at same
            · refine ⟨[], d :: tail, ?_, ?_⟩
              · simp [words, space, next, longer]
              · simp only [none, ite_false, List.nil_append] at same
                simp [words, space, next, first, same]
          | cons start init =>
            refine ⟨(d :: start) :: init, tail, ?_, ?_⟩
            · simp [words, space, next, longer]
            · simp only [List.cons_append] at same
              simp [words, space, next, first, same]

/-- A word of a quoted text holds a quote or is a word of the text. -/
theorem words_quoted {text word : List Char} (member : word ∈ words ('"' :: text ++ ['"'])) :
    '"' ∈ word ∨ word ∈ words text := by
  rw [List.cons_append] at member
  rcases words_cons member with quote | member
  · exact Or.inl quote
  · obtain ⟨init, tail, longer, same⟩ := words_concat (c := '"') (by decide) text
    rw [longer] at member
    rcases List.mem_append.mp member with member | member
    · exact Or.inr (by simp [same, member])
    · exact Or.inl (by simp_all)

end ClassDiagram.Proofs.Blanks
