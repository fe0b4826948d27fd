import ClassDiagram.Java.Form

/-! What the remainders of a form are. They are computed as lists without repetition, kept by
falling length; a remainder is a suffix of the input, so two of one length are equal and such a list
is a set. Each kind of form has one law that says which remainders it leaves. -/

namespace ClassDiagram.Proofs.Remainders
open Java Form

def Falling (all : List (List Tree)) : Prop :=
  all.Pairwise fun first second => second.length < first.length

def Within (trees : List Tree) (all : List (List Tree)) : Prop :=
  ∀ rest ∈ all, rest <:+ trees

theorem suffix_unique {trees first second : List Tree} (one : first <:+ trees)
    (two : second <:+ trees) (same : first.length = second.length) : first = second := by
  obtain ⟨before, rfl⟩ := one
  obtain ⟨before', equal⟩ := two
  exact (List.append_inj_right' equal same.symm).symm

private theorem mem_of_insert {rest other : List Tree} {all : List (List Tree)}
    (member : other ∈ Form.insert rest all) : other = rest ∨ other ∈ all := by
  induction all with
  | nil => simpa [Form.insert] using member
  | cons first others ih =>
    simp only [Form.insert] at member
    split at member
    · simpa using member
    · split at member
      · rcases List.mem_cons.mp member with rfl | member
        · exact Or.inr (by simp)
        · rcases ih member with same | present
          · exact Or.inl same
          · exact Or.inr (by simp [present])
      · exact Or.inr member

private theorem mem_insert_old {rest other : List Tree} {all : List (List Tree)}
    (member : other ∈ all) : other ∈ Form.insert rest all := by
  induction all with
  | nil => simp at member
  | cons first others ih =>
    simp only [Form.insert]
    split
    · exact List.mem_cons_of_mem _ member
    · split
      · rcases List.mem_cons.mp member with rfl | member
        · exact List.mem_cons_self
        · exact List.mem_cons_of_mem _ (ih member)
      · exact member

private theorem mem_insert_new {trees rest : List Tree} {all : List (List Tree)}
    (own : rest <:+ trees) (within : Within trees all) : rest ∈ Form.insert rest all := by
  induction all with
  | nil => simp [Form.insert]
  | cons first others ih =>
    simp only [Form.insert]
    split
    · exact List.mem_cons_self
    · split
      · exact List.mem_cons_of_mem _ (ih fun other member => within other (by simp [member]))
      · have same : rest = first := suffix_unique own (within first (by simp)) (by omega)
        simp [same]

private theorem mem_insert {trees rest other : List Tree} {all : List (List Tree)}
    (own : rest <:+ trees) (within : Within trees all) :
    other ∈ Form.insert rest all ↔ other = rest ∨ other ∈ all := by
  refine ⟨mem_of_insert, ?_⟩
  rintro (rfl | member)
  · exact mem_insert_new own within
  · exact mem_insert_old member

private theorem insert_falling {rest : List Tree} {all : List (List Tree)} (falling : Falling all) :
    Falling (Form.insert rest all) := by
  induction all with
  | nil => simp [Form.insert, Falling]
  | cons first others ih =>
    obtain ⟨below, sorted⟩ := List.pairwise_cons.mp falling
    simp only [Form.insert]
    split
    next shorter =>
      refine List.pairwise_cons.mpr ⟨?_, falling⟩
      intro other member
      rcases List.mem_cons.mp member with rfl | member
      · exact shorter
      · exact Nat.lt_trans (below other member) shorter
    next =>
      split
      next longer =>
        refine List.pairwise_cons.mpr ⟨?_, ih sorted⟩
        intro other member
        rcases mem_of_insert member with rfl | member
        · exact longer
        · exact below other member
      next => exact falling

private theorem mem_of_merge {rest : List Tree} {left right : List (List Tree)}
    (member : rest ∈ merge left right) : rest ∈ left ∨ rest ∈ right := by
  induction left with
  | nil => exact Or.inr member
  | cons first left ih =>
    rcases mem_of_insert member with rfl | member
    · exact Or.inl (by simp)
    · rcases ih member with present | present
      · exact Or.inl (by simp [present])
      · exact Or.inr present

private theorem merge_within {trees : List Tree} {left right : List (List Tree)}
    (one : Within trees left) (two : Within trees right) : Within trees (merge left right) := by
  intro rest member
  rcases mem_of_merge member with member | member
  · exact one rest member
  · exact two rest member

private theorem mem_merge {trees rest : List Tree} {left right : List (List Tree)}
    (one : Within trees left) (two : Within trees right) :
    rest ∈ merge left right ↔ rest ∈ left ∨ rest ∈ right := by
  refine ⟨mem_of_merge, ?_⟩
  intro member
  induction left with
  | nil => simpa [merge] using member
  | cons first left ih =>
    have others : Within trees left := fun rest member => one rest (by simp [member])
    have inserted := @mem_insert _ _ rest _ (one first (by simp)) (merge_within others two)
    refine inserted.mpr ?_
    rcases member with member | member
    · rcases List.mem_cons.mp member with same | member
      · exact Or.inl same
      · exact Or.inr (ih others (Or.inl member))
    · exact Or.inr (ih others (Or.inr member))

private theorem merge_falling {left right : List (List Tree)} (falling : Falling right) :
    Falling (merge left right) := by
  induction left with
  | nil => exact falling
  | cons first left ih => exact insert_falling ih

/-- What repeated steps reach, each of which takes something. -/
inductive Steps (step : List Tree → List (List Tree)) : List Tree → List Tree → Prop
  | done (trees : List Tree) : Steps step trees trees
  | next {trees middle rest : List Tree} (one : middle ∈ step trees)
      (shorter : middle.length < trees.length)
      (more : Steps step middle rest) : Steps step trees rest

private theorem steps_of_closure {step : List Tree → List (List Tree)} {fuel : Nat}
    {pending : List (List Tree)} {rest : List Tree} (member : rest ∈ closure step fuel pending) :
    ∃ start ∈ pending, Steps step start rest := by
  induction fuel generalizing pending with
  | zero => exact ⟨rest, by simpa [Form.closure] using member, .done rest⟩
  | succ fuel ih =>
    cases pending with
    | nil => simp [Form.closure] at member
    | cons first pending =>
      rcases List.mem_cons.mp member with rfl | member
      · exact ⟨rest, by simp, .done rest⟩
      · obtain ⟨start, present, steps⟩ := ih member
        rcases mem_of_merge present with fresh | old
        · obtain ⟨one, shorter⟩ := List.mem_filter.mp fresh
          exact ⟨first, by simp, .next one (by simpa using shorter) steps⟩
        · exact ⟨start, by simp [old], steps⟩

/-- The fuel counts lengths: each round takes the longest pending list off and adds shorter ones
only. -/
theorem closure_of_steps {step : List Tree → List (List Tree)} {trees : List Tree}
    (sound : ∀ {from'}, from' <:+ trees → Within trees (step from')) {fuel : Nat}
    {pending : List (List Tree)} (within : Within trees pending) (falling : Falling pending)
    (enough : ∀ start ∈ pending, start.length < fuel) {start rest : List Tree}
    (member : start ∈ pending) (steps : Steps step start rest) :
    rest ∈ closure step fuel pending := by
  induction fuel generalizing pending start with
  | zero => exact absurd (enough start member) (by omega)
  | succ fuel ih =>
    cases pending with
    | nil => simp at member
    | cons first pending =>
      obtain ⟨below, sorted⟩ := List.pairwise_cons.mp falling
      have fresh : Within trees ((step first).filter (·.length < first.length)) :=
        fun rest present =>
        sound (within first (by simp)) rest (List.mem_filter.mp present).1
      have old : Within trees pending := fun rest present => within rest (by simp [present])
      have bound := enough first (by simp)
      have smaller :
          ∀ next ∈ merge ((step first).filter (·.length < first.length)) pending,
          next.length < fuel := by
        intro next present
        rcases mem_of_merge present with present | present
        · have shorter : next.length < first.length := by simpa using (List.mem_filter.mp present).2
          omega
        · have shorter := below next present
          omega
      have rounds := @ih _ (merge_within fresh old) (merge_falling sorted) smaller
      rcases List.mem_cons.mp member with rfl | member
      · cases steps with
        | done => exact List.mem_cons_self
        | next one shorter more =>
          apply List.mem_cons_of_mem
          exact rounds
            ((mem_merge fresh old).mpr (Or.inl (List.mem_filter.mpr ⟨one, by simpa using shorter⟩)))
            more
      · exact List.mem_cons_of_mem _ (rounds ((mem_merge fresh old).mpr (Or.inr member)) steps)

theorem steps_suffix {step : List Tree → List (List Tree)}
    (sound : ∀ trees, Within trees (step trees)) {trees rest : List Tree}
    (steps : Steps step trees rest) : rest <:+ trees := by
  induction steps with
  | done => exact List.suffix_rfl
  | next one _ _ ih => exact ih.trans (sound _ _ one)

/-- Rules leave suffixes, as lists kept by falling length. -/
structure Tidy (callees : Rule → List Tree → List (List Tree)) : Prop where
  within : ∀ rule trees, Within trees (callees rule trees)
  falling : ∀ rule trees, Falling (callees rule trees)

section
variable {callees : Rule → List Tree → List (List Tree)}

private theorem mem_of_sequel {form : Form} {starts : List (List Tree)} {rest : List Tree}
    (member : rest ∈ starts.foldr (fun start found => merge (endsBy callees form start) found) []) :
    ∃ start ∈ starts, rest ∈ endsBy callees form start := by
  induction starts with
  | nil => simp at member
  | cons first starts ih =>
    rcases mem_of_merge member with member | member
    · exact ⟨first, by simp, member⟩
    · obtain ⟨start, present, member⟩ := ih member
      exact ⟨start, by simp [present], member⟩

theorem mem_one {shape : Shape} {trees rest : List Tree} :
    rest ∈ endsBy callees (.one shape) trees ↔ ∃ t, shape.accepts t = true ∧
      trees = .leaf t :: rest := by
  simp only [endsBy]
  split
  next t rest' =>
    by_cases accepted : shape.accepts t = true
    · simp only [accepted, if_true, List.mem_singleton, List.cons.injEq, Tree.leaf.injEq]
      constructor
      · rintro rfl
        exact ⟨t, accepted, rfl, rfl⟩
      · rintro ⟨_, _, _, rfl⟩
        rfl
    · simp only [accepted, Bool.false_eq_true, if_false, List.not_mem_nil, List.cons.injEq,
        Tree.leaf.injEq, false_iff]
      rintro ⟨_, taken, rfl, _⟩
      exact accepted taken
  · simp_all

theorem mem_inside {bracket : Bracket} {rule : Rule} {trees rest : List Tree} :
    rest ∈ endsBy callees (.inside bracket rule) trees ↔
      ∃ rules opening closing inner, rule ∈ rules ∧
      trees = .group bracket rules opening closing inner :: rest := by
  simp only [endsBy]
  split
  next found rules opening closing inner rest' =>
    by_cases matching : found = bracket ∧ rule ∈ rules
    · obtain ⟨rfl, listed⟩ := matching
      simp only [decide_true, Bool.true_and, List.contains_iff_mem, listed, if_true,
        List.mem_singleton]
      constructor
      · rintro rfl
        exact ⟨_, _, _, _, listed, rfl⟩
      · rintro ⟨_, _, _, _, _, same⟩
        exact (List.cons.inj same).2.symm
    · constructor
      · intro member
        split at member
        · simp_all
        · simp at member
      · rintro ⟨_, _, _, _, listed, same⟩
        simp_all
  · simp_all

theorem mem_absent {form : Form} {trees rest : List Tree} :
    rest ∈ endsBy callees (.absent form) trees ↔ rest = trees ∧ endsBy callees form trees = [] := by
  simp only [endsBy]
  split <;> simp_all [List.isEmpty_iff]

theorem endsBy_within (tidy : Tidy callees) (form : Form) (trees : List Tree) :
    Within trees (endsBy callees form trees) := by
  induction form generalizing trees with
  | empty => simp [Within, endsBy]
  | one shape =>
    intro rest member
    obtain ⟨t, _, rfl⟩ := mem_one.mp member
    exact List.suffix_cons _ rest
  | inside bracket rule =>
    intro rest member
    obtain ⟨_, _, _, _, _, rfl⟩ := mem_inside.mp member
    exact List.suffix_cons _ rest
  | call rule => exact tidy.within rule trees
  | seq first second one two =>
    intro rest member
    obtain ⟨middle, present, member⟩ := mem_of_sequel member
    exact (two middle rest member).trans (one trees middle present)
  | alt left right one two => exact merge_within (one trees) (two trees)
  | star body ih =>
    intro rest member
    obtain ⟨start, present, steps⟩ := steps_of_closure member
    rw [List.mem_singleton.mp present] at steps
    exact steps_suffix ih steps
  | absent form =>
    intro rest member
    exact (mem_absent.mp member).1 ▸ List.suffix_rfl

private theorem sequel_within {trees : List Tree} (tidy : Tidy callees) {form : Form}
    {starts : List (List Tree)} (within : Within trees starts) :
    Within trees (starts.foldr
      (fun start found => merge (endsBy callees form start) found) []) := by
  intro rest member
  obtain ⟨start, present, member⟩ := mem_of_sequel member
  exact (endsBy_within tidy form start rest member).trans (within start present)

theorem mem_seq (tidy : Tidy callees) {first second : Form} {trees rest : List Tree} :
    rest ∈ endsBy callees (.seq first second) trees ↔
      ∃ middle ∈ endsBy callees first trees, rest ∈ endsBy callees second middle := by
  refine ⟨mem_of_sequel, ?_⟩
  rintro ⟨middle, present, member⟩
  have within := endsBy_within tidy first trees
  simp only [endsBy]
  generalize endsBy callees first trees = starts at present within
  induction starts with
  | nil => simp at present
  | cons start starts ih =>
    have others : Within trees starts := fun rest member => within rest (by simp [member])
    have here : Within trees (endsBy callees second start) := fun rest member =>
      (endsBy_within tidy second start rest member).trans (within start (by simp))
    refine (mem_merge here (sequel_within tidy others)).mpr ?_
    rcases List.mem_cons.mp present with rfl | present
    · exact Or.inl member
    · exact Or.inr (ih present others)

theorem mem_alt (tidy : Tidy callees) {left right : Form} {trees rest : List Tree} :
    rest ∈ endsBy callees (.alt left right) trees ↔
      rest ∈ endsBy callees left trees ∨ rest ∈ endsBy callees right trees :=
  mem_merge (endsBy_within tidy left trees) (endsBy_within tidy right trees)

theorem mem_star (tidy : Tidy callees) {body : Form} {trees rest : List Tree} :
    rest ∈ endsBy callees (.star body) trees ↔ Steps (endsBy callees body) trees rest := by
  constructor
  · intro member
    obtain ⟨start, present, steps⟩ := steps_of_closure member
    exact List.mem_singleton.mp present ▸ steps
  · intro steps
    have sound : ∀ {start}, start <:+ trees → Within trees (endsBy callees body start) :=
      fun within rest member =>
      (endsBy_within tidy body _ rest member).trans within
    exact closure_of_steps sound (by simp [Within]) (by simp [Falling]) (by simp) (by simp) steps

private theorem closure_falling {step : List Tree → List (List Tree)} {fuel : Nat}
    {pending : List (List Tree)} (tame : ∀ trees, Within trees (step trees))
    (falling : Falling pending) :
    Falling (closure step fuel pending) := by
  induction fuel generalizing pending with
  | zero => exact falling
  | succ fuel ih =>
    cases pending with
    | nil => simp [Form.closure, Falling]
    | cons first pending =>
      obtain ⟨below, sorted⟩ := List.pairwise_cons.mp falling
      refine List.pairwise_cons.mpr ⟨?_, ih (merge_falling sorted)⟩
      intro rest member
      obtain ⟨start, present, steps⟩ := steps_of_closure member
      have shorter : start.length < first.length := by
        rcases mem_of_merge present with present | present
        · simpa using (List.mem_filter.mp present).2
        · exact below start present
      have shrinks := (steps_suffix tame steps).length_le
      omega

theorem endsBy_falling (tidy : Tidy callees) (form : Form) (trees : List Tree) :
    Falling (endsBy callees form trees) := by
  induction form generalizing trees with
  | empty => simp [Falling, endsBy]
  | one shape =>
    simp only [endsBy]
    split
    · split <;> simp [Falling]
    · simp [Falling]
  | inside bracket rule =>
    simp only [endsBy]
    split
    · split <;> simp [Falling]
    · simp [Falling]
  | call rule => exact tidy.falling rule trees
  | seq first second _ two =>
    simp only [endsBy]
    generalize endsBy callees first trees = starts
    induction starts with
    | nil => simp [Falling]
    | cons start starts ih => exact merge_falling ih
  | alt left right _ two => exact merge_falling (two trees)
  | star body => exact closure_falling (endsBy_within tidy body) (by simp [Falling])
  | absent form =>
    simp only [endsBy]
    split <;> simp [Falling]

end

theorem ends_tidy (grammar : Rule → Form) (fuel : Nat) : Tidy (ends grammar fuel) := by
  induction fuel with
  | zero => exact ⟨by simp [ends, Within], by simp [ends, Falling]⟩
  | succ fuel ih =>
    exact ⟨fun rule => endsBy_within ih (grammar rule),
      fun rule => endsBy_falling ih (grammar rule)⟩

theorem remainders_within (grammar : Rule → Form) (form : Form) (trees : List Tree) :
    Within trees (remainders grammar form trees) :=
  endsBy_within (ends_tidy grammar _) form trees

theorem longest_mem {grammar : Rule → Form} {form : Form} {trees rest : List Tree}
    (longest : form.longest? grammar trees = some rest) : rest ∈ remainders grammar form trees :=
  List.mem_of_getLast? longest

theorem longest_suffix {grammar : Rule → Form} {form : Form} {trees rest : List Tree}
    (longest : form.longest? grammar trees = some rest) : rest <:+ trees :=
  remainders_within grammar form trees rest (longest_mem longest)

/-- The reading that leaves least is the longest one. -/
theorem longest_least {grammar : Rule → Form} {form : Form} {trees rest : List Tree}
    (member : rest ∈ remainders grammar form trees)
    (least : ∀ other ∈ remainders grammar form trees, rest.length ≤ other.length) :
    form.longest? grammar trees = some rest := by
  obtain ⟨front, last, whole⟩ :=
    List.eq_nil_or_concat (remainders grammar form trees) |>.resolve_left
      (List.ne_nil_of_mem member)
  have falling : Falling (remainders grammar form trees) :=
    endsBy_falling (ends_tidy _ _) form trees
  have within := remainders_within grammar form trees
  have short : last.length ≤ rest.length := by
    rw [whole, List.concat_eq_append] at member falling
    rcases List.mem_append.mp member with inside | same
    · exact Nat.le_of_lt ((List.pairwise_append.mp falling).2.2 rest inside last (by simp))
    · simp [List.mem_singleton.mp same]
  have listed : last ∈ remainders grammar form trees := by simp [whole]
  have same : last = rest :=
    suffix_unique (within last listed) (within rest member)
      (Nat.le_antisymm short (least last listed))
  simp [longest?, whole, same]

end ClassDiagram.Proofs.Remainders
