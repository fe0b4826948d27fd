import ClassDiagram.Proofs.GeneratedMembers
import ClassDiagram.Proofs.LocalReadings

/-! Readings that the next tree decides. Where the parts of a form start with different trees, two
readings of it part only where the one goes on and the other stops. A reading before a tree with
which the form cannot go on is then the longest one, and it is found however deep calls may nest.
All this holds of types, of modifiers and of the headings made of them. -/

namespace ClassDiagram.Proofs.DecidedReadings
open Java Java.Tree Java.Outline Form Likeness Remainders BodyPieces LocalReadings

def disjoint : Shape → Shape → Bool
  | .words texts, .words others => texts.all (!others.contains ·)
  | .words texts, .name excluded => texts.all excluded.contains
  | .name excluded, .words texts => texts.all excluded.contains
  | .symbols texts, .symbols others => texts.all (!others.contains ·)
  | .symbols _, .words _ => true
  | .symbols _, .name _ => true
  | .words _, .symbols _ => true
  | .name _, .symbols _ => true
  | _, _ => false

def excludes : Form → Form → Bool
  | .one shape, .one other => disjoint shape other
  | .one _, .inside _ _ => true
  | .inside _ _, .one _ => true
  | .inside bracket _, .inside other _ => bracket != other
  | _, _ => false

def exclusive (atoms others : List Form) : Bool :=
  atoms.all fun atom => others.all (excludes atom)

theorem disjoint_accepts {shape other : Shape} (none : disjoint shape other = true) {t : Token}
    (accepted : shape.accepts t = true) : other.accepts t = false := by
  cases shape <;> cases other
  case name.words excluded texts =>
    have outside : t.keyword ∉ excluded := by simp_all [Shape.accepts]
    have inside : ∀ text ∈ texts, text ∈ excluded := by simpa [disjoint] using none
    simp [Shape.accepts, mt (inside t.keyword) outside]
  all_goals simp_all [disjoint, Shape.accepts]

private theorem excludes_takes {atom other : Form} (none : excludes atom other = true) {t : Tree}
    (taken : takes atom t = true) : takes other t = false := by
  cases t with
  | leaf t =>
    cases atom with
    | one shape =>
      cases other with
      | one other => exact disjoint_accepts none taken
      | _ => rfl
    | _ => simp [takes] at taken
  | group bracket =>
    cases atom with
    | inside found =>
      cases other with
      | inside other =>
        simp only [takes, excludes, Bool.and_eq_true, decide_eq_true_eq, bne_iff_ne] at taken none ⊢
        simp [taken.1, none]
      | _ => rfl
    | _ => simp [takes] at taken

/-- A word that is taken for a keyword is spelled like it. -/
theorem word_spelled {text : String} {t : Tree} (taken : takes (Form.word text) t = true)
    (plain : text ≠ "non-sealed") :
    ∃ token, t = .leaf token ∧ ∀ other, token.isWord other = (text == other) := by
  cases t with
  | leaf token =>
    simp only [takes, Form.word, Shape.accepts, Bool.and_eq_true, beq_iff_eq, List.contains_iff_mem,
      List.mem_singleton] at taken
    obtain ⟨kind, keyword⟩ := taken
    have spelled : token.text = text := by
      simp only [Token.keyword] at keyword
      split at keyword
      · exact absurd keyword.symm plain
      · exact keyword
    exact ⟨token, rfl, fun other => by simp [Token.isWord, kind, spelled]⟩
  | group => simp [takes, Form.word] at taken

def StartsLike (atoms : List Form) (trees : List Tree) : Prop :=
  ∃ t ∈ trees.head?, ∃ atom ∈ atoms, takes atom t = true

theorem StartsLike.mono {atoms others : List Form} {trees : List Tree}
    (like : StartsLike atoms trees) (listed : atoms ⊆ others) : StartsLike others trees := by
  obtain ⟨t, head, atom, member, taken⟩ := like
  exact ⟨t, head, atom, listed member, taken⟩

theorem StartsLike.apart {atoms others : List Form} {trees : List Tree}
    (like : StartsLike atoms trees) (none : exclusive atoms others = true) :
    ¬StartsLike others trees := by
  obtain ⟨t, head, atom, member, taken⟩ := like
  rintro ⟨t', head', other, member', taken'⟩
  obtain rfl := Option.some.inj (head.symm.trans head')
  simp only [exclusive, List.all_eq_true] at none
  simp [excludes_takes (none atom member other member') taken] at taken'

/-- How annotations and type arguments start. -/
def firsts : Rule → List Form
  | .tag => [Form.sym "@", Form.sym "@interface"]
  | .typeArguments => [Form.sym "<"]
  | _ => []

/-- How an annotation may go on. Type arguments end with their closing angle. -/
def furthers : Rule → List Form
  | .tag => [Form.sym ".", .inside .paren .annotationArguments]
  | _ => []

def bars : Form → List Form
  | .absent form => [form]
  | _ => []

/-- The forms for the first tree of a reading that takes one. -/
def starts : Form → List Form
  | .one shape => [.one shape]
  | .inside bracket rule => [.inside bracket rule]
  | .call rule => firsts rule
  | .seq first second =>
    starts first ++ if solid typeRules first then []
      else (starts second).filter (!(bars first).contains ·)
  | .alt left right => starts left ++ starts right
  | .star body => starts body
  | _ => []

/-- The forms for the next tree behind a reading, if a longer one goes on with it. -/
def continues : Form → List Form
  | .call rule => furthers rule
  | .seq first second => continues second ++ if solid typeRules second then [] else continues first
  | .alt left right =>
    continues left ++ continues right ++ (if solid typeRules right then [] else starts left) ++
      if solid typeRules left then [] else starts right
  | .star body => starts body ++ continues body
  | _ => []

/-- Two forms that differ only behind a common start. -/
def partsLater : Form → Form → Bool
  | .seq first second, .seq other third =>
    first = other && solid typeRules second && solid typeRules third &&
      exclusive (starts second) (starts third)
  | _, _ => false

/-- The next tree tells which part of the form is read next. -/
def isDecided : Form → Bool
  | .call rule => typeRules rule
  | .seq first second =>
    isDecided first && isDecided second && exclusive (continues first) (starts second)
  | .alt left right =>
    isDecided left && isDecided right &&
      (exclusive (starts left) (starts right) || partsLater left right)
  | .star body => isDecided body && exclusive (continues body) (starts body)
  | _ => true

/-- Of two readings the shorter one stops before a tree with which the longer one goes on. -/
def Decided (read : List Tree → List (List Tree)) (further : List Form) : Prop :=
  ∀ {trees first second}, first ∈ read trees → second ∈ read trees → first.length < second.length →
    StartsLike further second

/-- What is known of the rules for annotations and type arguments. -/
structure Deciding (callees : Rule → List Tree → List (List Tree)) : Prop where
  tidy : Tidy callees
  solid : ∀ rule trees rest, typeRules rule = true → rest ∈ callees rule trees →
    rest.length < trees.length
  starts : ∀ rule trees rest, typeRules rule = true → rest ∈ callees rule trees →
    StartsLike (firsts rule) trees
  decided : ∀ rule, typeRules rule = true → Decided (callees rule) (furthers rule)

theorem atom_read {callees : Rule → List Tree → List (List Tree)} {atom : Form} {t : Tree}
    (taken : takes atom t = true) (rest : List Tree) :
    endsBy callees atom (t :: rest) = [rest] := by
  cases atom with
  | one shape => rw [endsBy_one, if_pos taken]
  | inside bracket rule => rw [endsBy_inside, if_pos taken]
  | _ => cases t <;> simp [takes] at taken

section
variable {callees : Rule → List Tree → List (List Tree)} (deciding : Deciding callees)
include deciding

/-- A form that can be read as nothing is not solid. -/
theorem idle_reading {form : Form} {trees rest : List Tree}
    (read : rest ∈ endsBy callees form trees) (idle : ¬rest.length < trees.length) :
    rest = trees ∧ solid typeRules form = false := by
  have within := endsBy_within deciding.tidy form trees rest read
  exact ⟨within.eq_of_length (Nat.le_antisymm within.length_le (Nat.le_of_not_lt idle)),
    Bool.eq_false_iff.mpr fun isSolid =>
      idle (endsBy_solid deciding.tidy deciding.solid isSolid read)⟩

/-- A reading that takes something starts with one of the forms. -/
theorem starts_like {form : Form} (decided : isDecided form = true) {trees rest : List Tree}
    (read : rest ∈ endsBy callees form trees) (some : rest.length < trees.length) :
    StartsLike (starts form) trees := by
  have tidy := deciding.tidy
  induction form generalizing trees rest with
  | empty => simp [List.mem_singleton.mp read] at some
  | one shape =>
    obtain ⟨t, rfl, taken⟩ := mem_one_takes read
    exact ⟨t, rfl, _, by simp [starts], taken⟩
  | inside bracket rule =>
    obtain ⟨t, rfl, taken⟩ := mem_inside_takes read
    exact ⟨t, rfl, _, by simp [starts], taken⟩
  | call rule => exact deciding.starts rule trees rest decided read
  | seq first second one two =>
    simp only [isDecided, Bool.and_eq_true] at decided
    obtain ⟨middle, start, sequel⟩ := (mem_seq tidy).mp read
    by_cases shorter : middle.length < trees.length
    · exact (one decided.1.1 start shorter).mono (by simp [starts])
    · obtain ⟨rfl, hollow⟩ := idle_reading deciding start shorter
      obtain ⟨t, head, atom, member, taken⟩ := two decided.1.2 sequel some
      refine ⟨t, head, atom, ?_, taken⟩
      have allowed : atom ∉ bars first := by
        intro barred
        cases first with
        | absent form =>
          obtain rfl : atom = form := by simpa [bars] using barred
          obtain ⟨rest, rfl⟩ := List.head?_eq_some_iff.mp head
          have none := (mem_absent.mp start).2
          rw [atom_read taken rest] at none
          simp at none
        | _ => simp [bars] at barred
      simp [starts, hollow, member, allowed]
  | alt left right one two =>
    simp only [isDecided, Bool.and_eq_true] at decided
    rcases (mem_alt tidy).mp read with read | read
    · exact (one decided.1.1 read some).mono (by simp [starts])
    · exact (two decided.1.2 read some).mono (by simp [starts])
  | star body ih =>
    simp only [isDecided, Bool.and_eq_true] at decided
    cases (mem_star tidy).mp read with
    | done => exact absurd some (Nat.lt_irrefl _)
    | next step shorter => exact ih decided.1 step shorter
  | absent form => simp [(mem_absent.mp read).1] at some

/-- A sequel cannot start where the form before it could go on. -/
theorem no_sequel {first second : Form} (decided : isDecided (.seq first second) = true)
    {middle rest : List Tree} (like : StartsLike (continues first) middle)
    (sequel : rest ∈ endsBy callees second middle) :
    rest = middle := by
  simp only [isDecided, Bool.and_eq_true] at decided
  by_cases shorter : rest.length < middle.length
  · exact absurd (starts_like deciding decided.1.2 sequel shorter) (like.apart decided.2)
  · exact (idle_reading deciding sequel shorter).1

private theorem decided_seq {first second : Form} (decided : isDecided (.seq first second) = true)
    (one : Decided (endsBy callees first) (continues first))
    (two : Decided (endsBy callees second) (continues second)) :
    Decided (endsBy callees (.seq first second)) (continues (.seq first second)) := by
  have tidy := deciding.tidy
  intro trees longer shorter read read' less
  obtain ⟨middle, start, sequel⟩ := (mem_seq tidy).mp read
  obtain ⟨middle', start', sequel'⟩ := (mem_seq tidy).mp read'
  have within := (endsBy_within tidy second middle longer sequel).length_le
  have within' := (endsBy_within tidy second middle' shorter sequel').length_le
  rcases Nat.lt_trichotomy middle.length middle'.length with early | same | late
  · have like := one start start' early
    obtain rfl := no_sequel deciding decided like sequel'
    have hollow := (idle_reading deciding sequel' (Nat.lt_irrefl _)).2
    exact like.mono (by simp [continues, hollow])
  · obtain rfl :=
      suffix_unique (endsBy_within tidy first trees middle start)
        (endsBy_within tidy first trees middle' start') same
    exact (two sequel sequel' less).mono (by simp [continues])
  · obtain rfl := no_sequel deciding decided (one start' start late) sequel
    omega

/-- Behind a common start only one of two such forms can go on. -/
theorem partsLater_apart {first second third : Form} (left : isDecided (.seq first second) = true)
    (right : isDecided (.seq first third) = true)
    (later : partsLater (.seq first second) (.seq first third) = true)
    (one : Decided (endsBy callees first) (continues first))
    {trees rest rest' : List Tree} (read : rest ∈ endsBy callees (.seq first second) trees)
    (read' : rest' ∈ endsBy callees (.seq first third) trees) :
    False := by
  have tidy := deciding.tidy
  simp only [partsLater, Bool.and_eq_true, decide_true, true_and] at later
  obtain ⟨⟨isSolid, isSolid'⟩, none⟩ := later
  obtain ⟨middle, start, sequel⟩ := (mem_seq tidy).mp read
  obtain ⟨middle', start', sequel'⟩ := (mem_seq tidy).mp read'
  have some := endsBy_solid tidy deciding.solid isSolid sequel
  have some' := endsBy_solid tidy deciding.solid isSolid' sequel'
  rcases Nat.lt_trichotomy middle.length middle'.length with early | same | late
  · exact absurd some'
      (by rw [no_sequel deciding right (one start start' early) sequel']; exact Nat.lt_irrefl _)
  · obtain rfl :=
      suffix_unique (endsBy_within tidy first trees middle start)
        (endsBy_within tidy first trees middle' start') same
    simp only [isDecided, Bool.and_eq_true] at left right
    exact (starts_like deciding left.1.2 sequel some).apart none
      (starts_like deciding right.1.2 sequel' some')
  · exact absurd some
      (by rw [no_sequel deciding left (one start' start late) sequel]; exact Nat.lt_irrefl _)

/-- Of the two forms of a choice only one has a reading that takes something. -/
theorem alt_apart {left right : Form} (decided : isDecided (.alt left right) = true)
    (common : ∀ first second, left = .seq first second →
      Decided (endsBy callees first) (continues first)) {trees rest rest' : List Tree}
    (read : rest ∈ endsBy callees left trees) (read' : rest' ∈ endsBy callees right trees)
    (some : rest.length < trees.length) (some' : rest'.length < trees.length) :
    False := by
  simp only [isDecided, Bool.and_eq_true] at decided
  obtain ⟨⟨isLeft, isRight⟩, choice⟩ := decided
  rcases Bool.or_eq_true_iff.mp choice with none | later
  · exact (starts_like deciding isLeft read some).apart none
      (starts_like deciding isRight read' some')
  · cases left with
    | seq first second =>
      cases right with
      | seq other third =>
        obtain rfl : first = other := by
          simp only [partsLater, Bool.and_eq_true, decide_eq_true_eq] at later
          exact later.1.1.1
        exact partsLater_apart deciding isLeft isRight later (common _ _ rfl) read read'
      | _ => simp [partsLater] at later
    | _ => simp [partsLater] at later

private theorem decided_alt {left right : Form} (decided : isDecided (.alt left right) = true)
    (one : Decided (endsBy callees left) (continues left))
    (two : Decided (endsBy callees right) (continues right))
    (common : ∀ first second, left = .seq first second →
      Decided (endsBy callees first) (continues first)) :
    Decided (endsBy callees (.alt left right)) (continues (.alt left right)) := by
  have tidy := deciding.tidy
  have apart := @alt_apart callees deciding left right decided common
  simp only [isDecided, Bool.and_eq_true] at decided
  obtain ⟨⟨isLeft, isRight⟩, -⟩ := decided
  intro trees longer shorter read read' less
  rcases (mem_alt tidy).mp read with read | read <;> rcases (mem_alt tidy).mp read' with read' |
    read'
  · exact (one read read' less).mono (by simp [continues])
  · have some := Nat.lt_of_lt_of_le less (endsBy_within tidy _ _ _ read').length_le
    obtain ⟨rfl, hollow⟩ := idle_reading deciding read' (apart read read' some)
    exact (starts_like deciding isLeft read some).mono fun atom member => by
      simp [continues, hollow, member]
  · have some := Nat.lt_of_lt_of_le less (endsBy_within tidy _ _ _ read').length_le
    obtain ⟨rfl, hollow⟩ := idle_reading deciding read' fun some' => apart read' read some' some
    exact (starts_like deciding isRight read some).mono fun atom member => by
      simp [continues, hollow, member]
  · exact (two read read' less).mono (by simp [continues])

private theorem decided_star {body : Form} (decided : isDecided (.star body) = true)
    (one : Decided (endsBy callees body) (continues body)) :
    Decided (endsBy callees (.star body)) (continues (.star body)) := by
  have tidy := deciding.tidy
  simp only [isDecided, Bool.and_eq_true] at decided
  -- steps behind a reading of the body that could go on lead nowhere
  have stuck : ∀ {middle rest}, StartsLike (continues body) middle →
      Steps (endsBy callees body) middle rest → rest = middle := by
    intro middle rest like steps
    cases steps with
    | done => rfl
    | next step shorter =>
      exact absurd (starts_like deciding decided.1 step shorter) (like.apart decided.2)
  intro trees longer shorter read read' less
  have steps := (mem_star tidy).mp read
  have steps' := (mem_star tidy).mp read'
  clear read read'
  induction steps' with
  | done trees =>
    cases steps with
    | done => exact absurd less (Nat.lt_irrefl _)
    | next step some => exact (starts_like deciding decided.1 step some).mono (by simp [continues])
  | @next trees middle' rest step' some' more' ih =>
    have within' := (steps_suffix (endsBy_within tidy body) more').length_le
    cases steps with
    | done => omega
    | @next _ middle _ step some more =>
      rcases Nat.lt_trichotomy middle.length middle'.length with early | same | late
      · have like := one step step' early
        obtain rfl := stuck like more'
        exact like.mono (by simp [continues])
      · obtain rfl :=
          suffix_unique (endsBy_within tidy body trees middle step)
            (endsBy_within tidy body trees middle' step') same
        exact ih less more
      · obtain rfl := stuck (one step' step late) more
        omega

/-- The readings of the parts make those of the whole. A form that starts with another one also says
when that one is decided. -/
theorem isDecided_decided {form : Form} (decided : isDecided form = true) :
    Decided (endsBy callees form) (continues form) ∧
    ∀ first second, form = .seq first second →
      Decided (endsBy callees first) (continues first) := by
  have tidy := deciding.tidy
  induction form with
  | empty =>
    refine ⟨fun read read' less => ?_, by simp⟩
    rw [List.mem_singleton.mp read, List.mem_singleton.mp read'] at less
    exact absurd less (Nat.lt_irrefl _)
  | one shape =>
    refine ⟨fun read read' less => ?_, by simp⟩
    obtain ⟨t, _, rfl⟩ := mem_one.mp read
    obtain ⟨t', _, same⟩ := mem_one.mp read'
    rw [(List.cons.inj same).2] at less
    exact absurd less (Nat.lt_irrefl _)
  | inside bracket rule =>
    refine ⟨fun read read' less => ?_, by simp⟩
    obtain ⟨_, _, _, _, _, rfl⟩ := mem_inside.mp read
    obtain ⟨_, _, _, _, _, same⟩ := mem_inside.mp read'
    rw [(List.cons.inj same).2] at less
    exact absurd less (Nat.lt_irrefl _)
  | call rule => exact ⟨deciding.decided rule decided, by simp⟩
  | seq first second one two =>
    have parts := decided
    simp only [isDecided, Bool.and_eq_true] at parts
    refine ⟨decided_seq deciding decided (one parts.1.1).1 (two parts.1.2).1, ?_⟩
    rintro _ _ ⟨rfl, rfl⟩
    exact (one parts.1.1).1
  | alt left right one two =>
    have parts := decided
    simp only [isDecided, Bool.and_eq_true] at parts
    have isLeft := one parts.1.1
    exact ⟨decided_alt deciding decided isLeft.1 (two parts.1.2).1 isLeft.2, by simp⟩
  | star body ih =>
    have parts := decided
    simp only [isDecided, Bool.and_eq_true] at parts
    exact ⟨decided_star deciding decided (ih parts.1).1, by simp⟩
  | absent form =>
    refine ⟨fun read read' less => ?_, by simp⟩
    rw [(mem_absent.mp read).1, (mem_absent.mp read').1] at less
    exact absurd less (Nat.lt_irrefl _)

end

private theorem typeRules_decided {rule : Rule} (called : typeRules rule = true) :
    isDecided (Grammar.form rule) = true ∧
    starts (Grammar.form rule) ⊆ firsts rule ∧ continues (Grammar.form rule) ⊆ furthers rule := by
  cases rule with
  | tag => decide +kernel
  | typeArguments => decide +kernel
  | _ => simp [typeRules] at called

private theorem typeRules_member {rule : Rule} (called : typeRules rule = true) :
    memberRules rule = true := by
  cases rule with
  | tag => rfl
  | typeArguments => rfl
  | _ => simp [typeRules] at called

theorem ends_deciding (fuel : Nat) : Deciding (ends Grammar.form fuel) := by
  induction fuel with
  | zero =>
    exact ⟨ends_tidy _ _, by simp [ends], by simp [ends],
      fun _ _ _ _ _ read => by simp [ends] at read⟩
  | succ fuel ih =>
    have isSolid : ∀ rule trees rest, typeRules rule = true →
        rest ∈ ends Grammar.form (fuel + 1) rule trees → rest.length < trees.length :=
      fun rule trees rest called read => ends_solid (fuel + 1) (typeRules_member called) read
    refine ⟨ends_tidy _ _, isSolid, ?_, ?_⟩
    · intro rule trees rest called read
      obtain ⟨decided, listed, _⟩ := typeRules_decided called
      exact (starts_like ih decided read (isSolid rule trees rest called read)).mono listed
    · intro rule called trees first second read read' less
      obtain ⟨decided, _, listed⟩ := typeRules_decided called
      exact ((isDecided_decided ih decided).1 read read' less).mono listed

/-- A form that calls nothing but these rules, and nothing at all where it looks ahead. -/
def isSteady : Form → Bool
  | .call rule => typeRules rule
  | .seq first second => isSteady first && isSteady second
  | .alt left right => isSteady left && isSteady right
  | .star body => isSteady body
  | .absent form => builtFrom (fun _ => true) (fun _ => false) form
  | _ => true

/-- Two sets of rules that agree on lists up to a length give the same readings of those. -/
theorem endsBy_shorter {callees callees' : Rule → List Tree → List (List Tree)}
    (tidy : Tidy callees) (tidy' : Tidy callees') {limit : Nat}
    (called : ∀ rule trees rest, typeRules rule = true → trees.length ≤ limit →
      rest ∈ callees rule trees → rest ∈ callees' rule trees)
    {form : Form} (steady : isSteady form = true) {trees rest : List Tree}
    (short : trees.length ≤ limit) (read : rest ∈ endsBy callees form trees) :
    rest ∈ endsBy callees' form trees := by
  induction form generalizing trees rest with
  | call rule => exact called rule trees rest steady short read
  | seq first second one two =>
    simp only [isSteady, Bool.and_eq_true] at steady
    obtain ⟨middle, start, sequel⟩ := (mem_seq tidy).mp read
    have within := (endsBy_within tidy first trees middle start).length_le
    exact (mem_seq tidy').mpr ⟨middle, one steady.1 short start, two steady.2 (by omega) sequel⟩
  | alt left right one two =>
    simp only [isSteady, Bool.and_eq_true] at steady
    exact (mem_alt tidy').mpr
      (((mem_alt tidy).mp read).imp (one steady.1 short) (two steady.2 short))
  | star body ih =>
    have steps := (mem_star tidy).mp read
    refine (mem_star tidy').mpr ?_
    clear read
    induction steps with
    | done trees => exact .done trees
    | next step less _ more => exact .next (ih steady short step) less (more (by omega))
  | absent form =>
    have same := @endsBy_callees (fun _ => false) callees callees' (by simp) form steady
    simpa only [endsBy, same] using read
  | _ => exact read

/-- Calls that nest take a tree each, so a fuel by the number of trees is enough. -/
theorem ends_enough {fuel limit : Nat} {rule : Rule} (called : typeRules rule = true)
    {trees rest : List Tree} (short : trees.length ≤ limit)
    (read : rest ∈ ends Grammar.form fuel rule trees) :
    rest ∈ ends Grammar.form (limit + 1) rule trees := by
  induction limit generalizing fuel rule trees rest with
  | zero =>
    have taken := ends_solid fuel (typeRules_member called) read
    omega
  | succ limit ih =>
    cases fuel with
    | zero => simp [ends] at read
    | succ fuel =>
      cases rule with
      | tag =>
        have same :=
          @endsBy_callees (fun _ => false) (ends Grammar.form fuel) (ends Grammar.form (limit + 1))
            (by simp) Grammar.tag (by decide +kernel)
        rw [ends] at read ⊢
        exact same ▸ read
      | typeArguments =>
        obtain ⟨inner, angle, sequel⟩ := (mem_seq (ends_tidy _ _)).mp read
        obtain ⟨t, _, rfl⟩ := mem_one.mp angle
        refine (mem_seq (ends_tidy _ _)).mpr ⟨inner, angle, ?_⟩
        refine endsBy_shorter (ends_tidy _ _) (ends_tidy _ _)
          (fun rule trees rest called short read => ih called short read) ?_ ?_ sequel
        · decide +kernel
        · simpa using short
      | _ => simp [typeRules] at called

theorem steady_remainders {form : Form} (steady : isSteady form = true) {fuel : Nat}
    {trees rest : List Tree} (read : rest ∈ endsBy (ends Grammar.form fuel) form trees) :
    rest ∈ remainders Grammar.form form trees := by
  obtain ⟨limit, same, enough⟩ : ∃ limit, (trees.length + 1) * chainLength = limit + 1 ∧
      trees.length ≤ limit :=
    ⟨(trees.length + 1) * chainLength - 1, by simp only [chainLength]; omega,
      by simp only [chainLength]; omega⟩
  rw [remainders, same]
  exact endsBy_shorter (ends_tidy _ _) (ends_tidy _ _)
    (fun rule trees rest called short read => ends_enough called short read) steady enough read

section
variable {form : Form} (decided : isDecided form = true) (steady : isSteady form = true)
  {fuel : Nat} {trees rest : List Tree} (read : rest ∈ endsBy (ends Grammar.form fuel) form trees)
include decided steady read

/-- A reading before a tree with which the form cannot go on is the longest one. -/
theorem longest_stopped (stopped : ¬StartsLike (continues form) rest) :
    form.longest? Grammar.form trees = some rest := by
  refine longest_least (steady_remainders steady read) fun other longer => ?_
  by_contra less
  exact stopped
    ((isDecided_decided (ends_deciding _) decided).1 longer
      (steady_remainders steady read) (by omega))

theorem after_stopped (stopped : ¬StartsLike (continues form) rest) : after form trees = rest := by
  rw [after, longest_stopped decided steady read stopped, Option.getD_some]

end

/-- A form is read as far as it goes before what has to follow it. -/
theorem longest_followed {first second : Form} (decided : isDecided (.seq first second) = true)
    (steady : isSteady first = true) (isSolid : solid typeRules second = true) {fuel : Nat}
    {trees middle rest : List Tree} (start : middle ∈ endsBy (ends Grammar.form fuel) first trees)
    (sequel : rest ∈ endsBy (ends Grammar.form fuel) second middle) :
    first.longest? Grammar.form trees = some middle := by
  simp only [isDecided, Bool.and_eq_true] at decided
  have deciding := ends_deciding fuel
  have like :=
    starts_like deciding decided.1.2 sequel
      (endsBy_solid deciding.tidy deciding.solid isSolid sequel)
  exact longest_stopped decided.1.1 steady start fun further => further.apart decided.2 like

theorem after_followed {first second : Form} (decided : isDecided (.seq first second) = true)
    (steady : isSteady first = true) (isSolid : solid typeRules second = true) {fuel : Nat}
    {trees middle rest : List Tree} (start : middle ∈ endsBy (ends Grammar.form fuel) first trees)
    (sequel : rest ∈ endsBy (ends Grammar.form fuel) second middle) :
    after first trees = middle := by
  rw [after, longest_followed decided steady isSolid start sequel, Option.getD_some]

/-- So is one that may be left out, and where it is left out it does not apply. -/
theorem after_optional {form second : Form} (decided : isDecided (.seq (.opt form) second) = true)
    (steady : isSteady form = true) (some : solid typeRules form = true)
    (isSolid : solid typeRules second = true) {fuel : Nat} {trees middle rest : List Tree}
    (start : middle ∈ endsBy (ends Grammar.form fuel) (.opt form) trees)
    (sequel : rest ∈ endsBy (ends Grammar.form fuel) second middle) :
    after form trees = middle := by
  simp only [Form.opt, isDecided, Bool.and_eq_true] at decided
  have deciding := ends_deciding fuel
  have like :=
    starts_like deciding decided.1.2 sequel
      (endsBy_solid deciding.tidy deciding.solid isSolid sequel)
  have stopped : ¬StartsLike (continues (.alt form .empty)) middle :=
    fun further => further.apart decided.2 like
  have isDecided' : isDecided form = true := decided.1.1.1.1
  rcases (mem_alt deciding.tidy).mp start with read | none
  · exact after_stopped isDecided' steady read fun further =>
      stopped (further.mono (by simp [continues]))
  · obtain rfl := List.mem_singleton.mp none
    cases longest : form.longest? Grammar.form middle with
    | none => rw [after, longest, Option.getD_none]
    | some other =>
      have deciding' := ends_deciding ((middle.length + 1) * chainLength)
      have read := longest_mem longest
      have starts :=
        starts_like deciding' isDecided' read
          (endsBy_solid deciding'.tidy deciding'.solid some read)
      exact absurd (starts.mono (by simp [continues, solid])) stopped

section
variable {form : Form} (free : isLocal memberRules form = true) (steady : isSteady form = true)
include free steady

/-- What a form takes it derives as a whole, too. -/
theorem covers_part {fuel : Nat} {part rest : List Tree}
    (read : rest ∈ endsBy (ends Grammar.form fuel) form (part ++ rest)) :
    form.covers Grammar.form part = true := by
  have alone := form_moves free (Nat.le_refl fuel) part rest [] read
  rw [List.append_nil] at alone
  simpa [Form.covers, List.isEmpty_iff] using steady_remainders steady alone

/-- What a form derives it takes, whatever follows. -/
theorem covers_read {part : List Tree} (covered : form.covers Grammar.form part = true)
    (rest : List Tree) : rest ∈ remainders Grammar.form form (part ++ rest) := by
  have alone : [] ∈ remainders Grammar.form form (part ++ []) := by
    simpa [Form.covers, List.isEmpty_iff] using covered
  exact steady_remainders steady (form_moves free (Nat.le_refl _) part [] rest alone)

end

def markedTrees (parts : List (Token × List Tree)) : List Tree :=
  parts.flatMap fun part => .leaf part.1 :: part.2

section
variable {form : Form} (decided : isDecided (.list1 form) = true) (steady : isSteady form = true)
  (free : isLocal memberRules form = true)
include decided steady free

/-- A list is cut into what its form derives, between the commas. -/
theorem listed_parts {fuel rounds : Nat} {trees middle rest : List Tree}
    (first : middle ∈ endsBy (ends Grammar.form fuel) form trees)
    (others : Steps (endsBy (ends Grammar.form fuel) (.seq (.sym ",") form)) middle rest)
    (stopped : ¬StartsLike (continues (.list1 form)) rest) (enough : trees.length < rounds) :
    ∃ part parts, trees = part ++ (markedTrees parts ++ rest) ∧
      form.covers Grammar.form part = true ∧
      (∀ other ∈ parts, other.1.isSymbol "," = true ∧ form.covers Grammar.form other.2 = true) ∧
      listed form rounds trees = part :: parts.map Prod.snd := by
  have tidy := ends_tidy Grammar.form fuel
  have isDecided' := decided
  simp only [Form.list1, Form.separated, isDecided, Bool.and_eq_true] at isDecided'
  have comma : ∀ {t : Tree} {more : List Tree}, takes (Form.sym ",") t = true →
      ¬StartsLike (continues form) (t :: more) := by
    intro t more taken further
    have like : StartsLike (starts (.star (.seq (.sym ",") form))) (t :: more) :=
      ⟨t, rfl, Form.sym ",", by simp [starts, Form.sym], taken⟩
    exact further.apart isDecided'.2 like
  induction others generalizing trees rounds with
  | done middle =>
    obtain ⟨rounds, rfl⟩ : ∃ more, rounds = more + 1 := ⟨rounds - 1, by omega⟩
    obtain ⟨part, rfl⟩ := endsBy_within tidy form trees middle first
    have longest := longest_stopped isDecided'.1.1 steady first fun further =>
      stopped (further.mono (by simp [Form.list1, Form.separated, continues, solid]))
    refine ⟨part, [], rfl, covers_part free steady first, by simp, ?_⟩
    rw [listed, longest]
    simp only [GeneratedMembers.before_append, List.map_nil, List.cons.injEq, true_and]
    cases middle with
    | nil => rfl
    | cons t more =>
      have other : t.isSymbol "," = false := by
        apply Bool.eq_false_iff.mpr
        intro isComma
        exact stopped ⟨t, rfl, Form.sym ",",
          by simp [Form.list1, Form.separated, continues, starts, Form.sym],
          (PlainReadings.takes_sym "," t).trans isComma⟩
      simp [other]
  | next step _ _ ih =>
    obtain ⟨rounds, rfl⟩ : ∃ more, rounds = more + 1 := ⟨rounds - 1, by omega⟩
    obtain ⟨second, separator, next⟩ := (mem_seq tidy).mp step
    obtain ⟨t, accepted, rfl⟩ := mem_one.mp separator
    obtain ⟨part, rfl⟩ := endsBy_within tidy form trees _ first
    have isComma : t.isSymbol "," = true :=
      (PlainReadings.takes_sym "," (.leaf t)).symm.trans accepted
    have longest := longest_stopped isDecided'.1.1 steady first (comma accepted)
    obtain ⟨part', parts, rfl, covered, all, cut⟩ :=
      ih next stopped (show second.length < rounds by simp at enough; omega)
    refine ⟨part, (t, part') :: parts, by simp [markedTrees], covers_part free steady first, ?_, ?_⟩
    · simpa [isComma, covered] using all
    · rw [listed, longest]
      simp [GeneratedMembers.before_append, isSymbol, isComma, cut]

theorem partsOf_list {fuel : Nat} {trees rest : List Tree}
    (read : rest ∈ endsBy (ends Grammar.form fuel) (.list1 form) trees)
    (stopped : ¬StartsLike (continues (.list1 form)) rest) :
    ∃ part parts, trees = part ++ (markedTrees parts ++ rest) ∧
      form.covers Grammar.form part = true ∧
      (∀ other ∈ parts, other.1.isSymbol "," = true ∧ form.covers Grammar.form other.2 = true) ∧
      partsOf form trees = part :: parts.map Prod.snd := by
  have tidy := ends_tidy Grammar.form fuel
  obtain ⟨middle, first, others⟩ := (mem_seq tidy).mp read
  exact listed_parts decided steady free first ((mem_star tidy).mp others) stopped
    (Nat.lt_succ_self _)

end

end ClassDiagram.Proofs.DecidedReadings
