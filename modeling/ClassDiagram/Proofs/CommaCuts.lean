import ClassDiagram.Proofs.DecidedReadings
import ClassDiagram.Proofs.TreeShapes

/-! Lists cut at commas. A comma that a single declarator or parameter takes stands among type
arguments, so that their closing angle comes behind it with no opening one of its own; behind a
comma that separates two of them no such angle comes before an equals sign. By this a list is cut in
one way only, and in the same way in every source of its tokens. -/

namespace ClassDiagram.Proofs.CommaCuts
open Java Java.Tree Java.Outline Form Likeness OutlineLikeness Remainders BodyPieces LocalReadings
  DecidedReadings TreeShapes
open List (Forall₂)

/-- Whether a closing angle comes that none of the angles here has opened, before any equals sign or
semicolon. -/
def sinks : (depth : Nat) → List Tree → Bool
  | _, [] => false
  | depth, t :: rest =>
    if t.isSymbol "=" || t.isSymbol ";" then false
    else if t.isSymbol "<" then sinks (depth + 1) rest
    else if t.isSymbol ">" then
      match depth with
      | 0 => true
      | depth + 1 => sinks depth rest
    else sinks depth rest

/-- The trees up to a semicolon, cut at the commas that stand among no type arguments. -/
def commaParts : List Tree → List (List Tree)
  | [] => [[]]
  | t :: rest =>
    if t.isSymbol ";" then [[]]
    else if t.isSymbol "," && !sinks 0 rest then [] :: commaParts rest
    else
      match commaParts rest with
      | part :: more => (t :: part) :: more
      | [] => [[t]]

def cuts (trees : List Tree) : List (List Tree) :=
  (commaParts trees).filter (!·.isEmpty)

private theorem sinks_shape {trees trees' : List Tree} (same : Forall₂ SameShape trees trees')
    (depth : Nat) : sinks depth trees = sinks depth trees' := by
  induction same generalizing depth with
  | nil => rfl
  | cons first _ ih =>
    simp only [sinks, first.twin.symbol, ih]

private theorem commaParts_shape {trees trees' : List Tree}
    (same : Forall₂ SameShape trees trees') :
    Forall₂ (Forall₂ SameShape) (commaParts trees) (commaParts trees') := by
  induction same with
  | nil => exact .cons .nil .nil
  | @cons t t' rest rest' first more ih =>
    simp only [commaParts, first.twin.symbol, sinks_shape more]
    split
    · exact .cons .nil .nil
    · split
      · exact .cons .nil ih
      · generalize commaParts rest = here, commaParts rest' = there at ih
        cases ih with
        | nil => exact .cons (.cons first .nil) .nil
        | cons head others => exact .cons (.cons first head) others

theorem cuts_shape {trees trees' : List Tree} (same : Forall₂ SameShape trees trees') :
    Forall₂ (Forall₂ SameShape) (cuts trees) (cuts trees') :=
  filter_like (fun pair => by cases pair <;> rfl) (commaParts_shape same)

/-- What is cut off starts like the list, or a comma, a semicolon or the end comes first. -/
theorem commaParts_head (trees : List Tree) :
    ∃ part more, commaParts trees = part :: more ∧ ∀ t ∈ trees.head?, t.isSymbol "-" = true →
      part.head? = some t := by
  cases trees with
  | nil => exact ⟨[], [], rfl, by simp⟩
  | cons t rest =>
    rw [commaParts]
    split
    next semicolon =>
      exact ⟨[], [], rfl, by simp [isSymbol_other semicolon (show ";" ≠ "-" by decide)]⟩
    next =>
      split
      next comma =>
        have noHyphen := isSymbol_other (Bool.and_eq_true_iff.mp comma).1 (show "," ≠ "-" by decide)
        exact ⟨[], _, rfl, by simp [noHyphen]⟩
      next =>
        split
        · exact ⟨_, _, rfl, by simp⟩
        · exact ⟨_, _, rfl, by simp⟩

private theorem commaParts_lexed {trees : List Tree} (all : AllLexed trees) :
    ∀ part ∈ commaParts trees, AllLexed part := by
  induction trees with
  | nil => simp [commaParts, AllLexed]
  | cons t rest ih =>
    have lexed := ih all.2.2
    obtain ⟨part, more, here, next⟩ := commaParts_head rest
    rw [here] at lexed
    simp only [commaParts, here]
    intro other member
    split at member
    · obtain rfl := List.mem_singleton.mp member
      trivial
    · split at member
      · rcases List.mem_cons.mp member with rfl | member
        · trivial
        · exact lexed other member
      · rcases List.mem_cons.mp member with rfl | member
        · exact all.cons (lexed part List.mem_cons_self) next
        · exact lexed other (List.mem_cons_of_mem _ member)

theorem cuts_lexed {trees part : List Tree} (all : AllLexed trees) (member : part ∈ cuts trees) :
    AllLexed part :=
  commaParts_lexed all part (List.mem_of_mem_filter member)

def isLevelAtom (form : Form) : Bool :=
  avoids "=" form && avoids ";" form && avoids "<" form && avoids ">" form

private theorem levelAtom_taken {atom : Form} {t : Tree} (level : isLevelAtom atom = true)
    (taken : takes atom t = true) (depth : Nat) (rest : List Tree) :
    sinks depth (t :: rest) = sinks depth rest := by
  simp only [isLevelAtom, Bool.and_eq_true] at level
  simp [sinks, avoids_taken level.1.1.1 taken, avoids_taken level.1.1.2 taken,
    avoids_taken level.1.2 taken, avoids_taken level.2 taken]

/-- What is taken has as many closing angles as opening ones, and none of them too early. -/
def Leveled (trees rest : List Tree) : Prop :=
  ∀ depth, sinks depth trees = sinks depth rest

private theorem endsBy_level {callees : Rule → List Tree → List (List Tree)} (tidy : Tidy callees)
    (called : ∀ rule trees rest, typeRules rule = true → rest ∈ callees rule trees →
      Leveled trees rest) {form : Form}
    (level : builtFrom isLevelAtom typeRules form = true) {trees rest : List Tree}
    (read : rest ∈ endsBy callees form trees) : Leveled trees rest := by
  induction form generalizing trees rest with
  | empty => exact List.mem_singleton.mp read ▸ fun _ => rfl
  | one shape =>
    obtain ⟨t, rfl, taken⟩ := mem_one_takes read
    exact fun depth => levelAtom_taken level taken depth rest
  | inside bracket rule =>
    obtain ⟨t, rfl, taken⟩ := mem_inside_takes read
    exact fun depth => levelAtom_taken level taken depth rest
  | call rule => exact called rule trees rest level read
  | seq first second one two =>
    simp only [builtFrom, Bool.and_eq_true] at level
    obtain ⟨middle, start, sequel⟩ := (mem_seq tidy).mp read
    exact fun depth => (one level.1 start depth).trans (two level.2 sequel depth)
  | alt left right one two =>
    simp only [builtFrom, Bool.and_eq_true] at level
    rcases (mem_alt tidy).mp read with read | read
    · exact one level.1 read
    · exact two level.2 read
  | star body ih =>
    have steps := (mem_star tidy).mp read
    clear read
    induction steps with
    | done => exact fun _ => rfl
    | next step _ _ more => exact fun depth => (ih level step depth).trans (more depth)
  | absent form => exact (mem_absent.mp read).1 ▸ fun _ => rfl

/-- Type arguments with their angles, and what stands between. -/
theorem arguments_between {callees : Rule → List Tree → List (List Tree)} (tidy : Tidy callees)
    {trees rest : List Tree} (read : rest ∈ endsBy callees Grammar.typeArguments trees) :
    ∃ opening inner closing, trees = opening :: inner ∧ opening.isSymbol "<" = true ∧
      closing.isSymbol ">" = true ∧
      closing :: rest ∈ endsBy callees (.list0 (.alt Grammar.type Grammar.wildcard)) inner := by
  obtain ⟨inner, opens, sequel⟩ := (mem_seq tidy).mp read
  obtain ⟨behind, list, closes⟩ := (mem_seq tidy).mp sequel
  obtain ⟨last, closes, done⟩ := (mem_seq tidy).mp closes
  obtain rfl := List.mem_singleton.mp done
  obtain ⟨opening, rfl, taken⟩ := mem_one_takes opens
  obtain ⟨closing, rfl, taken'⟩ := mem_one_takes closes
  exact ⟨opening, inner, closing, rfl, (PlainReadings.takes_sym "<" opening).symm.trans taken,
    (PlainReadings.takes_sym ">" closing).symm.trans taken', list⟩

private theorem sinks_opening {t : Tree} (opening : t.isSymbol "<" = true) (depth : Nat)
    (rest : List Tree) : sinks depth (t :: rest) = sinks (depth + 1) rest := by
  simp [sinks, opening, isSymbol_other opening (show "<" ≠ "=" by decide),
    isSymbol_other opening (show "<" ≠ ";" by decide)]

private theorem sinks_closing {t : Tree} (closing : t.isSymbol ">" = true) (depth : Nat)
    (rest : List Tree) :
    sinks (depth + 1) (t :: rest) = sinks depth rest ∧ sinks 0 (t :: rest) = true := by
  simp [sinks, closing, isSymbol_other closing (show ">" ≠ "=" by decide),
    isSymbol_other closing (show ">" ≠ ";" by decide),
    isSymbol_other closing (show ">" ≠ "<" by decide)]

private theorem ends_level (fuel : Nat) (rule : Rule) (trees rest : List Tree)
    (called : typeRules rule = true) (read : rest ∈ ends Grammar.form fuel rule trees) :
    Leveled trees rest := by
  induction fuel generalizing rule trees rest with
  | zero => simp [ends] at read
  | succ fuel ih =>
    have tidy := ends_tidy Grammar.form fuel
    cases rule with
    | tag =>
      exact endsBy_level tidy ih
        (show builtFrom isLevelAtom typeRules Grammar.tag = true by decide +kernel) read
    | typeArguments =>
      obtain ⟨opening, inner, closing, rfl, opens, closes, list⟩ := arguments_between tidy read
      intro depth
      rw [sinks_opening opens, endsBy_level tidy ih (by decide +kernel) list,
        (sinks_closing closes depth rest).1]
    | _ => simp [typeRules] at called

private theorem form_level {form : Form} (level : builtFrom isLevelAtom typeRules form = true)
    {fuel : Nat} {trees rest : List Tree}
    (read : rest ∈ endsBy (ends Grammar.form fuel) form trees) : Leveled trees rest :=
  endsBy_level (ends_tidy Grammar.form fuel) (ends_level fuel) level read

def isLevel : Form → Bool
  | .one shape => isLevelAtom (.one shape)
  | .call rule => typeRules rule
  | .seq first second => first = .sym "=" || (isLevel first && isLevel second)
  | .alt left right => isLevel left && isLevel right
  | .star body => isLevel body
  | _ => true

/-- An angle that was not opened behind the one list was not opened behind the other. -/
def Rises (trees rest : List Tree) : Prop :=
  ∀ depth, sinks depth trees = true → sinks depth rest = true

theorem Leveled.rises {trees rest : List Tree} (level : Leveled trees rest) : Rises trees rest :=
  fun depth sunk => (level depth).symm.trans sunk

private theorem form_rises {form : Form} (level : isLevel form = true) {fuel : Nat}
    {trees rest : List Tree} (read : rest ∈ endsBy (ends Grammar.form fuel) form trees) :
    Rises trees rest := by
  have tidy := ends_tidy Grammar.form fuel
  induction form generalizing trees rest with
  | empty => exact List.mem_singleton.mp read ▸ fun _ => id
  | one shape =>
    obtain ⟨t, rfl, taken⟩ := mem_one_takes read
    exact Leveled.rises fun depth => levelAtom_taken level taken depth rest
  | inside bracket rule =>
    obtain ⟨t, rfl, taken⟩ := mem_inside_takes read
    have level : isLevelAtom (.inside bracket rule) = true := rfl
    exact Leveled.rises fun depth => levelAtom_taken level taken depth rest
  | call rule => exact (ends_level fuel rule trees rest level read).rises
  | seq first second one two =>
    obtain ⟨middle, start, sequel⟩ := (mem_seq tidy).mp read
    simp only [isLevel, Bool.or_eq_true, Bool.and_eq_true, decide_eq_true_eq] at level
    rcases level with rfl | level
    · obtain ⟨t, rfl, taken⟩ := mem_one_takes start
      have equals : t.isSymbol "=" = true := (PlainReadings.takes_sym "=" t).symm.trans taken
      intro depth sunk
      simp [sinks, equals] at sunk
    · exact fun depth sunk => two level.2 sequel depth (one level.1 start depth sunk)
  | alt left right one two =>
    simp only [isLevel, Bool.and_eq_true] at level
    rcases (mem_alt tidy).mp read with read | read
    · exact one level.1 read
    · exact two level.2 read
  | star body ih =>
    have steps := (mem_star tidy).mp read
    clear read
    induction steps with
    | done => exact fun _ => id
    | next step _ _ more => exact fun depth sunk => more depth (ih level step depth sunk)
  | absent form => exact (mem_absent.mp read).1 ▸ fun _ => id

/-- Of what is taken, every comma stands among type arguments. -/
inductive Sunk : List Tree → List Tree → Prop where
  | done (trees : List Tree) : Sunk trees trees
  | next {t : Tree} {more rest : List Tree} (comma : t.isSymbol "," = true → sinks 0 more = true)
    (behind : Sunk more rest) : Sunk (t :: more) rest

theorem Sunk.trans {trees middle rest : List Tree} (first : Sunk trees middle)
    (second : Sunk middle rest) : Sunk trees rest := by
  induction first with
  | done => exact second
  | next comma _ ih => exact .next comma (ih second)

private theorem endsBy_sunk {calls : Rule → Bool} {callees : Rule → List Tree → List (List Tree)}
    (tidy : Tidy callees)
    (called : ∀ rule trees rest, calls rule = true → rest ∈ callees rule trees → Sunk trees rest)
    {form : Form} (built : builtFrom (avoids ",") calls form = true) {trees rest : List Tree}
    (read : rest ∈ endsBy callees form trees) : Sunk trees rest := by
  induction form generalizing trees rest with
  | empty => exact List.mem_singleton.mp read ▸ .done trees
  | one shape =>
    obtain ⟨t, rfl, taken⟩ := mem_one_takes read
    exact .next (fun comma => by simp [avoids_taken built taken] at comma) (.done rest)
  | inside bracket rule =>
    obtain ⟨t, rfl, taken⟩ := mem_inside_takes read
    exact .next (fun comma => by simp [avoids_taken built taken] at comma) (.done rest)
  | call rule => exact called rule trees rest built read
  | seq first second one two =>
    simp only [builtFrom, Bool.and_eq_true] at built
    obtain ⟨middle, start, sequel⟩ := (mem_seq tidy).mp read
    exact (one built.1 start).trans (two built.2 sequel)
  | alt left right one two =>
    simp only [builtFrom, Bool.and_eq_true] at built
    rcases (mem_alt tidy).mp read with read | read
    · exact one built.1 read
    · exact two built.2 read
  | star body ih =>
    have steps := (mem_star tidy).mp read
    clear read
    induction steps with
    | done trees => exact .done trees
    | next step _ _ more => exact (ih built step).trans more
  | absent form => exact (mem_absent.mp read).1 ▸ .done trees

def argument : Form :=
  .alt Grammar.type Grammar.wildcard

private theorem memberRules_sunk (rule : Rule) (called : memberRules rule = true)
    (other : rule ≠ .typeArguments) :
    builtFrom (avoids ",") memberRules (Grammar.form rule) = true := by
  cases rule with
  | tag => decide +kernel
  | expression => decide +kernel
  | typeArguments => exact absurd rfl other
  | _ => simp [memberRules] at called

/-- Behind each comma between type arguments more of them come, and then the closing angle. -/
theorem further_sunk {fuel : Nat}
    (called : ∀ rule trees rest, memberRules rule = true →
      rest ∈ ends Grammar.form fuel rule trees → Sunk trees rest)
    {trees rest : List Tree}
    (steps : Steps (endsBy (ends Grammar.form fuel) (.seq (.sym ",") argument)) trees rest)
    (sunk : sinks 0 rest = true) :
    Sunk trees rest := by
  have tidy := ends_tidy Grammar.form fuel
  induction steps with
  | done trees => exact .done trees
  | @next trees behind rest step _ more ih =>
    obtain ⟨first, comma, one⟩ := (mem_seq tidy).mp step
    obtain ⟨t, rfl, _⟩ := mem_one_takes comma
    have level : sinks 0 first = sinks 0 rest := by
      rw [form_level (by decide +kernel) one]
      exact form_level
        (show builtFrom isLevelAtom typeRules (.star (.seq (.sym ",") argument)) =
          true by decide +kernel) ((mem_star tidy).mpr more) 0
    exact .next (fun _ => level.trans sunk)
      ((endsBy_sunk tidy called (by decide +kernel) one).trans (ih sunk))

private theorem ends_sunk (fuel : Nat) (rule : Rule) (trees rest : List Tree)
    (called : memberRules rule = true) (read : rest ∈ ends Grammar.form fuel rule trees) :
    Sunk trees rest := by
  induction fuel generalizing rule trees rest with
  | zero => simp [ends] at read
  | succ fuel ih =>
    have tidy := ends_tidy Grammar.form fuel
    by_cases arguments : rule = .typeArguments
    · subst arguments
      obtain ⟨opening, inner, closing, rfl, opens, closes, list⟩ := arguments_between tidy read
      have between : Sunk inner (closing :: rest) := by
        rcases (mem_alt tidy).mp list with some | none
        · obtain ⟨middle, first, others⟩ := (mem_seq tidy).mp some
          exact (endsBy_sunk tidy ih (by decide +kernel) first).trans
            (further_sunk ih ((mem_star tidy).mp others) (sinks_closing closes 0 rest).2)
        · exact List.mem_singleton.mp none ▸ .done _
      have noComma : ∀ {t : Tree} {text : String} {more : List Tree}, t.isSymbol text = true →
          text ≠ "," → t.isSymbol "," = true → sinks 0 more = true :=
        fun symbol other comma => absurd comma (by simp [isSymbol_other symbol other])
      exact .next (noComma opens (by decide))
        (between.trans (.next (noComma closes (by decide)) (.done rest)))
    · exact endsBy_sunk tidy ih (memberRules_sunk rule called arguments) read

/-- Of what a form takes that is no comma itself, every comma stands among type arguments. -/
theorem form_sunk {form : Form} (built : builtFrom (avoids ",") memberRules form = true)
    {fuel : Nat} {trees rest : List Tree}
    (read : rest ∈ endsBy (ends Grammar.form fuel) form trees) : Sunk trees rest :=
  endsBy_sunk (ends_tidy Grammar.form fuel) (ends_sunk fuel) built read

/-- A form that calls nothing but the given rules, and nothing at all where it looks ahead. -/
def callsOnly (calls : Rule → Bool) : Form → Bool
  | .call rule => calls rule
  | .seq first second => callsOnly calls first && callsOnly calls second
  | .alt left right => callsOnly calls left && callsOnly calls right
  | .star body => callsOnly calls body
  | .absent form => builtFrom (fun _ => true) (fun _ => false) form
  | _ => true

def isGuarded : Form → Bool
  | .call rule => rule == .tag
  | .seq first second =>
    isGuarded first && if solid memberRules first then callsOnly memberRules second
      else isGuarded second
  | .alt left right => isGuarded left && isGuarded right
  | .star body => isGuarded body
  | .absent form => builtFrom (fun _ => true) (fun _ => false) form
  | _ => true

section
variable {callees callees' : Rule → List Tree → List (List Tree)} (tidy : Tidy callees)
  (tidy' : Tidy callees') {limit : Nat}
  (called : ∀ rule trees rest, memberRules rule = true → trees.length ≤ limit →
  rest ∈ callees rule trees → rest ∈ callees' rule trees)
include tidy tidy' called

private theorem endsBy_limited {form : Form} (only : callsOnly memberRules form = true)
    {trees rest : List Tree} (short : trees.length ≤ limit)
    (read : rest ∈ endsBy callees form trees) : rest ∈ endsBy callees' form trees := by
  induction form generalizing trees rest with
  | call rule => exact called rule trees rest only short read
  | seq first second one two =>
    simp only [callsOnly, Bool.and_eq_true] at only
    obtain ⟨middle, start, sequel⟩ := (mem_seq tidy).mp read
    have within := (endsBy_within tidy first trees middle start).length_le
    exact (mem_seq tidy').mpr ⟨middle, one only.1 short start, two only.2 (by omega) sequel⟩
  | alt left right one two =>
    simp only [callsOnly, Bool.and_eq_true] at only
    exact (mem_alt tidy').mpr (((mem_alt tidy).mp read).imp (one only.1 short) (two only.2 short))
  | star body ih =>
    have steps := (mem_star tidy).mp read
    refine (mem_star tidy').mpr ?_
    clear read
    induction steps with
    | done trees => exact .done trees
    | next step less _ more => exact .next (ih only short step) less (more (by omega))
  | absent form =>
    have same := @endsBy_callees (fun _ => false) callees callees' (by simp) form only
    simpa only [endsBy, same] using read
  | _ => exact read

variable (solids : ∀ rule trees rest, memberRules rule = true → rest ∈ callees rule trees →
    rest.length < trees.length)
  (tags : ∀ trees rest, rest ∈ callees .tag trees → rest ∈ callees' .tag trees)
include solids tags

private theorem endsBy_guarded {form : Form} (guarded : isGuarded form = true)
    {trees rest : List Tree} (short : trees.length ≤ limit + 1)
    (read : rest ∈ endsBy callees form trees) : rest ∈ endsBy callees' form trees := by
  induction form generalizing trees rest with
  | call rule =>
    obtain rfl : rule = .tag := by simpa [isGuarded] using guarded
    exact tags trees rest read
  | seq first second one two =>
    simp only [isGuarded, Bool.and_eq_true] at guarded
    obtain ⟨middle, start, sequel⟩ := (mem_seq tidy).mp read
    have within := (endsBy_within tidy first trees middle start).length_le
    refine (mem_seq tidy').mpr ⟨middle, one guarded.1 short start, ?_⟩
    have behind := guarded.2
    split at behind
    next isSolid =>
      have taken := endsBy_solid tidy solids isSolid start
      exact endsBy_limited tidy tidy' called behind (by omega) sequel
    next => exact two behind (by omega) sequel
  | alt left right one two =>
    simp only [isGuarded, Bool.and_eq_true] at guarded
    exact (mem_alt tidy').mpr
      (((mem_alt tidy).mp read).imp (one guarded.1 short) (two guarded.2 short))
  | star body ih =>
    have steps := (mem_star tidy).mp read
    refine (mem_star tidy').mpr ?_
    clear read
    induction steps with
    | done trees => exact .done trees
    | next step less _ more => exact .next (ih guarded short step) less (more (by omega))
  | absent form =>
    have same := @endsBy_callees (fun _ => false) callees callees' (by simp) form guarded
    simpa only [endsBy, same] using read
  | _ => exact read

end

private theorem memberRules_guarded {rule : Rule} (called : memberRules rule = true) :
    isGuarded (Grammar.form rule) = true := by
  cases rule with
  | tag => decide +kernel
  | typeArguments => decide +kernel
  | expression => decide +kernel
  | _ => simp [memberRules] at called

private theorem tag_enough {fuel fuel' : Nat} {trees rest : List Tree}
    (read : rest ∈ ends Grammar.form fuel .tag trees) :
    rest ∈ ends Grammar.form (fuel' + 1) .tag trees := by
  cases fuel with
  | zero => simp [ends] at read
  | succ fuel =>
    have same :=
      @endsBy_callees (fun _ => false) (ends Grammar.form fuel) (ends Grammar.form fuel') (by simp)
        Grammar.tag (by decide +kernel)
    rw [ends] at read ⊢
    exact same ▸ read

/-- Calls that nest take a tree each but for annotations, so a fuel by the number of trees is
enough. -/
theorem ends_sufficient {fuel limit : Nat} {rule : Rule} (called : memberRules rule = true)
    {trees rest : List Tree} (short : trees.length ≤ limit)
    (read : rest ∈ ends Grammar.form fuel rule trees) :
    rest ∈ ends Grammar.form (limit + 2) rule trees := by
  induction limit generalizing fuel rule trees rest with
  | zero =>
    have taken := ends_solid fuel called read
    omega
  | succ limit ih =>
    cases fuel with
    | zero => simp [ends] at read
    | succ fuel =>
      rw [ends] at read ⊢
      exact endsBy_guarded (ends_tidy _ _) (ends_tidy _ _)
        (fun _ _ _ called short read => ih called short read)
        (fun _ _ _ called read => ends_solid fuel called read)
        (fun _ _ read => tag_enough read) (memberRules_guarded called) short read

private theorem member_remainders {form : Form} (only : callsOnly memberRules form = true)
    {fuel : Nat} {trees rest : List Tree}
    (read : rest ∈ endsBy (ends Grammar.form fuel) form trees) :
    rest ∈ remainders Grammar.form form trees := by
  obtain ⟨limit, same, enough⟩ : ∃ limit, (trees.length + 1) * chainLength = limit + 2 ∧
      trees.length ≤ limit :=
    ⟨(trees.length + 1) * chainLength - 2, by simp only [chainLength]; omega,
      by simp only [chainLength]; omega⟩
  rw [remainders, same]
  exact endsBy_limited (ends_tidy _ _) (ends_tidy _ _)
    (fun _ _ _ called short read => ends_sufficient called short read) only enough read

structure IsPart (form : Form) : Prop where
  solid : solid memberRules form = true
  calls : callsOnly memberRules form = true
  commas : builtFrom (avoids ",") memberRules form = true
  semicolons : builtFrom (avoids ";") memberRules form = true
  level : isLevel form = true

/-- Nothing, or what starts with a semicolon. -/
def Closes (rest : List Tree) : Prop :=
  ∀ t ∈ rest.head?, t.isSymbol ";" = true

/-- Parts with commas between them and perhaps behind them, up to the end or a semicolon. -/
inductive Listed (fuel : Nat) (form : Form) : List Tree → Prop where
  | done {rest : List Tree} (closed : Closes rest) : Listed fuel form rest
  | last {trees rest : List Tree} (part : rest ∈ endsBy (ends Grammar.form fuel) form trees)
    (closed : Closes rest) : Listed fuel form trees
  | next {trees rest : List Tree} {comma : Tree}
      (part : comma :: rest ∈ endsBy (ends Grammar.form fuel) form trees)
      (isComma : comma.isSymbol "," = true)
      (others : Listed fuel form rest) : Listed fuel form trees

private theorem closed_risen {rest : List Tree} (closed : Closes rest) (depth : Nat) :
    sinks depth rest = false := by
  cases rest with
  | nil => rfl
  | cons t rest => simp [sinks, closed t rfl]

private theorem closed_cuts {rest : List Tree} (closed : Closes rest) : commaParts rest = [[]] := by
  cases rest with
  | nil => rfl
  | cons t rest => simp [commaParts, closed t rfl]

section
variable {form : Form} (isPart : IsPart form) {fuel : Nat}
include isPart

/-- In a list no angle comes that was opened before it. -/
theorem listed_risen {trees : List Tree} (list : Listed fuel form trees) (depth : Nat) :
    sinks depth trees = false := by
  induction list generalizing depth with
  | done closed => exact closed_risen closed depth
  | last part closed =>
    refine Bool.eq_false_iff.mpr fun sunk => ?_
    have behind := form_rises isPart.level part depth sunk
    rw [closed_risen closed] at behind
    simp at behind
  | @next trees rest comma part isComma _ ih =>
    refine Bool.eq_false_iff.mpr fun sunk => ?_
    have behind := form_rises isPart.level part depth sunk
    have skipped : sinks depth (comma :: rest) = sinks depth rest := by
      simp [sinks, isSymbol_other isComma (show "," ≠ "=" by decide),
        isSymbol_other isComma (show "," ≠ ";" by decide),
        isSymbol_other isComma (show "," ≠ "<" by decide),
        isSymbol_other isComma (show "," ≠ ">" by decide)]
    rw [skipped, ih] at behind
    simp at behind

theorem part_unclosed {trees rest : List Tree}
    (part : rest ∈ endsBy (ends Grammar.form fuel) form trees) :
    ∃ taken, trees = taken ++ rest ∧ taken ≠ [] ∧ ∀ t ∈ taken, t.isSymbol ";" = false := by
  obtain ⟨taken, rfl, atoms⟩ :=
    endsBy_taken (ends_tidy Grammar.form fuel)
      (fun _ _ _ called read => ends_taken memberRules_inner fuel called read)
    isPart.semicolons part
  have some :=
    endsBy_solid (ends_tidy Grammar.form fuel)
      (fun _ _ _ called read => ends_solid fuel called read) isPart.solid part
  refine ⟨taken, rfl, ?_, fun t member => ?_⟩
  · rintro rfl
    exact Nat.lt_irrefl _ some
  · obtain ⟨atom, avoided, own⟩ := atoms t member
    exact avoids_taken avoided own

end

/-- Where commas stand among type arguments nothing is cut. -/
theorem commaParts_sunk {trees rest : List Tree} (sunk : Sunk trees rest) {taken : List Tree}
    (whole : trees = taken ++ rest) (unclosed : ∀ t ∈ taken, t.isSymbol ";" = false)
    {first : List Tree} {more : List (List Tree)} (cut : commaParts rest = first :: more) :
    commaParts trees = (taken ++ first) :: more := by
  induction sunk generalizing taken with
  | done trees =>
    obtain rfl : taken = [] := by simpa using whole
    exact cut
  | @next t behind rest comma sunk ih =>
    cases taken with
    | nil =>
      -- nothing is taken twice
      have long : behind.length + 1 = rest.length := congrArg List.length whole
      have short : rest.length ≤ behind.length := by
        clear ih whole cut long comma
        induction sunk with
        | done => exact Nat.le_refl _
        | next _ _ ih => exact Nat.le_succ_of_le ih
      omega
    | cons u taken =>
      obtain ⟨rfl, same⟩ := List.cons.inj whole
      have behind_eq : behind = taken ++ rest := same
      subst behind_eq
      have uncut : (t.isSymbol "," && !sinks 0 (taken ++ rest)) = false := by
        cases isComma : t.isSymbol "," with
        | false => rfl
        | true => simp [comma isComma]
      simp [commaParts, unclosed t (by simp), uncut,
        ih rfl (fun v member => unclosed v (by simp [member])) cut]

private theorem sunk_comma {front others rest : List Tree} {comma : Tree}
    (sunk : Sunk (front ++ comma :: others) rest) (behind : rest <:+ others)
    (isComma : comma.isSymbol "," = true) : sinks 0 others = true := by
  induction front with
  | nil =>
    cases sunk with
    | done => exact absurd behind.length_le (by simp)
    | next sinks _ => exact sinks isComma
  | cons t front ih =>
    cases sunk with
    | done => exact absurd behind.length_le (by simp; omega)
    | next _ sunk => exact ih sunk

/-- A reading of a part ends where the list is cut. -/
theorem part_longest {form : Form} (isPart : IsPart form) {fuel : Nat} {trees rest : List Tree}
    (part : rest ∈ endsBy (ends Grammar.form fuel) form trees)
    (ended : Closes rest ∨ ∃ comma others, rest = comma :: others ∧ comma.isSymbol "," = true ∧
      sinks 0 others = false) :
    form.longest? Grammar.form trees = some rest := by
  refine longest_least (member_remainders isPart.calls part) fun other longer => ?_
  by_contra less
  have within := remainders_within Grammar.form form trees
  obtain ⟨first, second, whole, between⟩ : ∃ first second, trees = first ++ second ++ other ∧
      rest = second ++ other := by
    obtain ⟨first, whole⟩ := within rest (member_remainders isPart.calls part)
    obtain ⟨second, between⟩ :=
      List.suffix_of_suffix_length_le (within other longer) ⟨first, whole⟩ (by omega)
    exact ⟨first, second, by rw [List.append_assoc, between, whole], between.symm⟩
  obtain ⟨t, second, rfl⟩ :=
    List.exists_cons_of_ne_nil (show second ≠ [] by rintro rfl; simp [between] at less)
  rcases ended with closed | ⟨comma, others, same, isComma, risen⟩
  · -- no part takes a semicolon
    obtain ⟨taken, whole', _, unclosed⟩ := part_unclosed isPart longer
    obtain rfl : taken = first ++ t :: second := List.append_cancel_right (whole'.symm.trans whole)
    have semicolon := closed t (by simp [between])
    simp [unclosed t (by simp)] at semicolon
  · -- and the comma stands among no type arguments
    have sunk := form_sunk isPart.commas longer
    rw [whole, List.append_assoc] at sunk
    obtain ⟨rfl, rfl⟩ := List.cons.inj (between.symm.trans same)
    exact absurd (sunk_comma sunk (List.suffix_append second other) isComma)
      (ne_true_of_eq_false risen)

/-- A list is cut at the commas that stand among no type arguments. -/
theorem listed_cuts {form : Form} (isPart : IsPart form) {fuel : Nat} {trees : List Tree}
    (list : Listed fuel form trees) {rounds : Nat} (enough : trees.length < rounds) :
    listed form rounds trees = cuts trees := by
  induction list generalizing rounds with
  | @done rest closed =>
    cases rounds with
    | zero => omega
    | succ rounds =>
      have none : form.longest? Grammar.form rest = none := by
        refine Option.eq_none_iff_forall_ne_some.mpr fun other longest => ?_
        obtain ⟨taken, rfl, some, unclosed⟩ := part_unclosed isPart (longest_mem longest)
        obtain ⟨t, taken, rfl⟩ := List.exists_cons_of_ne_nil some
        simpa [unclosed t (by simp)] using closed t rfl
      simp [listed, none, cuts, closed_cuts closed]
  | @last trees rest part closed =>
    cases rounds with
    | zero => omega
    | succ rounds =>
      obtain ⟨taken, rfl, some, unclosed⟩ := part_unclosed isPart part
      have cut := commaParts_sunk (form_sunk isPart.commas part) rfl unclosed (closed_cuts closed)
      have longest := part_longest isPart part (Or.inl closed)
      cases rest with
      | nil =>
        simp only [listed, longest, cuts, cut]
        simp [before, some]
      | cons t rest =>
        have noComma : t.isSymbol "," = false := isSymbol_other (closed t rfl) (by decide)
        simp only [listed, longest, noComma, cuts, cut]
        simp [before, some]
  | @next trees rest comma part isComma others ih =>
    cases rounds with
    | zero => omega
    | succ rounds =>
      obtain ⟨taken, rfl, some, unclosed⟩ := part_unclosed isPart part
      have risen := listed_risen isPart others 0
      have behind : commaParts (comma :: rest) = [] :: commaParts rest := by
        simp [commaParts, isComma, risen, isSymbol_other isComma (show "," ≠ ";" by decide)]
      have cut := commaParts_sunk (form_sunk isPart.commas part) rfl unclosed behind
      have size : (taken ++ comma :: rest).length - (comma :: rest).length = taken.length := by simp
      simp only [List.length_append, List.length_cons] at enough
      simp only [listed, part_longest isPart part (Or.inr ⟨comma, rest, rfl, isComma, risen⟩),
        isComma, if_true, @ih rounds (by omega), cuts, cut]
      simp [before, some]

theorem partsOf_cuts {form : Form} (isPart : IsPart form) {fuel : Nat} {trees : List Tree}
    (list : Listed fuel form trees) : partsOf form trees = cuts trees :=
  listed_cuts isPart list (Nat.lt_succ_self _)

theorem declarator_part : IsPart (Grammar.declarator []) :=
  ⟨by decide +kernel, by decide +kernel, by decide +kernel, by decide +kernel, by decide +kernel⟩

def parameterForm : Form :=
  .alt Grammar.parameter Grammar.receiver

theorem parameter_part : IsPart parameterForm :=
  ⟨by decide +kernel, by decide +kernel, by decide +kernel, by decide +kernel, by decide +kernel⟩

theorem constant_part : IsPart Grammar.enumConstant :=
  ⟨by decide +kernel, by decide +kernel, by decide +kernel, by decide +kernel, by decide +kernel⟩

section
variable {fuel : Nat} {trees rest : List Tree}

/-- A list of parts, the further ones by a form that reads no more than parts. -/
theorem separated_listed {form other : Form} {middle : List Tree}
    (isPart : ∀ trees rest, rest ∈ endsBy (ends Grammar.form fuel) other trees →
      rest ∈ endsBy (ends Grammar.form fuel) form trees)
    (first : middle ∈ endsBy (ends Grammar.form fuel) form trees)
    (others : Steps (endsBy (ends Grammar.form fuel) (.seq (.sym ",") other)) middle rest)
    (ended : Closes rest ∨ ∃ comma behind, rest = comma :: behind ∧ comma.isSymbol "," = true ∧
      Listed fuel form behind) : Listed fuel form trees := by
  induction others generalizing trees with
  | done middle =>
    rcases ended with closed | ⟨comma, behind, rfl, isComma, list⟩
    · exact .last first closed
    · exact .next first isComma list
  | next step _ _ more =>
    obtain ⟨behind, comma, part⟩ := (mem_seq (ends_tidy _ _)).mp step
    obtain ⟨t, rfl, taken⟩ := mem_one_takes comma
    exact .next first ((PlainReadings.takes_sym "," t).symm.trans taken)
      (more (isPart _ _ part) ended)

theorem declarators_listed
    (read : rest ∈ endsBy (ends Grammar.form fuel) (Grammar.declarators []) trees)
    (closed : Closes rest) : Listed fuel (Grammar.declarator []) trees := by
  obtain ⟨middle, first, others⟩ := (mem_seq (ends_tidy _ _)).mp read
  exact separated_listed (fun _ _ read => read) first ((mem_star (ends_tidy _ _)).mp others)
    (Or.inl closed)

/-- A name is a type. -/
theorem name_type {excluded : List String}
    (read : rest ∈ endsBy (ends Grammar.form fuel) (.name (Grammar.primitives ++ excluded)) trees) :
    rest ∈ endsBy (ends Grammar.form fuel) (Grammar.simpleType excluded) trees := by
  have tidy := ends_tidy Grammar.form fuel
  refine (mem_alt tidy).mpr
    (Or.inr ((mem_seq tidy).mpr ⟨rest, read,
      (mem_seq tidy).mpr ⟨rest, ?_, (mem_seq tidy).mpr ⟨rest, ?_, ?_⟩⟩⟩))
  · exact (mem_alt tidy).mpr (Or.inr (List.mem_singleton.mpr rfl))
  · exact (mem_star tidy).mpr (.done rest)
  · exact List.mem_singleton.mpr rfl

theorem simple_bare {excluded : List String}
    (read : rest ∈ endsBy (ends Grammar.form fuel) (Grammar.simpleType excluded) trees) :
    rest ∈ endsBy (ends Grammar.form fuel) (Grammar.bareType excluded) trees :=
  (mem_seq (ends_tidy _ _)).mpr ⟨rest, read,
    (mem_alt (ends_tidy _ _)).mpr (Or.inr (List.mem_singleton.mpr rfl))⟩

/-- A longer type is a type. -/
theorem longType_bare {excluded : List String}
    (read : rest ∈ endsBy (ends Grammar.form fuel) (Grammar.longType excluded) trees) :
    rest ∈ endsBy (ends Grammar.form fuel) (Grammar.bareType excluded) trees := by
  have tidy := ends_tidy Grammar.form fuel
  have named : ∀ {trees rest}, rest ∈
      endsBy (ends Grammar.form fuel) (Grammar.longClassType excluded) trees →
      rest ∈ endsBy (ends Grammar.form fuel) (Grammar.simpleType excluded) trees := by
    intro trees rest read
    obtain ⟨middle, name, more⟩ := (mem_seq tidy).mp read
    refine (mem_alt tidy).mpr (Or.inr ((mem_seq tidy).mpr ⟨middle, name, (mem_seq tidy).mpr ?_⟩))
    rcases (mem_alt tidy).mp more with more | more
    · obtain ⟨behind, arguments, further⟩ := (mem_seq tidy).mp more
      exact ⟨behind, (mem_alt tidy).mpr (Or.inl arguments),
        (mem_seq tidy).mpr ⟨rest, further, List.mem_singleton.mpr rfl⟩⟩
    · obtain ⟨behind, first, further⟩ := (mem_seq tidy).mp more
      have less :=
        endsBy_solid tidy (fun _ _ _ called read => ends_solid fuel called read)
          (show solid memberRules _ = true from rfl) first
      exact ⟨middle, (mem_alt tidy).mpr (Or.inr (List.mem_singleton.mpr rfl)),
        (mem_seq tidy).mpr ⟨rest,
          (mem_star tidy).mpr (.next first less ((mem_star tidy).mp further)),
          List.mem_singleton.mpr rfl⟩⟩
  rcases (mem_alt tidy).mp read with read | read
  · obtain ⟨middle, type, dimensions⟩ := (mem_seq tidy).mp read
    refine (mem_seq tidy).mpr ⟨middle, ?_, dimensions⟩
    rcases (mem_alt tidy).mp type with primitive | long
    · exact (mem_alt tidy).mpr (Or.inl primitive)
    · exact named long
  · obtain ⟨middle, name, dimensions⟩ := (mem_seq tidy).mp read
    obtain ⟨behind, dimensions, done⟩ := (mem_seq tidy).mp dimensions
    obtain rfl := List.mem_singleton.mp done
    exact (mem_seq tidy).mpr ⟨middle, name_type name, (mem_alt tidy).mpr (Or.inl dimensions)⟩

private theorem name_allowed {excluded : List String}
    (read : rest ∈ endsBy (ends Grammar.form fuel) (.name excluded) trees) :
    rest ∈ endsBy (ends Grammar.form fuel) (.name []) trees := by
  obtain ⟨t, taken, rfl⟩ := mem_one.mp read
  refine mem_one.mpr ⟨t, ?_, rfl⟩
  simp only [Shape.accepts, Bool.and_eq_true] at taken ⊢
  exact ⟨taken.1, rfl⟩

/-- The first parameter is one like the others. -/
theorem firstParameter_part {followers : List String}
    (read : rest ∈ endsBy (ends Grammar.form fuel) (Grammar.firstParameter followers) trees) :
    rest ∈ endsBy (ends Grammar.form fuel) parameterForm trees := by
  have tidy := ends_tidy Grammar.form fuel
  have named : ∀ {excluded trees rest}, rest ∈
      endsBy (ends Grammar.form fuel) (Grammar.parameterName excluded) trees →
      rest ∈ endsBy (ends Grammar.form fuel) (Grammar.parameterName []) trees := by
    intro excluded trees rest read
    rcases (mem_alt tidy).mp read with read | read
    · obtain ⟨middle, name, dimensions⟩ := (mem_seq tidy).mp read
      exact (mem_alt tidy).mpr (Or.inl ((mem_seq tidy).mpr ⟨middle, name_allowed name, dimensions⟩))
    · exact (mem_alt tidy).mpr (Or.inr read)
  refine (mem_alt tidy).mpr (Or.inl ((mem_alt tidy).mpr ?_))
  rcases (mem_alt tidy).mp read with modified | plain
  · exact Or.inl modified
  · rcases (mem_alt tidy).mp plain with short | long
    · obtain ⟨middle, type, name⟩ := (mem_seq tidy).mp short
      exact Or.inr ((mem_seq tidy).mpr ⟨middle, simple_bare (name_type type), named name⟩)
    · obtain ⟨middle, type, name⟩ := (mem_seq tidy).mp long
      exact Or.inr ((mem_seq tidy).mpr ⟨middle, longType_bare type, named name⟩)

private theorem parameter_form (trees rest : List Tree)
    (read : rest ∈ endsBy (ends Grammar.form fuel) Grammar.parameter trees) :
    rest ∈ endsBy (ends Grammar.form fuel) parameterForm trees :=
  (mem_alt (ends_tidy _ _)).mpr (Or.inl read)

private theorem closes_nil : Closes [] := by
  simp [Closes]

theorem parameters_listed {followers : List String}
    (read : [] ∈ endsBy (ends Grammar.form fuel) (Grammar.parameters followers) trees) :
    Listed fuel parameterForm trees := by
  have tidy := ends_tidy Grammar.form fuel
  rcases (mem_alt tidy).mp read with read | read
  · rcases (mem_alt tidy).mp read with receiver | read
    · exact .last ((mem_alt tidy).mpr (Or.inr receiver)) closes_nil
    · obtain ⟨middle, receiver, sequel⟩ := (mem_seq tidy).mp read
      obtain ⟨behind, comma, sequel⟩ := (mem_seq tidy).mp sequel
      obtain ⟨rest, list, done⟩ := (mem_seq tidy).mp sequel
      obtain rfl := List.mem_singleton.mp done
      obtain ⟨t, rfl, taken⟩ := mem_one_takes comma
      refine .next ((mem_alt tidy).mpr (Or.inr receiver))
        ((PlainReadings.takes_sym "," t).symm.trans taken) ?_
      rcases (mem_alt tidy).mp list with some | none
      · obtain ⟨second, first, others⟩ := (mem_seq tidy).mp some
        exact separated_listed parameter_form (parameter_form _ _ first) ((mem_star tidy).mp others)
          (Or.inl closes_nil)
      · exact .done (List.mem_singleton.mp none ▸ closes_nil)
  · rcases (mem_alt tidy).mp read with some | none
    · obtain ⟨second, first, others⟩ := (mem_seq tidy).mp some
      exact separated_listed parameter_form (firstParameter_part first) ((mem_star tidy).mp others)
        (Or.inl closes_nil)
    · exact .done (List.mem_singleton.mp none ▸ closes_nil)

/-- Constants, perhaps with a comma behind them, or a comma alone. -/
theorem constants_listed
    (read : [] ∈ endsBy (ends Grammar.form fuel) (Grammar.items Grammar.enumConstant) trees) :
    Listed fuel Grammar.enumConstant trees ∨ ∃ comma, trees = [comma] ∧
      comma.isSymbol "," = true := by
  have tidy := ends_tidy Grammar.form fuel
  obtain ⟨rest, list, last⟩ := (mem_seq tidy).mp read
  have ended : Closes rest ∨ ∃ comma behind, rest = comma :: behind ∧ comma.isSymbol "," = true ∧
      behind = [] := by
    rcases (mem_alt tidy).mp last with comma | none
    · obtain ⟨t, rfl, taken⟩ := mem_one_takes comma
      exact Or.inr ⟨t, [], rfl, (PlainReadings.takes_sym "," t).symm.trans taken, rfl⟩
    · exact Or.inl (List.mem_singleton.mp none ▸ closes_nil)
  rcases (mem_alt tidy).mp list with some | none
  · obtain ⟨middle, first, others⟩ := (mem_seq tidy).mp some
    refine Or.inl (separated_listed (fun _ _ read => read) first ((mem_star tidy).mp others) ?_)
    rcases ended with closed | ⟨comma, behind, whole, isComma, rfl⟩
    · exact Or.inl closed
    · exact Or.inr ⟨comma, [], whole, isComma, .done closes_nil⟩
  · obtain rfl := List.mem_singleton.mp none
    rcases ended with closed | ⟨comma, behind, whole, isComma, rfl⟩
    · exact Or.inl (.done closed)
    · exact Or.inr ⟨comma, whole, isComma⟩

end

end ClassDiagram.Proofs.CommaCuts
