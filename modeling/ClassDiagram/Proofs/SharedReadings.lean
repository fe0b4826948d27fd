import ClassDiagram.Proofs.DecidedReadings
import ClassDiagram.Proofs.TreeShapes

/-! Readings that two sources of the same tokens share. Modifiers, types and headings are read alike
in both: what they take of a region has to be derived by the one rule that annotations or dimensions
call for, whatever else may derive its inside in the one source only, and a word that is read as one
with the hyphen behind it has to be, since nothing else in them goes on with a hyphen. -/

namespace ClassDiagram.Proofs.SharedReadings
open Java Java.Tree Java.Outline Form Likeness OutlineLikeness Remainders BodyPieces LocalReadings
  DecidedReadings TreeShapes GeneratedMembers
open List (Forall₂)

def headAtoms : Form → Bool
  | .one (.angle _) => false
  | .one (.symbols texts) => !texts.contains "="
  | .one _ => true
  | .inside .paren .annotationArguments => true
  | .inside .square .nothing => true
  | _ => false

/-- Both words are read as one with what follows, or neither. -/
def SameGlue (first second : Tree) : Prop :=
  ∀ t u, first = .leaf t → second = .leaf u → t.kind = .word → t.glued = u.glued

structure Likewise (first second : Tree) : Prop where
  shape : SameShape first second
  glue : SameGlue first second
  arguments : takes (.inside .paren .annotationArguments) first =
    takes (.inside .paren .annotationArguments) second
  nothing : takes (.inside .square .nothing) first = takes (.inside .square .nothing) second

theorem SameGlue.symm {first second : Tree} (shape : SameShape first second)
    (glue : SameGlue first second) : SameGlue second first := by
  intro u t isSecond isFirst word
  subst isSecond isFirst
  have same : t.kind = u.kind ∧ t.text = u.text := by
    simpa [SameShape, TreeShapes.shape, shapeToken] using shape
  exact (glue t u rfl rfl (same.1.trans word)).symm

theorem accepts_alike {shape : Shape} (noAngle : ∀ glued, shape ≠ .angle glued) {t u : Token}
    (kind : t.kind = u.kind) (text : t.text = u.text) (glue : t.kind = .word → t.glued = u.glued) :
    shape.accepts t = shape.accepts u := by
  cases shape with
  | angle glued => exact absurd rfl (noAngle glued)
  | name excluded =>
    by_cases word : t.kind = .word
    · have keyword : t.keyword = u.keyword := by simp only [Token.keyword, glue word, text]
      simp only [Shape.accepts, ← kind, keyword]
    · simp [Shape.accepts, ← kind, beq_eq_false_iff_ne.mpr word]
  | words texts =>
    by_cases word : t.kind = .word
    · have keyword : t.keyword = u.keyword := by simp only [Token.keyword, glue word, text]
      simp only [Shape.accepts, ← kind, keyword]
    · simp [Shape.accepts, ← kind, beq_eq_false_iff_ne.mpr word]
  | _ => simp [Shape.accepts, kind, text]

/-- Of regions only two kinds are taken, each by one rule. -/
theorem headAtoms_inside {bracket : Bracket} {rule : Rule}
    (isHead : headAtoms (.inside bracket rule) = true) :
    Form.inside bracket rule = .inside .paren .annotationArguments ∨
    Form.inside bracket rule = .inside .square .nothing := by
  cases bracket <;> cases rule <;> simp [headAtoms] at isHead ⊢

private theorem typeRules_head (rule : Rule) (called : typeRules rule = true) :
    builtFrom headAtoms typeRules (Grammar.form rule) = true := by
  cases rule with
  | tag => decide +kernel
  | typeArguments => decide +kernel
  | _ => simp [typeRules] at called

theorem likewise_veiled : Veiled Likewise headAtoms typeRules := by
  refine ⟨⟨?_, typeRules_head⟩, fun _ _ like => like.shape.twin, ?_⟩
  · intro first second like atom isHead
    rcases like.shape.cases with ⟨t, u, rfl, rfl, kind, text⟩ |
      ⟨bracket, _, _, _, _, _, _, _, _, rfl, rfl, _, _⟩
    · cases atom with
      | one shape =>
        refine accepts_alike ?_ kind text (like.glue t u rfl rfl)
        rintro glued rfl
        simp [headAtoms] at isHead
      | _ => rfl
    · cases atom with
      | inside found rule =>
        rcases headAtoms_inside isHead with same | same
        · exact same ▸ like.arguments
        · exact same ▸ like.nothing
      | _ => rfl
  · decide +kernel

/-- What a tree that modifiers, types or headings take is known to be in any source. -/
structure Seen (t : Tree) : Prop where
  arguments : ∀ rules opening closing inner, t = .group .paren rules opening closing inner →
    takes (.inside .paren .annotationArguments) t = true
  nothing : ∀ rules opening closing inner, t = .group .square rules opening closing inner →
    takes (.inside .square .nothing) t = true

theorem seen_taken {atom : Form} {t : Tree} (isHead : (headAtoms atom || isRegion atom) = true)
    (taken : takes atom t = true) : Seen t := by
  cases atom with
  | one shape =>
    cases t with
    | leaf => exact ⟨by simp, by simp⟩
    | group => simp [takes] at taken
  | inside bracket rule =>
    cases t with
    | leaf => exact ⟨by simp, by simp⟩
    | group found rules opening closing inner =>
      obtain rfl : found = bracket := by simp_all [takes]
      refine ⟨?_, ?_⟩
      · rintro _ _ _ _ ⟨rfl⟩
        rcases Bool.or_eq_true_iff.mp isHead with isHead | region
        · rcases headAtoms_inside isHead with same | same
          · exact same ▸ taken
          · simp at same
        · simp [isRegion] at region
      · rintro _ _ _ _ ⟨rfl⟩
        rcases Bool.or_eq_true_iff.mp isHead with isHead | region
        · rcases headAtoms_inside isHead with same | same
          · simp at same
          · exact same ▸ taken
        · simp [isRegion] at region
  | _ => cases t <;> simp [takes] at taken

/-- Two such trees of one shape are not told apart. -/
theorem Seen.likewise {first second : Tree} (shape : SameShape first second)
    (glue : SameGlue first second) (seen : Seen first) (seen' : Seen second) :
    Likewise first second := by
  refine ⟨shape, glue, ?_, ?_⟩
  all_goals
    rcases shape.cases with ⟨t, u, rfl, rfl, _, _⟩ |
    ⟨bracket, _, _, _, _, _, _, _, _, rfl, rfl, _, _⟩
  · rfl
  · cases bracket with
    | paren => rw [seen.arguments _ _ _ _ rfl, seen'.arguments _ _ _ _ rfl]
    | _ => rfl
  · rfl
  · cases bracket with
    | square => rw [seen.nothing _ _ _ _ rfl, seen'.nothing _ _ _ _ rfl]
    | _ => rfl

theorem Likewise.symm {first second : Tree} (like : Likewise first second) :
    Likewise second first :=
  ⟨like.shape.symm, like.glue.symm like.shape, like.arguments.symm, like.nothing.symm⟩

/-- A word that may be the first part of the modifier with a hyphen. -/
def isJoined : Tree → Bool
  | .leaf t => t.kind == .word && t.keyword == "non-sealed"
  | .group .. => false

/-- Up to the first equals sign hyphens stand behind such words only. -/
def tight : (joined : Bool) → List Tree → Bool
  | _, [] => true
  | joined, t :: rest => t.isSymbol "=" || ((!t.isSymbol "-" || joined) && tight (isJoined t) rest)

/-- Up to the first equals sign words are read as one with what follows in both lists or in none. -/
def Matched : List Tree → List Tree → Prop
  | t :: rest, t' :: rest' => t.isSymbol "=" = true ∨ SameGlue t t' ∧ Matched rest rest'
  | _, _ => True

private theorem matched_symm {trees trees' : List Tree} (same : Forall₂ SameShape trees trees')
    (matched : Matched trees trees') : Matched trees' trees := by
  induction same with
  | nil => trivial
  | cons first _ ih =>
    rcases matched with equals | ⟨glue, behind⟩
    · exact Or.inl ((first.twin.symbol "=").symm.trans equals)
    · exact Or.inr ⟨glue.symm first, ih behind⟩

private theorem tight_mono {joined : Bool} {trees : List Tree}
    (isTight : tight false trees = true) : tight joined trees = true := by
  cases trees with
  | nil => rfl
  | cons t rest =>
    simp only [tight, Bool.or_false, Bool.or_eq_true, Bool.and_eq_true] at isTight ⊢
    exact isTight.imp_right (And.imp_left Or.inl)

/-- A word that is read as one with a hyphen in the one source is so in the other, if that does not
go on with a hyphen otherwise. -/
theorem glued_both {t u : Token} {rest rest' : List Tree} (glued : t.glued = true)
    (before : BeforeHyphen t (∃ v ∈ rest.head?, v.isSymbol "-" = true))
    (parted : u.text ≠ "non-sealed") (same : Forall₂ SameShape rest rest')
    (isTight : tight (isJoined (.leaf u)) rest' = true) : u.glued = true := by
  obtain ⟨hyphen, head, isHyphen⟩ := before.next glued
  cases same with
  | nil => simp at head
  | @cons v v' more more' first behind =>
    obtain rfl : v = hyphen := by simpa using head
    have symbol : v'.isSymbol "-" = true := (first.twin.symbol "-").symm.trans isHyphen
    have noEquals : v'.isSymbol "=" = false := isSymbol_other symbol (by decide)
    simp only [tight, symbol, noEquals, Bool.not_true, Bool.false_or, Bool.and_eq_true] at isTight
    have keyword : u.keyword = "non-sealed" := by simpa using (Bool.and_eq_true_iff.mp isTight.1).2
    simp only [Token.keyword] at keyword
    split at keyword
    next glued => exact glued
    next => exact absurd keyword parted

theorem matched_tight {trees trees' : List Tree} (same : Forall₂ SameShape trees trees')
    (lexed : AllLexed trees) (lexed' : AllLexed trees') {joined joined' : Bool}
    (isTight : tight joined trees = true) (isTight' : tight joined' trees' = true) :
    Matched trees trees' := by
  induction same generalizing joined joined' with
  | nil => trivial
  | @cons t t' rest rest' first more ih =>
    obtain ⟨_, word, behind⟩ := lexed
    obtain ⟨_, word', behind'⟩ := lexed'
    by_cases equals : t.isSymbol "=" = true
    · exact Or.inl equals
    · have equals' : ¬t'.isSymbol "=" = true := first.twin.symbol "=" ▸ equals
      simp only [tight, equals, equals', Bool.false_or, Bool.and_eq_true] at isTight isTight'
      refine Or.inr ⟨?_, ih behind behind' isTight.2 isTight'.2⟩
      rintro token token' rfl rfl isWord
      have kind : token.kind = token'.kind := by
        rcases first.cases with ⟨_, _, one, two, kind, _⟩ | ⟨_, _, _, _, _, _, _, _, _, one, _⟩
        · rwa [← Tree.leaf.inj one, ← Tree.leaf.inj two] at kind
        · simp at one
      have before := word token rfl isWord
      have before' := word' token' rfl (kind.symm.trans isWord)
      rw [Bool.eq_iff_iff]
      exact ⟨fun glued => glued_both glued before before'.parted more isTight'.2,
        fun glued => glued_both glued before' before.parted (shapes_symm more) isTight.2⟩

def hyphenated : Form :=
  .all [.word "non-sealed", .sym "-", .word "sealed"]

/-- A form that takes no hyphen but in that modifier, unless behind an equals sign. -/
def isTight : Form → Bool
  | .one shape => avoids "-" (.one shape)
  | .call rule => typeRules rule
  | .seq first second =>
    first = .sym "=" || .seq first second = hyphenated || (isTight first && isTight second)
  | .alt left right => isTight left && isTight right
  | .star body => isTight body
  | _ => true

/-- What is taken leaves hyphens where they may stand. -/
def Tightens (trees rest : List Tree) : Prop :=
  tight false rest = true → tight false trees = true

private theorem hyphenated_tightens {callees : Rule → List Tree → List (List Tree)}
    (tidy : Tidy callees) {trees rest : List Tree} (read : rest ∈ endsBy callees hyphenated trees) :
    Tightens trees rest := by
  intro behind
  obtain ⟨first, non, fromHyphen⟩ := (mem_seq tidy).mp read
  obtain ⟨second, hyphen, fromSealed⟩ := (mem_seq tidy).mp fromHyphen
  obtain ⟨third, isSealed, done⟩ := (mem_seq tidy).mp fromSealed
  obtain rfl := List.mem_singleton.mp done
  obtain ⟨t, taken, rfl⟩ := mem_one.mp non
  obtain ⟨u, taken', rfl⟩ := mem_one.mp hyphen
  obtain ⟨v, taken'', rfl⟩ := mem_one.mp isSealed
  simp only [Shape.accepts, Bool.and_eq_true, beq_iff_eq, List.contains_iff_mem, List.mem_singleton]
    at taken taken' taken''
  simp [tight, isJoined, Tree.isSymbol, Token.isSymbol, taken, taken', taken'', tight_mono behind]

private theorem endsBy_tightens {callees : Rule → List Tree → List (List Tree)}
    (tidy : Tidy callees)
    (called : ∀ rule trees rest, typeRules rule = true → rest ∈ callees rule trees →
      Tightens trees rest) {form : Form} (isTightForm : isTight form = true)
    {trees rest : List Tree} (read : rest ∈ endsBy callees form trees) : Tightens trees rest := by
  induction form generalizing trees rest with
  | empty => exact List.mem_singleton.mp read ▸ id
  | one shape =>
    obtain ⟨t, rfl, taken⟩ := mem_one_takes read
    intro behind
    simp [tight, avoids_taken isTightForm taken, tight_mono behind]
  | inside bracket rule =>
    obtain ⟨_, _, _, _, _, rfl⟩ := mem_inside.mp read
    intro behind
    simp [tight, Tree.isSymbol, tight_mono behind]
  | call rule => exact called rule trees rest isTightForm read
  | seq first second one two =>
    obtain ⟨middle, start, sequel⟩ := (mem_seq tidy).mp read
    simp only [isTight, Bool.or_eq_true, Bool.and_eq_true, decide_eq_true_eq] at isTightForm
    rcases isTightForm with (rfl | same) | parts
    · obtain ⟨t, rfl, taken⟩ := mem_one_takes start
      intro _
      have equals : t.isSymbol "=" = true := (PlainReadings.takes_sym "=" t).symm.trans taken
      simp [tight, equals]
    · exact hyphenated_tightens tidy (same ▸ read)
    · exact fun behind => one parts.1 start (two parts.2 sequel behind)
  | alt left right one two =>
    simp only [isTight, Bool.and_eq_true] at isTightForm
    rcases (mem_alt tidy).mp read with read | read
    · exact one isTightForm.1 read
    · exact two isTightForm.2 read
  | star body ih =>
    have steps := (mem_star tidy).mp read
    clear read
    induction steps with
    | done => exact id
    | next step _ _ more => exact fun behind => ih isTightForm step (more behind)
  | absent form => exact (mem_absent.mp read).1 ▸ id

private theorem typeRules_tight (rule : Rule) (called : typeRules rule = true) :
    isTight (Grammar.form rule) = true := by
  cases rule with
  | tag => decide +kernel
  | typeArguments => decide +kernel
  | _ => simp [typeRules] at called

private theorem ends_tightens (fuel : Nat) (rule : Rule) (trees rest : List Tree)
    (called : typeRules rule = true) (read : rest ∈ ends Grammar.form fuel rule trees) :
    Tightens trees rest := by
  induction fuel generalizing rule trees rest with
  | zero => simp [ends] at read
  | succ fuel ih =>
    exact endsBy_tightens (ends_tidy Grammar.form fuel) ih (typeRules_tight rule called) read

/-- All that such a form takes has hyphens where they may stand. -/
theorem form_tight {form : Form} (isTightForm : isTight form = true) {fuel : Nat}
    {trees : List Tree} (read : [] ∈ endsBy (ends Grammar.form fuel) form trees) :
    tight false trees = true :=
  endsBy_tightens (ends_tidy Grammar.form fuel) (ends_tightens fuel) isTightForm read rfl

/-- A form for modifiers or types that is read as far as it goes. -/
def isHead (form : Form) : Bool :=
  builtFrom headAtoms typeRules form && isLocal memberRules form && isDecided form && isSteady form

/-- What is left is nothing, or starts with a tree that the form does not go on with. -/
def Halts (form : Form) (rest : List Tree) : Prop :=
  rest = [] ∨ ∃ others, exclusive (continues form) others = true ∧ StartsLike others rest

/-- What a form leaves that goes no further. -/
structure Stops (form : Form) (trees rest : List Tree) : Prop where
  read : ∃ fuel, rest ∈ endsBy (ends Grammar.form fuel) form trees
  halt : Halts form rest

/-- The second form starts with trees with which the first one cannot go on. -/
def endedBy (form next : Form) : Bool :=
  isDecided next && solid typeRules next && exclusive (continues form) (starts next)

/-- It goes no further before what starts in another way. -/
theorem stops_before {form next : Form} {fuel : Nat} {trees middle rest : List Tree}
    (start : middle ∈ endsBy (ends Grammar.form fuel) form trees)
    (sequel : rest ∈ endsBy (ends Grammar.form fuel) next middle)
    (parted : endedBy form next = true) : Stops form trees middle := by
  simp only [endedBy, Bool.and_eq_true] at parted
  have deciding := ends_deciding fuel
  have some := endsBy_solid deciding.tidy deciding.solid parted.1.2 sequel
  exact ⟨⟨fuel, start⟩, Or.inr ⟨starts next, parted.2, starts_like deciding parted.1.1 sequel some⟩⟩

theorem head_taken {form : Form} (built : builtFrom headAtoms typeRules form = true) {fuel : Nat}
    {trees rest : List Tree} (read : rest ∈ endsBy (ends Grammar.form fuel) form trees) :
    ∃ taken, trees = taken ++ rest ∧ ∀ t ∈ taken, t.isSymbol "=" = false ∧ Seen t := by
  obtain ⟨taken, whole, atoms⟩ :=
    endsBy_taken (ends_tidy Grammar.form fuel)
      (fun _ _ _ called read => ends_taken typeRules_head fuel called read) built read
  refine ⟨taken, whole, fun t member => ?_⟩
  obtain ⟨atom, head, own⟩ := atoms t member
  have avoided : avoids "=" atom = true := by
    cases atom with
    | one shape => cases shape <;> simp_all [headAtoms, avoids]
    | _ => rfl
  exact ⟨avoids_taken avoided own, seen_taken (by simp [head]) own⟩

/-- Trees of which both are taken are alike, and words are matched behind them, too. -/
theorem likewise_front {taken taken' rest rest' : List Tree} (same : Forall₂ SameShape taken taken')
    (matched : Matched (taken ++ rest) (taken' ++ rest'))
    (seen : ∀ t ∈ taken, t.isSymbol "=" = false ∧ Seen t)
    (seen' : ∀ t ∈ taken', t.isSymbol "=" = false ∧ Seen t) :
    Forall₂ Likewise taken taken' ∧ Matched rest rest' := by
  induction same with
  | nil => exact ⟨.nil, matched⟩
  | @cons t t' more more' first _ ih =>
    obtain ⟨noEquals, own⟩ := seen t (by simp)
    rcases matched with equals | ⟨glue, behind⟩
    · rw [noEquals] at equals
      simp at equals
    · obtain ⟨others, matched⟩ :=
        ih behind (fun u member => seen u (by simp [member])) fun u member =>
          seen' u (by simp [member])
      exact ⟨.cons (own.likewise first glue (seen' t' (by simp)).2) others, matched⟩

private theorem matched_behind {taken taken' rest rest' : List Tree}
    (size : taken.length = taken'.length) (unequal : ∀ t ∈ taken, t.isSymbol "=" = false)
    (matched : Matched (taken ++ rest) (taken' ++ rest')) : Matched rest rest' := by
  induction taken generalizing taken' with
  | nil =>
    obtain rfl : taken' = [] := List.length_eq_zero_iff.mp size.symm
    exact matched
  | cons t taken ih =>
    obtain ⟨t', taken', rfl⟩ := List.exists_cons_of_length_eq_add_one size.symm
    rcases matched with equals | ⟨_, behind⟩
    · simp [unequal t (by simp)] at equals
    · exact ih (by simpa using size) (fun u member => unequal u (by simp [member])) behind

/-- No two trees of one shape are taken by two forms that exclude each other. -/
theorem excludes_shape {atom other : Form} (none : excludes atom other = true) {t u : Tree}
    (shape : SameShape t u) (glue : SameGlue t u) (taken : takes atom u = true) :
    takes other t = false := by
  rcases shape.cases with ⟨token, token', rfl, rfl, kind, text⟩ |
    ⟨bracket, _, _, _, _, _, _, _, _, rfl, rfl, _, _⟩
  · cases atom with
    | one shape =>
      cases other with
      | one other =>
        have alike : other.accepts token = other.accepts token' := by
          refine accepts_alike ?_ kind text (glue token token' rfl rfl)
          rintro glued rfl
          cases shape <;> simp [excludes, disjoint] at none
        exact alike.trans (disjoint_accepts none taken)
      | _ => rfl
    | _ => simp [takes] at taken
  · cases atom with
    | inside found =>
      cases other with
      | inside other =>
        simp only [takes, excludes, Bool.and_eq_true, decide_eq_true_eq, bne_iff_ne] at taken none ⊢
        simp [taken.1, none]
      | _ => rfl
    | _ => simp [takes] at taken

/-- What a form takes it takes in another list, too, if it does not tell the trees apart, whatever
follows there. -/
theorem read_like {R : Tree → Tree → Prop} {atoms : Form → Bool} {calls : Rule → Bool}
    (blind : Blind R atoms calls) {form : Form} (built : builtFrom atoms calls form = true)
    (free : isLocal memberRules form = true) {fuel : Nat} {taken taken' rest : List Tree}
    (rest' : List Tree) (like : Forall₂ R taken taken')
    (read : rest ∈ endsBy (ends Grammar.form fuel) form (taken ++ rest)) :
    rest' ∈ endsBy (ends Grammar.form fuel) form (taken' ++ rest') := by
  have alone := form_moves free (Nat.le_refl fuel) taken rest [] read
  rw [List.append_nil] at alone
  have alike :
      Forall₂ (Forall₂ R) (endsBy (ends Grammar.form fuel) form taken)
      (endsBy (ends Grammar.form fuel) form taken') :=
    endsBy_like blind.alike (fun _ _ _ called like => ends_like blind fuel called like) built like
  have other : [] ∈ endsBy (ends Grammar.form fuel) form (taken' ++ []) := by
    rw [List.append_nil]
    simpa [List.isEmpty_iff] using (any_empty_like alike).symm.trans
      (List.any_eq_true.mpr ⟨[], alone, rfl⟩)
  exact form_moves free (Nat.le_refl fuel) taken' [] rest' other

section
variable {form : Form} (head : isHead form = true)
include head

/-- A reading in the one source is one in the other, as far as both take it, and what goes on in the
other source goes on behind it. -/
theorem shorter_shared {fuel fuel' : Nat} {taken taken' rest rest' : List Tree}
    (same : Forall₂ SameShape (taken ++ rest) (taken' ++ rest'))
    (matched : Matched (taken ++ rest) (taken' ++ rest'))
    (read : rest ∈ endsBy (ends Grammar.form fuel) form (taken ++ rest)) (halt : Halts form rest)
    (read' : rest' ∈ endsBy (ends Grammar.form fuel') form (taken' ++ rest'))
    (shorter : taken.length ≤ taken'.length) :
    taken.length = taken'.length ∧ Forall₂ Likewise taken taken' := by
  simp only [isHead, Bool.and_eq_true] at head
  obtain ⟨⟨⟨built, free⟩, decided⟩, _⟩ := head
  obtain ⟨_, whole, seen⟩ := head_taken built read
  obtain rfl := List.append_cancel_right whole
  obtain ⟨_, whole', seen'⟩ := head_taken built read'
  obtain rfl := List.append_cancel_right whole'
  obtain ⟨front, back, rfl, size⟩ : ∃ front back, taken' = front ++ back ∧
      taken.length = front.length :=
    ⟨taken'.take taken.length, taken'.drop taken.length, (List.take_append_drop _ _).symm,
      by simp [shorter]⟩
  rw [List.append_assoc] at same matched read'
  obtain ⟨fronts, backs⟩ : Forall₂ SameShape taken front ∧
      Forall₂ SameShape rest (back ++ rest') := by
    have first := List.forall₂_take taken.length same
    have second := List.forall₂_drop taken.length same
    rw [List.take_left, size, List.take_left] at first
    rw [List.drop_left, size, List.drop_left] at second
    exact ⟨first, second⟩
  obtain ⟨like, behind⟩ := likewise_front fronts matched seen fun t member =>
    seen' t (by simp [member])
  cases back with
  | nil => exact ⟨by simp [size], by simpa using like⟩
  | cons u back =>
    exfalso
    -- what is read in the one source is a second reading in the other
    have moved := read_like likewise_veiled.toBlind built free (u :: back ++ rest') like read
    have one :=
      form_moves free (Nat.le_max_left fuel fuel') front (u :: back ++ rest')
        (u :: back ++ rest') moved
    rw [← List.append_assoc] at read'
    have two := form_moves free (Nat.le_max_right fuel fuel') (front ++ u :: back) rest' rest' read'
    rw [List.append_assoc] at two
    obtain ⟨_, start, atom, further, taken⟩ :=
      (isDecided_decided (ends_deciding _) decided).1 two one (by
      simp only [List.length_append, List.length_cons]
      omega)
    obtain rfl := Option.some.inj start
    obtain ⟨t, more, shape, _, rfl⟩ := List.forall₂_cons_right_iff.mp backs
    rcases halt with none | ⟨others, apart, _, start', other, listed, taken'⟩
    · simp at none
    · obtain rfl := Option.some.inj start'
      simp only [exclusive, List.all_eq_true] at apart
      have glue : SameGlue t u := by
        rcases behind with equals | ⟨glue, _⟩
        · -- an equals sign is no word
          rintro token _ rfl _ word
          simp [Tree.isSymbol, Token.isSymbol, word] at equals
        · exact glue
      simp [excludes_shape (apart atom further other listed) shape glue taken] at taken'

/-- What two sources of the same tokens take by the form up to where it cannot go on is the same. -/
theorem shared_reading {trees trees' rest rest' : List Tree} (same : Forall₂ SameShape trees trees')
    (matched : Matched trees trees') (stops : Stops form trees rest)
    (stops' : Stops form trees' rest') :
    ∃ taken taken', trees = taken ++ rest ∧ trees' = taken' ++ rest' ∧
      Forall₂ Likewise taken taken' := by
  obtain ⟨fuel, read⟩ := stops.read
  obtain ⟨fuel', read'⟩ := stops'.read
  obtain ⟨taken, rfl⟩ := endsBy_within (ends_tidy _ _) form trees rest read
  obtain ⟨taken', rfl⟩ := endsBy_within (ends_tidy _ _) form trees' rest' read'
  refine ⟨taken, taken', rfl, rfl, ?_⟩
  rcases Nat.le_total taken.length taken'.length with shorter | longer
  · exact (shorter_shared head same matched read stops.halt read' shorter).2
  · have like :=
      (shorter_shared head (shapes_symm same) (matched_symm same matched) read'
        stops'.halt read longer).2
    exact (List.Forall₂.flip like).imp fun _ _ like => like.symm

theorem Stops.after_eq {trees rest : List Tree} (stops : Stops form trees rest) :
    after form trees = rest := by
  simp only [isHead, Bool.and_eq_true] at head
  obtain ⟨fuel, read⟩ := stops.read
  refine after_stopped head.1.2 head.2 read fun further => ?_
  rcases stops.halt with rfl | ⟨others, apart, like⟩
  · obtain ⟨_, none, _⟩ := further
    simp at none
  · exact further.apart apart like

end

structure Paired (trees trees' : List Tree) : Prop where
  same : Forall₂ SameShape trees trees'
  lexed : AllLexed trees
  lexed' : AllLexed trees'
  matched : Matched trees trees'

/-- They have the same behind what they both read as far as it goes. -/
theorem Paired.rest {trees trees' rest rest' : List Tree} (pair : Paired trees trees') {form : Form}
    (head : isHead form = true) (stops : Stops form trees rest) (stops' : Stops form trees' rest') :
    Paired rest rest' := by
  obtain ⟨taken, taken', rfl, rfl, like⟩ := shared_reading head pair.same pair.matched stops stops'
  obtain ⟨fuel, read⟩ := stops.read
  simp only [isHead, Bool.and_eq_true] at head
  obtain ⟨_, whole, seen⟩ := head_taken head.1.1.1 read
  obtain rfl := List.append_cancel_right whole
  have behind := List.forall₂_drop taken.length pair.same
  rw [List.drop_left, like.length_eq, List.drop_left] at behind
  exact ⟨behind, pair.lexed.behind, pair.lexed'.behind,
    matched_behind like.length_eq (fun t member => (seen t member).1) pair.matched⟩

theorem Paired.taken {trees trees' rest rest' : List Tree} (pair : Paired trees trees')
    {form : Form} (head : isHead form = true) (stops : Stops form trees rest)
    (stops' : Stops form trees' rest') :
    Forall₂ Likewise (before rest trees) (before rest' trees') := by
  obtain ⟨taken, taken', rfl, rfl, like⟩ := shared_reading head pair.same pair.matched stops stops'
  rwa [before_append, before_append]

end ClassDiagram.Proofs.SharedReadings
