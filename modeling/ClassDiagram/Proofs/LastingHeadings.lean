import ClassDiagram.Proofs.FormRuns
import ClassDiagram.Proofs.GrownSources
import ClassDiagram.Proofs.SharedReadings

/-! Headings that stay. What starts like a type in one source does so in every accepted source of
the same tokens: if its modifiers were read otherwise there, an annotation would stand before a
region that no annotation takes, or `sealed` behind an operator would be followed by modifiers and
the keyword of a type, and neither of these stands in a program. -/

namespace ClassDiagram.Proofs.LastingHeadings
open Java Java.Tree Java.Outline Form Likeness Remainders BodyPieces LocalReadings DecidedReadings
  TreeShapes FormRuns GrownSources SharedReadings GeneratedMembers
open List (Forall₂)

/-- What a tree is to modifiers. `arguments` is a region that an annotation may take, `other` among
them one that it may not. -/
inductive Mark where
  | at
  | interface
  | dot
  | hyphen
  | arguments
  | parentheses
  | joined
  | sealed
  | modifier
  | keyword
  | word
  | other
  deriving DecidableEq

def kindWords : List String :=
  ["class", "interface", "enum"]

def wordMark (keyword : String) : Mark :=
  if keyword = "non-sealed" then .joined
  else if keyword = "sealed" then .sealed
  else if Grammar.modifierWords.contains keyword then .modifier
  else if kindWords.contains keyword then .keyword
  else .word

def symbolMark (text : String) : Mark :=
  if text = "@" then .at
  else if text = "@interface" then .interface
  else if text = "." then .dot
  else if text = "-" then .hyphen
  else .other

def mark : Tree → Mark
  | .leaf t =>
    match t.kind with
    | .word => wordMark t.keyword
    | .symbol => symbolMark t.text
    | _ => .other
  | .group .paren rules _ _ _ =>
    if rules.contains .annotationArguments then .arguments else .parentheses
  | .group .. => .other

/-- The marks of the trees that a form for single trees takes. -/
def marks : Form → List Mark
  | .one (.name excluded) =>
    fromEach (fun text => [wordMark text])
      ("" :: (Grammar.modifierWords ++ kindWords).filter (!excluded.contains ·))
  | .one (.words texts) => fromEach (fun text => [wordMark text]) texts
  | .one (.symbols texts) => fromEach (fun text => [symbolMark text]) texts
  | .inside .paren rule =>
    if rule = .annotationArguments then [.arguments] else [.arguments, .parentheses]
  | .one (.angle _) => [symbolMark ">"]
  | _ => [.other]

private theorem name_marked {excluded : List String} {keyword : String}
    (allowed : keyword ∉ excluded) : wordMark keyword ∈ marks (.one (.name excluded)) := by
  by_cases known : keyword ∈ Grammar.modifierWords ++ kindWords
  · exact mem_fromEach
      (List.mem_cons_of_mem _ (List.mem_filter.mpr ⟨known, by simpa using allowed⟩)) (by simp)
  · have plain : wordMark keyword = wordMark "" := by
      have noModifier : keyword ∉ Grammar.modifierWords :=
        fun listed => known (List.mem_append.mpr (Or.inl listed))
      have noKind : keyword ∉ kindWords := fun listed => known (List.mem_append.mpr (Or.inr listed))
      have noHyphen : keyword ≠ "non-sealed" := fun same => noModifier (same ▸ by decide)
      have noSealed : keyword ≠ "sealed" := fun same => noModifier (same ▸ by decide)
      have word : wordMark "" = .word := by decide
      rw [word]
      simp [wordMark, noHyphen, noSealed, noModifier, noKind]
    rw [plain]
    exact mem_fromEach (List.mem_cons_self) (by simp)

private theorem mark_mem {atom : Form} {t : Tree} (taken : takes atom t = true) :
    mark t ∈ marks atom := by
  cases t with
  | leaf t =>
    cases atom with
    | one shape =>
      cases shape with
      | name excluded =>
        simp only [takes, Shape.accepts, Bool.and_eq_true, beq_iff_eq, Bool.not_eq_true',
          List.contains_eq_mem, decide_eq_false_iff_not] at taken
        simp only [mark, taken.1]
        exact name_marked taken.2
      | words texts =>
        simp only [takes, Shape.accepts, Bool.and_eq_true, beq_iff_eq, List.contains_iff_mem]
          at taken
        simp only [mark, taken.1]
        exact mem_fromEach taken.2 (by simp)
      | symbols texts =>
        simp only [takes, Shape.accepts, Bool.and_eq_true, beq_iff_eq, List.contains_iff_mem]
          at taken
        simp only [mark, taken.1]
        exact mem_fromEach taken.2 (by simp)
      | angle glued =>
        simp only [takes, Shape.accepts, Token.isSymbol, Bool.and_eq_true, beq_iff_eq] at taken
        simp [mark, marks, taken.1]
      | number =>
        simp only [takes, Shape.accepts, beq_iff_eq] at taken
        simp [mark, marks, taken]
      | character =>
        simp only [takes, Shape.accepts, beq_iff_eq] at taken
        simp [mark, marks, taken]
    | _ => simp [takes] at taken
  | group found rules =>
    cases atom with
    | inside bracket rule =>
      simp only [takes, Bool.and_eq_true, decide_eq_true_eq] at taken
      obtain ⟨rfl, listed⟩ := taken
      cases found with
      | paren =>
        simp only [mark, marks]
        split
        next arguments => simp [arguments] at listed; simp [listed]
        next => split <;> simp
      | _ => simp [mark, marks]
    | _ => simp [takes] at taken

/-- Where a program stands: behind the sign of an annotation or a dot in its name, behind the name,
behind a word that starts the modifier with a hyphen, behind an operator that is a hyphen, behind
`sealed` after such, and then in annotations again. -/
inductive Place where
  | plain
  | at
  | tagged
  | joined
  | minus
  | sealed
  | sealedAt
  | sealedTagged
  | sealedClosed
  | wrong
  deriving DecidableEq

def places : List Place :=
  [.plain, .at, .tagged, .joined, .minus, .sealed, .sealedAt, .sealedTagged, .sealedClosed, .wrong]

def Mark.isWord : Mark → Bool
  | .joined => true
  | .sealed => true
  | .modifier => true
  | .keyword => true
  | .word => true
  | _ => false

def fresh : Mark → Place
  | .at => .at
  | .interface => .tagged
  | .joined => .joined
  | .hyphen => .minus
  | _ => .plain

/-- Behind `sealed` after an operator no modifiers follow, and no type. -/
def behindSealed : Mark → Place
  | .at => .sealedAt
  | .interface => .sealedTagged
  | .word => .plain
  | x => if x.isWord then .wrong else fresh x

def Place.step : Place → Mark → Place
  | .wrong, _ => .wrong
  | .at, x => if x.isWord then .tagged else fresh x
  | .tagged, .dot => .at
  | .tagged, .parentheses => .wrong
  | .joined, .hyphen => .plain
  | .minus, .sealed => .sealed
  | .sealedAt, x => if x.isWord then .sealedTagged else fresh x
  | .sealedTagged, .dot => .sealedAt
  | .sealedTagged, .arguments => .sealedClosed
  | .sealedTagged, .parentheses => .wrong
  | .sealed, x => behindSealed x
  | .sealedTagged, x => behindSealed x
  | .sealedClosed, x => behindSealed x
  | _, x => fresh x

def programRules : Rule → Bool
  | .statement => true
  | .expression => true
  | .labelExpression => true
  | .tag => true
  | .typeArguments => true
  | _ => false

/-- Where the rules lead from the places that programs call them at. -/
def leads : Rule → Place → List Place
  | .tag, place =>
    if place = .wrong then [.wrong]
    else if [.sealed, .sealedTagged, .sealedClosed].contains place then
      [.sealedTagged, .sealedClosed]
    else [.plain, .tagged]
  | .typeArguments, place => if place = .wrong then [.wrong] else [.plain]
  | .statement, .plain => [.plain]
  | .expression, .plain => [.plain, .joined, .sealed]
  | .labelExpression, .plain => [.plain, .joined, .sealed]
  | _, _ => places

def programWatch : Watch Tree Place where
  view := id
  step place t := place.step (mark t)
  states := places
  single atom place := fromEach (fun x => [place.step x]) (marks atom)
  called := leads

private theorem mem_places (place : Place) : place ∈ places := by
  cases place <;> decide

private theorem program_sound : programWatch.Sound programRules := by
  refine ⟨mem_places, fun atom place t taken =>
    mem_fromEach (mark_mem taken) (List.mem_singleton.mpr rfl), ?_, ?_⟩
  · intro rule called
    cases rule with
    | statement => decide +kernel
    | expression => decide +kernel
    | labelExpression => decide +kernel
    | tag => decide +kernel
    | typeArguments => decide +kernel
    | _ => simp [programRules] at called
  · intro rule called place
    cases rule with
    | tag => cases place <;> decide +kernel
    | typeArguments => cases place <;> decide +kernel
    | statement =>
      cases place with
      | plain => decide +kernel
      | _ => exact fun place _ => mem_places place
    | expression =>
      cases place with
      | plain => decide +kernel
      | _ => exact fun place _ => mem_places place
    | labelExpression =>
      cases place with
      | plain => decide +kernel
      | _ => exact fun place _ => mem_places place
    | _ => simp [programRules] at called

private theorem wrong_stays (marks : List Mark) : marks.foldl Place.step .wrong = .wrong := by
  induction marks with
  | nil => rfl
  | cons x marks ih => exact ih

/-- Nothing in a program goes wrong. -/
theorem program_clear {front behind : List Tree}
    (derived : Java.derives .program (front ++ behind) = true) :
    (front.map mark).foldl Place.step .plain ≠ .wrong := by
  have noBody : Grammar.isBody .program = false := rfl
  simp only [Java.derives, noBody, Bool.false_eq_true, if_false] at derived
  rw [derives_iff, ← List.map_id (front ++ behind)] at derived
  obtain ⟨taken, more, whole, ended, reached⟩ :=
    form_runs program_sound (by decide +kernel) derived
      (List.mem_singleton.mpr rfl : Place.plain ∈ [.plain])
  obtain rfl : more = [] := List.map_eq_nil_iff.mp ended
  rw [List.append_nil] at whole
  intro wrong
  have stays : taken.foldl programWatch.step .plain = .wrong := by
    rw [← whole]
    have marked : (front ++ behind).foldl programWatch.step .plain =
        ((front ++ behind).map mark).foldl Place.step .plain := by
      rw [List.foldl_map]
      rfl
    rw [marked, List.map_append, List.foldl_append, wrong, wrong_stays]
  rw [stays] at reached
  exact absurd reached (by decide +kernel)

/-- Trees at the same place in two sources of the same tokens. -/
structure Pair where
  first : Tree
  second : Tree
  shape : SameShape first second
  parted : ∀ t, first = .leaf t → t.kind = .word → t.text ≠ "non-sealed" ∧
    (t.glued = true → t.text = "non")
  parted' : ∀ t, second = .leaf t → t.kind = .word → t.text ≠ "non-sealed" ∧
    (t.glued = true → t.text = "non")

/-- What the marks have shown of the two sources: no difference, a word that only in one of them may
be read as one with a hyphen that has to come next, a difference, or that the hyphen did not
come. -/
inductive Faith where
  | kept
  | owed
  | broken
  | void
  deriving DecidableEq

def Faith.step : Faith → Mark → Mark → Faith
  | .kept, x, y => if x = y then .kept else if x = .joined ∨ y = .joined then .owed else .broken
  | .owed, x, _ => if x = .hyphen then .broken else .void
  | faith, _, _ => faith

def Faith.over (faith : Faith) (pairs : List Pair) : Faith :=
  pairs.foldl (fun faith p => faith.step (mark p.first) (mark p.second)) faith

/-- The marks that trees may have in the other source. -/
def partners : Mark → List Mark
  | .joined => [.joined, .word]
  | .word => [.joined, .word]
  | .arguments => [.arguments, .parentheses]
  | .parentheses => [.arguments, .parentheses]
  | x => [x]

private theorem glued_mark {t u : Token} (glued : t.glued = true) (glued' : u.glued = false)
    (same : t.text = u.text) (start : t.text = "non") :
    wordMark t.keyword = .joined ∧ wordMark u.keyword = .word := by
  have first : t.keyword = "non-sealed" := by simp [Token.keyword, glued]
  have second : u.keyword = "non" := by simp [Token.keyword, glued', ← same, start]
  rw [first, second]
  decide

theorem Pair.partner (p : Pair) : mark p.second ∈ partners (mark p.first) := by
  obtain ⟨first, second, shape, parted, parted'⟩ := p
  rcases shape.cases with ⟨t, u, rfl, rfl, kind, text⟩ |
    ⟨bracket, rules, _, _, _, rules', _, _, _, rfl, rfl, _, _⟩
  · have self : ∀ x : Mark, x ∈ partners x := fun x => by cases x <;> decide
    simp only [mark, ← kind]
    cases isKind : t.kind with
    | word =>
      simp only
      cases glued : t.glued <;> cases glued' : u.glued
      · have same : u.keyword = t.keyword := by simp [Token.keyword, glued, glued', text]
        exact same ▸ self _
      · have start := (parted' u rfl (kind ▸ isKind)).2 glued'
        obtain ⟨one, two⟩ := glued_mark glued' glued text.symm start
        simp [one, two, partners]
      · have start := (parted t rfl isKind).2 glued
        obtain ⟨one, two⟩ := glued_mark glued glued' text start
        simp [one, two, partners]
      · have same : u.keyword = t.keyword := by simp [Token.keyword, glued, glued']
        exact same ▸ self _
    | symbol => exact text ▸ self _
    | _ => exact self _
  · cases bracket with
    | paren =>
      simp only [mark]
      split <;> split <;> simp [partners]
    | _ => simp [mark, partners]

def pairStates : List (Place × Faith) :=
  places.flatMap fun place => [(place, .kept), (place, .owed), (place, .broken), (place, .void)]

/-- Goes over what the one source reads as modifiers with the places of the other source. -/
def annotationWatch : Watch Pair (Place × Faith) where
  view := Pair.first
  step state p := (state.1.step (mark p.second), state.2.step (mark p.first) (mark p.second))
  states := pairStates
  single atom state :=
    fromEach (fun x => fromEach (fun y => [(state.1.step y, state.2.step x y)]) (partners x))
      (marks atom)
  called _ _ := pairStates

def pairWatch : Watch Pair (Place × Faith) :=
  { annotationWatch with called := fun _ state => annotationWatch.reached Grammar.tag [state] }

private theorem pair_sound : pairWatch.Sound (· == .tag) := by
  refine ⟨?_, ?_, ?_, ?_⟩
  · rintro ⟨place, faith⟩
    exact List.mem_flatMap.mpr ⟨place, mem_places place, by cases faith <;> simp⟩
  · intro atom state p taken
    exact mem_fromEach (mark_mem taken) (mem_fromEach p.partner (List.mem_singleton.mpr rfl))
  · intro rule called
    obtain rfl : rule = .tag := by simpa using called
    decide +kernel
  · intro rule called state
    obtain rfl : rule = .tag := by simpa using called
    exact List.Subset.refl _

def opening : Form :=
  .seq Grammar.ownModifiers (.one (.words kindWords))

private theorem opening_reached :
    ∀ state ∈ pairWatch.reached opening ((places.filter (· ≠ .wrong)).map
      fun place => (place, .kept)), state.2 = .kept ∨ state.1 = .wrong ∨ state.2 = .void := by
  decide +kernel

private theorem exists_pairs {trees trees' : List Tree} (same : Forall₂ SameShape trees trees')
    (lexed : AllLexed trees) (lexed' : AllLexed trees') :
    ∃ pairs : List Pair, pairs.map Pair.first = trees ∧ pairs.map Pair.second = trees' := by
  induction same with
  | nil => exact ⟨[], rfl, rfl⟩
  | @cons t t' rest rest' first _ ih =>
    obtain ⟨_, word, behind⟩ := lexed
    obtain ⟨_, word', behind'⟩ := lexed'
    obtain ⟨pairs, rfl, rfl⟩ := ih behind behind'
    refine ⟨⟨t, t', first, fun token same kind => ?_, fun token same kind => ?_⟩ :: pairs, rfl, rfl⟩
    · exact ⟨(word token same kind).parted, (word token same kind).start⟩
    · exact ⟨(word' token same kind).parted, (word' token same kind).start⟩

private theorem wordMark_joined {keyword : String} :
    wordMark keyword = .joined ↔ keyword = "non-sealed" := by
  refine ⟨fun joined => ?_, fun same => same ▸ by decide⟩
  by_contra other
  simp only [wordMark, other, if_false] at joined
  split at joined
  · simp at joined
  · split at joined
    · simp at joined
    · split at joined <;> simp at joined

private theorem joined_leaf {tree : Tree} (joined : mark tree = .joined) :
    ∃ t, tree = .leaf t ∧ t.kind = .word ∧ (t.text ≠ "non-sealed" → t.glued = true) := by
  cases tree with
  | leaf t =>
    simp only [mark] at joined
    split at joined
    next word =>
      refine ⟨t, rfl, word, fun parted => ?_⟩
      have keyword := wordMark_joined.mp joined
      simp only [Token.keyword] at keyword
      split at keyword
      next glued => exact glued
      next => exact absurd keyword parted
    next =>
      simp only [symbolMark] at joined
      split at joined
      · simp at joined
      · split at joined
        · simp at joined
        · split at joined
          · simp at joined
          · split at joined <;> simp at joined
    next => simp at joined
  | group bracket =>
    cases bracket with
    | paren =>
      simp only [mark] at joined
      split at joined <;> simp at joined
    | _ => simp [mark] at joined

private theorem hyphen_mark {tree : Tree} (hyphen : tree.isSymbol "-" = true) :
    mark tree = .hyphen := by
  cases tree with
  | leaf t =>
    simp only [Tree.isSymbol, Token.isSymbol, Bool.and_eq_true, beq_iff_eq] at hyphen
    simp only [mark, hyphen]
    decide
  | group => simp [Tree.isSymbol] at hyphen

/-- The hyphen comes. -/
theorem never_void (taken more : List Pair) (lexed : AllLexed ((taken ++ more).map Pair.first))
    (lexed' : AllLexed ((taken ++ more).map Pair.second)) {faith : Faith} (faithful : faith ≠ .void)
    (due : faith = .owed → ∃ p ∈ (taken ++ more).head?, p.first.isSymbol "-" = true) :
    faith.over taken ≠ .void := by
  induction taken generalizing faith with
  | nil => exact faithful
  | cons p taken ih =>
    obtain ⟨_, word, behind⟩ := lexed
    obtain ⟨_, word', behind'⟩ := lexed'
    have next : mark p.first = .joined →
        ∃ u ∈ (taken ++ more).head?, u.first.isSymbol "-" = true := by
      intro joined
      obtain ⟨t, same, kind, glued⟩ := joined_leaf joined
      obtain ⟨v, head, hyphen⟩ := (word t same kind).next (glued (p.parted t same kind).1)
      obtain ⟨u, start, rfl⟩ := Option.map_eq_some_iff.mp (List.head?_map.symm.trans head)
      exact ⟨u, start, hyphen⟩
    have next' : mark p.second = .joined →
        ∃ u ∈ (taken ++ more).head?, u.first.isSymbol "-" = true := by
      intro joined
      obtain ⟨t, same, kind, glued⟩ := joined_leaf joined
      obtain ⟨v, head, hyphen⟩ := (word' t same kind).next (glued (p.parted' t same kind).1)
      obtain ⟨u, start, rfl⟩ := Option.map_eq_some_iff.mp (List.head?_map.symm.trans head)
      exact ⟨u, start, (u.shape.twin.symbol "-").trans hyphen⟩
    refine ih behind behind' ?_ ?_
    · cases faith with
      | kept =>
        simp only [Faith.step]
        split
        · simp
        · split <;> simp
      | owed =>
        obtain ⟨u, head, hyphen⟩ := due rfl
        obtain rfl : p = u := by simpa using head
        simp [Faith.step, hyphen_mark hyphen]
      | broken => simp [Faith.step]
      | void => exact absurd rfl faithful
    · intro owed
      cases faith with
      | kept =>
        simp only [Faith.step] at owed
        split at owed
        · simp at owed
        · split at owed
          next either => exact either.elim next next'
          next => simp at owed
      | owed =>
        simp only [Faith.step] at owed
        split at owed <;> simp at owed
      | broken => simp [Faith.step] at owed
      | void => simp [Faith.step] at owed

private theorem faith_kept {taken : List Pair} {faith : Faith} (kept : faith.over taken = .kept) :
    faith = .kept ∧ ∀ p ∈ taken, mark p.first = mark p.second := by
  induction taken generalizing faith with
  | nil => exact ⟨kept, by simp⟩
  | cons p taken ih =>
    obtain ⟨step, others⟩ := ih kept
    have same : faith = .kept ∧ mark p.first = mark p.second := by
      cases faith with
      | kept =>
        simp only [Faith.step] at step
        split at step
        next same => exact ⟨rfl, same⟩
        next => split at step <;> simp at step
      | owed =>
        simp only [Faith.step] at step
        split at step <;> simp at step
      | broken => simp [Faith.step] at step
      | void => simp [Faith.step] at step
    refine ⟨same.1, fun u member => ?_⟩
    rcases List.mem_cons.mp member with rfl | member
    · exact same.2
    · exact others u member

private theorem pairs_run (taken : List Pair) (place : Place) (faith : Faith) :
    taken.foldl pairWatch.step (place, faith) =
      ((taken.map fun p => mark p.second).foldl Place.step place, faith.over taken) := by
  induction taken generalizing place faith with
  | nil => rfl
  | cons p taken ih => exact ih _ _

structure SameMark (first second : Tree) : Prop where
  shape : SameShape first second
  marks : mark first = mark second
  parted : ∀ t, first = .leaf t → t.kind = .word → t.text ≠ "non-sealed"
  parted' : ∀ t, second = .leaf t → t.kind = .word → t.text ≠ "non-sealed"

/-- In what goes wrong nowhere the modifiers of the one source are those of the other. -/
theorem opening_kept {fuel : Nat} {trees trees' rest : List Tree}
    (same : Forall₂ SameShape trees trees') (lexed : AllLexed trees) (lexed' : AllLexed trees')
    (read : rest ∈ endsBy (ends Grammar.form fuel) opening trees) {place : Place}
    (clear : ∀ front behind, trees' = front ++ behind →
      (front.map mark).foldl Place.step place ≠ .wrong) :
    ∃ taken taken' rest', trees = taken ++ rest ∧ trees' = taken' ++ rest' ∧
      Forall₂ SameMark taken taken' := by
  obtain ⟨pairs, rfl, rfl⟩ := exists_pairs same lexed lexed'
  have start : place ≠ .wrong := clear [] _ rfl
  have listed : (place, Faith.kept) ∈
      (places.filter (· ≠ .wrong)).map fun place => (place, Faith.kept) :=
    List.mem_map.mpr ⟨place, List.mem_filter.mpr ⟨mem_places place, by simpa using start⟩, rfl⟩
  have seen : rest ∈ endsBy (ends Grammar.form fuel) opening (pairs.map pairWatch.view) := read
  obtain ⟨taken, more, rfl, rfl, reached⟩ := form_runs pair_sound (by decide +kernel) seen listed
  refine ⟨taken.map Pair.first, taken.map Pair.second, more.map Pair.second, List.map_append,
    List.map_append, ?_⟩
  rw [pairs_run] at reached
  have kept : Faith.kept.over taken = .kept := by
    rcases opening_reached _ reached with kept | wrong | void
    · exact kept
    · have right := clear (taken.map Pair.second) (more.map Pair.second) List.map_append
      rw [List.map_map] at right
      exact absurd wrong right
    · exact absurd void (never_void taken more lexed lexed' (by simp) (by simp))
  obtain ⟨_, marks⟩ := faith_kept kept
  rw [List.forall₂_map_left_iff, List.forall₂_map_right_iff, List.forall₂_same]
  exact fun p member =>
    ⟨p.shape, marks p member, fun t same kind => (p.parted t same kind).1,
      fun t same kind => (p.parted' t same kind).1⟩

def modifierAtoms (form : Form) : Bool :=
  headAtoms form && form != .inside .square .nothing

private theorem sameMark_glue {first second : Tree} (same : SameMark first second) :
    SameGlue first second := by
  rintro t u rfl rfl word
  obtain ⟨shape, marks, parted, parted'⟩ := same
  obtain ⟨_, _, one, two, kind, _⟩ := shape.cases.resolve_right (by simp)
  obtain rfl := Tree.leaf.inj one
  obtain rfl := Tree.leaf.inj two
  have either : ∀ {a b : Token}, a.glued = true → a.kind = .word → mark (.leaf a) = mark (.leaf b) →
      (b.kind = .word → b.text ≠ "non-sealed") → b.glued = true := by
    intro a b glued isWord same parted
    have joined : mark (.leaf a) = .joined := by
      have keyword : a.keyword = "non-sealed" := by simp [Token.keyword, glued]
      simp only [mark, isWord, keyword]
      decide
    obtain ⟨_, leaf, isWord', glued'⟩ := joined_leaf (same.symm.trans joined)
    obtain rfl := Tree.leaf.inj leaf
    exact glued' (parted isWord')
  rw [Bool.eq_iff_iff]
  exact ⟨fun glued => either glued word marks (parted' _ rfl),
    fun glued => either glued (kind.symm.trans word) marks.symm (parted _ rfl)⟩

private theorem sameMark_blind : Blind SameMark modifierAtoms (· == .tag) := by
  refine ⟨?_, ?_⟩
  · intro first second same atom isAtom
    simp only [modifierAtoms, Bool.and_eq_true, bne_iff_ne] at isAtom
    rcases same.shape.cases with ⟨t, u, rfl, rfl, kind, text⟩ |
      ⟨bracket, rules, _, _, _, rules', _, _, _, rfl, rfl, _, _⟩
    · cases atom with
      | one shape =>
        refine accepts_alike ?_ kind text (sameMark_glue same t u rfl rfl)
        rintro glued rfl
        simp [headAtoms] at isAtom
      | _ => rfl
    · cases atom with
      | inside found rule =>
        rcases headAtoms_inside isAtom.1 with arguments | nothing
        · rw [arguments]
          cases bracket with
          | paren =>
            have marks := same.marks
            simp only [mark] at marks
            simp only [takes, decide_true, Bool.true_and]
            split at marks <;> split at marks <;> simp_all
          | _ => rfl
        · exact absurd nothing isAtom.2
      | _ => rfl
  · intro rule called
    obtain rfl : rule = .tag := by simpa using called
    decide +kernel

private theorem declaration_opening (kind : Kind) :
    ∃ word behind, declaration kind =
      .seq Grammar.ownModifiers (.seq (.word word) (.seq (.name []) behind)) ∧
    word ∈ kindWords := by
  cases kind with
  | plain => exact ⟨"class", _, rfl, by decide⟩
  | interface => exact ⟨"interface", _, rfl, by decide⟩
  | enum => exact ⟨"enum", _, rfl, by decide⟩

private theorem keyword_kind {t : Token} (taken : Shape.accepts t (.words kindWords) = true) :
    (kind? (.leaf t)).isSome = true := by
  simp only [Shape.accepts, Bool.and_eq_true, List.contains_iff_mem] at taken
  have plain : ∀ word ∈ kindWords, word ≠ "non-sealed" := by decide
  obtain ⟨_, same, spelled⟩ :=
    @word_spelled t.keyword (.leaf t) (by simp [takes, Form.word, Shape.accepts, taken.1])
      (plain _ taken.2)
  obtain rfl := Tree.leaf.inj same
  have listed := taken.2
  simp only [kindWords, List.mem_cons, List.not_mem_nil, or_false] at listed
  rcases listed with word | word | word <;> simp [kind?, Tree.isWord, spelled, word]

/-- A type that the one source declares starts like one in the other, too. -/
theorem heading_lasts {piece piece' front behind : List Tree}
    (same : Forall₂ SameShape piece piece') (lexed : AllLexed piece) (lexed' : AllLexed piece')
    {kind : Kind} (covered : (declaration kind).covers Grammar.form piece = true)
    (derived : Java.derives .program (front ++ piece' ++ behind) = true) :
    (heading? piece').isSome = true := by
  obtain ⟨word, more, whole, listed⟩ := declaration_opening kind
  have tidy := ends_tidy Grammar.form ((piece.length + 1) * chainLength)
  have read := covers_mem.mp covered
  rw [whole] at read
  obtain ⟨fromKeyword, modifiers, sequel⟩ := (mem_seq tidy).mp read
  obtain ⟨fromName, keyword, named⟩ := (mem_seq tidy).mp sequel
  obtain ⟨rest, name, _⟩ := (mem_seq tidy).mp named
  obtain ⟨t, taken, rfl⟩ := mem_one.mp keyword
  obtain ⟨u, isName, rfl⟩ := mem_one.mp name
  have opens : Shape.accepts t (.words kindWords) = true := by
    simp only [Shape.accepts, Bool.and_eq_true, List.contains_iff_mem, List.mem_singleton]
      at taken ⊢
    exact ⟨taken.1, taken.2 ▸ listed⟩
  have opened : .leaf u :: rest ∈
      endsBy (ends Grammar.form ((piece.length + 1) * chainLength)) opening piece :=
    (mem_seq tidy).mpr ⟨_, modifiers, mem_one.mpr ⟨t, opens, rfl⟩⟩
  obtain ⟨taken, taken', rest', rfl, rfl, marks⟩ := opening_kept same lexed lexed' opened (by
    rintro first second rfl
    have clear := @program_clear (front ++ first) (second ++ behind) (by simpa using derived)
    rwa [List.map_append, List.foldl_append] at clear)
  -- the modifiers and the keyword are read in the other source as well
  have moved := read_like sameMark_blind (by decide +kernel) (by decide +kernel) rest' marks opened
  obtain ⟨fromKeyword', modifiers', keyword'⟩ := (mem_seq (ends_tidy _ _)).mp moved
  obtain ⟨t', opens', rfl⟩ := mem_one.mp keyword'
  have stopped : ¬StartsLike (continues Grammar.ownModifiers) (.leaf t' :: rest') := fun further =>
    further.apart
      (show exclusive (continues Grammar.ownModifiers) [.one (.words kindWords)] =
        true by decide +kernel) ⟨_, rfl, _, List.mem_singleton.mpr rfl, opens'⟩
  have cut := after_stopped (by decide +kernel) (by decide +kernel) modifiers' stopped
  have rests : Forall₂ SameShape (.leaf u :: rest) rest' := by
    have behind := List.forall₂_drop taken.length same
    rwa [List.drop_left, marks.length_eq, List.drop_left] at behind
  obtain ⟨u', more', shape, _, rfl⟩ := List.forall₂_cons_left_iff.mp rests
  obtain ⟨kind', isKind⟩ := Option.isSome_iff_exists.mp (keyword_kind opens')
  have isWord : u'.word? = some u.text := by
    simp only [Shape.accepts, Bool.and_eq_true, beq_iff_eq] at isName
    rw [← shape.twin.word]
    simp [Tree.word?, isName.1]
  simp [heading?, cut, isKind, isWord]

end ClassDiagram.Proofs.LastingHeadings
