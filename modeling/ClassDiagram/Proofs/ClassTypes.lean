import ClassDiagram.Proofs.DecidedReadings

/-! Class types as they are written, and what a supertype is called. A class type is a chain of
names with dots between them; annotations may stand before each name and type arguments behind it. A
supertype is called by its first annotation if it starts with one, and otherwise by its names behind
the last type arguments that a dot follows. -/

namespace ClassDiagram.Proofs.ClassTypes
open Java Java.Tree Java.Outline Form Likeness Remainders BodyPieces LocalReadings DecidedReadings

/-- A name of a class type, the annotations before it and the type arguments behind it. -/
structure Segment where
  annotations : List (List Tree)
  name : Token
  arguments : List Tree
  annotated : ∀ tag ∈ annotations, (Form.call .tag).covers Grammar.form tag = true
  named : name.kind = .word
  applied : arguments = [] ∨ (Form.call .typeArguments).covers Grammar.form arguments = true

def Segment.trees (s : Segment) : List Tree :=
  s.annotations.flatten ++ .leaf s.name :: s.arguments

/-- A chain of names. Each but the first comes with the dot before it. -/
structure ClassType where
  first : Segment
  further : List (Token × Segment)
  proper : first.name.text ∉ Grammar.primitives
  dotted : ∀ part ∈ further, part.1.isSymbol "." = true

def furtherTrees (further : List (Token × Segment)) : List Tree :=
  further.flatMap fun part => .leaf part.1 :: part.2.trees

namespace ClassType

def trees (type : ClassType) : List Tree :=
  type.first.trees ++ furtherTrees type.further

def segments (type : ClassType) : List Segment :=
  type.first :: type.further.map Prod.snd

def names (type : ClassType) : List String :=
  type.segments.map (·.name.text)

end ClassType

def plainInside (segments : List Segment) : Bool :=
  segments.dropLast.all (·.arguments.isEmpty)

/-- The longest end of a chain without type arguments inside. -/
def plainEnd : List Segment → List Segment
  | [] => []
  | s :: rest => if plainInside (s :: rest) then s :: rest else plainEnd rest

def annotationNames (tag : List Tree) : List String :=
  (if tag.head?.any (·.isSymbol "@interface") then ["interface"] else []) ++ tag.filterMap word?

def ClassType.called (type : ClassType) : List String :=
  match type.first.annotations with
  | tag :: _ => annotationNames tag
  | [] => (plainEnd type.segments).map (·.name.text)

def ClassType.writtenName (type : ClassType) : String :=
  ".".intercalate type.names

def ClassType.recordedName (type : ClassType) : String :=
  ".".intercalate type.called

/-- The trees up to the rest, less the annotations among them. -/
inductive Strips : List Tree → List Tree → List Tree → Prop
  | done (rest : List Tree) : Strips rest rest []
  | tree {t : Tree} {trees rest bare : List Tree} (untagged : t.startsTag = false)
      (more : Strips trees rest bare) : Strips (t :: trees) rest (t :: bare)
  | tag {t : Tree} {trees rest bare : List Tree} (tagged : t.startsTag = true)
      (shorter : (after (.call .tag) (t :: trees)).length ≤ trees.length)
      (more : Strips (after (.call .tag) (t :: trees)) rest bare) : Strips (t :: trees) rest bare

theorem Strips.trans {trees middle rest bare bare' : List Tree} (first : Strips trees middle bare)
    (second : Strips middle rest bare') : Strips trees rest (bare ++ bare') := by
  induction first with
  | done => exact second
  | tree untagged _ ih => exact .tree untagged (ih second)
  | tag tagged shorter _ ih => exact .tag tagged shorter (ih second)

theorem Strips.without {trees bare : List Tree} (strips : Strips trees [] bare) {fuel : Nat}
    (enough : trees.length ≤ fuel) : withoutAnnotations fuel trees = bare := by
  generalize ended : ([] : List Tree) = rest at strips
  induction strips generalizing fuel with
  | done =>
    subst ended
    cases fuel <;> rfl
  | @tree t trees _ _ untagged _ ih =>
    obtain ⟨fuel, rfl⟩ : ∃ more, fuel = more + 1 := ⟨fuel - 1, by simp at enough; omega⟩
    rw [withoutAnnotations, untagged, ih (by simpa using enough) ended]
    rfl
  | @tag t trees _ _ tagged shorter _ ih =>
    obtain ⟨fuel, rfl⟩ : ∃ more, fuel = more + 1 := ⟨fuel - 1, by simp at enough; omega⟩
    simp only [List.length_cons] at enough
    rw [withoutAnnotations, tagged, if_pos rfl, ih (by omega) ended]

private theorem startsTag_of {trees : List Tree} (like : StartsLike (firsts .tag) trees) :
    ∃ t more, trees = t :: more ∧ t.startsTag = true := by
  obtain ⟨t, head, atom, listed, taken⟩ := like
  obtain ⟨more, rfl⟩ := List.head?_eq_some_iff.mp head
  refine ⟨t, more, rfl, ?_⟩
  simp only [firsts, List.mem_cons, List.not_mem_nil, or_false] at listed
  rcases listed with rfl | rfl
  · simp [startsTag, (PlainReadings.takes_sym "@" t).symm.trans taken]
  · simp [startsTag, (PlainReadings.takes_sym "@interface" t).symm.trans taken]

/-- An annotation is cut out where nothing follows that could belong to it. -/
theorem tag_strips {fuel : Nat} {trees rest : List Tree}
    (read : rest ∈ ends Grammar.form fuel .tag trees) (stopped : ¬StartsLike (furthers .tag) rest) :
    Strips trees rest [] := by
  have deciding := ends_deciding fuel
  have shorter := deciding.solid .tag trees rest rfl read
  have cut : after (.call .tag) trees = rest :=
    @after_stopped (.call .tag) rfl rfl fuel trees rest read stopped
  obtain ⟨t, more, rfl, tagged⟩ := startsTag_of (deciding.starts .tag trees rest rfl read)
  refine .tag tagged ?_ ?_
  · rw [cut]
    simpa [Nat.lt_succ_iff] using shorter
  · rw [cut]
    exact .done rest

/-- Trees that are passed over inside angles. -/
def Hidden (bare : List Tree) : Prop :=
  ∀ depth chain more, typeChain (depth + 1) chain (bare ++ more) = typeChain (depth + 1) chain more

/-- Trees between angles. Outside of all others they are passed over, too, but a dot behind them
drops what stood before. -/
def Angled (bare : List Tree) : Prop :=
  ∀ depth chain more, typeChain depth chain (bare ++ more) =
    typeChain depth (if depth = 0 ∧ more.head?.any (·.isSymbol ".") = true then [] else chain) more

theorem Hidden.append {first second : List Tree} (one : Hidden first) (two : Hidden second) :
    Hidden (first ++ second) := by
  intro depth chain more
  rw [List.append_assoc, one, two]

theorem Angled.hidden {bare : List Tree} (angled : Angled bare) : Hidden bare := by
  intro depth chain more
  simp [angled (depth + 1)]

/-- A form for a single tree that is neither an angle nor the start of an annotation. -/
def isTame (form : Form) : Bool :=
  ["@", "@interface", "<", ">"].all (avoids · form)

private theorem tame_taken {atom : Form} {t : Tree} (tame : isTame atom = true)
    (taken : takes atom t = true) (rest : List Tree) :
    Strips (t :: rest) rest [t] ∧ Hidden [t] := by
  have other : ∀ text ∈ ["@", "@interface", "<", ">"], t.isSymbol text = false := fun text listed =>
    avoids_taken (List.all_eq_true.mp tame text listed) taken
  refine ⟨.tree (by simp [startsTag, other]) (.done rest), fun depth chain more => ?_⟩
  simp [typeChain, other]

/-- What a form takes before a tree with which it cannot go on, if it is made of tame forms,
annotations and type arguments. -/
def AllHidden (callees : Rule → List Tree → List (List Tree)) : Prop :=
  ∀ {form : Form}, isDecided form = true → builtFrom isTame typeRules form = true →
    ∀ {trees rest}, rest ∈ endsBy callees form trees →
    ¬StartsLike (continues form) rest → ∃ bare, Strips trees rest bare ∧ Hidden bare

private theorem arguments_strip {fuel : Nat} (hidden : AllHidden (ends Grammar.form fuel))
    {trees rest : List Tree}
    (read : rest ∈ endsBy (ends Grammar.form fuel) Grammar.typeArguments trees) :
    ∃ bare, Strips trees rest bare ∧ Angled bare := by
  have tidy := ends_tidy Grammar.form fuel
  obtain ⟨inner, opening, fromList⟩ := (mem_seq tidy).mp read
  obtain ⟨middle, list, fromClosing⟩ := (mem_seq tidy).mp fromList
  obtain ⟨behind, closing, done⟩ := (mem_seq tidy).mp fromClosing
  obtain rfl := List.mem_singleton.mp done
  obtain ⟨first, rfl, isFirst⟩ := mem_one_takes opening
  obtain ⟨last, rfl, isLast⟩ := mem_one_takes closing
  have stopped :
      ¬StartsLike (continues (Form.list0 (.alt Grammar.type Grammar.wildcard))) (last :: rest) := by
    have like : StartsLike [Form.sym ">"] (last :: rest) :=
      ⟨last, rfl, _, List.mem_singleton_self _, isLast⟩
    exact like.apart (by decide +kernel)
  obtain ⟨bare, strips, isHidden⟩ := hidden (by decide +kernel) (by decide +kernel) list stopped
  have less : first.isSymbol "<" = true := (PlainReadings.takes_sym "<" first).symm.trans isFirst
  have greater : last.isSymbol ">" = true := (PlainReadings.takes_sym ">" last).symm.trans isLast
  have notLess : last.isSymbol "<" = false := avoids_taken (by decide) isLast
  have untagged : ∀ {tree : Tree} {atom : Form}, avoids "@" atom = true →
      avoids "@interface" atom = true → takes atom tree = true → tree.startsTag = false := by
    intro tree atom one two taken
    simp [startsTag, avoids_taken one taken, avoids_taken two taken]
  refine ⟨first :: (bare ++ [last]), .tree (untagged (by decide) (by decide) isFirst)
    (strips.trans (.tree (untagged (by decide) (by decide) isLast) (.done rest))), ?_⟩
  intro depth chain more
  rw [List.cons_append, List.append_assoc, typeChain, if_pos less, isHidden, List.singleton_append,
    typeChain, if_neg (by simp [notLess]), if_pos greater]
  simp

/-- Each part of a form stops where the next one starts. -/
theorem form_hidden {fuel : Nat}
    (arguments : ∀ {trees rest}, rest ∈ ends Grammar.form fuel .typeArguments trees →
      ∃ bare, Strips trees rest bare ∧ Hidden bare) :
    AllHidden (ends Grammar.form fuel) := by
  have deciding := ends_deciding fuel
  have tidy := deciding.tidy
  have nothing : ∀ rest, ∃ bare, Strips rest rest bare ∧ Hidden bare :=
    fun rest => ⟨[], .done rest, fun _ _ _ => rfl⟩
  have both : ∀ {trees middle rest}, (∃ bare, Strips trees middle bare ∧ Hidden bare) →
      (∃ bare, Strips middle rest bare ∧ Hidden bare) →
      ∃ bare, Strips trees rest bare ∧ Hidden bare := by
    rintro trees middle rest ⟨bare, strips, isHidden⟩ ⟨bare', strips', isHidden'⟩
    exact ⟨bare ++ bare', strips.trans strips', isHidden.append isHidden'⟩
  intro form decided built
  induction form with
  | empty =>
    intro trees rest read _
    exact List.mem_singleton.mp read ▸ nothing trees
  | one shape =>
    intro trees rest read _
    obtain ⟨t, rfl, taken⟩ := mem_one_takes read
    exact ⟨[t], tame_taken built taken rest⟩
  | inside bracket rule =>
    intro trees rest read _
    obtain ⟨t, rfl, taken⟩ := mem_inside_takes read
    exact ⟨[t], tame_taken built taken rest⟩
  | call rule =>
    intro trees rest read stopped
    cases rule with
    | tag => exact ⟨[], tag_strips read stopped, fun _ _ _ => rfl⟩
    | typeArguments => exact arguments read
    | _ => simp [builtFrom, typeRules] at built
  | seq first second one two =>
    intro trees rest read stopped
    simp only [isDecided, builtFrom, Bool.and_eq_true] at decided built
    obtain ⟨middle, start, sequel⟩ := (mem_seq tidy).mp read
    refine both (one decided.1.1 built.1 start fun like => ?_)
      (two decided.1.2 built.2 sequel fun like => stopped (like.mono (by simp [continues])))
    have within := endsBy_within tidy second middle rest sequel
    rcases Nat.lt_or_ge rest.length middle.length with some | same
    · exact like.apart decided.2 (starts_like deciding decided.1.2 sequel some)
    · obtain rfl := within.eq_of_length (Nat.le_antisymm within.length_le same)
      have hollow : solid typeRules second = false := Bool.eq_false_iff.mpr fun isSolid =>
        Nat.lt_irrefl _ (endsBy_solid tidy deciding.solid isSolid sequel)
      exact stopped (like.mono (by simp [continues, hollow]))
  | alt left right one two =>
    intro trees rest read stopped
    simp only [isDecided, builtFrom, Bool.and_eq_true] at decided built
    rcases (mem_alt tidy).mp read with read | read
    · exact one decided.1.1 built.1 read fun like => stopped (like.mono (by simp [continues]))
    · exact two decided.1.2 built.2 read fun like => stopped (like.mono (by simp [continues]))
  | star body ih =>
    intro trees rest read stopped
    simp only [isDecided, builtFrom, Bool.and_eq_true] at decided built
    have steps := (mem_star tidy).mp read
    clear read
    induction steps with
    | done trees => exact nothing trees
    | next step _ more sequel =>
      refine both (ih decided.1 built step fun like => ?_) (sequel stopped)
      cases more with
      | done => exact stopped (like.mono (by simp [continues]))
      | next step' some => exact like.apart decided.2 (starts_like deciding decided.1 step' some)
  | absent form =>
    intro trees rest read _
    exact (mem_absent.mp read).1 ▸ nothing trees

private theorem ends_hidden (fuel : Nat) : AllHidden (ends Grammar.form fuel) := by
  induction fuel with
  | zero =>
    refine form_hidden fun read => ?_
    simp [ends] at read
  | succ fuel ih =>
    refine form_hidden fun read => ?_
    obtain ⟨bare, strips, angled⟩ := arguments_strip ih read
    exact ⟨bare, strips, angled.hidden⟩

/-- Type arguments before anything at all. -/
theorem arguments_angled {arguments : List Tree}
    (derived : (Form.call .typeArguments).covers Grammar.form arguments = true) (rest : List Tree) :
    ∃ bare, Strips (arguments ++ rest) rest bare ∧ Angled bare := by
  have read := @covers_read (.call .typeArguments) rfl rfl _ derived rest
  simp only [remainders, endsBy] at read
  generalize ((arguments ++ rest).length + 1) * chainLength = fuel at read
  cases fuel with
  | zero => simp [ends] at read
  | succ fuel => exact arguments_strip (ends_hidden fuel) read

inductive Dotted : List Tree → List String → Prop
  | none : Dotted [] []
  | more {dot name : Tree} {text : String} {trees : List Tree} {names : List String}
      (isDot : dot.isSymbol "." = true) (named : name.word? = some text)
      (others : Dotted trees names) : Dotted (dot :: name :: trees) (text :: names)

private theorem symbol_wordless {tree : Tree} {text : String} (symbol : tree.isSymbol text = true) :
    tree.word? = none := by
  cases tree with
  | leaf t =>
    simp only [isSymbol, Token.isSymbol, Bool.and_eq_true, beq_iff_eq] at symbol
    simp [word?, symbol.1]
  | group => rfl

theorem Dotted.words {trees : List Tree} {names : List String} (dotted : Dotted trees names) :
    trees.filterMap word? = names := by
  induction dotted with
  | none => rfl
  | more isDot named _ ih => simp [symbol_wordless isDot, named, ih]

private theorem name_word {excluded : List String} {t : Tree}
    (taken : takes (Form.name excluded) t = true) : ∃ text, t.word? = some text := by
  cases t with
  | leaf t =>
    simp only [takes, Form.name, Shape.accepts, Bool.and_eq_true, beq_iff_eq] at taken
    exact ⟨t.text, by simp [word?, taken.1]⟩
  | group => simp [takes, Form.name] at taken

private theorem dots_read {fuel : Nat} {trees rest : List Tree}
    (steps : Steps (endsBy (ends Grammar.form fuel) (.seq (.sym ".") (.name []))) trees rest) :
    ∃ dots names, trees = dots ++ rest ∧ Dotted dots names := by
  induction steps with
  | done trees => exact ⟨[], [], rfl, .none⟩
  | next step _ _ ih =>
    obtain ⟨middle, dot, name⟩ := (mem_seq (ends_tidy _ _)).mp step
    obtain ⟨first, rfl, isDot⟩ := mem_one_takes dot
    obtain ⟨second, rfl, isName⟩ := mem_one_takes name
    obtain ⟨dots, names, rfl, dotted⟩ := ih
    obtain ⟨text, named⟩ := name_word isName
    exact ⟨first :: second :: dots, text :: names, rfl,
      .more ((PlainReadings.takes_sym "." first).symm.trans isDot) named dotted⟩

/-- A chain of names ends where no dot follows. -/
theorem nameChain_dotted {trees rest : List Tree} {names : List String}
    (dotted : Dotted trees names) (ended : rest.head?.any (·.isSymbol ".") = false) {name : Tree}
    {text : String} (named : name.word? = some text) :
    nameChain (name :: (trees ++ rest)) = text :: names := by
  induction dotted generalizing name text with
  | none =>
    cases rest with
    | nil => simp [nameChain, named]
    | cons t rest =>
      have noDot : t.isSymbol "." = false := by simpa using ended
      simp [nameChain, named, noDot]
  | more isDot named' _ ih => simp [nameChain, named, isDot, ih named']

private theorem undotted {trees : List Tree} (stopped : ¬StartsLike (furthers .tag) trees) :
    trees.head?.any (·.isSymbol ".") = false := by
  apply Bool.eq_false_iff.mpr
  intro dotted
  obtain ⟨t, head, isDot⟩ := (Option.any_eq_true _ _).mp dotted
  exact stopped ⟨t, head, Form.sym ".", by simp [furthers],
    (PlainReadings.takes_sym "." t).trans isDot⟩

private theorem annotationChain_names {tag : List Tree}
    (derived : (Form.call .tag).covers Grammar.form tag = true) {rest : List Tree}
    (stopped : ¬StartsLike (furthers .tag) rest) :
    annotationChain (tag ++ rest) = annotationNames tag ∧ annotationNames tag ≠ [] := by
  have read : [] ∈ remainders Grammar.form (.call .tag) tag := by
    simpa [Form.covers, List.isEmpty_iff] using derived
  simp only [remainders, endsBy] at read
  generalize (tag.length + 1) * chainLength = fuel at read
  cases fuel with
  | zero => simp [ends] at read
  | succ fuel =>
    have tidy := ends_tidy Grammar.form fuel
    obtain ⟨behind, start, fromDots⟩ := (mem_seq tidy).mp read
    obtain ⟨last, chained, fromArguments⟩ := (mem_seq tidy).mp fromDots
    obtain ⟨_, arguments, done⟩ := (mem_seq tidy).mp fromArguments
    obtain rfl := List.mem_singleton.mp done
    obtain ⟨dots, names, rfl, dotted⟩ := dots_read ((mem_star tidy).mp chained)
    -- behind the names stand arguments or nothing
    have quiet : last.filterMap word? = [] ∧ (last ++ rest).head?.any (·.isSymbol ".") = false := by
      rcases (mem_alt tidy).mp arguments with region | none
      · obtain ⟨_, _, _, _, _, rfl⟩ := mem_inside.mp region
        exact ⟨rfl, rfl⟩
      · obtain rfl := List.mem_singleton.mp none
        exact ⟨rfl, undotted stopped⟩
    rcases (mem_alt tidy).mp start with named | keyword
    · obtain ⟨_, sign, word⟩ := (mem_seq tidy).mp named
      obtain ⟨at', rfl, isAt⟩ := mem_one_takes sign
      obtain ⟨name, rfl, isName⟩ := mem_one_takes word
      obtain ⟨text, named⟩ := name_word isName
      have symbol : at'.isSymbol "@" = true := (PlainReadings.takes_sym "@" at').symm.trans isAt
      have other : at'.isSymbol "@interface" = false := avoids_taken (by decide) isAt
      have chain := nameChain_dotted dotted quiet.2 named
      simp [annotationChain, annotationNames, other, symbol_wordless symbol, named, dotted.words,
        quiet.1, chain]
    · obtain ⟨at', rfl, isAt⟩ := mem_one_takes keyword
      have symbol : at'.isSymbol "@interface" = true :=
        (PlainReadings.takes_sym "@interface" at').symm.trans isAt
      have names_eq : annotationNames (at' :: (dots ++ last)) = "interface" :: names := by
        simp [annotationNames, symbol, symbol_wordless symbol, dotted.words, quiet.1]
      rw [names_eq, List.cons_append, annotationChain, if_pos symbol, List.append_assoc]
      cases dotted with
      | none =>
        rw [List.nil_append, quiet.2]
        exact ⟨rfl, by simp⟩
      | more isDot named others => simp [isDot, nameChain_dotted others quiet.2 named]

private theorem tag_read {tag : List Tree}
    (derived : (Form.call .tag).covers Grammar.form tag = true) (rest : List Tree) :
    ∃ fuel, rest ∈ ends Grammar.form fuel .tag (tag ++ rest) :=
  ⟨_, @covers_read (.call .tag) rfl rfl _ derived rest⟩

private theorem tag_first {tag : List Tree}
    (derived : (Form.call .tag).covers Grammar.form tag = true) (rest : List Tree) :
    StartsLike (firsts .tag) (tag ++ rest) := by
  obtain ⟨fuel, read⟩ := tag_read derived rest
  exact (ends_deciding fuel).starts .tag _ _ rfl read

private theorem annotations_stop {annotations : List (List Tree)}
    (derived : ∀ tag ∈ annotations, (Form.call .tag).covers Grammar.form tag = true)
    {rest : List Tree} (stopped : ¬StartsLike (furthers .tag) rest) :
    ¬StartsLike (furthers .tag) (annotations.flatten ++ rest) := by
  cases annotations with
  | nil => exact stopped
  | cons next others =>
    rw [List.flatten_cons, List.append_assoc]
    exact (tag_first (derived next (by simp)) _).apart (by decide +kernel)

/-- Annotations are cut out before a name. -/
theorem annotations_strip {annotations : List (List Tree)}
    (derived : ∀ tag ∈ annotations, (Form.call .tag).covers Grammar.form tag = true)
    {rest : List Tree} (stopped : ¬StartsLike (furthers .tag) rest) :
    Strips (annotations.flatten ++ rest) rest [] := by
  induction annotations with
  | nil => exact .done rest
  | cons tag others ih =>
    have more := ih fun other member => derived other (by simp [member])
    obtain ⟨fuel, read⟩ := tag_read (derived tag (by simp)) (others.flatten ++ rest)
    rw [List.flatten_cons, List.append_assoc]
    exact (tag_strips read
      (annotations_stop (fun other member => derived other (by simp [member])) stopped)).trans more

theorem Segment.name_taken (s : Segment) : takes (Form.name []) (.leaf s.name) = true := by
  simp [takes, Form.name, Shape.accepts, s.named]

theorem Segment.stops (s : Segment) (rest : List Tree) :
    ¬StartsLike (furthers .tag) (.leaf s.name :: rest) := by
  have like : StartsLike [Form.name []] (.leaf s.name :: rest) :=
    ⟨_, rfl, _, List.mem_singleton_self _, s.name_taken⟩
  exact like.apart (by decide +kernel)

theorem Segment.name_unmarked (s : Segment) (text : String) :
    (Tree.leaf s.name).isSymbol text = false := by
  simp [isSymbol, Token.isSymbol, s.named]

def keptNames (kept : List String) (s : Segment) : List (Token × Segment) → List String
  | [] => kept ++ [s.name.text]
  | (_, next) :: more =>
    keptNames (if s.arguments.isEmpty then kept ++ [s.name.text] else []) next more

private theorem segment_kept (s : Segment) {further : List (Token × Segment)}
    (dotted : ∀ part ∈ further, part.1.isSymbol "." = true) :
    ∃ bare, Strips (.leaf s.name :: (s.arguments ++ furtherTrees further)) [] bare ∧
      ∀ kept, typeChain 0 kept bare = keptNames kept s further := by
  -- what follows the arguments, and the names that this adds
  have behind : ∃ bare, Strips (furtherTrees further) [] bare ∧
  bare.head?.any (·.isSymbol ".") = !further.isEmpty ∧
      ∀ kept, typeChain 0 kept bare = match further with
        | [] => kept
        | (_, next) :: more => keptNames kept next more := by
    cases further with
    | nil => exact ⟨[], .done [], rfl, fun _ => rfl⟩
    | cons part more =>
      obtain ⟨dot, next⟩ := part
      have isDot : (Tree.leaf dot).isSymbol "." = true := dotted (dot, next) (by simp)
      have other :
          ∀ text ∈ ["@", "@interface", "<", ">"], (Tree.leaf dot).isSymbol text = false := by
        intro text listed
        have taken : takes (Form.sym ".") (.leaf dot) = true :=
          (PlainReadings.takes_sym "." _).trans isDot
        have all : ["@", "@interface", "<", ">"].all (avoids · (Form.sym ".")) = true := by decide
        exact avoids_taken (List.all_eq_true.mp all text listed) taken
      obtain ⟨bare, strips, kept⟩ :=
        segment_kept next fun part member => dotted part (List.mem_cons_of_mem _ member)
      refine ⟨.leaf dot :: bare, ?_, by simp [isDot], fun chain => ?_⟩
      · have parts : furtherTrees ((dot, next) :: more) =
            .leaf dot ::
            (next.annotations.flatten ++ .leaf next.name ::
              (next.arguments ++ furtherTrees more)) := by
          simp [furtherTrees, Segment.trees]
        rw [parts]
        exact .tree (by simp [startsTag, other])
          ((annotations_strip next.annotated (next.stops _)).trans strips)
      · simp [typeChain, other, symbol_wordless isDot, kept]
  obtain ⟨rest, strips, dot, names⟩ := behind
  have named : (Tree.leaf s.name).word? = some s.name.text := by simp [word?, s.named]
  have untagged : (Tree.leaf s.name).startsTag = false := by simp [startsTag, s.name_unmarked]
  have start : ∀ kept bare, typeChain 0 kept (.leaf s.name :: bare) =
      typeChain 0 (kept ++ [s.name.text]) bare := fun kept bare => by
    simp [typeChain, s.name_unmarked, named]
  rcases s.applied with none | derived
  · refine ⟨.leaf s.name :: rest, .tree untagged (by rwa [none]), fun kept => ?_⟩
    rw [start, names]
    cases further with
    | nil => rfl
    | cons part more => simp [keptNames, none]
  · obtain ⟨bare, strips', angled⟩ := arguments_angled derived (furtherTrees further)
    have some : s.arguments.isEmpty = false := by
      apply Bool.eq_false_iff.mpr
      intro empty
      rw [List.isEmpty_iff.mp empty] at derived
      exact absurd derived (by decide +kernel)
    refine ⟨.leaf s.name :: (bare ++ rest), .tree untagged (strips'.trans strips), fun kept => ?_⟩
    rw [start, angled, dot, names]
    cases further with
    | nil => rfl
    | cons part more => simp [keptNames, some]
termination_by further.length

private theorem keptNames_eq (kept : List String) (s : Segment) (further : List (Token × Segment)) :
    keptNames kept s further =
    if plainInside (s :: further.map Prod.snd) then
      kept ++ (s :: further.map Prod.snd).map (·.name.text)
    else (plainEnd (s :: further.map Prod.snd)).map (·.name.text) := by
  induction further generalizing kept s with
  | nil => simp [keptNames, plainInside]
  | cons part more ih =>
    obtain ⟨dot, next⟩ := part
    have step : plainInside (s :: next :: more.map Prod.snd) =
        (s.arguments.isEmpty && plainInside (next :: more.map Prod.snd)) := by
      simp [plainInside]
    rw [keptNames, ih]
    simp only [List.map_cons, plainEnd, step]
    cases s.arguments.isEmpty <;> cases plainInside (next :: more.map Prod.snd) <;> simp

private theorem plainEnd_suffix (segments : List Segment) : plainEnd segments <:+ segments := by
  induction segments with
  | nil => exact List.suffix_rfl
  | cons s rest ih =>
    rw [plainEnd]
    split
    · exact List.suffix_rfl
    · exact ih.trans (List.suffix_cons s rest)

/-- Nothing is dropped if no type arguments stand inside. -/
theorem plainEnd_eq_iff (segments : List Segment) :
    plainEnd segments = segments ↔ plainInside segments = true := by
  cases segments with
  | nil => simp [plainEnd, plainInside]
  | cons s rest =>
    rw [plainEnd]
    split
    next plain => simp [plain]
    next inner =>
      have shorter := (plainEnd_suffix rest).length_le
      refine ⟨fun same => ?_, fun plain => absurd plain inner⟩
      rw [same, List.length_cons] at shorter
      omega

private theorem plainEnd_ne_nil (s : Segment) (rest : List Segment) :
    plainEnd (s :: rest) ≠ [] := by
  induction rest generalizing s with
  | nil => simp [plainEnd, plainInside]
  | cons next rest ih =>
    rw [plainEnd]
    split
    · simp
    · exact ih next

private theorem joined_names {names : List String} (named : names ≠ []) :
    joined names = some (".".intercalate names) := by
  cases names with
  | nil => exact absurd rfl named
  | cons => rfl

/-- A class type is named by its first annotation, or by the names behind its last inner type
arguments. -/
theorem supertypeName_called (type : ClassType) :
    supertypeName? type.trees = some type.recordedName := by
  have whole : type.trees =
      type.first.annotations.flatten ++ .leaf type.first.name ::
      (type.first.arguments ++ furtherTrees type.further) := by
    simp [ClassType.trees, Segment.trees]
  have derived := type.first.annotated
  cases annotated : type.first.annotations with
  | nil =>
    have untagged : (Tree.leaf type.first.name).startsTag = false := by
      simp [startsTag, type.first.name_unmarked]
    have improper : Grammar.primitives.contains (Tree.leaf type.first.name).firstText = false := by
      simpa [firstText] using type.proper
    obtain ⟨bare, strips, kept⟩ := segment_kept type.first type.dotted
    rw [annotated, List.flatten_nil, List.nil_append] at whole
    rw [← whole] at strips
    have called : typeChain 0 [] (withoutAnnotations type.trees.length type.trees) =
        (plainEnd type.segments).map (·.name.text) := by
      rw [strips.without (Nat.le_refl _), kept, keptNames_eq]
      split
      next plain => rw [ClassType.segments, (plainEnd_eq_iff _).mpr plain, List.nil_append]
      next => rfl
    have named : (plainEnd type.segments).map (·.name.text) ≠ [] := by
      simpa using! plainEnd_ne_nil type.first (type.further.map Prod.snd)
    rw [whole] at called ⊢
    simp only [supertypeName?, untagged, Bool.false_eq_true, if_false, improper, called,
      ClassType.recordedName, ClassType.called, annotated, joined_names named]
  | cons tag others =>
    rw [annotated] at derived whole
    rw [List.flatten_cons, List.append_assoc] at whole
    have more : ∀ other ∈ others, (Form.call .tag).covers Grammar.form other = true :=
      fun other member => derived other (by simp [member])
    have stopped :=
      annotations_stop more (type.first.stops (type.first.arguments ++ furtherTrees type.further))
    obtain ⟨chain, named⟩ := annotationChain_names (derived tag (by simp)) stopped
    obtain ⟨first, rest, start, tagged⟩ := startsTag_of (tag_first (derived tag (by simp))
      (others.flatten ++ .leaf type.first.name ::
        (type.first.arguments ++ furtherTrees type.further)))
    rw [whole, start]
    rw [start] at chain
    simp only [supertypeName?, tagged, if_true, chain, ClassType.recordedName, ClassType.called,
      annotated, joined_names named]

/-- When a class type is called by all its names: no type arguments stand inside, or its first
annotation has the same names. -/
def ClassType.IsCalledWhole (type : ClassType) : Prop :=
  match type.first.annotations with
  | [] => plainInside type.segments = true
  | tag :: _ => annotationNames tag = type.names

theorem called_eq_iff (type : ClassType) : type.called = type.names ↔ type.IsCalledWhole := by
  simp only [ClassType.called, ClassType.IsCalledWhole]
  cases type.first.annotations with
  | nil =>
    rw [ClassType.names, ← plainEnd_eq_iff]
    refine ⟨fun same => ?_, fun same => by rw [same]⟩
    exact (plainEnd_suffix type.segments).eq_of_length (by simpa using congrArg List.length same)
  | cons tag others => exact Iff.rfl

def annotatedClassType : Form :=
  .seq Grammar.annotations (Grammar.classType [])

section
variable {fuel : Nat} {trees rest : List Tree}

private theorem annotations_read
    (read : rest ∈ endsBy (ends Grammar.form fuel) Grammar.annotations trees) :
    ∃ annotations : List (List Tree), trees = annotations.flatten ++ rest ∧
      ∀ tag ∈ annotations, (Form.call .tag).covers Grammar.form tag = true := by
  have tidy := ends_tidy Grammar.form fuel
  have steps := (mem_star tidy).mp read
  clear read
  induction steps with
  | done trees => exact ⟨[], rfl, by simp⟩
  | next step _ _ ih =>
    obtain ⟨tag, rfl⟩ := endsBy_within tidy _ _ _ step
    obtain ⟨annotations, rfl, derived⟩ := ih
    have own := @covers_part (.call .tag) rfl rfl _ _ _ step
    exact ⟨tag :: annotations, by simp, by simpa using ⟨own, derived⟩⟩

private theorem segment_read {named behind : List Tree} {excluded : List String}
    (front : named ∈ endsBy (ends Grammar.form fuel) Grammar.annotations trees)
    (name : behind ∈ endsBy (ends Grammar.form fuel) (Form.name excluded) named)
    (back : rest ∈ endsBy (ends Grammar.form fuel) (Form.opt (.call .typeArguments)) behind) :
    ∃ s : Segment, trees = s.trees ++ rest ∧ takes (Form.name excluded) (.leaf s.name) = true := by
  have tidy := ends_tidy Grammar.form fuel
  obtain ⟨annotations, rfl, annotated⟩ := annotations_read front
  obtain ⟨t, accepted, rfl⟩ := mem_one.mp name
  have word : t.kind = .word := by
    simp only [Shape.accepts, Bool.and_eq_true, beq_iff_eq] at accepted
    exact accepted.1
  rcases (mem_alt tidy).mp back with some | none
  · obtain ⟨arguments, rfl⟩ := endsBy_within tidy _ _ _ some
    have derived := @covers_part (.call .typeArguments) rfl rfl _ _ _ some
    exact ⟨⟨annotations, t, arguments, annotated, word, Or.inr derived⟩,
      by simp [Segment.trees], accepted⟩
  · obtain rfl := List.mem_singleton.mp none
    exact ⟨⟨annotations, t, [], annotated, word, Or.inl rfl⟩, by simp [Segment.trees], accepted⟩

private theorem further_read
    (steps : Steps
      (endsBy (ends Grammar.form fuel)
        (Form.all [.sym ".", Grammar.annotations, .name [], .opt (.call .typeArguments)])) trees
        rest) :
    ∃ further, trees = furtherTrees further ++ rest ∧
      ∀ part ∈ further, part.1.isSymbol "." = true := by
  have tidy := ends_tidy Grammar.form fuel
  induction steps with
  | done trees => exact ⟨[], rfl, by simp⟩
  | next step _ _ ih =>
    obtain ⟨_, dot, fromAnnotations⟩ := (mem_seq tidy).mp step
    obtain ⟨_, front, fromName⟩ := (mem_seq tidy).mp fromAnnotations
    obtain ⟨_, name, fromArguments⟩ := (mem_seq tidy).mp fromName
    obtain ⟨_, back, done⟩ := (mem_seq tidy).mp fromArguments
    obtain rfl := List.mem_singleton.mp done
    obtain ⟨t, accepted, rfl⟩ := mem_one.mp dot
    obtain ⟨s, rfl, _⟩ := segment_read front name back
    obtain ⟨further, rfl, dotted⟩ := ih
    have isDot : t.isSymbol "." = true :=
      (PlainReadings.takes_sym "." (.leaf t)).symm.trans accepted
    exact ⟨(t, s) :: further, by simp [furtherTrees], by simpa [isDot] using dotted⟩

end

/-- Every class type of the grammar is one of these, if no word that may be read as another one is
spelled like a primitive type. -/
theorem classType_spelled {trees : List Tree}
    (covered : annotatedClassType.covers Grammar.form trees = true)
    (spelled : ∀ t, .leaf t ∈ trees → t.kind = .word → t.glued = true →
      t.text ∉ Grammar.primitives) : ∃ type : ClassType, type.trees = trees := by
  have read : [] ∈ remainders Grammar.form annotatedClassType trees := by
    simpa [Form.covers, List.isEmpty_iff] using covered
  simp only [remainders] at read
  generalize (trees.length + 1) * chainLength = fuel at read
  have tidy := ends_tidy Grammar.form fuel
  obtain ⟨_, front, fromName⟩ := (mem_seq tidy).mp read
  obtain ⟨_, name, fromArguments⟩ := (mem_seq tidy).mp fromName
  obtain ⟨_, back, fromFurther⟩ := (mem_seq tidy).mp fromArguments
  obtain ⟨_, others, done⟩ := (mem_seq tidy).mp fromFurther
  obtain rfl := List.mem_singleton.mp done
  obtain ⟨first, rfl, accepted⟩ := segment_read front name back
  obtain ⟨further, rfl, dotted⟩ := further_read ((mem_star tidy).mp others)
  refine ⟨⟨first, further, ?_, dotted⟩, by simp [ClassType.trees]⟩
  cases glued : first.name.glued with
  | true => exact spelled first.name (by simp [Segment.trees]) first.named glued
  | false =>
    simpa [takes, Form.name, Shape.accepts, Token.keyword, glued, first.named] using accepted

theorem segment_listed {type : ClassType} {s : Segment} (member : s ∈ type.segments) :
    .leaf s.name ∈ type.trees := by
  rcases List.mem_cons.mp member with rfl | member
  · simp [ClassType.trees, Segment.trees]
  · obtain ⟨part, listed, rfl⟩ := List.mem_map.mp member
    refine List.mem_append_right _ (List.mem_flatMap.mpr ⟨part, listed, ?_⟩)
    simp [Segment.trees]

/-- A class type is called by words of its own, or by the keyword that an annotation starts with. -/
theorem called_word {type : ClassType} {name : String} (called : name ∈ type.called) :
    name = "interface" ∨ ∃ t, .leaf t ∈ type.trees ∧ t.kind = .word ∧ t.text = name := by
  simp only [ClassType.called] at called
  split at called
  next tag others annotated =>
    rcases List.mem_append.mp called with keyword | word
    · split at keyword
      · exact Or.inl (List.mem_singleton.mp keyword)
      · simp at keyword
    · obtain ⟨tree, member, spelled⟩ := List.mem_filterMap.mp word
      have inside : tree ∈ type.trees := by simp [ClassType.trees, Segment.trees, annotated, member]
      cases tree with
      | leaf t =>
        simp only [word?, Option.ite_none_right_eq_some, Option.some.injEq] at spelled
        exact Or.inr ⟨t, inside, spelled⟩
      | group => simp [word?] at spelled
  next =>
    obtain ⟨s, member, rfl⟩ := List.mem_map.mp called
    exact Or.inr ⟨s.name, segment_listed ((plainEnd_suffix _).subset member), s.named, rfl⟩

theorem called_ne_nil (type : ClassType) : type.called ≠ [] := by
  intro none
  simp only [ClassType.called] at none
  split at none
  next tag others annotated =>
    exact (@annotationChain_names tag (type.first.annotated tag (by simp [annotated])) []
      (by simp [StartsLike])).2 none
  next => exact plainEnd_ne_nil _ _ (List.map_eq_nil_iff.mp none)

end ClassDiagram.Proofs.ClassTypes
