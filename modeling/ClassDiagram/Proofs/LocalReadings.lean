import ClassDiagram.Proofs.BodyPieces
import ClassDiagram.Proofs.PlainReadings

/-! Readings that do not look ahead. A form that asks nothing about trees it does not take reads
them in the same way whatever follows and however deep calls may nest, so that members of a body can
be read one by one, and each of them is a single piece. -/

namespace ClassDiagram.Proofs.LocalReadings
open Java Java.Tree Form Likeness Remainders BodyPieces

/-- Every reading of the form takes a tree, if those of the given rules do. -/
def solid (calls : Rule → Bool) : Form → Bool
  | .one _ => true
  | .inside _ _ => true
  | .call rule => calls rule
  | .seq first second => solid calls first || solid calls second
  | .alt left right => solid calls left && solid calls right
  | _ => false

/-- A form that asks only about trees that it takes: where a token has to be absent, the tree that
comes next is taken. -/
def isLocal (calls : Rule → Bool) : Form → Bool
  | .empty => true
  | .one _ => true
  | .inside _ _ => true
  | .call rule => calls rule
  | .seq (.absent (.one _)) second => solid calls second && isLocal calls second
  | .seq first second => isLocal calls first && isLocal calls second
  | .alt left right => isLocal calls left && isLocal calls right
  | .star body => isLocal calls body
  | .absent _ => false

/-- What the one takes before some trees the other takes before any others. -/
def Moves (read read' : List Tree → List (List Tree)) : Prop :=
  ∀ taken rest rest', rest ∈ read (taken ++ rest) → rest' ∈ read' (taken ++ rest')

private theorem suffix_between {taken middle rest : List Tree} (within : middle <:+ taken ++ rest)
    (behind : rest <:+ middle) :
    ∃ first second, taken = first ++ second ∧ middle = second ++ rest := by
  obtain ⟨first, whole⟩ := within
  obtain ⟨second, rfl⟩ := behind
  rw [← List.append_assoc] at whole
  exact ⟨first, second, (List.append_cancel_right whole).symm, rfl⟩

private theorem steps_moves {read read' : List Tree → List (List Tree)}
    (within : ∀ trees, Within trees (read trees)) (moves : Moves read read')
    {taken rest : List Tree} (rest' : List Tree) (steps : Steps read (taken ++ rest) rest) :
    Steps read' (taken ++ rest') rest' := by
  generalize whole : taken ++ rest = trees at steps
  induction steps generalizing taken with
  | done =>
    obtain rfl : taken = [] := by simpa using whole
    exact .done rest'
  | next one shorter more ih =>
    subst whole
    obtain ⟨first, second, rfl, rfl⟩ := suffix_between (within _ _ one) (steps_suffix within more)
    rw [List.append_assoc] at one ⊢
    refine .next (moves first _ (second ++ rest') one) ?_ (ih rfl)
    simp only [List.length_append] at shorter ⊢
    omega

section
variable {calls : Rule → Bool} {callees callees' : Rule → List Tree → List (List Tree)}
  (tidy : Tidy callees) (tidy' : Tidy callees')
  (takes : ∀ rule trees rest, calls rule = true → rest ∈ callees rule trees →
  rest.length < trees.length)
include tidy takes

theorem endsBy_solid {form : Form} (isSolid : solid calls form = true) {trees rest : List Tree}
    (read : rest ∈ endsBy callees form trees) : rest.length < trees.length := by
  induction form generalizing trees rest with
  | one shape =>
    obtain ⟨t, _, rfl⟩ := mem_one.mp read
    simp
  | inside bracket rule =>
    obtain ⟨_, _, _, _, _, rfl⟩ := mem_inside.mp read
    simp
  | call rule => exact takes rule trees rest isSolid read
  | seq first second one two =>
    obtain ⟨middle, start, sequel⟩ := (mem_seq tidy).mp read
    have long := (endsBy_within tidy first trees middle start).length_le
    have short := (endsBy_within tidy second middle rest sequel).length_le
    rcases Bool.or_eq_true_iff.mp isSolid with isSolid | isSolid
    · have taken := one isSolid start
      omega
    · have taken := two isSolid sequel
      omega
  | alt left right one two =>
    simp only [solid, Bool.and_eq_true] at isSolid
    rcases (mem_alt tidy).mp read with read | read
    · exact one isSolid.1 read
    · exact two isSolid.2 read
  | _ => simp [solid] at isSolid

variable (moved : ∀ rule, calls rule = true → Moves (callees rule) (callees' rule))
include tidy' moved

private theorem endsBy_moves {form : Form} (free : isLocal calls form = true) :
    Moves (endsBy callees form) (endsBy callees' form) := by
  fun_induction isLocal calls form with
  | case1 =>
    intro taken rest rest' read
    obtain rfl : taken = [] := by simpa [endsBy] using read
    simp [endsBy]
  | case2 shape =>
    intro taken rest rest' read
    obtain ⟨t, accepted, whole⟩ := mem_one.mp read
    obtain rfl : taken = [.leaf t] := List.append_cancel_right whole
    exact mem_one.mpr ⟨t, accepted, rfl⟩
  | case3 bracket rule =>
    intro taken rest rest' read
    obtain ⟨rules, opening, closing, inner, listed, whole⟩ := mem_inside.mp read
    obtain rfl : taken = [.group bracket rules opening closing inner] :=
      List.append_cancel_right whole
    exact mem_inside.mpr ⟨rules, opening, closing, inner, listed, rfl⟩
  | case4 rule => exact moved rule free
  | case5 shape second ih =>
    -- the tree that is asked about is the first one of those taken
    intro taken rest rest' read
    simp only [Bool.and_eq_true] at free
    obtain ⟨middle, start, sequel⟩ := (mem_seq tidy).mp read
    obtain ⟨rfl, absent⟩ := mem_absent.mp start
    cases taken with
    | nil => exact absurd (endsBy_solid tidy takes free.1 sequel) (Nat.lt_irrefl _)
    | cons t taken =>
      refine (mem_seq tidy').mpr ⟨_, mem_absent.mpr ⟨rfl, ?_⟩, ih free.2 _ _ _ sequel⟩
      rw [List.cons_append, endsBy_one] at absent ⊢
      split
      next accepted => simp [accepted] at absent
      next => rfl
  | case6 first second _ one two =>
    intro taken rest rest' read
    simp only [Bool.and_eq_true] at free
    obtain ⟨middle, start, sequel⟩ := (mem_seq tidy).mp read
    obtain ⟨before, behind, rfl, rfl⟩ :=
      suffix_between (endsBy_within tidy _ _ _ start) (endsBy_within tidy _ _ _ sequel)
    rw [List.append_assoc] at start ⊢
    exact (mem_seq tidy').mpr ⟨behind ++ rest', one free.1 _ _ _ start, two free.2 _ _ _ sequel⟩
  | case7 left right one two =>
    intro taken rest rest' read
    simp only [Bool.and_eq_true] at free
    exact (mem_alt tidy').mpr (((mem_alt tidy).mp read).imp (one free.1 _ _ _) (two free.2 _ _ _))
  | case8 body ih =>
    intro taken rest rest' read
    exact (mem_star tidy').mpr
      (steps_moves (endsBy_within tidy body) (ih free) rest' ((mem_star tidy).mp read))
  | case9 => simp at free

end

/-- A reading depends on the rules that its form calls only. -/
theorem endsBy_callees {calls : Rule → Bool}
    {callees callees' : Rule → List Tree → List (List Tree)}
    (same : ∀ rule, calls rule = true → callees rule = callees' rule) {form : Form}
    (built : builtFrom (fun _ => true) calls form = true) :
    endsBy callees form = endsBy callees' form := by
  induction form with
  | call rule => exact same rule built
  | seq first second one two =>
    simp only [builtFrom, Bool.and_eq_true] at built
    funext trees
    simp only [endsBy, one built.1, two built.2]
  | alt left right one two =>
    simp only [builtFrom, Bool.and_eq_true] at built
    funext trees
    simp only [endsBy, one built.1, two built.2]
  | star body ih =>
    funext trees
    simp only [endsBy, ih built]
  | absent form ih =>
    funext trees
    simp only [endsBy, ih built]
  | _ => rfl

def memberRules : Rule → Bool
  | .tag => true
  | .typeArguments => true
  | .expression => true
  | _ => false

private theorem memberRules_local {rule : Rule} (called : memberRules rule = true) :
    isLocal memberRules (Grammar.form rule) = true ∧
    solid memberRules (Grammar.form rule) = true := by
  cases rule with
  | tag => decide +kernel
  | typeArguments => decide +kernel
  | expression => decide +kernel
  | _ => simp [memberRules] at called

theorem ends_solid (fuel : Nat) {rule : Rule} (called : memberRules rule = true)
    {trees rest : List Tree} (read : rest ∈ ends Grammar.form fuel rule trees) :
    rest.length < trees.length := by
  induction fuel generalizing rule trees rest with
  | zero => simp [ends] at read
  | succ fuel ih =>
    exact endsBy_solid (ends_tidy Grammar.form fuel) (fun _ _ _ called read => ih called read)
      (memberRules_local called).2 read

private theorem ends_moves {fuel fuel' : Nat} (enough : fuel ≤ fuel') {rule : Rule}
    (called : memberRules rule = true) :
    Moves (ends Grammar.form fuel rule) (ends Grammar.form fuel' rule) := by
  induction fuel generalizing fuel' rule with
  | zero =>
    intro taken rest rest' read
    simp [ends] at read
  | succ fuel ih =>
    obtain ⟨more, rfl⟩ : ∃ more, fuel' = more + 1 := ⟨fuel' - 1, by omega⟩
    exact endsBy_moves (ends_tidy Grammar.form fuel) (ends_tidy Grammar.form more)
      (fun _ _ _ called read => ends_solid fuel called read)
      (fun _ called => ih (by omega) called) (memberRules_local called).1

/-- With more fuel, too, such a form takes what it took, whatever follows. -/
theorem form_moves {form : Form} (free : isLocal memberRules form = true) {fuel fuel' : Nat}
    (enough : fuel ≤ fuel') :
    Moves (endsBy (ends Grammar.form fuel) form) (endsBy (ends Grammar.form fuel') form) :=
  endsBy_moves (ends_tidy Grammar.form fuel) (ends_tidy Grammar.form fuel')
    (fun _ _ _ called read => ends_solid fuel called read)
    (fun _ called => ends_moves enough called) free

/-- Trees at which no piece ends, whatever stands before them. -/
def Passes (trees : List Tree) : Prop :=
  ∀ assigned, ∃ assigned', ∀ rest, closes assigned (trees ++ rest) = closes assigned' rest

/-- What is taken off the trees ends no piece. -/
def Passed (trees rest : List Tree) : Prop :=
  ∃ taken, trees = taken ++ rest ∧ Passes taken

theorem Passed.refl (trees : List Tree) : Passed trees trees :=
  ⟨[], rfl, fun assigned => ⟨assigned, fun _ => rfl⟩⟩

theorem Passed.trans {trees middle rest : List Tree} (first : Passed trees middle)
    (second : Passed middle rest) : Passed trees rest := by
  obtain ⟨taken, rfl, one⟩ := first
  obtain ⟨more, rfl, two⟩ := second
  refine ⟨taken ++ more, by simp, fun assigned => ?_⟩
  obtain ⟨between, start⟩ := one assigned
  obtain ⟨after, sequel⟩ := two between
  exact ⟨after, fun rest => by rw [List.append_assoc, start, sequel]⟩

/-- Trees that are neither semicolons nor braces nor equals signs leave open what ends a piece. -/
theorem closes_quiet {trees : List Tree}
    (quiet : ∀ t ∈ trees, t.isSymbol ";" = false ∧ t.isBraces = false ∧ t.isSymbol "=" = false)
    (assigned : Bool) (rest : List Tree) :
    closes assigned (trees ++ rest) = closes assigned rest := by
  induction trees with
  | nil => rfl
  | cons t trees ih =>
    obtain ⟨noSemicolon, noBraces, noEquals⟩ := quiet t (by simp)
    simp only [List.cons_append, closes, noSemicolon, noBraces, noEquals, Bool.false_and,
      Bool.or_self, Bool.or_false, Bool.false_eq_true, if_false]
    exact ih fun u member => quiet u (by simp [member])

/-- Behind an equals sign only a semicolon ends a piece. -/
theorem closes_assigned {trees : List Tree} (inner : ∀ t ∈ trees, t.isSymbol ";" = false)
    (rest : List Tree) : closes true (trees ++ rest) = closes true rest := by
  induction trees with
  | nil => rfl
  | cons t trees ih =>
    simp only [List.cons_append, closes, inner t (by simp), Bool.not_true, Bool.and_false,
      Bool.or_self, Bool.true_or, Bool.false_eq_true, if_false]
    exact ih fun u member => inner u (by simp [member])

def isQuiet (form : Form) : Bool :=
  avoids ";" form && avoids "=" form && !isRegion form

private theorem quiet_taken {atom : Form} {t : Tree} (quiet : isQuiet atom = true)
    (taken : takes atom t = true) :
    t.isSymbol ";" = false ∧ t.isBraces = false ∧ t.isSymbol "=" = false := by
  simp only [isQuiet, Bool.and_eq_true, Bool.not_eq_true'] at quiet
  refine ⟨avoids_taken quiet.1.1 taken, ?_, avoids_taken quiet.1.2 taken⟩
  cases t with
  | leaf => rfl
  | group bracket =>
    cases atom with
    | inside found rule =>
      simp only [takes, Bool.and_eq_true, decide_eq_true_eq] at taken
      obtain ⟨rfl, _⟩ := taken
      cases bracket with
      | brace => simp [isRegion] at quiet
      | _ => rfl
    | _ => simp [takes] at taken

private theorem taken_quiet {trees rest : List Tree} (taken : Taken isQuiet trees rest) :
    ∃ before, trees = before ++ rest ∧ ∀ t ∈ before, t.isSymbol ";" = false ∧ t.isBraces = false ∧
      t.isSymbol "=" = false := by
  obtain ⟨before, whole, atoms⟩ := taken
  refine ⟨before, whole, fun t member => ?_⟩
  obtain ⟨atom, quiet, own⟩ := atoms t member
  exact quiet_taken quiet own

private theorem typeRules_quiet (rule : Rule) (called : typeRules rule = true) :
    builtFrom isQuiet typeRules (Grammar.form rule) = true := by
  cases rule with
  | tag => decide +kernel
  | typeArguments => decide +kernel
  | _ => simp [typeRules] at called

theorem memberRules_inner (rule : Rule) (called : memberRules rule = true) :
    builtFrom (avoids ";") memberRules (Grammar.form rule) = true := by
  cases rule with
  | tag => decide +kernel
  | typeArguments => decide +kernel
  | expression => decide +kernel
  | _ => simp [memberRules] at called

section
variable {fuel : Nat} {trees rest : List Tree}

private theorem form_quiet {form : Form} (built : builtFrom isQuiet typeRules form = true)
    (read : rest ∈ endsBy (ends Grammar.form fuel) form trees) :
    ∃ before, trees = before ++ rest ∧ ∀ t ∈ before, t.isSymbol ";" = false ∧ t.isBraces = false ∧
      t.isSymbol "=" = false :=
  taken_quiet
    (endsBy_taken (ends_tidy Grammar.form fuel)
      (fun _ _ _ called read => ends_taken typeRules_quiet fuel called read) built read)

private theorem form_passes {form : Form} (built : builtFrom isQuiet typeRules form = true)
    (read : rest ∈ endsBy (ends Grammar.form fuel) form trees) : Passed trees rest := by
  obtain ⟨before, rfl, quiet⟩ := form_quiet built read
  exact ⟨before, rfl, fun assigned => ⟨assigned, closes_quiet quiet assigned⟩⟩

/-- A declared name, with its value or without. -/
theorem declarator_passes
    (read : rest ∈ endsBy (ends Grammar.form fuel) (Grammar.declarator []) trees) :
    Passed trees rest := by
  have tidy := ends_tidy Grammar.form fuel
  obtain ⟨behind, name, value⟩ := (mem_seq tidy).mp read
  have start : Passed trees behind := form_passes (by decide +kernel) name
  rcases (mem_alt tidy).mp value with assignment | none
  · obtain ⟨initial, equals, initializer⟩ := (mem_seq tidy).mp assignment
    obtain ⟨t, rfl, isEquals⟩ := mem_one_takes equals
    have symbol : t.isSymbol "=" = true := (PlainReadings.takes_sym "=" t).symm.trans isEquals
    obtain ⟨before, rfl, atoms⟩ :=
      endsBy_taken tidy (fun _ _ _ called read => ends_taken memberRules_inner fuel called read)
      (show builtFrom (avoids ";") memberRules Grammar.initializer = true by decide +kernel)
      initializer
    have inner : ∀ u ∈ before, u.isSymbol ";" = false := fun u member => by
      obtain ⟨atom, avoided, taken⟩ := atoms u member
      exact avoids_taken avoided taken
    refine start.trans ⟨t :: before, rfl, fun assigned => ⟨true, fun rest => ?_⟩⟩
    have noSemicolon : t.isSymbol ";" = false := avoids_taken (by decide) isEquals
    have noBraces : t.isBraces = false := by
      cases t with
      | leaf => rfl
      | group => simp [Tree.isSymbol] at symbol
    simp only [List.cons_append, closes, noSemicolon, noBraces, symbol, Bool.false_and,
      Bool.or_self, Bool.or_true, Bool.false_eq_true, if_false]
    exact closes_assigned inner rest
  · exact List.mem_singleton.mp none ▸ start

private theorem declarators_pass
    (read : rest ∈ endsBy (ends Grammar.form fuel) (Grammar.declarators []) trees) :
    Passed trees rest := by
  have tidy := ends_tidy Grammar.form fuel
  obtain ⟨more, first, others⟩ := (mem_seq tidy).mp read
  refine (declarator_passes first).trans ?_
  have steps := (mem_star tidy).mp others
  clear others first read
  induction steps with
  | done trees => exact .refl trees
  | next one _ _ ih =>
    obtain ⟨behind, comma, name⟩ := (mem_seq tidy).mp one
    have passed : Passed _ behind := form_passes (by decide +kernel) comma
    exact (passed.trans (declarator_passes name)).trans ih

/-- Fields are a single piece: braces stand behind an equals sign only, and the one semicolon at the
end. -/
theorem field_piece (read : rest ∈ endsBy (ends Grammar.form fuel) Grammar.fieldDeclaration trees) :
    ∃ piece, trees = piece ++ rest ∧ closes false piece = true := by
  have tidy := ends_tidy Grammar.form fuel
  obtain ⟨typed, modifiers, fromType⟩ := (mem_seq tidy).mp read
  obtain ⟨named, type, fromNames⟩ := (mem_seq tidy).mp fromType
  obtain ⟨ended, names, fromEnd⟩ := (mem_seq tidy).mp fromNames
  obtain ⟨behind, semicolon, done⟩ := (mem_seq tidy).mp fromEnd
  obtain rfl := List.mem_singleton.mp done
  obtain ⟨last, rfl, isLast⟩ := mem_one_takes semicolon
  have isEnd : last.isSymbol ";" = true := semicolon_taken rfl isLast
  have start : Passed trees named :=
    (form_passes (by decide +kernel) modifiers).trans (form_passes (by decide +kernel) type)
  obtain ⟨front, rfl, passes⟩ := start.trans (declarators_pass names)
  obtain ⟨assigned, same⟩ := passes false
  exact ⟨front ++ [last], by simp, by simp [same, closes, isEnd]⟩

/-- Every reading of the form ends with a semicolon or braces, and nothing before them ends a
piece. -/
def endsPiece : Form → Bool
  | .one shape => isSemicolon (.one shape)
  | .inside bracket rule => isRegion (.inside bracket rule)
  | .seq first second =>
    if second = .empty then endsPiece first
      else builtFrom isQuiet typeRules first && endsPiece second
  | .alt left right => endsPiece left && endsPiece right
  | _ => false

private theorem endsPiece_piece {form : Form} (ended : endsPiece form = true)
    (read : rest ∈ endsBy (ends Grammar.form fuel) form trees) :
    ∃ piece, trees = piece ++ rest ∧ closes false piece = true := by
  have tidy := ends_tidy Grammar.form fuel
  induction form generalizing trees with
  | one shape =>
    obtain ⟨t, rfl, taken⟩ := mem_one_takes read
    exact ⟨[t], rfl, by simp [closes, semicolon_taken ended taken]⟩
  | inside bracket rule =>
    obtain ⟨t, rfl, taken⟩ := mem_inside_takes read
    exact ⟨[t], rfl, by simp [closes, region_taken ended taken]⟩
  | seq first second one two =>
    obtain ⟨middle, start, sequel⟩ := (mem_seq tidy).mp read
    simp only [endsPiece] at ended
    split at ended
    next nothing =>
      rw [nothing] at sequel
      exact one ended (List.mem_singleton.mp sequel ▸ start)
    next =>
      simp only [Bool.and_eq_true] at ended
      obtain ⟨front, rfl, quiet⟩ := form_quiet ended.1 start
      obtain ⟨piece, rfl, closed⟩ := two ended.2 sequel
      exact ⟨front ++ piece, by simp, (closes_quiet quiet false piece).trans closed⟩
  | alt left right one two =>
    simp only [endsPiece, Bool.and_eq_true] at ended
    rcases (mem_alt tidy).mp read with read | read
    · exact one ended.1 read
    · exact two ended.2 read
  | _ => simp [endsPiece] at ended

/-- Fields, or a form of which each reading is a single piece by its last tree. -/
def isMember : Form → Bool
  | .alt left right => isMember left && isMember right
  | form => form = Grammar.fieldDeclaration || endsPiece form

private theorem member_piece
    (read : rest ∈ endsBy (ends Grammar.form fuel) Grammar.classMember trees) :
    ∃ piece, trees = piece ++ rest ∧ closes false piece = true := by
  have tidy := ends_tidy Grammar.form fuel
  have single : ∀ {form : Form}, (form = Grammar.fieldDeclaration || endsPiece form) = true →
      rest ∈ endsBy (ends Grammar.form fuel) form trees →
      ∃ piece, trees = piece ++ rest ∧ closes false piece = true := by
    intro form either read
    rcases Bool.or_eq_true_iff.mp either with field | ended
    · exact field_piece (decide_eq_true_eq.mp field ▸ read)
    · exact endsPiece_piece ended read
  have known : isMember Grammar.classMember = true := by decide +kernel
  generalize Grammar.classMember = form at known read
  induction form with
  | alt left right one two =>
    simp only [isMember, Bool.and_eq_true] at known
    rcases (mem_alt tidy).mp read with read | read
    · exact one known.1 read
    · exact two known.2 read
  | _ => exact single known read

end

/-- A piece that is taken as a member of a class with enough fuel, whatever follows. -/
structure IsMemberPiece (fuel : Nat) (piece : List Tree) : Prop where
  closed : closes false piece = true
  taken : ∀ {fuel'}, fuel ≤ fuel' →
    ∀ rest, rest ∈ endsBy (ends Grammar.form fuel') Grammar.classMember (piece ++ rest)

/-- Members that follow each other are the pieces of their trees. -/
theorem members_pieces {fuel : Nat} {trees : List Tree}
    (steps : Steps (endsBy (ends Grammar.form fuel) Grammar.classMember) trees []) :
    ∀ piece ∈ pieces false trees, IsMemberPiece fuel piece := by
  have free : isLocal memberRules Grammar.classMember = true := by decide +kernel
  generalize ended : ([] : List Tree) = rest at steps
  induction steps with
  | done => simp [← ended, pieces]
  | next one _ _ ih =>
    obtain ⟨piece, rfl, closed⟩ := member_piece one
    rw [pieces_closed closed]
    intro other listed
    rcases List.mem_cons.mp listed with rfl | listed
    · exact ⟨closed, fun enough rest => form_moves free enough _ _ rest one⟩
    · exact ih ended other listed

/-- Declarations that are taken one by one are taken all. -/
theorem pieces_steps {fuel : Nat} {form : Form} {all : List (List Tree)}
    (closed : ∀ piece ∈ all, closes false piece = true)
    (taken : ∀ piece ∈ all, ∀ rest, rest ∈ endsBy (ends Grammar.form fuel) form (piece ++ rest)) :
    Steps (endsBy (ends Grammar.form fuel) form) all.flatten [] := by
  induction all with
  | nil => exact .done []
  | cons piece all ih =>
    obtain ⟨front, last, shape, _⟩ := closes_last (closed piece (by simp))
    refine @Steps.next _ _ all.flatten _ (taken piece (by simp) all.flatten) ?_
      (ih (fun other member => closed other (by simp [member])) fun other member =>
        taken other (by simp [member]))
    simp only [List.flatten_cons, shape, List.length_append, List.length_cons]
    omega

end ClassDiagram.Proofs.LocalReadings
