import ClassDiagram.Proofs.Likeness
import ClassDiagram.Proofs.Remainders

/-! Bodies as lists of declarations. Every declaration that may stand in a body ends where the body
is cut, so that declarations put one behind the other are cut apart again, and a body may grow
between any two of them. -/

namespace ClassDiagram.Proofs.BodyPieces
open Java Java.Tree Form Likeness Remainders

/-- A list that is cut at its very end and nowhere before. -/
def closes : (assigned : Bool) → List Tree → Bool
  | _, [] => false
  | assigned, t :: rest =>
    if t.isSymbol ";" || (t.isBraces && !assigned) then rest.isEmpty
    else closes (assigned || t.isSymbol "=") rest

theorem pieces_closed {assigned : Bool} {piece : List Tree} (closed : closes assigned piece = true)
    (rest : List Tree) : pieces assigned (piece ++ rest) = piece :: pieces false rest := by
  induction piece generalizing assigned with
  | nil => simp [closes] at closed
  | cons t piece ih =>
    simp only [closes] at closed
    rw [List.cons_append, pieces]
    split at closed
    next cut =>
      rw [if_pos cut, List.isEmpty_iff.mp closed]
      rfl
    next uncut => rw [if_neg uncut, ih closed]

theorem pieces_append {all : List (List Tree)} (closed : ∀ piece ∈ all, closes false piece = true)
    (rest : List Tree) : pieces false (all.flatten ++ rest) = all ++ pieces false rest := by
  induction all with
  | nil => rfl
  | cons piece all ih =>
    rw [List.flatten_cons, List.append_assoc, pieces_closed (closed piece (by simp)),
      ih fun other member => closed other (by simp [member]), List.cons_append]

theorem pieces_eq_nil {assigned : Bool} {trees : List Tree} (none : pieces assigned trees = []) :
    trees = [] := by
  cases trees with
  | nil => rfl
  | cons t rest =>
    rw [pieces] at none
    split at none
    · simp at none
    · split at none <;> simp at none

/-- The first piece is cut nowhere, and the others are the pieces of what follows it. -/
theorem pieces_cons {assigned : Bool} {trees piece : List Tree} {more : List (List Tree)}
    (cut : pieces assigned trees = piece :: more) :
    pieces assigned piece = [piece] ∧ trees = piece ++ more.flatten ∧
    pieces false more.flatten = more := by
  induction trees generalizing assigned piece more with
  | nil => simp [pieces] at cut
  | cons t rest ih =>
    rw [pieces] at cut
    split at cut
    next ends =>
      obtain ⟨rfl, rfl⟩ := List.cons.inj cut
      have whole : (pieces false rest).flatten = rest := by
        cases here : pieces false rest with
        | nil => rw [pieces_eq_nil here, List.flatten_nil]
        | cons => exact (ih here).2.1.symm
      exact ⟨by simp [pieces, ends], by simp [whole], by rw [whole]⟩
    next uncut =>
      split at cut
      next first others here =>
        obtain ⟨rfl, rfl⟩ := List.cons.inj cut
        obtain ⟨single, whole, behind⟩ := ih here
        exact ⟨by rw [pieces, if_neg uncut, single], by rw [whole, List.cons_append], behind⟩
      next here =>
        obtain ⟨rfl, rfl⟩ := List.cons.inj cut
        rw [pieces_eq_nil here]
        exact ⟨by simp [pieces, uncut], rfl, rfl⟩

theorem pieces_flatten (trees : List Tree) : (pieces false trees).flatten = trees := by
  cases here : pieces false trees with
  | nil => rw [pieces_eq_nil here, List.flatten_nil]
  | cons => exact (pieces_cons here).2.1.symm

private theorem pieces_single {trees piece : List Tree} (member : piece ∈ pieces false trees) :
    pieces false piece = [piece] := by
  generalize cut : pieces false trees = all at member
  induction all generalizing trees with
  | nil => simp at member
  | cons first more ih =>
    obtain ⟨single, _, behind⟩ := pieces_cons cut
    rcases List.mem_cons.mp member with rfl | member
    · exact single
    · exact ih behind member

/-- A tree at which a list is cut, or was cut before an equals sign. -/
def IsEnd (tree : Tree) : Prop :=
  tree.isSymbol ";" = true ∨ tree.isBraces = true

theorem closes_last {assigned : Bool} {piece : List Tree} (closed : closes assigned piece = true) :
    ∃ before last, piece = before ++ [last] ∧ IsEnd last := by
  induction piece generalizing assigned with
  | nil => simp [closes] at closed
  | cons t rest ih =>
    simp only [closes] at closed
    split at closed
    next cut =>
      rw [List.isEmpty_iff.mp closed]
      refine ⟨[], t, rfl, ?_⟩
      simp only [Bool.or_eq_true, Bool.and_eq_true] at cut
      rcases cut with semicolon | braces
      · exact Or.inl semicolon
      · exact Or.inr braces.1
    next =>
      obtain ⟨before, last, rfl, isEnd⟩ := ih closed
      exact ⟨t :: before, last, rfl, isEnd⟩

/-- Where nothing is left open at the end, every piece is cut at its own end. -/
theorem pieces_ended {assigned : Bool} {before : List Tree} {last : Tree}
    (ended : last.isSymbol ";" = true ∨ last.isBraces = true ∧ assigned = false ∧
      ∀ t ∈ before, t.isSymbol "=" = false) :
    ∃ first more, pieces assigned (before ++ [last]) = first :: more ∧
      closes assigned first = true ∧ ∀ piece ∈ more, closes false piece = true := by
  induction before generalizing assigned with
  | nil =>
    have cut : (last.isSymbol ";" || (last.isBraces && !assigned)) = true := by
      rcases ended with semicolon | ⟨braces, rfl, _⟩
      · simp [semicolon]
      · simp [braces]
    exact ⟨[last], [], by simp [pieces, cut], by simp [closes, cut], by simp⟩
  | cons t before ih =>
    by_cases cut : (t.isSymbol ";" || (t.isBraces && !assigned)) = true
    · have behind : last.isSymbol ";" = true ∨ last.isBraces = true ∧ false = false ∧
          ∀ t ∈ before, t.isSymbol "=" = false :=
        ended.imp_right fun ⟨braces, _, unequal⟩ =>
          ⟨braces, rfl, fun u member => unequal u (by simp [member])⟩
      obtain ⟨first, more, same, closed, others⟩ := ih behind
      refine ⟨[t], first :: more, by rw [List.cons_append, pieces, if_pos cut, same],
        by simp [closes, cut], ?_⟩
      intro piece member
      rcases List.mem_cons.mp member with rfl | member
      · exact closed
      · exact others piece member
    · have behind : last.isSymbol ";" = true ∨ last.isBraces = true ∧
          (assigned || t.isSymbol "=") = false ∧ ∀ t ∈ before, t.isSymbol "=" = false :=
        ended.imp_right fun ⟨braces, open', unequal⟩ =>
          ⟨braces, by simp [open', unequal t (by simp)],
            fun u member => unequal u (by simp [member])⟩
      obtain ⟨first, more, same, closed, others⟩ := ih behind
      exact ⟨t :: first, more, by rw [List.cons_append, pieces, if_neg cut, same],
        by rw [closes, if_neg cut]; exact closed, others⟩

def AllClosed (trees : List Tree) : Prop :=
  ∀ piece ∈ pieces false trees, closes false piece = true

theorem allClosed_ended {before : List Tree} {last : Tree}
    (ended : last.isSymbol ";" = true ∨ last.isBraces = true ∧
      ∀ t ∈ before, t.isSymbol "=" = false) :
    AllClosed (before ++ [last]) := by
  obtain ⟨first, more, same, closed, others⟩ :=
    @pieces_ended false before last
      (ended.imp_right fun ⟨braces, unequal⟩ => ⟨braces, rfl, unequal⟩)
  intro piece member
  rw [same] at member
  rcases List.mem_cons.mp member with rfl | member
  · exact closed
  · exact others piece member

def Taken (atoms : Form → Bool) (trees rest : List Tree) : Prop :=
  ∃ before, trees = before ++ rest ∧ ∀ t ∈ before, ∃ atom, atoms atom = true ∧ takes atom t = true

theorem Taken.refl (atoms : Form → Bool) (trees : List Tree) : Taken atoms trees trees :=
  ⟨[], rfl, by simp⟩

theorem Taken.trans {atoms : Form → Bool} {trees middle rest : List Tree}
    (first : Taken atoms trees middle) (second : Taken atoms middle rest) :
    Taken atoms trees rest := by
  obtain ⟨before, rfl, one⟩ := first
  obtain ⟨between, rfl, two⟩ := second
  refine ⟨before ++ between, by simp, ?_⟩
  intro t member
  rcases List.mem_append.mp member with member | member
  · exact one t member
  · exact two t member

theorem mem_one_takes {callees : Rule → List Tree → List (List Tree)} {shape : Shape}
    {trees rest : List Tree} (member : rest ∈ endsBy callees (.one shape) trees) :
    ∃ t, trees = t :: rest ∧ takes (.one shape) t = true := by
  obtain ⟨t, accepted, rfl⟩ := mem_one.mp member
  exact ⟨.leaf t, rfl, accepted⟩

theorem mem_inside_takes {callees : Rule → List Tree → List (List Tree)} {bracket : Bracket}
    {rule : Rule} {trees rest : List Tree}
    (member : rest ∈ endsBy callees (.inside bracket rule) trees) :
    ∃ t, trees = t :: rest ∧ takes (.inside bracket rule) t = true := by
  obtain ⟨rules, opening, closing, inner, listed, rfl⟩ := mem_inside.mp member
  exact ⟨_, rfl, by simpa [takes] using listed⟩

theorem endsBy_taken {atoms : Form → Bool} {calls : Rule → Bool}
    {callees : Rule → List Tree → List (List Tree)} (tidy : Tidy callees)
    (called : ∀ rule trees rest, calls rule = true → rest ∈ callees rule trees →
      Taken atoms trees rest)
    {form : Form} (built : builtFrom atoms calls form = true) {trees rest : List Tree}
    (member : rest ∈ endsBy callees form trees) : Taken atoms trees rest := by
  induction form generalizing trees rest with
  | empty => exact List.mem_singleton.mp member ▸ .refl atoms trees
  | one shape =>
    obtain ⟨t, rfl, taken⟩ := mem_one_takes member
    exact ⟨[t], rfl, by simpa using ⟨_, built, taken⟩⟩
  | inside bracket rule =>
    obtain ⟨t, rfl, taken⟩ := mem_inside_takes member
    exact ⟨[t], rfl, by simpa using ⟨_, built, taken⟩⟩
  | call rule => exact called rule trees rest built member
  | seq first second one two =>
    simp only [builtFrom, Bool.and_eq_true] at built
    obtain ⟨middle, start, sequel⟩ := (mem_seq tidy).mp member
    exact (one built.1 start).trans (two built.2 sequel)
  | alt left right one two =>
    simp only [builtFrom, Bool.and_eq_true] at built
    rcases (mem_alt tidy).mp member with member | member
    · exact one built.1 member
    · exact two built.2 member
  | star body ih =>
    have steps := (mem_star tidy).mp member
    induction steps with
    | done trees => exact .refl atoms trees
    | next step _ more rest => exact (ih built step).trans (rest ((mem_star tidy).mpr more))
  | absent form => exact (mem_absent.mp member).1 ▸ .refl atoms trees

theorem ends_taken {atoms : Form → Bool} {calls : Rule → Bool}
    (rules : ∀ rule, calls rule = true → builtFrom atoms calls (Grammar.form rule) = true)
    (fuel : Nat) {rule : Rule} (called : calls rule = true) {trees rest : List Tree}
    (member : rest ∈ ends Grammar.form fuel rule trees) :
    Taken atoms trees rest := by
  induction fuel generalizing rule trees rest with
  | zero => simp [ends] at member
  | succ fuel ih =>
    exact endsBy_taken (ends_tidy Grammar.form fuel) (fun _ _ _ called member => ih called member)
      (rules rule called) member

/-- Every reading of the form ends with a tree that one of the given forms takes. -/
def endsWith (last : Form → Bool) : Form → Bool
  | .one shape => last (.one shape)
  | .inside bracket rule => last (.inside bracket rule)
  | .seq first second => if second = .empty then endsWith last first else endsWith last second
  | .alt left right => endsWith last left && endsWith last right
  | _ => false

theorem endsBy_last {last : Form → Bool} {callees : Rule → List Tree → List (List Tree)}
    (tidy : Tidy callees) {form : Form} (ended : endsWith last form = true) {trees rest : List Tree}
    (member : rest ∈ endsBy callees form trees) :
    ∃ before t, trees = before ++ t :: rest ∧ ∃ atom, last atom = true ∧ takes atom t = true := by
  induction form generalizing trees rest with
  | one shape =>
    obtain ⟨t, rfl, taken⟩ := mem_one_takes member
    exact ⟨[], t, rfl, _, ended, taken⟩
  | inside bracket rule =>
    obtain ⟨t, rfl, taken⟩ := mem_inside_takes member
    exact ⟨[], t, rfl, _, ended, taken⟩
  | seq first second one two =>
    obtain ⟨middle, start, sequel⟩ := (mem_seq tidy).mp member
    simp only [endsWith] at ended
    split at ended
    next nothing =>
      rw [nothing] at sequel
      rw [List.mem_singleton.mp sequel]
      exact one ended start
    next =>
      obtain ⟨before, t, rfl, taken⟩ := two ended sequel
      obtain ⟨earlier, rfl⟩ := endsBy_within tidy first trees _ start
      exact ⟨earlier ++ before, t, by simp, taken⟩
  | alt left right one two =>
    simp only [endsWith, Bool.and_eq_true] at ended
    rcases (mem_alt tidy).mp member with member | member
    · exact one ended.1 member
    · exact two ended.2 member
  | _ => simp [endsWith] at ended

def isSemicolon : Form → Bool
  | .one (.symbols [";"]) => true
  | _ => false

def isRegion : Form → Bool
  | .inside .brace _ => true
  | _ => false

def avoids (text : String) : Form → Bool
  | .one (.symbols texts) => !texts.contains text
  | .one (.angle _) => text != ">"
  | _ => true

def typeRules : Rule → Bool
  | .tag => true
  | .typeArguments => true
  | _ => false

/-- A declaration ends with a semicolon, or else with braces before which no equals sign stands. -/
def isDeclaration : Form → Bool
  | .alt left right => isDeclaration left && isDeclaration right
  | form => endsWith isSemicolon form ||
      (endsWith (fun last => isSemicolon last || isRegion last) form &&
        builtFrom (avoids "=") typeRules form)

theorem semicolon_taken {atom : Form} {t : Tree} (semicolon : isSemicolon atom = true)
    (taken : takes atom t = true) : t.isSymbol ";" = true := by
  simp only [isSemicolon] at semicolon
  split at semicolon
  · cases t with
    | leaf t => simpa [takes, Shape.accepts, Tree.isSymbol, Token.isSymbol] using taken
    | group => simp [takes] at taken
  · simp at semicolon

theorem region_taken {atom : Form} {t : Tree} (region : isRegion atom = true)
    (taken : takes atom t = true) : t.isBraces = true := by
  simp only [isRegion] at region
  split at region
  · cases t with
    | leaf => simp [takes] at taken
    | group bracket =>
      simp only [takes, Bool.and_eq_true, decide_eq_true_eq] at taken
      rw [taken.1]
      rfl
  · simp at region

theorem avoids_taken {text : String} {atom : Form} {t : Tree} (avoided : avoids text atom = true)
    (taken : takes atom t = true) : t.isSymbol text = false := by
  cases t with
  | group => rfl
  | leaf t =>
    apply Bool.eq_false_iff.mpr
    intro symbol
    obtain ⟨kind, rfl⟩ : t.kind = .symbol ∧ t.text = text := by
      simpa [Tree.isSymbol, Token.isSymbol] using symbol
    cases atom with
    | one shape => cases shape <;> simp_all [takes, Shape.accepts, avoids, Token.isSymbol]
    | _ => simp [takes] at taken

private theorem typeRules_unequal (rule : Rule) (called : typeRules rule = true) :
    builtFrom (avoids "=") typeRules (Grammar.form rule) = true := by
  cases rule with
  | tag => decide +kernel
  | typeArguments => decide +kernel
  | _ => simp [typeRules] at called

private theorem declaration_closes {form : Form} (declares : isDeclaration form = true) {fuel : Nat}
    {trees rest : List Tree} (member : rest ∈ endsBy (ends Grammar.form fuel) form trees) :
    ∃ declared, trees = declared ++ rest ∧ AllClosed declared := by
  have tidy := ends_tidy Grammar.form fuel
  have simple : ∀ {form}, rest ∈ endsBy (ends Grammar.form fuel) form trees →
      (endsWith isSemicolon form ||
      (endsWith (fun last => isSemicolon last || isRegion last) form &&
        builtFrom (avoids "=") typeRules form)) = true →
      ∃ declared, trees = declared ++ rest ∧ AllClosed declared := by
    intro form member declares
    rcases Bool.or_eq_true_iff.mp declares with ended | ended
    · obtain ⟨before, last, rfl, atom, semicolon, taken⟩ := endsBy_last tidy ended member
      exact ⟨before ++ [last], by simp, allClosed_ended (Or.inl (semicolon_taken semicolon taken))⟩
    · obtain ⟨ended, built⟩ := Bool.and_eq_true_iff.mp ended
      obtain ⟨before, last, rfl, atom, either, taken⟩ := endsBy_last tidy ended member
      have called : ∀ rule trees rest, typeRules rule = true →
          rest ∈ ends Grammar.form fuel rule trees →
          Taken (avoids "=") trees rest :=
        fun rule trees rest called member => ends_taken typeRules_unequal fuel called member
      obtain ⟨all, whole, unequal⟩ := endsBy_taken tidy called built member
      have same : before ++ [last] = all := List.append_cancel_right (by simpa using whole)
      refine ⟨before ++ [last], by simp, allClosed_ended ?_⟩
      rcases Bool.or_eq_true_iff.mp either with semicolon | region
      · exact Or.inl (semicolon_taken semicolon taken)
      · refine Or.inr ⟨region_taken region taken, ?_⟩
        intro t inside
        obtain ⟨atom, avoided, taken⟩ := unequal t (by rw [← same]; simp [inside])
        exact avoids_taken avoided taken
  induction form with
  | alt left right one two =>
    simp only [isDeclaration, Bool.and_eq_true] at declares
    rcases (mem_alt tidy).mp member with member | member
    · exact one declares.1 member
    · exact two declares.2 member
  | _ => exact simple member declares

/-- Each declaration of a body is cut off it at its own end. -/
theorem body_closes {rule : Rule} (body : Grammar.isBody rule = true) {trees : List Tree}
    (derived : Java.derives rule trees = true) : AllClosed trees := by
  intro piece member
  simp only [Java.derives, body, if_true, List.all_eq_true] at derived
  have covered := derived piece member
  simp only [Form.derives, covers, remainders, List.any_eq_true, List.isEmpty_iff, exists_eq_right]
    at covered
  have declares : isDeclaration (Grammar.form rule) = true := by
    cases rule with
    | classBody => decide +kernel
    | interfaceBody => decide +kernel
    | _ => simp [Grammar.isBody] at body
  generalize (piece.length + 1) * chainLength = fuel at covered
  cases fuel with
  | zero => simp [endsBy, ends] at covered
  | succ fuel =>
    obtain ⟨declared, whole, closed⟩ := declaration_closes declares covered
    rw [List.append_nil] at whole
    exact closed piece (by rw [← whole, pieces_single member]; simp)

end ClassDiagram.Proofs.BodyPieces
