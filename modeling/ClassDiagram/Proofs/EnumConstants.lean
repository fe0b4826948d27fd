import ClassDiagram.Proofs.LocalReadings
import ClassDiagram.Proofs.MemberPlaces
import ClassDiagram.Proofs.TokenOrder

/-! The constants of an enum. The parts that their list is cut into are the constants that the
grammar reads one by one, so that nothing but a comma can stand behind the last of them, and that
comma is the next tree by its place in the source. -/

namespace ClassDiagram.Proofs.EnumConstants
open Java Java.Tree Java.Outline Form Likeness Remainders TokenTrees BareTrees BodyPieces
  LocalReadings SourceCuts TokenOrder GeneratedMembers
  GrownSources MemberPlaces

/-- The parts of a list are readings of its form. -/
theorem listed_read {form : Form} {fuel : Nat} {trees part : List Tree}
    (member : part ∈ listed form fuel trees) :
    ∃ rest, part ++ rest <:+ trees ∧ rest ∈ remainders Grammar.form form (part ++ rest) := by
  induction fuel generalizing trees with
  | zero => simp [listed] at member
  | succ fuel ih =>
    simp only [listed] at member
    split at member
    · simp at member
    next rest longest =>
      rcases List.mem_cons.mp member with rfl | member
      · obtain ⟨start, rfl⟩ := longest_suffix longest
        rw [before_append]
        exact ⟨rest, List.suffix_rfl, longest_mem longest⟩
      · split at member
        next t behind _ =>
          split at member
          · obtain ⟨rest, inside, read⟩ := ih member
            exact ⟨rest, inside.trans ((List.suffix_cons t behind).trans (longest_suffix longest)),
              read⟩
          · simp at member
        · simp at member

theorem opt_region {callees : Rule → List Tree → List (List Tree)} (tidy : Tidy callees)
    {bracket : Bracket} {rule : Rule} {trees rest : List Tree}
    (read : rest ∈ endsBy callees (.opt (.inside bracket rule)) trees) :
    trees = rest ∨ ∃ rules opening closing inside, trees =
      .group bracket rules opening closing inside :: rest := by
  rcases (mem_alt tidy).mp read with region | none
  · obtain ⟨rules, opening, closing, inside, _, same⟩ := mem_inside.mp region
    exact Or.inr ⟨rules, opening, closing, inside, same⟩
  · exact Or.inl (List.mem_singleton.mp none).symm

/-- A constant ends with its name, its arguments or its body. -/
theorem enumConstant_last {fuel : Nat} {trees rest : List Tree}
    (read : rest ∈ endsBy (ends Grammar.form fuel) Grammar.enumConstant trees) :
    ∃ before last, trees = before ++ last :: rest ∧
      ((∃ t, last = .leaf t ∧ t.kind = .word ∧ t.glued = false) ∨
        ∃ bracket rules opening closing inside, last = .group bracket rules opening closing inside ∧
        bracket ∈ [Bracket.brace, .paren]) := by
  have tidy := ends_tidy Grammar.form fuel
  obtain ⟨named, start, fromName⟩ := (mem_seq tidy).mp read
  obtain ⟨modifiers, rfl⟩ := endsBy_within tidy _ _ _ start
  obtain ⟨behind, name, fromArguments⟩ := (mem_seq tidy).mp fromName
  obtain ⟨t, accepted, rfl⟩ := mem_one.mp name
  obtain ⟨argued, arguments, fromBody⟩ := (mem_seq tidy).mp fromArguments
  obtain ⟨ended, body, done⟩ := (mem_seq tidy).mp fromBody
  obtain rfl := List.mem_singleton.mp done
  have word : t.kind = .word ∧ t.glued = false := by
    simp only [Shape.accepts, Bool.and_eq_true, beq_iff_eq, Bool.not_eq_true'] at accepted
    refine ⟨accepted.1, Bool.eq_false_iff.mpr fun glued => ?_⟩
    simp [Token.keyword, glued, Grammar.modifierWords] at accepted
  obtain ⟨between, whole⟩ := endsBy_within tidy _ _ _ arguments
  rcases opt_region tidy body with rfl | ⟨rules, opening, closing, inside, rfl⟩
  · rcases opt_region tidy arguments with rfl | ⟨rules, opening, closing, inside, rfl⟩
    · exact ⟨modifiers, .leaf t, rfl, Or.inl ⟨t, rfl, word⟩⟩
    · exact ⟨modifiers ++ [.leaf t], .group .paren rules opening closing inside, by simp,
        Or.inr ⟨.paren, rules, opening, closing, inside, rfl, by simp⟩⟩
  · exact ⟨modifiers ++ .leaf t :: between, .group .brace rules opening closing inside,
      by simp [← whole], Or.inr ⟨.brace, rules, opening, closing, inside, rfl, by simp⟩⟩

/-- A source may be cut behind each part of a list of constants. -/
theorem constant_edge {trees part : List Tree} (well : AllWellBuilt trees)
    (listed : part ∈ partsOf Grammar.enumConstant trees) :
    ∃ before last, part = before ++ [last] ∧ EndsAtEdge last := by
  obtain ⟨rest, inside, read⟩ := listed_read listed
  obtain ⟨before, last, whole, shape⟩ := enumConstant_last read
  have same : part = before ++ [last] := List.append_cancel_right (by simpa using whole)
  refine ⟨before, last, same, ?_⟩
  rcases shape with ⟨t, rfl, word, unglued⟩ | ⟨bracket, rules, opening, closing, inner, rfl, known⟩
  · exact ⟨[], t, rfl, rfl, .word word unglued⟩
  · have member : .group bracket rules opening closing inner ∈ trees :=
      inside.subset (by simp [same])
    obtain ⟨_, closes, _⟩ := allWellBuilt_iff.mp well _ member
    exact ⟨opening :: allTokens inner, closing, rfl, rfl, .closing closes known⟩

/-- All that is called where a constant is read is the rule for annotations, which calls nothing. -/
theorem constant_fuel (fuel fuel' : Nat) :
    endsBy (ends Grammar.form (fuel + 1)) Grammar.enumConstant =
      endsBy (ends Grammar.form (fuel' + 1)) Grammar.enumConstant := by
  have tags : ends Grammar.form (fuel + 1) .tag = ends Grammar.form (fuel' + 1) .tag :=
    @endsBy_callees (fun _ => false) _ _ (by simp) Grammar.tag (by decide +kernel)
  refine @endsBy_callees (· == .tag) _ _ ?_ _ (by decide +kernel)
  intro rule isTag
  rw [beq_iff_eq.mp isTag, tags]

private theorem constant_remainders (fuel : Nat) (trees : List Tree) :
    remainders Grammar.form Grammar.enumConstant trees =
      endsBy (ends Grammar.form (fuel + 1)) Grammar.enumConstant trees := by
  have positive : (trees.length + 1) * chainLength =
      ((trees.length + 1) * chainLength - 1) + 1 := by
    simp only [chainLength]
    omega
  rw [remainders, positive, constant_fuel _ fuel]

private theorem constant_uncomma {fuel : Nat} {trees rest : List Tree}
    (read : rest ∈ endsBy (ends Grammar.form fuel) Grammar.enumConstant trees) :
    ∃ part, trees = part ++ rest ∧ ∀ t ∈ part, t.isSymbol "," = false := by
  have rules : ∀ rule, (rule == Rule.tag) = true →
      builtFrom (avoids ",") (· == .tag) (Grammar.form rule) = true := by
    intro rule isTag
    rw [beq_iff_eq.mp isTag]
    decide +kernel
  obtain ⟨part, whole, atoms⟩ :=
    @endsBy_taken (avoids ",") (· == .tag) _ (ends_tidy Grammar.form fuel)
    (fun _ _ _ called member => ends_taken rules fuel called member) Grammar.enumConstant
    (by decide +kernel) _ _ read
  refine ⟨part, whole, fun t member => ?_⟩
  obtain ⟨atom, avoided, taken⟩ := atoms t member
  exact avoids_taken avoided taken

/-- A constant before a comma is read up to it. -/
theorem constant_longest {fuel : Nat} {trees rest : List Tree} {comma : Tree}
    (read : comma :: rest ∈ endsBy (ends Grammar.form (fuel + 1)) Grammar.enumConstant trees)
    (isComma : comma.isSymbol "," = true) :
    Grammar.enumConstant.longest? Grammar.form trees = some (comma :: rest) := by
  rw [← constant_remainders] at read
  refine longest_least read fun other longer => ?_
  obtain ⟨part, rfl, _⟩ := constant_uncomma read
  obtain ⟨part', whole, inner⟩ := constant_uncomma longer
  rcases List.append_eq_append_iff.mp whole with ⟨more, rfl, same⟩ | ⟨more, _, rfl⟩
  · cases more with
    | nil => simp [same]
    | cons t more =>
      obtain ⟨rfl, _⟩ := List.cons.inj same
      simp [inner comma] at isComma
  · simp

/-- Constants with commas between them, and maybe one behind the last. -/
inductive IsConstantList (fuel : Nat) : List Tree → Prop
  | none : IsConstantList fuel []
  | last {trees : List Tree}
    (read : [] ∈ endsBy (ends Grammar.form (fuel + 1)) Grammar.enumConstant trees) :
    IsConstantList fuel trees
  | more {trees rest : List Tree} {comma : Tree}
      (read : comma :: rest ∈ endsBy (ends Grammar.form (fuel + 1)) Grammar.enumConstant trees)
      (isComma : comma.isSymbol "," = true) (others : IsConstantList fuel rest) :
      IsConstantList fuel trees

private theorem comma_taken {fuel : Nat} {trees rest : List Tree}
    (read : rest ∈ endsBy (ends Grammar.form fuel) (Form.sym ",") trees) :
    ∃ comma, trees = comma :: rest ∧ comma.isSymbol "," = true := by
  obtain ⟨comma, rfl, taken⟩ := mem_one_takes read
  exact ⟨comma, rfl, (PlainReadings.takes_sym "," comma).symm.trans taken⟩

/-- What follows a constant is nothing, or a comma and a list. -/
theorem further_constants {fuel : Nat} {trees rest : List Tree}
    (steps : Steps (endsBy (ends Grammar.form (fuel + 1)) (.seq (.sym ",") Grammar.enumConstant))
      trees rest)
    (ended : rest = [] ∨ ∃ comma, rest = [comma] ∧ comma.isSymbol "," = true) :
    trees = [] ∨ ∃ comma more, trees = comma :: more ∧ comma.isSymbol "," = true ∧
      IsConstantList fuel more := by
  induction steps with
  | done =>
    rcases ended with rfl | ⟨comma, rfl, isComma⟩
    · exact Or.inl rfl
    · exact Or.inr ⟨comma, [], rfl, isComma, .none⟩
  | next one _ _ ih =>
    obtain ⟨more, separator, constant⟩ := (mem_seq (ends_tidy _ _)).mp one
    obtain ⟨comma, rfl, isComma⟩ := comma_taken separator
    refine Or.inr ⟨comma, more, rfl, isComma, ?_⟩
    rcases ih ended with rfl | ⟨_, _, rfl, isComma', list⟩
    · exact .last constant
    · exact .more constant isComma' list

/-- What an enum lists before its members is a lone comma or a list of constants. -/
theorem items_cases {fuel : Nat} {trees : List Tree}
    (read : [] ∈ endsBy (ends Grammar.form (fuel + 1)) (Grammar.items Grammar.enumConstant) trees) :
    (∃ comma, trees = [comma] ∧ comma.isSymbol "," = true) ∨ IsConstantList fuel trees := by
  have tidy := ends_tidy Grammar.form (fuel + 1)
  obtain ⟨behind, constants, trailing⟩ := (mem_seq tidy).mp read
  have ended : behind = [] ∨ ∃ comma, behind = [comma] ∧ comma.isSymbol "," = true := by
    rcases (mem_alt tidy).mp trailing with comma | none
    · exact Or.inr (comma_taken comma)
    · exact Or.inl (List.mem_singleton.mp none).symm
  rcases (mem_alt tidy).mp constants with some | none
  · refine Or.inr ?_
    obtain ⟨others, first, steps⟩ := (mem_seq tidy).mp some
    rcases further_constants ((mem_star tidy).mp steps) ended with rfl | ⟨_, _, rfl, isComma, list⟩
    · exact .last first
    · exact .more first isComma list
  · obtain rfl := List.mem_singleton.mp none
    rcases ended with rfl | lone
    · exact Or.inr .none
    · exact Or.inl lone

/-- Nothing but a comma stands behind the last of the parts that a list of constants is cut into. -/
theorem listed_last {fuel : Nat} {trees : List Tree} (list : IsConstantList fuel trees)
    {rounds : Nat} (enough : trees.length < rounds) :
    (trees = [] ∧ listed Grammar.enumConstant rounds trees = []) ∨
      ∃ front last tail, trees = front ++ (last ++ tail) ∧
      (listed Grammar.enumConstant rounds trees).getLast? = some last ∧
        (tail = [] ∨ ∃ comma, tail = [comma] ∧ comma.isSymbol "," = true) := by
  induction list generalizing rounds with
  | none =>
    obtain ⟨rounds, rfl⟩ : ∃ more, rounds = more + 1 := ⟨rounds - 1, by simp at enough; omega⟩
    have unread : Grammar.enumConstant.longest? Grammar.form [] = none := by decide +kernel
    exact Or.inl ⟨rfl, by simp [listed, unread]⟩
  | @last trees read =>
    obtain ⟨rounds, rfl⟩ : ∃ more, rounds = more + 1 := ⟨rounds - 1, by omega⟩
    rw [← constant_remainders] at read
    have longest : Grammar.enumConstant.longest? Grammar.form trees = some [] :=
      longest_least read (by simp)
    exact Or.inr ⟨[], trees, [], by simp, by simp [listed, longest, before], Or.inl rfl⟩
  | @more trees rest comma read isComma others ih =>
    obtain ⟨rounds, rfl⟩ : ∃ more, rounds = more + 1 := ⟨rounds - 1, by omega⟩
    have longest := constant_longest read isComma
    obtain ⟨part, rfl, _⟩ := constant_uncomma read
    have shorter : rest.length < rounds := by
      simp only [List.length_append, List.length_cons] at enough
      omega
    have cut : listed Grammar.enumConstant (rounds + 1) (part ++ comma :: rest) =
        part :: listed Grammar.enumConstant rounds rest := by
      simp [listed, longest, before_append, isComma]
    refine Or.inr ?_
    rw [cut]
    rcases ih shorter with ⟨rfl, none⟩ | ⟨front, last, tail, rfl, found, ended⟩
    · exact ⟨[], part, [comma], rfl, by simp [none], Or.inr ⟨comma, rfl, isComma⟩⟩
    · exact ⟨part ++ comma :: front, last, tail, by simp,
        by simp [List.getLast?_cons, found], ended⟩

theorem symbol_leaf {text : String} {tree : Tree} (symbol : tree.isSymbol text = true) :
    ∃ t, tree = .leaf t ∧ t.isSymbol text = true := by
  cases tree with
  | leaf t => exact ⟨t, rfl, symbol⟩
  | group => simp [isSymbol] at symbol

theorem separator_edge {text : String} (listed : text ∈ [";", ","]) {t : Token}
    (symbol : t.isSymbol text = true) : IsEdgeToken t := by
  simp only [Token.isSymbol, Bool.and_eq_true, beq_iff_eq] at symbol
  exact .separator symbol.1 (symbol.2 ▸ listed)

/-- A comma alone lists no constant. -/
theorem lone_comma {comma : Tree} (isComma : comma.isSymbol "," = true) :
    partsOf Grammar.enumConstant [comma] = [] := by
  cases longest : Grammar.enumConstant.longest? Grammar.form [comma] with
  | none => simp [partsOf, listed, longest]
  | some rest =>
    obtain ⟨part, whole, inner⟩ := constant_uncomma (longest_mem longest)
    obtain ⟨before, last, whole', _⟩ := enumConstant_last (longest_mem longest)
    obtain ⟨rfl, rfl, rfl⟩ : before = [] ∧ comma = last ∧ rest = [] := by
      cases before with
      | nil => simpa using whole'
      | cons => simp at whole'
    obtain rfl : part = [comma] := by simpa using whole.symm
    simp [inner comma] at isComma

/-- The comma behind the last constant is the tree that is looked at, and a comment before it hides
it. -/
theorem constantStop_found {parts : List (List Tree)} {front last tail : List Tree} {tree : Tree}
    (found : parts.getLast? = some (last ++ [tree]))
    (ordered : (front ++ (last ++ [tree] ++ tail)).Pairwise fun first second =>
      first.stop < second.stop) :
    constantStop? parts (front ++ (last ++ [tree] ++ tail)) = some (match tail.head? with
      | some (.leaf t) => if t.isSymbol "," && !t.commented then t.stop else tree.stop
      | _ => tree.stop) := by
  have split : front ++ (last ++ [tree] ++ tail) = (front ++ last ++ [tree]) ++ tail := by simp
  rw [split] at ordered ⊢
  obtain ⟨before, _, across⟩ := List.pairwise_append.mp ordered
  have all : ∀ t ∈ front ++ last ++ [tree], decide (t.stop ≤ tree.stop) = true := by
    intro t member
    rcases List.mem_append.mp member with member | member
    · have less := (List.pairwise_append.mp before).2.2 t member tree (by simp)
      simp only [decide_eq_true_eq]
      omega
    · simp [List.mem_singleton.mp member]
  have ends : ∀ t ∈ tail.head?, decide (t.stop ≤ tree.stop) = false := by
    intro t head
    have less := across tree (by simp) t (List.mem_of_head? head)
    simp only [decide_eq_false_iff_not]
    omega
  simp only [constantStop?, found, lastStop?, List.getLast?_append_cons, List.getLast?_singleton,
    Option.map_some, Option.bind_eq_bind, Option.bind_some, Blanks.dropWhile_stops all ends]
  split
  · split <;> simp_all
  · simp_all

/-- Trees after which members go if no semicolon stands behind the constants: the last one ends the
last constant, or is the comma behind it. -/
inductive EndsConstants (inside front : List Tree) (tree : Tree) : Prop
  | constant {first last : List Tree} (shape : front = first ++ last)
      (found : (partsOf Grammar.enumConstant inside).getLast? = some (last ++ [tree]))
  | comma {first last : List Tree} (shape : front = first ++ last)
      (found : (partsOf Grammar.enumConstant inside).getLast? = some last)
      (isComma : tree.isSymbol "," = true)

/-- Members go before everything if there are no constants, else behind the last one and the comma
behind it, unless a comment hides that. -/
theorem constants_end {fuel : Nat} {inside : List Tree} (well : AllWellBuilt inside)
    (ordered : inside.Pairwise fun first second => first.stop < second.stop)
    (read : [] ∈ endsBy (ends Grammar.form (fuel + 1))
      (Grammar.items Grammar.enumConstant) inside) :
    (partsOf Grammar.enumConstant inside = [] ∧
      (inside = [] ∨ ∃ comma, inside = [.leaf comma] ∧ comma.isSymbol "," = true)) ∨
      ∃ front tree second, inside = front ++ tree :: second ∧ EndsAtEdge tree ∧
      EndsConstants inside front tree ∧
        constantStop? (partsOf Grammar.enumConstant inside) inside = some tree.stop ∧
        (second = [] ∨ ∃ comma, second = [.leaf comma] ∧ comma.isSymbol "," = true) := by
  rcases items_cases read with ⟨comma, rfl, isComma⟩ | list
  · obtain ⟨t, rfl, symbol⟩ := symbol_leaf isComma
    exact Or.inl ⟨lone_comma isComma, Or.inr ⟨t, rfl, symbol⟩⟩
  · rcases listed_last list (Nat.lt_succ_self _) with ⟨empty, none⟩ |
      ⟨front, last, tail, whole, found, ended⟩
    · exact Or.inl ⟨none, Or.inl empty⟩
    · refine Or.inr ?_
      obtain ⟨before, tree, rfl, edge⟩ := constant_edge well (List.mem_of_getLast? found)
      have stop := constantStop_found found (whole ▸ ordered)
      rw [← whole] at stop
      have behind : inside = (front ++ before) ++ tree :: tail := by simpa using whole
      rcases ended with rfl | ⟨comma, rfl, isComma⟩
      · exact ⟨_, tree, [], behind, edge, .constant rfl found, stop, Or.inl rfl⟩
      · obtain ⟨t, rfl, symbol⟩ := symbol_leaf isComma
        simp only [List.head?_cons, symbol, Bool.true_and] at stop
        split at stop
        next =>
          have last : inside = (front ++ (before ++ [tree])) ++ .leaf t :: [] := by
            simpa using whole
          exact ⟨_, .leaf t, [], last, ⟨[], t, rfl, rfl, separator_edge (by simp) symbol⟩,
            .comma rfl found isComma, stop, Or.inl rfl⟩
        next =>
          exact ⟨_, tree, [.leaf t], behind, edge, .constant rfl found, stop,
            Or.inr ⟨t, rfl, symbol⟩⟩

end ClassDiagram.Proofs.EnumConstants
