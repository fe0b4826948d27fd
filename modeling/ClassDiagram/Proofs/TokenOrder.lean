import ClassDiagram.Java.Outline
import ClassDiagram.Proofs.SourceCuts
import ClassDiagram.Proofs.TokenTrees

/-! The order of tokens. Each takes at least a character and starts where the one before it has
ended or later, so trees that stand one behind the other end one behind the other. -/

namespace ClassDiagram.Proofs.TokenOrder
open Java Text SourceCuts TokenTrees

private theorem symbolLength_pos {text : List Char} {length : Nat}
    (found : symbolLength? text = some length) : 0 < length := by
  obtain ⟨symbol, first, rfl⟩ := Option.map_eq_some_iff.mp found
  have listed : ∀ symbol ∈ symbols, 0 < symbol.length := by decide
  exact listed symbol (List.mem_of_find?_eq_some first)

private theorem longest_pos {p : Pattern} (proper : p.isNullable = false) {text : List Char}
    {length : Nat} (found : p.longest? text = some length) : 0 < length := by
  cases text with
  | nil => simp [Pattern.longest?, proper] at found
  | cons c rest =>
    simp only [Pattern.longest?, proper, Bool.false_eq_true, if_false] at found
    split at found
    · obtain rfl := Option.some.inj found
      exact Nat.succ_pos _
    · simp at found

private theorem simpleLexeme_pos {text : List Char} {length : Nat} {kind : Token.Kind}
    (found : simpleLexeme? text = some (length, .token kind)) : 0 < length := by
  simp only [simpleLexeme?] at found
  split at found
  · simp at found
  next c rest =>
    split at found
    · simp at found
    · split at found
      next starts =>
        obtain ⟨rfl, _⟩ := Prod.mk.inj (Option.some.inj found)
        simp [namePart_of_nameStart starts]
      · split at found
        next n number =>
          obtain ⟨rfl, _⟩ := Prod.mk.inj (Option.some.inj found)
          exact longest_pos (by decide +kernel) number
        next =>
          obtain ⟨n, symbol, same⟩ := Option.map_eq_some_iff.mp found
          obtain ⟨rfl, _⟩ := Prod.mk.inj same
          exact symbolLength_pos symbol

private theorem codeLexeme_pos {inHole : Bool} {text : List Char} {length : Nat} {kind : Token.Kind}
    (found : codeLexeme? inHole text = some (length, .token kind)) : 0 < length := by
  simp only [codeLexeme?] at found
  split at found
  case h_9 => simp at found
  case h_10 =>
    obtain ⟨n, _, same⟩ := Option.map_eq_some_iff.mp found
    obtain ⟨rfl, _⟩ := Prod.mk.inj same
    exact Nat.succ_pos n
  case h_12 =>
    obtain ⟨_, _, same⟩ := Option.map_eq_some_iff.mp found
    simp at same
  case h_13 => exact simpleLexeme_pos found
  all_goals
    obtain ⟨rfl, _⟩ := Prod.mk.inj (Option.some.inj found)
    simp

private theorem stringLexeme_pos {level : Level} {text : List Char} {length : Nat}
    {kind : Token.Kind} (found : stringLexeme? level text = some (length, .token kind)) :
    0 < length := by
  simp only [stringLexeme?] at found
  split at found
  all_goals try (simp at found; done)
  · simp at found
    omega
  · simp only [blockLexeme] at found
    split at found
    · simp at found
      omega
    · simp at found
    · simp only [plainLexeme] at found
      split at found
      · split at found <;> simp at found
      · simp at found
  · simp at found
    omega

theorem lexeme_pos {levels : List Level} {text : List Char} {length : Nat} {kind : Token.Kind}
    (found : lexeme? levels text = some (length, .token kind)) : 0 < length := by
  simp only [lexeme?] at found
  split at found
  · exact stringLexeme_pos found
  · exact stringLexeme_pos found
  · exact codeLexeme_pos found
  · exact codeLexeme_pos found

/-- Tokens in the order of the source, none before the offset. -/
structure Ordered (offset : Nat) (tokens : List Token) : Prop where
  later : ∀ t ∈ tokens, offset ≤ t.start
  some : ∀ t ∈ tokens, t.start < t.stop
  apart : tokens.Pairwise fun first second => first.stop ≤ second.start

theorem tokensFrom_ordered {levels : List Level} {commented : Bool} {skip offset : Nat}
    {text : List Char} {tokens : List Token}
    (lexed : tokensFrom levels commented skip offset text = some tokens) :
    Ordered (offset + byteLength (text.take skip)) tokens := by
  fun_induction tokensFrom levels commented skip offset text generalizing tokens with
  | case1 =>
    obtain rfl := Option.some.inj lexed
    exact ⟨by simp, by simp, .nil⟩
  | case2 levels commented skip offset c text ih =>
    have rest := ih lexed
    rw [List.take_succ_cons, byteLength, ← Nat.add_assoc]
    exact rest
  | case3 => simp at lexed
  | case4 levels commented offset c text length next kind spelled token found =>
    rename_i ih
    obtain ⟨more, tail, rfl⟩ := Option.map_eq_some_iff.mp lexed
    have rest := ih tail
    obtain ⟨behind, rfl⟩ : ∃ behind, length = behind + 1 :=
      ⟨length - 1, by have := lexeme_pos found; omega⟩
    have stop : token.stop = next + byteLength (text.take behind) := by
      simp only [token, spelled, next, List.take_succ_cons, byteLength, Nat.add_assoc]
    have width : offset < next := Nat.lt_add_of_pos_right c.utf8Size_pos
    have start : token.start = offset := rfl
    rw [Nat.add_sub_cancel, ← stop] at rest
    refine ⟨?_, ?_, List.pairwise_cons.mpr ⟨rest.later, rest.apart⟩⟩
    · intro t member
      rcases List.mem_cons.mp member with rfl | member
      · simp [start, byteLength]
      · have gap := rest.later t member
        simp only [List.take_zero, byteLength]
        omega
    · intro t member
      rcases List.mem_cons.mp member with rfl | member
      · omega
      · exact rest.some t member
  | case5 levels commented offset c text length lexeme found next silent =>
    rename_i ih
    have rest := ih lexed
    refine ⟨fun t member => ?_, rest.some, rest.apart⟩
    have gap := rest.later t member
    simp only [List.take_zero, byteLength, next] at gap ⊢
    omega

theorem tokens_ordered {source : List Char} {tokens : List Token}
    (lexed : tokens? source = some tokens) : Ordered 0 tokens := by
  have early : ∀ {offset}, Ordered offset tokens → Ordered 0 tokens :=
    fun rest => ⟨by simp, rest.some, rest.apart⟩
  simp only [tokens?] at lexed
  split at lexed
  · exact early (tokensFrom_ordered lexed)
  · exact early (tokensFrom_ordered lexed)

theorem Ordered.sublist {offset : Nat} {tokens some : List Token} (ordered : Ordered offset tokens)
    (part : some.Sublist tokens) : Ordered offset some :=
  ⟨fun t member => ordered.later t (part.subset member),
    fun t member => ordered.some t (part.subset member), ordered.apart.sublist part⟩

/-- The first token behind the end of one is the next one. -/
theorem Ordered.next {offset : Nat} {before after : List Token} {t : Token}
    (ordered : Ordered offset (before ++ t :: after)) :
    (before ++ t :: after).find? (t.stop ≤ ·.start) = after.head? := by
  obtain ⟨_, behind, across⟩ := List.pairwise_append.mp ordered.apart
  have own := ordered.some t (by simp)
  have none : ∀ u ∈ before ++ [t], ¬t.stop ≤ u.start := by
    intro u member
    rcases List.mem_append.mp member with member | member
    · have gap := across u member t (by simp)
      have other := ordered.some u (by simp [member])
      omega
    · rw [List.mem_singleton.mp member]
      omega
  have split : before ++ t :: after = (before ++ [t]) ++ after := by simp
  rw [split, List.find?_append, List.find?_eq_none.mpr (by simpa using none), Option.none_or]
  cases after with
  | nil => rfl
  | cons next after => simp [(List.pairwise_cons.mp behind).1 next (by simp)]

private theorem stop_token (tree : Tree) : ∃ t ∈ tokensOf tree, t.stop = tree.stop := by
  cases tree with
  | leaf t => exact ⟨t, by simp [tokensOf], rfl⟩
  | group bracket rules opening closing inside => exact ⟨closing, by simp [tokensOf], rfl⟩

theorem trees_ordered {offset : Nat} {trees : List Tree}
    (ordered : Ordered offset (allTokens trees)) :
    trees.Pairwise fun first second => first.stop < second.stop := by
  induction trees with
  | nil => exact .nil
  | cons tree trees ih =>
    rw [allTokens] at ordered
    refine List.pairwise_cons.mpr ⟨fun other member => ?_,
      ih (ordered.sublist (List.sublist_append_right ..))⟩
    obtain ⟨t, own, stop⟩ := stop_token tree
    obtain ⟨u, others, stop'⟩ := stop_token other
    have listed : u ∈ allTokens trees := mem_allTokens.mpr ⟨other, member, others⟩
    have gap := (List.pairwise_append.mp ordered.apart).2.2 t own u listed
    have some := ordered.some u (by simp [listed])
    omega

end ClassDiagram.Proofs.TokenOrder
