import ClassDiagram.Java.Lexer
import ClassDiagram.Java.Tree

/-! Trees and the tokens they hold. Building trees neither drops nor moves a token, and the lexer
cuts words out of the source as whole runs of name characters. -/

namespace ClassDiagram.Proofs.TokenTrees
open Java Text

mutual
def tokensOf : Tree → List Token
  | .leaf t => [t]
  | .group _ _ opening closing inside => opening :: (allTokens inside ++ [closing])

def allTokens : List Tree → List Token
  | [] => []
  | t :: ts => tokensOf t ++ allTokens ts
end

@[simp] theorem allTokens_append (first second : List Tree) :
    allTokens (first ++ second) = allTokens first ++ allTokens second := by
  induction first with
  | nil => simp [allTokens]
  | cons t first ih => simp [allTokens, ih]

theorem mem_allTokens {t : Token} {trees : List Tree} :
    t ∈ allTokens trees ↔ ∃ tree ∈ trees, t ∈ tokensOf tree := by
  induction trees with
  | nil => simp [allTokens]
  | cons tree trees ih => simp [allTokens, ih]

/-- The tokens before the innermost open region and those that open regions. -/
def framesTokens : List Tree.Frame → List Token
  | [] => []
  | frame :: frames => framesTokens frames ++ allTokens frame.before.reverse ++ [frame.opening]

theorem build_allTokens {derives : Rule → List Tree → Bool} {frames : List Tree.Frame}
    {current trees : List Tree} {tokens : List Token}
    (built : Tree.build derives frames current tokens = some trees) :
    allTokens trees = framesTokens frames ++ allTokens current.reverse ++ tokens := by
  induction tokens generalizing frames current with
  | nil =>
    cases frames with
    | nil =>
      simp only [Tree.build, Option.some.injEq] at built
      simp [← built, framesTokens]
    | cons => simp [Tree.build] at built
  | cons t tokens ih =>
    rw [Tree.build.eq_3] at built
    split at built
    next bracket opens =>
      rw [ih built]
      simp [framesTokens, allTokens]
    next bracket closes =>
      cases frames with
      | nil => simp at built
      | cons frame frames =>
        simp only at built
        split at built
        · rw [ih built]
          simp [framesTokens, allTokens, tokensOf]
        · simp at built
    next =>
      rw [ih built]
      simp [allTokens, tokensOf]

/-- The text of a word: a run of name characters. -/
structure IsWordText (text : String) : Prop where
  nonempty : text ≠ ""
  named : ∀ c ∈ text.toList, isNamePart c = true

theorem namePart_of_nameStart {c : Char} (starts : isNameStart c = true) : isNamePart c = true := by
  simp only [isNameStart] at starts
  simp only [isNamePart]
  split
  next narrow =>
    simp only [narrow, if_true, Bool.or_eq_true] at starts
    rcases starts with (letter | underscore) | dollar
    · simp [Char.isAlphanum, letter]
    · simp [underscore]
    · simp [dollar]
  next wide =>
    simp only [wide, if_false] at starts
    simp [starts]

private theorem simpleLexeme_word {c : Char} {rest : List Char} {length : Nat}
    (lexed : simpleLexeme? (c :: rest) = some (length, .token .word)) :
    isNameStart c = true ∧ length = ((c :: rest).takeWhile isNamePart).length := by
  simp only [simpleLexeme?] at lexed
  split at lexed
  · simp at lexed
  · split at lexed
    next starts =>
      simp only [Option.some.injEq, Prod.mk.injEq, and_true] at lexed
      exact ⟨starts, lexed.symm⟩
    next =>
      split at lexed <;> simp at lexed

theorem codeLexeme_word {inHole : Bool} {c : Char} {rest : List Char} {length : Nat}
    (lexed : codeLexeme? inHole (c :: rest) = some (length, .token .word)) :
    isNameStart c = true ∧ length = ((c :: rest).takeWhile isNamePart).length := by
  simp only [codeLexeme?] at lexed
  split at lexed
  all_goals try simp at lexed
  exact simpleLexeme_word lexed

theorem stringLexeme_no_word {level : Level} {text : List Char} {length : Nat} :
    stringLexeme? level text ≠ some (length, .token .word) := by
  intro lexed
  simp only [stringLexeme?] at lexed
  split at lexed
  all_goals try simp at lexed
  next =>
    simp only [blockLexeme] at lexed
    split at lexed
    all_goals try simp at lexed
    simp only [plainLexeme] at lexed
    split at lexed
    · split at lexed <;> simp at lexed
    · simp at lexed

theorem lexeme_word {levels : List Level} {c : Char} {rest : List Char} {length : Nat}
    (lexed : lexeme? levels (c :: rest) = some (length, .token .word)) :
    isNameStart c = true ∧ length = ((c :: rest).takeWhile isNamePart).length := by
  simp only [lexeme?] at lexed
  split at lexed
  · exact absurd lexed stringLexeme_no_word
  · exact absurd lexed stringLexeme_no_word
  · exact codeLexeme_word lexed
  · exact codeLexeme_word lexed

private theorem tokensFrom_words {levels : List Level} {commented : Bool} {skip offset : Nat}
    {text : List Char} {tokens : List Token}
    (lexed : tokensFrom levels commented skip offset text = some tokens) :
    ∀ t ∈ tokens, t.kind = .word → IsWordText t.text := by
  fun_induction tokensFrom levels commented skip offset text generalizing tokens with
  | case1 => simp_all
  | case2 _ _ _ _ _ _ ih => exact ih lexed
  | case3 => simp at lexed
  | case4 levels commented offset c rest length next kind text token found =>
    rename_i ih
    obtain ⟨more, tail, rfl⟩ := Option.map_eq_some_iff.mp lexed
    intro t member word
    rcases List.mem_cons.mp member with rfl | member
    · simp only [token] at word
      subst word
      obtain ⟨starts, rfl⟩ := lexeme_word found
      have run : text = (c :: rest).takeWhile isNamePart :=
        (List.prefix_iff_eq_take.mp (List.takeWhile_prefix _)).symm
      simp only [token, run]
      refine ⟨?_, ?_⟩
      · simp [namePart_of_nameStart starts]
      · intro d inside
        rw [String.toList_ofList] at inside
        exact List.all_eq_true.mp List.all_takeWhile d inside
    · exact ih tail t member word
  | case5 =>
    rename_i ih
    exact ih lexed

theorem tokens_words {source : List Char} {tokens : List Token}
    (lexed : tokens? source = some tokens) : ∀ t ∈ tokens, t.kind = .word → IsWordText t.text := by
  simp only [tokens?] at lexed
  split at lexed
  · exact tokensFrom_words lexed
  · exact tokensFrom_words lexed

end ClassDiagram.Proofs.TokenTrees
