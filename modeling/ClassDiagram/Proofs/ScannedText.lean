import ClassDiagram.Proofs.BareTrees
import ClassDiagram.Proofs.Blanks
import ClassDiagram.Proofs.SourceCuts

/-! What the lexer makes of a text outside strings. Tokens are taken without their places, so that
readings of texts put one behind the other can be put together. -/

namespace ClassDiagram.Proofs.ScannedText
open Java Text BareTrees LexemeLocality SourceCuts

/-- The tokens of a text without their places. -/
def scan (levels : List Level) (text : List Char) : Option (List Token) :=
  (tokensFrom levels false 0 0 text).map (List.map bareToken)

private theorem tokenAt_bare (commented commented' : Bool) (offset offset' : Nat) (text : List Char)
    (length : Nat) (kind : Token.Kind) :
    bareToken (tokenAt commented offset text length kind) =
      bareToken (tokenAt commented' offset' text length kind) := rfl

private theorem after_bare (levels : List Level) (t : Token) :
    Level.after levels (bareToken t) = Level.after levels t := rfl

theorem tokensFrom_bare (levels : List Level) (commented commented' : Bool)
    (skip offset offset' : Nat) (text : List Char) :
    (tokensFrom levels commented skip offset text).map (List.map bareToken) =
      (tokensFrom levels commented' skip offset' text).map (List.map bareToken) := by
  induction text generalizing levels commented commented' skip offset offset' with
  | nil =>
    cases skip <;> rfl
  | cons c text ih =>
    cases skip with
    | succ skip => exact ih ..
    | zero =>
      cases found : lexeme? levels (c :: text) with
      | none => simp [tokensFrom, found]
      | some lexed =>
        obtain ⟨length, lexeme⟩ := lexed
        cases lexeme with
        | token kind =>
          have same := tokenAt_bare commented commented' offset offset' (c :: text) length kind
          have levelled : Level.after levels (tokenAt commented offset (c :: text) length kind) =
              Level.after levels (tokenAt commented' offset' (c :: text) length kind) := by
            rw [← after_bare, same, after_bare]
          have tail :=
            ih (Level.after levels (tokenAt commented' offset' (c :: text) length kind)) false
              false (length - 1) (offset + c.utf8Size) (offset' + c.utf8Size)
          rw [tokensFrom_token found, tokensFrom_token found, levelled]
          simp only [Option.map_map, Function.comp_def, List.map_cons, same]
          have both := congrArg
            (Option.map (bareToken (tokenAt commented' offset' (c :: text) length kind) :: ·)) tail
          simpa only [Option.map_map, Function.comp_def] using both
        | _ =>
          rw [tokensFrom_silent found (by simp), tokensFrom_silent found (by simp)]
          exact ih ..

private theorem scan_silent {levels : List Level} {first : Char} {more text : List Char}
    {lexeme : Lexeme}
    (found : lexeme? levels (first :: more ++ text) = some (more.length + 1, lexeme))
    (silent : ∀ kind, lexeme ≠ .token kind) :
    scan levels (first :: more ++ text) = scan levels text := by
  rw [List.cons_append] at found ⊢
  rw [scan, tokensFrom_silent found silent, Nat.add_sub_cancel, tokensFrom_skip, scan]
  exact tokensFrom_bare ..

private theorem scan_token {levels : List Level} {first : Char} {more text : List Char}
    {kind : Token.Kind}
    (found : lexeme? levels (first :: more ++ text) = some (more.length + 1, .token kind))
    (unglued : isGlued (first :: more ++ text) (more.length + 1) = false) :
    scan levels (first :: more ++ text) =
      (scan (Level.after levels ⟨kind, String.ofList (first :: more), 0, 0, false, false⟩) text).map
        (⟨kind, String.ofList (first :: more), 0, 0, false, false⟩ :: ·) := by
  have taken : (first :: more ++ text).take (more.length + 1) = first :: more := by
    rw [List.take_append_of_le_length (by simp)]
    simp
  have token : bareToken (tokenAt false 0 (first :: more ++ text) (more.length + 1) kind) =
      ⟨kind, String.ofList (first :: more), 0, 0, false, false⟩ := by
    simp only [bareToken, tokenAt, taken, unglued]
  rw [List.cons_append] at found token ⊢
  rw [scan, tokensFrom_token found, Nat.add_sub_cancel, tokensFrom_skip, ← after_bare, token]
  simp only [Option.map_map, Function.comp_def, List.map_cons, token, scan]
  have tail :=
    tokensFrom_bare (Level.after levels ⟨kind, String.ofList (first :: more), 0, 0, false, false⟩)
      false false 0 (0 + first.utf8Size + byteLength more) 0 text
  have both :=
    congrArg (Option.map ((⟨kind, String.ofList (first :: more), 0, 0, false, false⟩ : Token) :: ·))
      tail
  simpa only [Option.map_map, Function.comp_def] using both

def inCode : List Level → Bool
  | [] => true
  | .braces :: _ => true
  | _ => false

theorem lexeme_code {levels : List Level} (code : inCode levels = true) (text : List Char) :
    lexeme? levels text = codeLexeme? false text := by
  rcases levels with _ | ⟨_ | _ | _ | _, levels⟩
  · rfl
  · rfl
  all_goals simp [inCode] at code

/-- Outside strings the text is read as the tokens, whatever follows it. -/
def Reads (text : List Char) (tokens : List Token) : Prop :=
  ∀ levels rest, inCode levels = true →
    scan levels (text ++ rest) = (scan levels rest).map (tokens ++ ·)

theorem Reads.nil : Reads [] [] := by
  intro levels rest _
  simp

/-- What a text is read as has no places. -/
theorem Reads.bare {text : List Char} {tokens : List Token} (read : Reads text tokens) :
    tokens.map bareToken = tokens := by
  have alone := read [] [] rfl
  simp only [scan, tokensFrom, Option.map_some, List.map_nil, List.append_nil] at alone
  obtain ⟨placed, _, rfl⟩ := Option.map_eq_some_iff.mp alone
  rw [List.map_map]
  rfl

theorem Reads.append {first second : List Char} {tokens tokens' : List Token}
    (one : Reads first tokens) (two : Reads second tokens') :
    Reads (first ++ second) (tokens ++ tokens') := by
  intro levels rest code
  rw [List.append_assoc, one _ _ code, two _ _ code, Option.map_map]
  simp [Function.comp_def]

theorem Reads.flatMap {α : Type} {texts : α → List Char} {tokens : α → List Token} {all : List α}
    (each : ∀ x ∈ all, Reads (texts x) (tokens x)) :
    Reads (all.flatMap texts) (all.flatMap tokens) := by
  induction all with
  | nil => exact .nil
  | cons x all ih =>
    rw [List.flatMap_cons, List.flatMap_cons]
    exact (each x (by simp)).append (ih fun y member => each y (by simp [member]))

theorem blank_lexeme {c : Char} (layout : isLayout c = true) {levels : List Level}
    (code : inCode levels = true) (rest : List Char) :
    lexeme? levels (c :: rest) = some (1, .blank) := by
  have noMark : c ∉ marks := by
    intro mark
    have none : ∀ c ∈ marks, isLayout c = false := by decide
    simp [none c mark] at layout
  simp [lexeme_code code, codeLexeme_plain noMark, simpleLexeme?, layout]

theorem Reads.blank {c : Char} (layout : isLayout c = true) : Reads [c] [] := by
  intro levels rest code
  rw [@scan_silent levels c [] rest .blank (blank_lexeme layout code rest) (by simp)]
  simp

theorem Reads.blanks {text : List Char} (layout : ∀ c ∈ text, isLayout c = true) :
    Reads text [] := by
  induction text with
  | nil => exact .nil
  | cons c text ih =>
    exact (Reads.blank (layout c (by simp))).append (ih fun d member => layout d (by simp [member]))

section
variable {text rest : List Char} (oneLine : ∀ c ∈ text, c ≠ '\n')
  (ended : rest.head?.all (· == '\n') = true) {levels : List Level} (code : inCode levels = true)
include oneLine ended code

/-- A comment goes through the end of its line or of the text. -/
theorem comment_lexeme :
    lexeme? levels ('/' :: '/' :: text ++ rest) = some (('/' :: text).length + 1, .comment) := by
  have run : ('/' :: '/' :: (text ++ rest)).takeWhile (· != '\n') = '/' :: '/' :: text := by
    have stops : (text ++ rest).takeWhile (· != '\n') = text := by
      rw [List.takeWhile_append_of_pos (by simpa using oneLine)]
      cases rest with
      | nil => simp
      | cons c rest =>
        obtain rfl : c = '\n' := by simpa using ended
        simp
    simp [stops]
  simp [lexeme_code code, codeLexeme_slash, List.isPrefixOf, run]

theorem scan_comment : scan levels ('/' :: '/' :: text ++ rest) = scan levels rest :=
  @scan_silent levels '/' ('/' :: text) rest .comment (comment_lexeme oneLine ended code) (by simp)

end

theorem Reads.comment {text : List Char} (oneLine : ∀ c ∈ text, c ≠ '\n') :
    Reads ('/' :: '/' :: text ++ ['\n']) [] := by
  intro levels rest code
  rw [List.append_assoc, scan_comment oneLine (by rfl) code]
  exact Reads.blank (by decide) levels rest code

def wordToken (text : String) : Token :=
  ⟨.word, text, 0, 0, false, false⟩

def symbolToken (text : String) : Token :=
  ⟨.symbol, text, 0, 0, false, false⟩

def isIdentifier (name : String) : Bool :=
  match name.toList with
  | [] => false
  | c :: rest => isNameStart c && rest.all isNamePart

def stops : List Char :=
  [' ', ';', ',', '(', ')', '.']

private theorem nameStart_plain {c : Char} (starts : isNameStart c = true) :
    c ∉ marks ∧ isLayout c = false ∧ c ≠ '>' := by
  refine ⟨?_, ?_, ?_⟩
  · intro mark
    have none : ∀ c ∈ marks, isNameStart c = false := by decide +kernel
    simp [none c mark] at starts
  · apply Bool.eq_false_iff.mpr
    intro layout
    have small : c.toNat < 128 := by
      simp only [isLayout, Bool.or_eq_true, beq_iff_eq, Bool.and_eq_true, decide_eq_true_eq]
        at layout
      rcases layout with rfl | bounds
      · decide
      · omega
    have none :=
      Blanks.ascii (P := fun c => isLayout c = true → isNameStart c = false)
        (by decide) small layout
    simp [none] at starts
  · rintro rfl
    exact absurd starts (by decide +kernel)

theorem Reads.word {name : String} (named : isIdentifier name = true) {stop : Char}
    (ended : stop ∈ stops) {text : List Char} {tokens : List Token}
    (behind : Reads (stop :: text) tokens) :
    Reads (name.toList ++ stop :: text) (wordToken name :: tokens) := by
  intro levels rest code
  have noPart : isNamePart stop = false := by
    have none : ∀ c ∈ stops, isNamePart c = false := by decide +kernel
    exact none stop ended
  have noHyphen : '-' ≠ stop := by
    rintro rfl
    simp [stops] at ended
  simp only [isIdentifier] at named
  split at named
  next => simp at named
  next c more spelled =>
    simp only [Bool.and_eq_true, List.all_eq_true] at named
    obtain ⟨noMark, noLayout, noAngle⟩ := nameStart_plain named.1
    have first := TokenTrees.namePart_of_nameStart named.1
    have run : (c :: (more ++ (stop :: (text ++ rest)))).takeWhile isNamePart = c :: more := by
      have stopped : (more ++ (stop :: (text ++ rest))).takeWhile isNamePart = more := by
        rw [List.takeWhile_append_of_pos named.2]
        simp [noPart]
      simp [first, stopped]
    have found : lexeme? levels (c :: more ++ (stop :: (text ++ rest))) =
        some (more.length + 1, .token .word) := by
      simp only [List.cons_append, lexeme_code code, codeLexeme_plain noMark, simpleLexeme?,
        noLayout, named.1, run]
      simp
    have unglued : isGlued (c :: more ++ (stop :: (text ++ rest))) (more.length + 1) = false := by
      simp [isGlued, noAngle, splitModifier, List.isPrefixOf, noHyphen]
    have token : (⟨.word, String.ofList (c :: more), 0, 0, false, false⟩ : Token) =
        wordToken name := by
      rw [wordToken, ← spelled, String.ofList_toList]
    have same : name.toList ++ stop :: text ++ rest = c :: more ++ (stop :: (text ++ rest)) := by
      simp [spelled]
    rw [same, scan_token found unglued, token, ← List.cons_append]
    have same : Level.after levels (wordToken name) = levels := rfl
    rw [same, behind levels rest code, Option.map_map]
    rfl

theorem scan_mark {levels : List Level} {c : Char} {rest : List Char} {kind : Token.Kind}
    (noAngle : c ≠ '>') (found : lexeme? levels (c :: rest) = some (1, .token kind)) :
    scan levels (c :: rest) =
      (scan (Level.after levels ⟨kind, String.singleton c, 0, 0, false, false⟩) rest).map
      (⟨kind, String.singleton c, 0, 0, false, false⟩ :: ·) := by
  have unglued : isGlued (c :: [] ++ rest) (([] : List Char).length + 1) = false := by
    simp [isGlued, noAngle, splitModifier]
  simpa using @scan_token levels c [] rest kind found unglued

theorem Reads.symbol {c : Char} (listed : c ∈ [';', ',']) :
    Reads [c] [symbolToken (String.singleton c)] := by
  intro levels rest code
  have noMark : c ∉ marks := by
    have none : ∀ c ∈ [';', ','], c ∉ marks := by decide
    exact none c listed
  have noAngle : c ≠ '>' := by
    rintro rfl
    simp at listed
  have found : lexeme? levels (c :: rest) = some (1, .token .symbol) :=
    (lexeme_code code _).trans ((codeLexeme_plain noMark rest).trans (separator_lexeme listed rest))
  rw [List.cons_append, List.nil_append, scan_mark noAngle found]
  rfl

def openingToken (bracket : Bracket) (text : String) : Token :=
  ⟨.opening bracket, text, 0, 0, false, false⟩

def closingToken (bracket : Bracket) (text : String) : Token :=
  ⟨.closing bracket, text, 0, 0, false, false⟩

theorem Reads.opening : Reads ['('] [openingToken .paren "("] := by
  intro levels rest code
  have found : lexeme? levels ('(' :: rest) = some (1, .token (.opening .paren)) :=
    lexeme_code code _
  rw [List.cons_append, List.nil_append, scan_mark (by decide) found]
  rfl

theorem Reads.closing : Reads [')'] [closingToken .paren ")"] := by
  intro levels rest code
  have found : lexeme? levels (')' :: rest) = some (1, .token (.closing .paren)) :=
    lexeme_code code _
  rw [List.cons_append, List.nil_append, scan_mark (by decide) found]
  rfl

theorem Reads.braces {text : List Char} {tokens : List Token} (inside : Reads text tokens) :
    Reads ('{' :: text ++ ['}'])
      (openingToken .brace "\x7b" :: tokens ++ [closingToken .brace "\x7d"]) := by
  intro levels rest code
  have opens : ∀ text, lexeme? levels ('{' :: text) = some (1, .token (.opening .brace)) :=
    fun text => lexeme_code code _
  have closes : lexeme? (.braces :: levels) ('}' :: rest) = some (1, .token (.closing .brace)) :=
    rfl
  have same : '{' :: text ++ ['}'] ++ rest = '{' :: (text ++ ('}' :: rest)) := by simp
  have inner := inside (.braces :: levels) ('}' :: rest) rfl
  rw [scan_mark (by decide) closes] at inner
  have inward : Level.after levels (openingToken .brace (String.singleton '{')) =
      .braces :: levels := rfl
  have outward :
      Level.after (.braces :: levels) (closingToken .brace (String.singleton '}')) = levels := rfl
  simp only [openingToken, closingToken] at inward outward
  rw [outward] at inner
  rw [same, scan_mark (by decide) (opens _), inward, inner]
  simp only [Option.map_map]
  congr 1
  funext tokens
  simp [openingToken, closingToken]

end ClassDiagram.Proofs.ScannedText
