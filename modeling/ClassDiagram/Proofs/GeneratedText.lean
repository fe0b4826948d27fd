import ClassDiagram.Proofs.JoinedTexts
import ClassDiagram.Proofs.ScannedText
import ClassDiagram.Java.Merge

/-! The text of new members and the trees it stands for. Names and types have to be words; then the
lines written for a member are read as the tokens of its trees, whatever follows them. -/

namespace ClassDiagram.Proofs.GeneratedText
open Java TokenTrees BareTrees ScannedText

def wordTree (text : String) : Tree :=
  .leaf (wordToken text)

def symbolTree (text : String) : Tree :=
  .leaf (symbolToken text)

def region (bracket : Bracket) (opening closing : String) (inside : List Tree) : Tree :=
  .group bracket (bracket.rules.filter (derives · inside)) (openingToken bracket opening)
    (closingToken bracket closing) inside

def fieldTrees (field : Field) : List Tree :=
  [wordTree (access field.isPrivate), wordTree field.type, wordTree field.name, symbolTree ";"]

def parameterTrees : List Parameter → List Tree
  | [] => []
  | [last] => [wordTree last.type, wordTree last.name]
  | p :: q :: more =>
    wordTree p.type :: wordTree p.name :: symbolTree "," :: parameterTrees (q :: more)

def bodyTrees (method : Method) : List Tree :=
  if method.returnsVoid then [] else [wordTree "return", wordTree "null", symbolTree ";"]

def methodEnd (signatureOnly : Bool) (method : Method) : Tree :=
  if signatureOnly then symbolTree ";" else region .brace "\x7b" "\x7d" (bodyTrees method)

def methodTrees (signatureOnly : Bool) (method : Method) : List Tree :=
  [wordTree (access method.isPrivate), wordTree method.returnType, wordTree method.name,
    region .paren "(" ")" (parameterTrees method.parameters), methodEnd signatureOnly method]

def memberTrees (signatureOnly : Bool) (missing : Missing) : List (List Tree) :=
  missing.fields.map fieldTrees ++ missing.methods.map (methodTrees signatureOnly)

theorem wordTree_wellBuilt (text : String) : WellBuilt (wordTree text) := by
  intro bracket
  simp [wordToken]

theorem symbolTree_wellBuilt (text : String) : WellBuilt (symbolTree text) := by
  intro bracket
  simp [symbolToken]

theorem region_wellBuilt {bracket : Bracket} {opening closing : String} {inside : List Tree}
    (inner : AllWellBuilt inside) : WellBuilt (region bracket opening closing inside) :=
  ⟨rfl, rfl, rfl, inner⟩

private theorem parameterTrees_wellBuilt (parameters : List Parameter) :
    AllWellBuilt (parameterTrees parameters) := by
  fun_induction parameterTrees parameters with
  | case1 => trivial
  | case2 last => exact ⟨wordTree_wellBuilt _, wordTree_wellBuilt _, trivial⟩
  | case3 p q more ih =>
    exact ⟨wordTree_wellBuilt _, wordTree_wellBuilt _, symbolTree_wellBuilt _, ih⟩

private theorem methodEnd_wellBuilt (signatureOnly : Bool) (method : Method) :
    WellBuilt (methodEnd signatureOnly method) := by
  simp only [methodEnd]
  split
  · exact symbolTree_wellBuilt _
  · apply region_wellBuilt
    simp only [bodyTrees]
    split
    · trivial
    · exact ⟨wordTree_wellBuilt _, wordTree_wellBuilt _, symbolTree_wellBuilt _, trivial⟩

theorem memberTrees_wellBuilt (signatureOnly : Bool) (missing : Missing) :
    AllWellBuilt (memberTrees signatureOnly missing).flatten := by
  rw [allWellBuilt_iff]
  intro tree member
  obtain ⟨piece, listed, inside⟩ := List.mem_flatten.mp member
  rcases List.mem_append.mp listed with listed | listed
  · obtain ⟨field, _, rfl⟩ := List.mem_map.mp listed
    have all : AllWellBuilt (fieldTrees field) :=
      ⟨wordTree_wellBuilt _, wordTree_wellBuilt _, wordTree_wellBuilt _,
        symbolTree_wellBuilt _, trivial⟩
    exact allWellBuilt_iff.mp all tree inside
  · obtain ⟨method, _, rfl⟩ := List.mem_map.mp listed
    have all : AllWellBuilt (methodTrees signatureOnly method) :=
      ⟨wordTree_wellBuilt _, wordTree_wellBuilt _, wordTree_wellBuilt _,
        region_wellBuilt (parameterTrees_wellBuilt _), methodEnd_wellBuilt _ _, trivial⟩
    exact allWellBuilt_iff.mp all tree inside

def IsLineBreak (newline : List Char) : Prop :=
  newline = ['\n'] ∨ newline = ['\r', '\n']

theorem lineBreak_isLineBreak (source : List Char) : IsLineBreak (lineBreak source) := by
  simp only [lineBreak]
  split
  · exact Or.inr rfl
  · exact Or.inl rfl

section
variable {newline : List Char} (isLineBreak : IsLineBreak newline)
include isLineBreak

theorem reads_newline : Reads newline [] := by
  rcases isLineBreak with rfl | rfl
  · exact .blanks (by decide)
  · exact .blanks (by decide)

theorem reads_todo : Reads (todo.toList ++ newline) [] := by
  have indented : todo.toList = bodyIndent.toList ++ "//TODO".toList := by simp [todo]
  have blanks : Reads bodyIndent.toList [] := .blanks (by decide)
  rw [indented, List.append_assoc]
  refine Reads.append blanks ?_
  rcases isLineBreak with rfl | rfl
  · exact @Reads.comment "TODO".toList (by decide)
  · exact @Reads.comment "TODO\r".toList (by decide)

end

theorem reads_word_space {name : String} (named : isIdentifier name = true) :
    Reads (name.toList ++ [' ']) [wordToken name] :=
  .word named (by decide) (.blank (by decide))

private theorem access_identifier (isPrivate : Bool) : isIdentifier (access isPrivate) = true := by
  cases isPrivate <;> decide +kernel

/-- The access word and the type that a member starts with. -/
theorem reads_start (isPrivate : Bool) {type : String} (typed : isIdentifier type = true) :
    Reads (indent.toList ++ (access isPrivate).toList ++ [' '] ++ type.toList ++ [' '])
      [wordToken (access isPrivate), wordToken type] := by
  have blanks : Reads indent.toList [] := .blanks (by decide)
  have all :=
    (blanks.append (reads_word_space (access_identifier isPrivate))).append (reads_word_space typed)
  simpa using all

theorem reads_field {newline : List Char} (isLineBreak : IsLineBreak newline) {field : Field}
    (typed : isIdentifier field.type = true) (named : isIdentifier field.name = true) :
    Reads ((fieldText field).toList ++ newline) (allTokens (fieldTrees field)) := by
  have name : Reads (field.name.toList ++ [';']) [wordToken field.name, symbolToken ";"] :=
    .word named (by decide) (.symbol (by decide))
  have all := ((reads_start field.isPrivate typed).append name).append (reads_newline isLineBreak)
  simpa [fieldText, fieldTrees, allTokens, tokensOf, wordTree, symbolTree] using all

/-- Parameters through the parenthesis that closes them. -/
theorem reads_parameters {parameters : List Parameter}
    (spelled : ∀ p ∈ parameters, isIdentifier p.type = true ∧ isIdentifier p.name = true) :
    Reads ((", ".intercalate (parameters.map fun p => p.type ++ " " ++ p.name)).toList ++ [')'])
      (allTokens (parameterTrees parameters) ++ [closingToken .paren ")"]) := by
  rw [String.toList_intercalate]
  fun_induction parameterTrees parameters with
  | case1 => exact .closing
  | case2 last =>
    obtain ⟨typed, named⟩ := spelled last (by simp)
    have name : Reads (last.name.toList ++ [')']) [wordToken last.name, closingToken .paren ")"] :=
      .word named (by decide) .closing
    have all := (reads_word_space typed).append name
    simpa [allTokens, tokensOf, wordTree] using all
  | case3 p q more ih =>
    obtain ⟨typed, named⟩ := spelled p (by simp)
    have comma : Reads [',', ' '] [symbolToken ","] :=
      (Reads.symbol (c := ',') (by decide)).append (.blank (by decide))
    have rest := ih fun other member => spelled other (by simp [member])
    have all := ((reads_word_space typed).append (Reads.word named (by decide) comma)).append rest
    simpa [allTokens, tokensOf, wordTree, symbolTree] using all

structure SpelledField (field : Field) : Prop where
  type : isIdentifier field.type = true
  name : isIdentifier field.name = true

structure SpelledMethod (method : Method) : Prop where
  returnType : isIdentifier method.returnType = true
  name : isIdentifier method.name = true
  parameters : ∀ p ∈ method.parameters, isIdentifier p.type = true ∧ isIdentifier p.name = true

private theorem reads_signature {method : Method} (spelled : SpelledMethod method) :
    Reads (signature method).toList
      (allTokens [wordTree (access method.isPrivate), wordTree method.returnType,
        wordTree method.name, region .paren "(" ")" (parameterTrees method.parameters)]) := by
  have name :
      Reads (method.name.toList ++ ['(']) [wordToken method.name, openingToken .paren "("] :=
    .word spelled.name (by decide) .opening
  have all :=
    ((reads_start method.isPrivate spelled.returnType).append name).append
      (reads_parameters spelled.parameters)
  simpa [signature, allTokens, tokensOf, wordTree, region] using all

private theorem reads_return {newline : List Char} (isLineBreak : IsLineBreak newline)
    (method : Method) :
    Reads ((if method.returnsVoid then [] else [bodyIndent ++ "return null;"]).flatMap
      fun line => line.toList ++ newline) (allTokens (bodyTrees method)) := by
  simp only [bodyTrees]
  split
  · exact .nil
  · have blanks : Reads bodyIndent.toList [] := .blanks (by decide)
    have first : Reads ("return".toList ++ [' ']) [wordToken "return"] :=
      reads_word_space (by decide +kernel)
    have second : Reads ("null".toList ++ [';']) [wordToken "null", symbolToken ";"] :=
      .word (by decide +kernel) (by decide) (.symbol (by decide))
    have all := ((blanks.append first).append second).append (reads_newline isLineBreak)
    simpa [allTokens, tokensOf, wordTree, symbolTree] using all

theorem reads_method {newline : List Char} (isLineBreak : IsLineBreak newline)
    (signatureOnly : Bool) {method : Method} (spelled : SpelledMethod method) :
    Reads ((methodLines signatureOnly method).flatMap fun line => line.toList ++ newline)
      (allTokens (methodTrees signatureOnly method)) := by
  have feed := reads_newline isLineBreak
  have start := feed.append (reads_signature spelled)
  cases signatureOnly with
  | true =>
    have ended : Reads [';'] [symbolToken ";"] := .symbol (by decide)
    have all := (start.append ended).append feed
    simpa [methodLines, methodTrees, methodEnd, allTokens, tokensOf, symbolTree] using all
  | false =>
    have blank : Reads [' '] [] := .blank (by decide)
    have outdent : Reads indent.toList [] := .blanks (by decide)
    have inside :=
      ((feed.append (reads_todo isLineBreak)).append (reads_return isLineBreak method)).append
        outdent
    have all := ((start.append blank).append inside.braces).append feed
    simpa [methodLines, methodTrees, methodEnd, allTokens, tokensOf, region, List.append_assoc]
      using all

theorem allTokens_flatten (all : List (List Tree)) :
    allTokens all.flatten = all.flatMap allTokens := by
  induction all with
  | nil => rfl
  | cons piece all ih => simp [ih]

def separatorTrees (needsSeparator : Bool) : List Tree :=
  if needsSeparator then [symbolTree ";"] else []

private theorem reads_separator {newline : List Char} (isLineBreak : IsLineBreak newline)
    (needsSeparator : Bool) :
    Reads ((if needsSeparator then [indent ++ ";"] else []).flatMap
      fun line => line.toList ++ newline) (allTokens (separatorTrees needsSeparator)) := by
  cases needsSeparator with
  | false => exact .nil
  | true =>
    have blanks : Reads indent.toList [] := .blanks (by decide)
    have all :=
      (blanks.append (Reads.symbol (c := ';') (by decide))).append (reads_newline isLineBreak)
    simpa [separatorTrees, allTokens, tokensOf, symbolTree] using all

section
variable {missing : Missing} (fields : ∀ field ∈ missing.fields, SpelledField field)
  (methods : ∀ method ∈ missing.methods, SpelledMethod method)
include fields methods

/-- The lines of missing members are read as their trees. -/
theorem reads_block {newline : List Char} (isLineBreak : IsLineBreak newline)
    (needsSeparator signatureOnly : Bool) :
    Reads (block newline needsSeparator (missing.lines signatureOnly))
      (allTokens (separatorTrees needsSeparator ++
        (memberTrees signatureOnly missing).flatten)) := by
  have first : Reads (missing.fields.flatMap fun field => (fieldText field).toList ++ newline)
      (missing.fields.flatMap fun field => allTokens (fieldTrees field)) :=
    .flatMap fun field listed =>
      reads_field isLineBreak (fields field listed).type (fields field listed).name
  have second : Reads
      (missing.methods.flatMap fun method =>
        (methodLines signatureOnly method).flatMap fun line => line.toList ++ newline)
      (missing.methods.flatMap fun method => allTokens (methodTrees signatureOnly method)) :=
    .flatMap fun method listed => reads_method isLineBreak signatureOnly (methods method listed)
  have all := (reads_separator isLineBreak needsSeparator).append (first.append second)
  rw [allTokens_append, allTokens_flatten, memberTrees, List.flatMap_append, List.flatMap_map,
    List.flatMap_map]
  simpa [block, Missing.lines, List.flatMap_append, List.flatMap_map, List.flatMap_assoc] using all

end

def isWritten (c : Char) : Bool :=
  isNamePart c || " ;,()\x7b\x7d/".toList.contains c

def Written (text : String) : Prop :=
  ∀ c ∈ text.toList, isWritten c = true

instance decidableWritten (text : String) : Decidable (Written text) :=
  inferInstanceAs (Decidable (∀ c ∈ text.toList, isWritten c = true))

/-- What the lines of members are put together from, besides names. -/
def fixedTexts : List String :=
  ["", " ", ";", ", ", "(", ")", " \x7b", indent, indent ++ ";", todo, bodyIndent ++ "return null;",
    indent ++ "\x7d"]

private theorem fixed_written : ∀ text ∈ fixedTexts, Written text := by decide +kernel

theorem Written.append {first second : String} (one : Written first) (two : Written second) :
    Written (first ++ second) := by
  intro c member
  rw [String.toList_append, List.mem_append] at member
  exact member.elim (one c) (two c)

private theorem written_word {name : String} (named : isIdentifier name = true) : Written name := by
  intro c member
  have part : isNamePart c = true := by
    simp only [isIdentifier] at named
    split at named
    next => simp at named
    next first more spelled =>
      simp only [Bool.and_eq_true, List.all_eq_true] at named
      rw [spelled] at member
      rcases List.mem_cons.mp member with rfl | member
      · exact namePart_of_nameStart named.1
      · exact named.2 c member
  simp [isWritten, part]

private theorem written_access (isPrivate : Bool) : Written (access isPrivate) :=
  written_word (access_identifier isPrivate)

private theorem written_field {field : Field} (spelled : SpelledField field) :
    Written (fieldText field) := by
  have blanks : Written indent := fixed_written _ (by simp [fixedTexts])
  have space : Written " " := fixed_written _ (by simp [fixedTexts])
  have ended : Written ";" := fixed_written _ (by simp [fixedTexts])
  exact ((((blanks.append (written_access _)).append space).append
    (written_word spelled.type)).append space).append (written_word spelled.name) |>.append ended

private theorem written_signature {method : Method} (spelled : SpelledMethod method) :
    Written (signature method) := by
  have blanks : Written indent := fixed_written _ (by simp [fixedTexts])
  have space : Written " " := fixed_written _ (by simp [fixedTexts])
  have opens : Written "(" := fixed_written _ (by simp [fixedTexts])
  have closes : Written ")" := fixed_written _ (by simp [fixedTexts])
  have parameters :
      Written (", ".intercalate (method.parameters.map fun p => p.type ++ " " ++ p.name)) := by
    intro c member
    rw [String.toList_intercalate] at member
    rcases JoinedTexts.mem_intercalate member with member | ⟨part, listed, member⟩
    · have comma : Written ", " := fixed_written _ (by simp [fixedTexts])
      exact comma c member
    · simp only [List.map_map, List.mem_map] at listed
      obtain ⟨p, own, rfl⟩ := listed
      obtain ⟨typed, named⟩ := spelled.parameters p own
      exact ((written_word typed).append space).append (written_word named) c member
  exact (((((blanks.append (written_access _)).append space).append
    (written_word spelled.returnType)).append space).append
    (written_word spelled.name) |>.append opens).append parameters |>.append closes

private theorem written_method (signatureOnly : Bool) {method : Method}
    (spelled : SpelledMethod method) : ∀ line ∈ methodLines signatureOnly method, Written line := by
  have start := written_signature spelled
  have nothing : Written "" := fixed_written _ (by simp [fixedTexts])
  intro line member
  cases signatureOnly with
  | true =>
    have ended : Written ";" := fixed_written _ (by simp [fixedTexts])
    simp only [methodLines, if_true, List.mem_cons, List.not_mem_nil, or_false] at member
    rcases member with rfl | rfl
    · exact nothing
    · exact start.append ended
  | false =>
    have opened : Written " \x7b" := fixed_written _ (by simp [fixedTexts])
    simp only [methodLines, Bool.false_eq_true, if_false, List.mem_append, List.mem_cons,
      List.not_mem_nil, or_false] at member
    rcases member with ((rfl | rfl | rfl) | member) | rfl
    · exact nothing
    · exact start.append opened
    · exact fixed_written _ (by simp [fixedTexts])
    · split at member
      · simp at member
      · exact fixed_written line (by simp_all [fixedTexts])
    · exact fixed_written _ (by simp [fixedTexts])

theorem written_lines {missing : Missing} (fields : ∀ field ∈ missing.fields, SpelledField field)
    (methods : ∀ method ∈ missing.methods, SpelledMethod method) (signatureOnly : Bool) :
    ∀ line ∈ missing.lines signatureOnly, Written line := by
  intro line member
  rcases List.mem_append.mp member with member | member
  · obtain ⟨field, listed, rfl⟩ := List.mem_map.mp member
    exact written_field (fields field listed)
  · obtain ⟨method, listed, own⟩ := List.mem_flatMap.mp member
    exact written_method signatureOnly (methods method listed) line own

/-- A block starts with a blank, if with anything. -/
theorem block_head {newline : List Char} (isLineBreak : IsLineBreak newline)
    (needsSeparator signatureOnly : Bool) (missing : Missing) :
    (block newline needsSeparator (missing.lines signatureOnly)).head? ≠ some '/' := by
  have indented : indent.toList = ' ' :: "   ".toList := by decide
  cases needsSeparator with
  | true => simp [block, indented]
  | false =>
    cases fields : missing.fields with
    | cons => simp [block, Missing.lines, fields, fieldText, indented]
    | nil =>
      cases methods : missing.methods with
      | nil => simp [block, Missing.lines, fields, methods]
      | cons method more =>
        rcases isLineBreak with rfl |
          rfl <;> cases signatureOnly <;> simp [block, Missing.lines, fields, methods, methodLines]

theorem block_noStar {newline : List Char} (isLineBreak : IsLineBreak newline)
    (needsSeparator : Bool) {lines : List String} (written : ∀ line ∈ lines, Written line) :
    '*' ∉ block newline needsSeparator lines := by
  intro member
  obtain ⟨line, listed, inside⟩ := List.mem_flatMap.mp member
  have separator : Written (indent ++ ";") := fixed_written _ (by simp [fixedTexts])
  have all : Written line := by
    rcases List.mem_append.mp listed with listed | listed
    · split at listed
      · exact List.mem_singleton.mp listed ▸ separator
      · simp at listed
    · exact written line listed
  rcases List.mem_append.mp inside with inside | inside
  · exact absurd (all '*' inside) (by decide +kernel)
  · rcases isLineBreak with rfl | rfl <;> simp at inside

end ClassDiagram.Proofs.GeneratedText
