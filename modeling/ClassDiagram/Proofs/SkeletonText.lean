import ClassDiagram.Proofs.DottedNames
import ClassDiagram.Proofs.LocalReadings
import ClassDiagram.Proofs.MemberPlaces

/-! The text of a new file and the trees it stands for. The heading is written word by word, the
body line by line, and the whole is a single piece that its body ends. -/

namespace ClassDiagram.Proofs.SkeletonText
open Java Java.Tree TokenTrees BareTrees BodyPieces ScannedText GeneratedText PlainReadings
  GeneratedMembers DottedNames MemberPlaces

/-- All names of a class are plain, those of its supertypes part by part. -/
structure PlainClass (c : Class) : Prop where
  name : IsPlainName c.name
  superclass : ∀ name ∈ c.superclass, IsDottedName name
  interfaces : ∀ name ∈ c.interfaces, IsDottedName name
  constants : ∀ constant ∈ c.constants, IsPlainName constant
  members : PlainMembers c.fields c.methods

instance decidablePlainClass (c : Class) : Decidable (PlainClass c) :=
  decidable_of_iff (IsPlainName c.name ∧ (∀ name ∈ c.superclass, IsDottedName name) ∧
      (∀ name ∈ c.interfaces, IsDottedName name) ∧
      (∀ constant ∈ c.constants, IsPlainName constant) ∧ PlainMembers c.fields c.methods)
    ⟨fun ⟨name, superclass, interfaces, constants, members⟩ =>
      ⟨name, superclass, interfaces, constants, members⟩,
      fun plain => ⟨plain.name, plain.superclass, plain.interfaces, plain.constants, plain.members⟩⟩

def modifiersOf (c : Class) : List String :=
  "public" :: if c.isAbstract then ["abstract"] else []

def extendsTrees : Option String → List Tree
  | none => []
  | some name => wordTree "extends" :: supertypeTrees name

def implementsTrees : List String → List Tree
  | [] => []
  | first :: more => wordTree "implements" :: supertypesTrees first more

def clauseTrees (c : Class) : List Tree :=
  extendsTrees c.superclass ++ implementsTrees c.interfaces

def headTrees (c : Class) : List Tree :=
  (modifiersOf c).map wordTree ++ wordTree (kindText c.kind) :: wordTree c.name :: clauseTrees c

def callTrees (name : String) : List Tree :=
  [wordTree name, region .paren "(" ")" []]

/-- Constants through the semicolon behind the last one. -/
def constantTrees : List String → List Tree
  | [] => []
  | first :: more => callTrees first ++ (commaTrees callTrees more ++ [symbolTree ";"])

def constructorTrees (c : Class) : List Tree :=
  if c.isEnum then callTrees c.name ++ [region .brace "\x7b" "\x7d" []] else []

def memberPieces (c : Class) : List (List Tree) :=
  c.fields.map fieldTrees ++
    ((if c.isEnum then [constructorTrees c] else []) ++ c.methods.map (methodTrees c.isInterface))

def insideTrees (c : Class) : List Tree :=
  constantTrees c.constants ++ (memberPieces c).flatten

def skeletonTrees (c : Class) : List Tree :=
  headTrees c ++ [region .brace "\x7b" "\x7d" (insideTrees c)]

private theorem endedLines {lines : List String} (some : lines ≠ []) :
    ("\n".intercalate lines ++ "\n").toList = lines.flatMap fun line => line.toList ++ ['\n'] := by
  induction lines with
  | nil => exact absurd rfl some
  | cons line lines ih =>
    cases lines with
    | nil => simp
    | cons next lines =>
      have rest := ih (by simp)
      rw [String.toList_append] at rest ⊢
      rw [intercalate_cons, List.flatMap_cons, ← rest]
      simp

def extendsText : Option String → String
  | none => ""
  | some name => " extends " ++ name

def implementsText : List String → String
  | [] => ""
  | first :: more => " implements " ++ ", ".intercalate (first :: more)

def clauseText (c : Class) : List Char :=
  (extendsText c.superclass).toList ++ ((implementsText c.interfaces).toList ++ [' '])

def headText (c : Class) : List Char :=
  ("public" ++ (if c.isAbstract then " abstract " else " ") ++ kindText c.kind ++ " " ++
    c.name).toList ++ clauseText c

private theorem declaration_spelled (c : Class) : (declaration c).toList = headText c ++ ['{'] := by
  obtain ⟨name, kind, isAbstract, superclass, interfaces, fields, methods, constants, contained⟩ :=
    c
  cases superclass <;> cases interfaces <;>
    simp [declaration, headText, clauseText, extendsText, implementsText]

section
variable {c : Class} (plain : PlainClass c)
include plain

private theorem reads_clauses :
    ∃ text, clauseText c = ' ' :: text ∧ Reads (' ' :: text) (allTokens (clauseTrees c)) := by
  have space : Reads [' '] [] := .blank (by decide)
  have behind : ∃ text, (implementsText c.interfaces).toList ++ [' '] = ' ' :: text ∧
      Reads (' ' :: text) (allTokens (implementsTrees c.interfaces)) := by
    cases shape : c.interfaces with
    | nil => exact ⟨[], rfl, space⟩
    | cons first more =>
      have dotted : ∀ name ∈ first :: more, IsDottedName name :=
        fun name member => plain.interfaces name (shape ▸ member)
      have word : Reads ("implements".toList ++ [' ']) [wordToken "implements"] :=
        reads_word_space (by decide +kernel)
      have all := (space.append word).append (reads_supertypes dotted (by decide) space)
      exact ⟨"implements ".toList ++ ((", ".intercalate (first :: more)).toList ++ [' ']),
        by simp [implementsText],
        by simpa [implementsTrees, allTokens, tokensOf, wordTree] using all⟩
  obtain ⟨text, spelled, read⟩ := behind
  simp only [clauseText, clauseTrees, spelled]
  cases shape : c.superclass with
  | none => exact ⟨text, rfl, read⟩
  | some name =>
    have word : Reads ("extends".toList ++ [' ']) [wordToken "extends"] :=
      reads_word_space (by decide +kernel)
    have all :=
      (space.append word).append (reads_supertype (plain.superclass name shape) (by decide) read)
    exact ⟨"extends ".toList ++ (name.toList ++ ' ' :: text), by simp [extendsText],
      by simpa [extendsTrees, allTokens, tokensOf, wordTree] using all⟩

/-- The heading of a type, through the blank before its body. -/
theorem reads_head : Reads (headText c) (allTokens (headTrees c)) := by
  have access : Reads ("public".toList ++ [' ']) [wordToken "public"] :=
    reads_word_space (by decide +kernel)
  have modified :
      Reads (if c.isAbstract then "abstract".toList ++ [' '] else [])
      (if c.isAbstract then [wordToken "abstract"] else []) := by
    split
    · exact reads_word_space (by decide +kernel)
    · exact .nil
  have kind : Reads ((kindText c.kind).toList ++ [' ']) [wordToken (kindText c.kind)] := by
    cases c.kind with
    | plain => exact reads_word_space (by decide +kernel)
    | interface => exact reads_word_space (by decide +kernel)
    | enum => exact reads_word_space (by decide +kernel)
  obtain ⟨text, spelled, read⟩ := reads_clauses plain
  have named := Reads.word plain.name.identifier (by decide) read
  have all := ((access.append modified).append kind).append named
  rw [headText, spelled]
  cases abstract' : c.isAbstract with
  | true => simpa [abstract', headTrees, modifiersOf, allTokens, tokensOf, wordTree] using all
  | false => simpa [abstract', headTrees, modifiersOf, allTokens, tokensOf, wordTree] using all

omit plain in
private theorem reads_call {name : String} (named : isIdentifier name = true) :
    Reads (name.toList ++ ['(', ')']) (allTokens (callTrees name)) := by
  have call : Reads ['(', ')'] [openingToken .paren "(", closingToken .paren ")"] :=
    Reads.opening.append .closing
  simpa [callTrees, allTokens, tokensOf, region, wordTree] using Reads.word named (by decide) call

private theorem reads_constants :
    Reads ((constantLines c.constants).flatMap fun line => line.toList ++ ['\n'])
      (allTokens (constantTrees c.constants)) := by
  have plain := plain.constants
  generalize c.constants = constants at plain
  have blanks : Reads indent.toList [] := .blanks (by decide)
  have feed : Reads ['\n'] [] := .blank (by decide)
  cases constants with
  | nil => exact .nil
  | cons first more =>
    induction more generalizing first with
    | nil =>
      have semicolon : Reads [';'] [symbolToken ";"] := .symbol (by decide)
      have all :=
        (((blanks.append (reads_call (plain first (by simp)).identifier)).append semicolon).append
          feed).append feed
      simpa [constantLines, constantTrees, commaTrees, allTokens, tokensOf, symbolTree] using all
    | cons second more ih =>
      have comma : Reads [','] [symbolToken ","] := .symbol (by decide)
      have own :=
        ((blanks.append (reads_call (plain first (by simp)).identifier)).append comma).append feed
      have rest := ih second fun name member => plain name (List.mem_cons_of_mem first member)
      simpa [constantLines, constantTrees, commaTrees, allTokens, tokensOf, symbolTree]
        using own.append rest

private theorem reads_constructor :
    Reads ((enumConstructor c).flatMap fun line => line.toList ++ ['\n'])
      (allTokens (constructorTrees c)) := by
  cases enum : c.isEnum with
  | false => simpa [enumConstructor, constructorTrees, enum, allTokens] using Reads.nil
  | true =>
    have feed : Reads ['\n'] [] := .blank (by decide)
    have blanks : Reads indent.toList [] := .blanks (by decide)
    have blank : Reads [' '] [] := .blank (by decide)
    have start := ((feed.append blanks).append (reads_call plain.name.identifier)).append blank
    have inside := (feed.append (reads_todo (Or.inl rfl))).append blanks
    have all := (start.append inside.braces).append feed
    simpa [enumConstructor, constructorTrees, enum, allTokens, tokensOf, region] using all

/-- The lines of a body are read as its trees. -/
theorem reads_inside :
    Reads ((constantLines c.constants ++ c.fields.map fieldText ++ enumConstructor c ++
    c.methods.flatMap (methodLines c.isInterface)).flatMap fun line => line.toList ++ ['\n'])
      (allTokens (insideTrees c)) := by
  have fields :
      Reads (c.fields.flatMap fun field => (fieldText field).toList ++ ['\n'])
      (c.fields.flatMap fun field => allTokens (fieldTrees field)) :=
    .flatMap fun field listed =>
      reads_field (Or.inl rfl) (plain.members.fields field listed).spelled.type
        (plain.members.fields field listed).spelled.name
  have methods :
      Reads (c.methods.flatMap fun method =>
        (methodLines c.isInterface method).flatMap fun line => line.toList ++ ['\n'])
      (c.methods.flatMap fun method => allTokens (methodTrees c.isInterface method)) :=
    .flatMap fun method listed =>
      reads_method (Or.inl rfl) c.isInterface (plain.members.methods method listed).spelled
  have all :=
    (((reads_constants plain).append fields).append (reads_constructor plain)).append methods
  have constructor : allTokens (if c.isEnum then [constructorTrees c] else []).flatten =
      allTokens (constructorTrees c) := by
    cases enum : c.isEnum with
    | false => simp [constructorTrees, enum]
    | true => simp
  have tokens : allTokens (insideTrees c) =
      allTokens (constantTrees c.constants) ++
      (c.fields.flatMap fun field => allTokens (fieldTrees field)) ++
      allTokens (constructorTrees c) ++ c.methods.flatMap fun method =>
        allTokens (methodTrees c.isInterface method) := by
    rw [insideTrees, memberPieces, List.flatten_append, List.flatten_append, allTokens_append,
      allTokens_append, allTokens_append, constructor,
      allTokens_flatten, allTokens_flatten, List.flatMap_map, List.flatMap_map]
    simp
  rw [tokens]
  simpa [List.flatMap_append, List.flatMap_map, List.flatMap_assoc] using all

private theorem reads_skeleton : Reads (skeletonText c).toList (allTokens (skeletonTrees c)) := by
  have feed : Reads ['\n'] [] := .blank (by decide)
  have body := ((feed.append feed).append (reads_inside plain)).braces
  have all := ((reads_head plain).append body).append feed
  rw [skeletonText, endedLines (by simp [skeleton])]
  simpa [skeleton, declaration_spelled, skeletonTrees, allTokens, tokensOf, region] using all

end

def IsHeadTree (t : Tree) : Prop :=
  (∃ text, t = wordTree text) ∨ t = symbolTree "." ∨ t = symbolTree ","

private theorem chain_headTree {name : String} : ∀ t ∈ supertypeTrees name, IsHeadTree t := by
  obtain ⟨first, more, parts, _⟩ := nameParts_cons name
  rw [supertypeTrees_eq parts]
  intro t member
  rcases List.mem_cons.mp member with rfl | member
  · exact Or.inl ⟨first, rfl⟩
  · obtain ⟨part, _, inside⟩ := List.mem_flatMap.mp member
    simp only [List.mem_cons, List.not_mem_nil, or_false] at inside
    rcases inside with rfl | rfl
    · exact Or.inr (Or.inl rfl)
    · exact Or.inl ⟨part, rfl⟩

private theorem clause_headTree (c : Class) : ∀ t ∈ clauseTrees c, IsHeadTree t := by
  intro t member
  rcases List.mem_append.mp member with member | member
  · cases shape : c.superclass with
    | none => simp [shape, extendsTrees] at member
    | some name =>
      rw [shape] at member
      rcases List.mem_cons.mp member with rfl | member
      · exact Or.inl ⟨_, rfl⟩
      · exact chain_headTree t member
  · cases shape : c.interfaces with
    | nil => simp [shape, implementsTrees] at member
    | cons first more =>
      rw [shape] at member
      rcases List.mem_cons.mp member with rfl | member
      · exact Or.inl ⟨_, rfl⟩
      · rcases List.mem_append.mp member with member | member
        · exact chain_headTree t member
        · obtain ⟨name, _, inside⟩ := List.mem_flatMap.mp member
          rcases List.mem_cons.mp inside with rfl | inside
          · exact Or.inr (Or.inr rfl)
          · exact chain_headTree t inside

private theorem head_headTree (c : Class) : ∀ t ∈ headTrees c, IsHeadTree t := by
  intro t member
  rcases List.mem_append.mp member with member | member
  · obtain ⟨text, _, rfl⟩ := List.mem_map.mp member
    exact Or.inl ⟨text, rfl⟩
  · rcases List.mem_cons.mp member with rfl | member
    · exact Or.inl ⟨_, rfl⟩
    · rcases List.mem_cons.mp member with rfl | member
      · exact Or.inl ⟨_, rfl⟩
      · exact clause_headTree c t member

theorem IsHeadTree.wellBuilt {t : Tree} (isHead : IsHeadTree t) : WellBuilt t := by
  rcases isHead with ⟨text, rfl⟩ | rfl | rfl
  · exact wordTree_wellBuilt text
  · exact symbolTree_wellBuilt "."
  · exact symbolTree_wellBuilt ","

theorem IsHeadTree.open {t : Tree} (isHead : IsHeadTree t) :
    t.isSymbol ";" = false ∧ t.isBraces = false ∧ t.isSymbol "=" = false := by
  rcases isHead with ⟨text, rfl⟩ | rfl | rfl
  · exact ⟨rfl, rfl, rfl⟩
  · decide
  · decide

theorem skeleton_piece (c : Class) : pieces false (skeletonTrees c) = [skeletonTrees c] := by
  have closed : closes false (skeletonTrees c) = true :=
    LocalReadings.closes_quiet (fun t member => (head_headTree c t member).open) false
      [region .brace "\x7b" "\x7d" (insideTrees c)]
  simpa [pieces] using pieces_closed closed []

private theorem callTrees_wellBuilt (name : String) : AllWellBuilt (callTrees name) :=
  ⟨wordTree_wellBuilt name, region_wellBuilt trivial, trivial⟩

private theorem constantTrees_wellBuilt (constants : List String) :
    AllWellBuilt (constantTrees constants) := by
  rw [allWellBuilt_iff]
  intro t member
  cases constants with
  | nil => simp [constantTrees] at member
  | cons first more =>
    rcases List.mem_append.mp member with member | member
    · exact allWellBuilt_iff.mp (callTrees_wellBuilt first) t member
    · rcases List.mem_append.mp member with member | member
      · obtain ⟨name, _, inside⟩ := List.mem_flatMap.mp member
        rcases List.mem_cons.mp inside with rfl | inside
        · exact symbolTree_wellBuilt ","
        · exact allWellBuilt_iff.mp (callTrees_wellBuilt name) t inside
      · exact List.mem_singleton.mp member ▸ symbolTree_wellBuilt ";"

private theorem constructorTrees_wellBuilt (c : Class) : AllWellBuilt (constructorTrees c) := by
  simp only [constructorTrees]
  split
  · exact ⟨wordTree_wellBuilt c.name, region_wellBuilt trivial, region_wellBuilt trivial, trivial⟩
  · trivial

theorem skeletonTrees_wellBuilt (c : Class) : AllWellBuilt (skeletonTrees c) := by
  have members := allWellBuilt_iff.mp (memberTrees_wellBuilt c.isInterface ⟨c.fields, c.methods⟩)
  have inside : AllWellBuilt (insideTrees c) := by
    rw [allWellBuilt_iff]
    intro t member
    rcases List.mem_append.mp member with member | member
    · exact allWellBuilt_iff.mp (constantTrees_wellBuilt c.constants) t member
    · obtain ⟨piece, listed, own⟩ := List.mem_flatten.mp member
      rcases List.mem_append.mp listed with listed | listed
      · exact members t (List.mem_flatten.mpr ⟨piece, List.mem_append_left _ listed, own⟩)
      · rcases List.mem_append.mp listed with listed | listed
        · split at listed
          · exact allWellBuilt_iff.mp (constructorTrees_wellBuilt c) t
              (List.mem_singleton.mp listed ▸ own)
          · simp at listed
        · exact members t (List.mem_flatten.mpr ⟨piece, List.mem_append_right _ listed, own⟩)
  rw [allWellBuilt_iff]
  intro t member
  rcases List.mem_append.mp member with member | member
  · exact (head_headTree c t member).wellBuilt
  · exact List.mem_singleton.mp member ▸ region_wellBuilt inside

theorem skeleton_tokens {c : Class} (plain : PlainClass c) :
    ∃ tokens, tokens? (skeletonText c).toList = some tokens ∧
    tokens.map bareToken = (allTokens (skeletonTrees c)).map bareToken := by
  have read := reads_skeleton plain [] [] rfl
  have unmarked : (skeletonText c).toList.head? ≠ some '\ufeff' := by
    have start : (skeletonText c).toList = 'p' :: (skeletonText c).toList.tail := by
      rw [skeletonText, endedLines (by simp [skeleton])]
      simp [skeleton, declaration_spelled, headText]
    rw [start]
    simp
  rw [List.append_nil, scan, ← SplicedText.tokens_unmarked unmarked] at read
  obtain ⟨tokens, lexed, same⟩ := Option.map_eq_some_iff.mp (read.trans (by rfl))
  refine ⟨tokens, lexed, ?_⟩
  rw [(reads_skeleton plain).bare]
  simpa using same

/-- What the text of a new file declares, if the trees are accepted. -/
theorem skeleton_types {c : Class} (plain : PlainClass c) : ∃ types : List SourceType,
    types.map SourceType.type =
      ([skeletonTrees c].filterMap Outline.sourceType?).map SourceType.type ∧
      sourceTypes? (skeletonText c) = if Outline.areProgram [] [skeletonTrees c] then some types
      else none := by
  obtain ⟨tokens, lexed, same⟩ := skeleton_tokens plain
  rw [← skeleton_piece c]
  exact GrownSources.types_placed (skeletonTrees_wellBuilt c) lexed same

end ClassDiagram.Proofs.SkeletonText
