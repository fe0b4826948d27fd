import ClassDiagram.Proofs.LastingHeadings
import ClassDiagram.Proofs.SharedMembers

/-! Sources of the same tokens declare the same types, whichever of the tokens touch. Two closing
angles that touch may be a shift in one source, and a word and the hyphen behind it a modifier,
where in the other source they are neither. Both sources are accepted, though, and that leaves
nothing of what a type declares to be read in another way. -/

namespace ClassDiagram.Proofs.TokenSpacing
open Java Java.Tree Java.Outline TokenTrees BareTrees BodyPieces TreeShapes GrownSources
  SharedReadings LastingHeadings SharedMembers
open List (Forall₂)

/-- An accepted source is a program, and its tokens tell what it declares. -/
theorem types_accepted {source : String} {types : List SourceType} {tokens : List Token}
    (accepted : sourceTypes? source = some types) (lexed : tokens? source.toList = some tokens) :
    ∃ trees, Tree.build derives [] [] tokens = some trees ∧
      areProgram [] (pieces false trees) = true ∧
      types = (pieces false trees).filterMap sourceType? := by
  simp only [sourceTypes?, trees?, lexed, Option.map_eq_some_iff, Option.bind_eq_bind,
    Option.bind_some, Option.bind_eq_some_iff] at accepted
  obtain ⟨trees, ⟨all, built, accepted⟩, rfl⟩ := accepted
  split at accepted
  next program =>
    obtain rfl := Option.some.inj accepted
    exact ⟨all, built, program, rfl⟩
  next => simp at accepted

/-- What stands between two types is the start of a program. -/
theorem run_derived {run : List Tree} {all : List (List Tree)}
    (accepted : areProgram run all = true) :
    ∃ behind, Java.derives .program (run ++ behind) = true := by
  induction all generalizing run with
  | nil => exact ⟨[], by simpa [areProgram] using accepted⟩
  | cons piece rest ih =>
    simp only [areProgram] at accepted
    cases start : heading? piece with
    | some heading =>
      rw [start] at accepted
      simp only [Bool.and_eq_true] at accepted
      exact ⟨[], by simpa using accepted.1.1⟩
    | none =>
      rw [start] at accepted
      obtain ⟨behind, derived⟩ := ih accepted
      exact ⟨piece ++ behind, by simpa using derived⟩

private theorem first_covered {run piece : List Tree} {rest : List (List Tree)}
    {heading : Kind × String × List Tree} (start : heading? piece = some heading)
    (accepted : areProgram run (piece :: rest) = true) :
    (declaration heading.1).covers Grammar.form piece = true :=
  @areProgram_covers run piece [] rest heading start accepted

structure IsPiece (piece : List Tree) : Prop where
  lexed : AllLexed piece
  well : AllWellBuilt piece

private theorem pieces_own {source : List Char} {tokens : List Token} {trees : List Tree}
    (lexed : tokens? source = some tokens) (built : Tree.build derives [] [] tokens = some trees) :
    ∀ piece ∈ pieces false trees, IsPiece piece := by
  intro piece listed
  exact ⟨pieces_lexed (trees_lexed lexed built) piece listed,
    piece_wellBuilt (build_wellBuilt built (by simp) trivial) listed⟩

/-- A piece that declares a type in the one source does so in the other. -/
theorem heading_shared {piece piece' run' : List Tree} {rest' : List (List Tree)}
    (same : Forall₂ SameShape piece piece') (own : IsPiece piece)
    (own' : IsPiece piece') {heading : Kind × String × List Tree}
    (covered : (declaration heading.1).covers Grammar.form piece = true)
    (accepted' : areProgram run' (piece' :: rest') = true) : (heading? piece').isSome = true := by
  cases start' : heading? piece' with
  | some => rfl
  | none =>
    simp only [areProgram, start'] at accepted'
    obtain ⟨behind, derived⟩ := run_derived accepted'
    exact start' ▸ heading_lasts same own.lexed own'.lexed covered derived

private theorem sourceType_headless {piece : List Tree} (none : heading? piece = none) :
    sourceType? piece = .none := by
  simp [sourceType?, none]

/-- Piece by piece both sources declare the same. -/
theorem declared_alike {all all' : List (List Tree)} (shapes : Forall₂ (Forall₂ SameShape) all all')
    {run run' : List Tree} (own : ∀ piece ∈ all, IsPiece piece)
    (own' : ∀ piece ∈ all', IsPiece piece) (accepted : areProgram run all = true)
    (accepted' : areProgram run' all' = true) :
    all.map (fun piece => (sourceType? piece).map SourceType.type) = all'.map fun piece =>
      (sourceType? piece).map SourceType.type := by
  induction shapes generalizing run run' with
  | nil => rfl
  | @cons piece piece' rest rest' same _ ih =>
    have first := own piece List.mem_cons_self
    have first' := own' piece' List.mem_cons_self
    have behind : ∀ {run run'}, areProgram run rest = true → areProgram run' rest' = true → _ :=
      ih (fun piece listed => own piece (List.mem_cons_of_mem _ listed)) fun piece listed =>
        own' piece (List.mem_cons_of_mem _ listed)
    cases start : heading? piece with
    | none =>
      cases start' : heading? piece' with
      | none =>
        simp only [areProgram, start, start'] at accepted accepted'
        rw [List.map_cons, List.map_cons, sourceType_headless start, sourceType_headless start',
          behind accepted accepted']
      | some heading' =>
        have lasts :=
          heading_shared (shapes_symm same) first' first (first_covered start' accepted') accepted
        simp [start] at lasts
    | some heading =>
      have covered := first_covered start accepted
      obtain ⟨heading', start'⟩ :=
        Option.isSome_iff_exists.mp (heading_shared same first first' covered accepted')
      have covered' := first_covered start' accepted'
      simp only [areProgram, start, start', Bool.and_eq_true] at accepted accepted'
      rw [List.map_cons, List.map_cons,
        sourceType_shared same first.lexed first'.lexed first.well first'.well start start'
        covered covered', behind accepted.2 accepted'.2]

/-- Two accepted sources whose tokens have the same kinds and texts declare the same types. -/
theorem spacing_is_invisible {first second : String} {types types' : List SourceType}
    {tokens tokens' : List Token} (accepted : sourceTypes? first = some types)
    (accepted' : sourceTypes? second = some types') (lexed : tokens? first.toList = some tokens)
    (lexed' : tokens? second.toList = some tokens')
    (same : tokens.map (fun t => (t.kind, t.text)) = tokens'.map fun t => (t.kind, t.text)) :
    types.map SourceType.type = types'.map SourceType.type := by
  obtain ⟨trees, built, program, rfl⟩ := types_accepted accepted lexed
  obtain ⟨trees', built', program', rfl⟩ := types_accepted accepted' lexed'
  have spelled : tokens.map shapeToken = tokens'.map shapeToken := by
    have shown : ∀ all : List Token, all.map shapeToken =
        (all.map fun t => (t.kind, t.text)).map fun seen =>
        ⟨seen.1, seen.2, 0, 0, false, false⟩ := by
      intro all
      rw [List.map_map]
      rfl
    rw [shown, shown, same]
  have shapes := pieces_shape (built_alike spelled built built')
  have all :=
    declared_alike shapes (pieces_own lexed built) (pieces_own lexed' built') program program'
  have found : ∀ all : List (List Tree), (all.filterMap sourceType?).map SourceType.type =
      (all.map fun piece => (sourceType? piece).map SourceType.type).filterMap id := by
    intro all
    rw [List.map_filterMap, List.filterMap_map]
    rfl
  rw [found, found, all]

def closeText : String :=
  "class Loom \x7b Map<String,List<Warp>> warps; \x7d"

def apartText : String :=
  "class Loom\n\x7b\n  Map < String, List<Warp /* of wool */ > > warps;\n\x7d\n"

theorem loom_respaced :
    ∃ types types' tokens tokens', sourceTypes? closeText = some types ∧
      sourceTypes? apartText = some types' ∧
    tokens? closeText.toList = some tokens ∧ tokens? apartText.toList = some tokens' ∧
    tokens.map (fun t => (t.kind, t.text)) = tokens'.map (fun t => (t.kind, t.text)) ∧
    types.map SourceType.type = types'.map SourceType.type := by
  have accepted : (sourceTypes? closeText).isSome = true := by decide +kernel
  have accepted' : (sourceTypes? apartText).isSome = true := by decide +kernel
  have lexed : (tokens? closeText.toList).isSome = true := by decide +kernel
  have lexed' : (tokens? apartText.toList).isSome = true := by decide +kernel
  have same : (tokens? closeText.toList).map (List.map fun t => (t.kind, t.text)) =
      (tokens? apartText.toList).map (List.map fun t => (t.kind, t.text)) := by decide +kernel
  obtain ⟨types, read⟩ := Option.isSome_iff_exists.mp accepted
  obtain ⟨types', read'⟩ := Option.isSome_iff_exists.mp accepted'
  obtain ⟨tokens, cut⟩ := Option.isSome_iff_exists.mp lexed
  obtain ⟨tokens', cut'⟩ := Option.isSome_iff_exists.mp lexed'
  rw [cut, cut'] at same
  have alike := Option.some.inj same
  exact ⟨types, types', tokens, tokens', read, read', cut, cut', alike,
    spacing_is_invisible read read' cut cut' alike⟩

end ClassDiagram.Proofs.TokenSpacing
