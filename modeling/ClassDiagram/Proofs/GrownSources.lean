import ClassDiagram.Proofs.GeneratedMembers
import ClassDiagram.Proofs.SplicedText

/-! Sources in which one body has grown. What stands outside the body is read as before, the type
keeps its heading, and the source stays accepted if the body does. -/

namespace ClassDiagram.Proofs.GrownSources
open Java Java.Tree Java.Outline Likeness Remainders OutlineLikeness TokenTrees BareTrees BodyPieces
  SourceCuts ScannedText GeneratedText
  SplicedText
open List (Forall₂)

private theorem braces_symbol {tree : Tree} (braces : tree.isBraces = true) (text : String) :
    tree.isSymbol text = false := by
  cases tree with
  | leaf => simp [isBraces] at braces
  | group => rfl

theorem pieces_nonempty {assigned : Bool} {trees : List Tree} {more : List (List Tree)} :
    pieces assigned trees ≠ [] :: more := by
  intro cut
  have single := (pieces_cons cut).1
  simp [pieces] at single

section
variable {old new : Tree} (braces : old.isBraces = true) (braces' : new.isBraces = true)
include braces braces'

/-- Pieces stay what they are if the braces that end one of them get another inside. -/
theorem pieces_replaced {assigned : Bool} {trees front : List Tree}
    {earlier later : List (List Tree)}
    (cut : pieces assigned trees = earlier ++ (front ++ [old]) :: later) :
    pieces assigned (earlier.flatten ++ (front ++ new :: later.flatten)) =
      earlier ++ (front ++ [new]) :: later := by
  have ends : ∀ assigned, (new.isSymbol ";" || (new.isBraces && !assigned)) =
      (old.isSymbol ";" || (old.isBraces && !assigned)) := by
    simp [braces, braces', braces_symbol]
  induction trees generalizing assigned earlier front with
  | nil => simp [pieces] at cut
  | cons t rest ih =>
    rw [pieces] at cut
    split at cut
    next isEnd =>
      cases earlier with
      | nil =>
        obtain ⟨first, rfl⟩ := List.cons.inj cut
        obtain ⟨rfl, rfl⟩ : front = [] ∧ t = old := by
          cases front with
          | nil => exact ⟨rfl, by simpa using first⟩
          | cons => simp at first
        simp only [List.flatten_nil, List.nil_append, pieces_flatten]
        rw [pieces, if_pos ((ends assigned).trans isEnd)]
      | cons piece earlier =>
        obtain ⟨rfl, behind⟩ := List.cons.inj cut
        have next := ih behind
        simp only [List.flatten_cons, List.cons_append, List.nil_append]
        rw [pieces, if_pos isEnd, next]
    next inner =>
      split at cut
      next first others here =>
        cases earlier with
        | nil =>
          obtain ⟨piece, rfl⟩ := List.cons.inj cut
          cases front with
          | nil =>
            obtain ⟨_, rfl⟩ := List.cons.inj piece
            exact absurd here pieces_nonempty
          | cons u front =>
            obtain ⟨rfl, rfl⟩ := List.cons.inj piece
            have next := @ih _ front [] here
            simp only [List.flatten_nil, List.nil_append, List.cons_append] at next ⊢
            rw [pieces, if_neg inner, next]
        | cons piece earlier =>
          obtain ⟨rfl, rfl⟩ := List.cons.inj cut
          have next := @ih _ front (first :: earlier) here
          simp only [List.flatten_cons, List.cons_append, List.append_assoc] at next ⊢
          rw [pieces, if_neg inner, next]
      next here =>
        obtain ⟨rfl, rfl, rfl, rfl⟩ : earlier = [] ∧ front = [] ∧ t = old ∧ later = [] := by
          cases earlier with
          | nil =>
            cases front with
            | nil => simpa using cut
            | cons => simp at cut
          | cons => simp at cut
        have same : ¬(new.isSymbol ";" || (new.isBraces && !assigned)) = true := by rwa [ends]
        simp only [List.flatten_nil, List.nil_append]
        rw [pieces, if_neg same]
        rfl

end

/-- The same tree, or the same region with another inside that the given rules do not tell from
it. -/
def Regrown (seen : Rule → Bool) (first second : Tree) : Prop :=
  first = second ∨ ∃ rules rules' opening closing inside inside', first =
    .group .brace rules opening closing inside ∧
    second = .group .brace rules' opening closing inside' ∧ ∀ rule, seen rule = true →
    rules.contains rule = rules'.contains rule

def spares (seen : Rule → Bool) : Form → Bool
  | .inside .brace rule => seen rule
  | _ => true

private theorem regrown_veiled (seen : Rule → Bool) :
    Veiled (Regrown seen) (spares seen) typeRules := by
  refine ⟨⟨?_, ?_⟩, ?_, ?_⟩
  · rintro first second (rfl |
      ⟨rules, rules', opening, closing, inside, inside', rfl, rfl, same⟩) atom spared
    · rfl
    · cases atom with
      | inside bracket rule =>
        by_cases brace : bracket = .brace
        · subst brace
          simpa [takes] using same rule spared
        · have other : ¬Bracket.brace = bracket := fun same => brace same.symm
          simp [takes, other]
      | _ => rfl
  · intro rule called
    cases rule with
    | tag => rfl
    | typeArguments => rfl
    | _ => simp [typeRules] at called
  · rintro first second (rfl | ⟨_, _, _, _, _, _, rfl, rfl, _⟩)
    · exact ⟨rfl, fun _ => rfl, rfl, rfl⟩
    · exact ⟨rfl, fun _ => rfl, rfl, rfl⟩
  · intro form listed
    simp only [headerForms, List.mem_cons, List.not_mem_nil, or_false] at listed
    rcases listed with rfl | rfl | rfl | rfl
    all_goals rfl

private theorem regrown_last {seen : Rule → Bool} {rules rules' : List Rule}
    (same : ∀ rule, seen rule = true → rules.contains rule = rules'.contains rule)
    (front : List Tree) (opening closing : Token) (inside inside' : List Tree) :
    Forall₂ (Regrown seen) (front ++ [.group .brace rules opening closing inside])
      (front ++ [.group .brace rules' opening closing inside']) := by
  have start : Forall₂ (Regrown seen) front front := List.forall₂_same.mpr fun _ _ => Or.inl rfl
  have last :
      Regrown seen (.group .brace rules opening closing inside)
      (.group .brace rules' opening closing inside') :=
    Or.inr ⟨_, _, _, _, _, _, rfl, rfl, same⟩
  exact List.rel_append start (.cons last .nil)

/-- The class that the heading of a piece stands for, before its body is read. -/
def headingClass (piece : List Tree) (heading : Kind × String × List Tree) : Class :=
  header heading.1 (hasModifier "abstract" (before (after Grammar.ownModifiers piece) piece))
    heading.2.1 heading.2.2

theorem headingClass_kind (piece : List Tree) (heading : Kind × String × List Tree) :
    (headingClass piece heading).kind = heading.1 := by
  simp only [headingClass, header]
  split
  · simp_all
  · rfl

/-- A piece that declares a type: its heading, and the body that it ends with. -/
theorem sourceType_cases {piece : List Tree} {found : SourceType}
    (declared : sourceType? piece = some found) :
    ∃ front rules opening closing inside heading, piece =
      front ++ [.group .brace rules opening closing inside] ∧
      heading? piece = some heading ∧
      found = bodyType (headingClass piece heading) opening.stop inside := by
  simp only [sourceType?] at declared
  split at declared
  next kind name more rules opening closing inside heading last =>
    obtain ⟨front, rfl⟩ := List.getLast?_eq_some_iff.mp last
    exact ⟨front, rules, opening, closing, inside, _, rfl, heading, (Option.some.inj declared).symm⟩
  next => simp at declared

theorem sourceType_of {front inside : List Tree} {rules : List Rule} {opening closing : Token}
    {heading : Kind × String × List Tree}
    (found : heading? (front ++ [.group .brace rules opening closing inside]) = some heading) :
    sourceType? (front ++ [.group .brace rules opening closing inside]) =
      some (bodyType (headingClass (front ++ [.group .brace rules opening closing inside]) heading)
        opening.stop inside) := by
  obtain ⟨kind, name, more⟩ := heading
  simp only [sourceType?, found, List.getLast?_append_cons, List.getLast?_singleton]
  rfl

/-- With another body a piece keeps its heading. -/
theorem heading_regrown {seen : Rule → Bool} {piece piece' : List Tree}
    (like : Forall₂ (Regrown seen) piece piece') {heading : Kind × String × List Tree}
    (found : heading? piece = some heading) :
    ∃ heading', heading? piece' = some heading' ∧ heading'.1 = heading.1 ∧
      headingClass piece' heading' = headingClass piece heading := by
  have veiled := regrown_veiled seen
  have related := heading_like veiled like
  rw [found] at related
  cases there : heading? piece' with
  | none =>
    rw [there] at related
    cases related
  | some heading' =>
    rw [there] at related
    cases related with
    | some same =>
      obtain ⟨kind, name, behind⟩ := same
      refine ⟨heading', rfl, kind.symm, ?_⟩
      simp only [headingClass, isModified_like veiled "abstract" like, kind, name,
        header_like veiled _ _ _ behind]

def bodyRule : Kind → Rule
  | .plain => .classBody
  | .interface => .interfaceBody
  | .enum => .enumBody

def isBodyOf (kind : Kind) : Form → Bool
  | .inside .brace rule => rule == bodyRule kind
  | _ => false

theorem bodyOf_taken {kind : Kind} {atom : Form} {tree : Tree} (body : isBodyOf kind atom = true)
    (taken : takes atom tree = true) : takes (.inside .brace (bodyRule kind)) tree = true := by
  simp only [isBodyOf] at body
  split at body
  · rwa [← beq_iff_eq.mp body]
  · simp at body

private theorem declaration_built (kind : Kind) :
    builtFrom (spares (· == bodyRule kind)) typeRules (declaration kind) = true := by
  cases kind <;> decide +kernel

theorem declaration_ended (kind : Kind) : endsWith (isBodyOf kind) (declaration kind) = true := by
  cases kind <;> decide +kernel

theorem covers_mem {form : Form} {trees : List Tree} :
    form.covers Grammar.form trees = true ↔ [] ∈ Form.remainders Grammar.form form trees := by
  simp [Form.covers, List.isEmpty_iff]

/-- A declaration ends with a body that its own rule derives. -/
theorem declaration_body {kind : Kind} {front : List Tree} {last : Tree}
    (covered : (declaration kind).covers Grammar.form (front ++ [last]) = true) :
    takes (.inside .brace (bodyRule kind)) last = true := by
  obtain ⟨before, tree, whole, atom, body, taken⟩ :=
    endsBy_last (ends_tidy Grammar.form _) (declaration_ended kind) (covers_mem.mp covered)
  obtain rfl : last = tree := by
    have same := congrArg List.getLast? whole
    simpa using same
  exact bodyOf_taken body taken

private theorem areProgram_regrown {run piece piece' : List Tree} {earlier later : List (List Tree)}
    {heading heading' : Kind × String × List Tree} (found : heading? piece = some heading)
    (found' : heading? piece' = some heading') (kind : heading'.1 = heading.1)
    (covered : (declaration heading.1).covers Grammar.form piece = true →
      (declaration heading.1).covers Grammar.form piece' = true)
    (accepted : areProgram run (earlier ++ piece :: later) = true) :
    areProgram run (earlier ++ piece' :: later) = true := by
  induction earlier generalizing run with
  | nil =>
    obtain ⟨_, _, _⟩ := heading
    obtain ⟨_, _, _⟩ := heading'
    simp only at kind covered
    simp only [List.nil_append, areProgram, found, found', Bool.and_eq_true] at accepted ⊢
    rw [kind]
    exact ⟨⟨accepted.1.1, covered accepted.1.2⟩, accepted.2⟩
  | cons first earlier ih =>
    simp only [List.cons_append, areProgram] at accepted ⊢
    cases start : heading? first with
    | none =>
      rw [start] at accepted
      exact ih accepted
    | some heading =>
      rw [start] at accepted
      simp only [Bool.and_eq_true] at accepted ⊢
      exact ⟨accepted.1, ih accepted.2⟩

theorem areProgram_covers {run piece : List Tree} {earlier later : List (List Tree)}
    {heading : Kind × String × List Tree} (found : heading? piece = some heading)
    (accepted : areProgram run (earlier ++ piece :: later) = true) :
    (declaration heading.1).covers Grammar.form piece = true := by
  induction earlier generalizing run with
  | nil =>
    simp only [List.nil_append, areProgram, found, Bool.and_eq_true] at accepted
    exact accepted.1.2
  | cons first earlier ih =>
    simp only [List.cons_append, areProgram] at accepted
    split at accepted
    · simp only [Bool.and_eq_true] at accepted
      exact ih accepted.2
    · exact ih accepted

/-- A type that an accepted source declares, and the piece of the source that does. -/
structure DeclaredIn (source : String) (found : SourceType) (trees : List Tree)
    (earlier : List (List Tree)) (piece : List Tree) (later : List (List Tree)) : Prop where
  read : trees? source = some trees
  lexed : tokens? source.toList = some (allTokens trees)
  well : AllWellBuilt trees
  cut : pieces false trees = earlier ++ piece :: later
  declared : sourceType? piece = some found
  covered : ∀ heading, heading? piece = some heading →
    (declaration heading.1).covers Grammar.form piece = true

theorem exists_declaredIn {source : String} {types : List SourceType}
    (accepted : sourceTypes? source = some types) {found : SourceType}
    (listed : found ∈ types) :
    ∃ trees earlier piece later, DeclaredIn source found trees earlier piece later := by
  obtain ⟨trees, read, rfl⟩ := Option.map_eq_some_iff.mp accepted
  obtain ⟨piece, member, declared⟩ := List.mem_filterMap.mp listed
  obtain ⟨earlier, later, cut⟩ := List.append_of_mem member
  have parts := read
  simp only [trees?, Option.bind_eq_bind, Option.bind_eq_some_iff] at parts
  obtain ⟨tokens, lexed, all, built, program⟩ := parts
  split at program
  next isProgram =>
    obtain rfl := Option.some.inj program
    have spelled : allTokens all = tokens := by
      simpa [framesTokens, allTokens] using build_allTokens built
    exact ⟨all, earlier, piece, later, read, by rw [lexed, spelled],
      build_wellBuilt built (by simp) trivial, cut, declared,
      fun heading starts => areProgram_covers starts (cut ▸ isProgram)⟩
  next => simp at program

private theorem constantName_bare {trees trees' : List Tree}
    (like : Forall₂ SameBare trees trees') : constantName? trees = constantName? trees' :=
  head_word (BareTrees.hidden.twins (after_like BareTrees.hidden.toBlind (builtFrom_all _) like))

private theorem addMembers_bare (c : Class) {trees trees' : List Tree}
    (like : Forall₂ SameBare trees trees') :
    addMembers c (pieces false trees) = addMembers c (pieces false trees') := by
  simp only [addMembers, members_bare (pieces_bare like)]

private theorem enumType_bare (c : Class) (opening opening' : Nat) {trees trees' : List Tree}
    (like : Forall₂ SameBare trees trees') :
    (enumType c opening trees).type = (enumType c opening' trees').type := by
  obtain ⟨first, rest⟩ := cut_like (fun _ _ same => same.twin) like ";"
  have constants :=
    filterMap_like constantName_bare
      (partsOf_like BareTrees.hidden (builtFrom_all Grammar.enumConstant) first)
  simp only [enumType, constants]
  generalize trees.dropWhile (!·.isSymbol ";") = here,
    trees'.dropWhile (!·.isSymbol ";") = there at rest
  cases rest with
  | nil => rfl
  | cons _ more => simp only [addMembers_bare _ more]

private theorem bodyType_bare (c : Class) (opening opening' : Nat) {trees trees' : List Tree}
    (like : Forall₂ SameBare trees trees') :
    (bodyType c opening trees).type = (bodyType c opening' trees').type := by
  simp only [bodyType]
  cases c.kind with
  | plain => simp only [addMembers_bare c like]
  | interface => simp only [addMembers_bare c like]
  | enum => exact enumType_bare c opening opening' like

theorem last_like {R : Tree → Tree → Prop} {trees trees' : List Tree}
    (like : Forall₂ R trees trees') : Option.Rel R trees.getLast? trees'.getLast? := by
  have backwards : Forall₂ R trees.reverse trees'.reverse := List.rel_reverse like
  rw [List.getLast?_eq_head?_reverse, List.getLast?_eq_head?_reverse]
  generalize trees.reverse = here, trees'.reverse = there at backwards
  cases backwards with
  | nil => exact .none
  | cons first _ => exact .some first

private theorem sourceType_bare {piece piece' : List Tree} (like : Forall₂ SameBare piece piece') :
    (sourceType? piece).map SourceType.type = (sourceType? piece').map SourceType.type := by
  have related := heading_like BareTrees.hidden like
  have lasts := last_like like
  simp only [sourceType?, isModified_like BareTrees.hidden "abstract" like]
  generalize heading? piece = heading, heading? piece' = heading', piece.getLast? = last,
    piece'.getLast? = last' at related lasts
  cases related with
  | none => rfl
  | @some heading heading' same =>
    obtain ⟨kind, name, more⟩ := heading
    obtain ⟨kind', name', more'⟩ := heading'
    obtain ⟨rfl, rfl, behind⟩ := same
    cases lasts with
    | none => rfl
    | some pair =>
      rcases pair.cases with ⟨_, _, rfl, rfl, _⟩ |
        ⟨bracket, _, _, _, _, _, _, _, rfl, rfl, _, inner⟩
      · rfl
      · cases bracket with
        | brace =>
          simp only [Option.map_some, Option.some.injEq, header_like BareTrees.hidden _ _ _ behind]
          exact bodyType_bare _ _ _ inner
        | _ => rfl

private theorem types_bare {all all' : List (List Tree)}
    (like : Forall₂ (Forall₂ SameBare) all all') :
    (all.filterMap sourceType?).map SourceType.type =
      (all'.filterMap sourceType?).map SourceType.type := by
  rw [List.map_filterMap, List.map_filterMap]
  exact filterMap_like sourceType_bare like

/-- What a source declares, if its tokens are those of known trees. -/
theorem types_placed {text : String} {tokens : List Token} {trees : List Tree}
    (well : AllWellBuilt trees) (lexed : tokens? text.toList = some tokens)
    (same : tokens.map bareToken = (allTokens trees).map bareToken) :
    ∃ types :
    List SourceType, types.map SourceType.type =
      ((pieces false trees).filterMap sourceType?).map SourceType.type ∧
      sourceTypes? text = if areProgram [] (pieces false trees) then some types else none := by
  obtain ⟨built, isBuilt, like⟩ := build_places well same
  have cut := pieces_bare like
  refine ⟨(pieces false built).filterMap sourceType?, types_bare cut, ?_⟩
  rw [← areProgram_bare .nil cut]
  simp only [sourceTypes?, trees?, lexed, isBuilt, Option.bind_eq_bind, Option.bind_some]
  split
  · rfl
  · rfl

def body (opening closing : Token) (inside : List Tree) : Tree :=
  .group .brace (Bracket.brace.rules.filter (derives · inside)) opening closing inside

/-- A source with a single type, and the body of the type. -/
structure Sole (source : String) (found : SourceType) where
  earlier : List (List Tree)
  later : List (List Tree)
  front : List Tree
  opening : Token
  closing : Token
  inside : List Tree
  heading : Kind × String × List Tree
  well : AllWellBuilt (earlier.flatten ++ (front ++ body opening closing inside :: later.flatten))
  lexed : tokens? source.toList =
    some (allTokens (earlier.flatten ++ (front ++ body opening closing inside :: later.flatten)))
  cut : pieces false (earlier.flatten ++ (front ++ body opening closing inside :: later.flatten)) =
    earlier ++ (front ++ [body opening closing inside]) :: later
  accepted : areProgram [] (earlier ++ (front ++ [body opening closing inside]) :: later) = true
  others : ∀ piece ∈ earlier ++ later, sourceType? piece = none
  starts : heading? (front ++ [body opening closing inside]) = some heading
  found_eq :
    found = bodyType (headingClass (front ++ [body opening closing inside]) heading)
    opening.stop inside

theorem exists_sole {source : String} {found : SourceType}
    (single : sourceTypes? source = some [found]) : Nonempty (Sole source found) := by
  simp only [sourceTypes?, trees?, Option.map_eq_some_iff, Option.bind_eq_bind,
    Option.bind_eq_some_iff] at single
  obtain ⟨trees, ⟨tokens, lexed, all, built, accepted⟩, only⟩ := single
  split at accepted
  next program =>
    obtain rfl := Option.some.inj accepted
    obtain ⟨earlier, piece, later, cut, none, declared, none'⟩ := List.filterMap_eq_cons_iff.mp only
    obtain ⟨front, rules, opening, closing, inside, heading, rfl, headed, same⟩ :=
      sourceType_cases declared
    have whole :
        all = earlier.flatten ++
        (front ++ .group .brace rules opening closing inside :: later.flatten) := by
      rw [← pieces_flatten all, cut]
      simp
    have well := build_wellBuilt built (by simp) trivial
    have tokens_eq := build_allTokens built
    obtain rfl : rules = Bracket.brace.rules.filter (derives · inside) := by
      rw [allWellBuilt_iff] at well
      exact (well (.group .brace rules opening closing inside) (by simp [whole])).2.2.1
    refine ⟨⟨earlier, later, front, opening, closing, inside, heading, whole ▸ well, ?_,
      whole ▸ cut, cut ▸ program, ?_, headed, same⟩⟩
    · rw [lexed, ← show allTokens all =
        tokens by simpa [framesTokens, allTokens] using tokens_eq, whole]
      rfl
    · intro other member
      rcases List.mem_append.mp member with member | member
      · exact none other member
      · exact List.filterMap_eq_nil_iff.mp none' other member
  next => simp at accepted

/-- The class that the source declares, before its body is read. -/
def Sole.bare {source : String} {found : SourceType} (sole : Sole source found) : Class :=
  headingClass (sole.front ++ [body sole.opening sole.closing sole.inside]) sole.heading

theorem wellBuilt_split {first second : List Tree} {tree : Tree} :
    AllWellBuilt (first ++ tree :: second) ↔ AllWellBuilt first ∧ WellBuilt tree ∧
    AllWellBuilt second := by
  simp only [allWellBuilt_iff, List.mem_append, List.mem_cons]
  constructor
  · intro all
    exact ⟨fun t member => all t (Or.inl member), all tree (by simp),
      fun t member => all t (by simp [member])⟩
  · rintro ⟨one, middle, two⟩ t (member | rfl | member)
    · exact one t member
    · exact middle
    · exact two t member

theorem bodyType_kind (c : Class) (opening : Nat) (inside : List Tree) :
    (bodyType c opening inside).type.kind = c.kind := by
  simp only [bodyType]
  split
  next kind =>
    simp only [enumType]
    split <;> simp [addMembers]
  next => simp [publicMethods, addMembers]
  next => simp [addMembers]

section
variable {source : String} {found : SourceType} (sole : Sole source found)

theorem Sole.bare_kind : sole.bare.kind = found.type.kind := by
  conv_rhs => rw [sole.found_eq]
  exact (bodyType_kind sole.bare _ _).symm

/-- Before its body is read a type has no members. -/
theorem Sole.bare_members : sole.bare.fields = [] ∧ sole.bare.methods = [] := by
  simp only [Sole.bare, headingClass, header]
  split
  · exact ⟨rfl, rfl⟩
  · exact ⟨rfl, rfl⟩

theorem Sole.heading_kind : sole.heading.1 = found.type.kind :=
  (headingClass_kind _ _).symm.trans sole.bare_kind

theorem Sole.opens : sole.opening.kind = .opening .brace := by
  have well := sole.well
  rw [← List.append_assoc, wellBuilt_split] at well
  exact well.2.1.1

theorem Sole.well_inside : AllWellBuilt sole.inside := by
  have well := sole.well
  rw [← List.append_assoc, wellBuilt_split] at well
  exact well.2.1.2.2.2

/-- The rule for bodies of its kind derives the body. -/
theorem Sole.derived : derives (bodyRule sole.heading.1) sole.inside = true := by
  have taken := declaration_body (areProgram_covers sole.starts sole.accepted)
  simp only [body, takes, Bool.and_eq_true, List.contains_iff_mem] at taken
  exact (List.mem_filter.mp taken.2).2

/-- What the source is read as if another inside takes the place of the old one. -/
theorem Sole.replaced {inside : List Tree} (well : AllWellBuilt inside) {text : String}
    {tokens : List Token} (lexed : tokens? text.toList = some tokens) (same : tokens.map bareToken =
      (allTokens (sole.earlier.flatten ++
        (sole.front ++ body sole.opening sole.closing inside :: sole.later.flatten))).map
        bareToken) :
    ∃ new : SourceType, new.type = (bodyType sole.bare sole.opening.stop inside).type ∧
      (sourceTypes? text = none ∨ sourceTypes? text = some [new]) ∧
      (derives (bodyRule sole.heading.1) inside = true ↔ sourceTypes? text = some [new]) := by
  obtain ⟨before, ⟨opens, closes, _, _⟩, behind⟩ :=
    wellBuilt_split.mp (List.append_assoc .. ▸ sole.well)
  have whole :
      AllWellBuilt (sole.earlier.flatten ++
        (sole.front ++ body sole.opening sole.closing inside :: sole.later.flatten)) := by
    rw [← List.append_assoc, wellBuilt_split]
    exact ⟨before, ⟨opens, closes, rfl, well⟩, behind⟩
  have cut :=
    @pieces_replaced (body sole.opening sole.closing sole.inside)
      (body sole.opening sole.closing inside) rfl rfl _ _ _ _ _ sole.cut
  obtain ⟨all, types, read⟩ := types_placed whole lexed same
  rw [cut] at types read
  have unseen := @regrown_last (fun _ => false) (Bracket.brace.rules.filter (derives · sole.inside))
    (Bracket.brace.rules.filter (derives · inside)) (by simp) sole.front sole.opening sole.closing
    sole.inside inside
  obtain ⟨heading, starts, kind, same⟩ := heading_regrown unseen sole.starts
  have declared : sourceType? (sole.front ++ [body sole.opening sole.closing inside]) =
      some (bodyType sole.bare sole.opening.stop inside) :=
    (sourceType_of starts).trans (by rw [same]; rfl)
  -- the other pieces declare no type, so the grown one is the only one that does
  rw [List.filterMap_append, List.filterMap_cons_some declared,
    List.filterMap_eq_nil_iff.mpr fun piece member => sole.others piece (by simp [member]),
    List.filterMap_eq_nil_iff.mpr fun piece member => sole.others piece (by simp [member])] at types
  obtain ⟨new, rfl, isType⟩ := List.map_eq_singleton_iff.mp types
  refine ⟨new, isType, ?_, ?_⟩
  · rw [read]
    split
    · exact Or.inr rfl
    · exact Or.inl rfl
  · refine ⟨fun derived => ?_, fun accepted => ?_⟩
    · have seen : ∀ rule, (rule == bodyRule sole.heading.1) = true →
          (Bracket.brace.rules.filter (derives · sole.inside)).contains rule =
          (Bracket.brace.rules.filter (derives · inside)).contains rule := by
        intro rule isBody
        rw [beq_iff_eq.mp isBody]
        have known : bodyRule sole.heading.1 ∈ Bracket.brace.rules := by
          cases sole.heading.1 <;> decide
        simp [known, derived, sole.derived]
      have covered :=
        covers_like (regrown_veiled (· == bodyRule sole.heading.1)).toBlind
          (declaration_built sole.heading.1)
        (regrown_last seen sole.front sole.opening sole.closing sole.inside inside)
      have accepted :=
        areProgram_regrown sole.starts starts kind (fun old => covered.symm.trans old) sole.accepted
      rw [read]
      exact if_pos accepted
    · have program :
          areProgram [] (sole.earlier ++ (sole.front ++ [body sole.opening sole.closing inside]) ::
            sole.later) = true := by
        rw [read] at accepted
        split at accepted
        next program => exact program
        next => simp at accepted
      have taken := declaration_body (areProgram_covers starts program)
      simp only [takes, Bool.and_eq_true, List.contains_iff_mem, kind] at taken
      exact (List.mem_filter.mp taken.2).2

omit sole in
theorem tokens_split {opening t : Token} {first : List Tree} {before : List Token}
    (ended : opening :: allTokens first = before ++ [t]) (rest : List Token) :
    before ++ t :: rest = opening :: (allTokens first ++ rest) := by
  rw [← List.cons_append, ended, List.append_assoc]
  rfl

theorem Sole.tokens_eq {first second : List Tree} {before : List Token} {t : Token}
    (ended : sole.opening :: allTokens first = before ++ [t]) (inserted : List Tree) :
    allTokens (sole.earlier.flatten ++
      (sole.front ++ body sole.opening sole.closing (first ++ (inserted ++ second)) ::
        sole.later.flatten)) = allTokens (sole.earlier.flatten ++ sole.front) ++ before ++ t ::
        (allTokens inserted ++
          (allTokens second ++ sole.closing :: allTokens sole.later.flatten)) := by
  rw [List.append_assoc _ before, tokens_split ended]
  simp [body, allTokens, tokensOf]

section
variable {first second : List Tree} (parts : sole.inside = first ++ second) {before : List Token}
  {t : Token} (ended : sole.opening :: allTokens first = before ++ [t]) (isEdge : IsEdgeToken t)
include parts ended isEdge

/-- The place behind a token of the body. Nothing is open there but the brace of the body. -/
theorem Sole.place : ∃ head rest,
    Junction source.toList (allTokens (sole.earlier.flatten ++ sole.front) ++ before) t
      (allTokens second ++ sole.closing :: allTokens sole.later.flatten) head rest ∧
    (allTokens (sole.earlier.flatten ++ sole.front) ++ before ++ [t]).foldl Level.after [] =
      [.braces] := by
  have inner := sole.well_inside
  rw [parts, allWellBuilt_iff] at inner
  have wellFirst : AllWellBuilt first :=
    allWellBuilt_iff.mpr fun t member => inner t (by simp [member])
  obtain ⟨outside, ⟨opens, _, _, _⟩, _⟩ := wellBuilt_split.mp (List.append_assoc .. ▸ sole.well)
  have lexed := sole.lexed
  rw [parts, ← List.nil_append second, sole.tokens_eq ended] at lexed
  obtain ⟨head, rest, place⟩ := tokens_place lexed isEdge
  exact ⟨head, rest, by simpa [allTokens] using place, levels_body outside wellFirst opens ended⟩

/-- What the source is read as if trees are put into its body behind a token. -/
theorem Sole.spliced {inserted : List Tree} (well : AllWellBuilt inserted) {anchor : Anchor}
    (here : anchor.offset = t.stop) {lines : List String}
    (read : Reads (block (lineBreak source.toList) anchor.needsSeparator lines)
      (allTokens inserted))
    (noStar : '*' ∉ block (lineBreak source.toList) anchor.needsSeparator lines)
    (noSlash : (block (lineBreak source.toList) anchor.needsSeparator lines).head? ≠ some '/') :
    ∃ text, splice? source anchor lines = some text ∧
      ∃ new : SourceType, new.type =
      (bodyType sole.bare sole.opening.stop (first ++ (inserted ++ second))).type ∧
        (sourceTypes? text = none ∨ sourceTypes? text = some [new]) ∧
        (derives (bodyRule sole.heading.1) (first ++ (inserted ++ second)) = true ↔
          sourceTypes? text = some [new]) := by
  have inner := sole.well_inside
  rw [parts, allWellBuilt_iff] at inner
  have grown : AllWellBuilt (first ++ (inserted ++ second)) := by
    rw [allWellBuilt_iff] at well ⊢
    intro t member
    rcases List.mem_append.mp member with member | member
    · exact inner t (by simp [member])
    · rcases List.mem_append.mp member with member | member
      · exact well t member
      · exact inner t (by simp [member])
  obtain ⟨head, rest, place, open'⟩ := sole.place parts ended isEdge
  obtain ⟨text, tokens, spliced, fresh, same⟩ :=
    splice_tokens place here open' rfl (by simp) read noStar noSlash
  refine ⟨text, spliced, sole.replaced grown fresh ?_⟩
  rw [same, sole.tokens_eq ended]
  simp [read.bare]

end

end

end ClassDiagram.Proofs.GrownSources
