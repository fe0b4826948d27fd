import ClassDiagram.Proofs.MergedMembers
import ClassDiagram.Proofs.Skeletons

/-! Sources that show a model. The single type of a source has members by all the names that the
model has, but for the fields of an interface, which are written and not seen. A new file shows its
class, a merged file shows what was merged into it, and a file that grows goes on showing what it
showed. -/

namespace ClassDiagram.Proofs.ShownModels
open Java Java.Tree Java.Outline Form Likeness Remainders BodyPieces ScannedText GeneratedText
  PlainReadings GeneratedMembers GrownSources
  MemberPlaces EnumBodies EnumConstants MergedMembers SkeletonText Skeletons

/-- If the text declares a single type, then that has all members of the model, except that an
interface is not asked for fields. -/
def Shows (text : String) (model : Class) : Prop :=
  ∀ found, sourceTypes? text = some [found] →
    (∀ method ∈ model.methods, found.type.hasMethod method.name = true) ∧
      (found.type.kind ≠ .interface → ∀ field ∈ model.fields, found.type.hasField field.name = true)

private theorem hasField_of_mem {c : Class} {field : Field} (listed : field ∈ c.fields) :
    c.hasField field.name = true :=
  List.any_eq_true.mpr ⟨field, listed, by simp⟩

private theorem hasMethod_of_mem {c : Class} {method : Method} (listed : method ∈ c.methods) :
    c.hasMethod method.name = true :=
  List.any_eq_true.mpr ⟨method, listed, by simp⟩

private theorem hasField_subset {c c' : Class} (inside : c.fields ⊆ c'.fields) {name : String}
    (there : c.hasField name = true) : c'.hasField name = true := by
  obtain ⟨field, listed, same⟩ := List.any_eq_true.mp there
  exact List.any_eq_true.mpr ⟨field, inside listed, same⟩

private theorem hasMethod_subset {c c' : Class} (inside : c.methods ⊆ c'.methods) {name : String}
    (there : c.hasMethod name = true) : c'.hasMethod name = true := by
  obtain ⟨method, listed, same⟩ := List.any_eq_true.mp there
  exact List.any_eq_true.mpr ⟨method, inside listed, same⟩

/-- Something follows, and it neither goes on with a list of constants nor ends it. -/
def Stuck (trees : List Tree) : Prop :=
  ∃ t rest, trees = t :: rest ∧ t.isSymbol "," = false ∧ t.isSymbol ";" = false

theorem Stuck.comma {fuel : Nat} {trees : List Tree} (stuck : Stuck trees) :
    endsBy (ends Grammar.form fuel) (Form.sym ",") trees = [] := by
  obtain ⟨t, rest, rfl, noComma, _⟩ := stuck
  exact symbol_refused fun u head => Option.some.inj head ▸ noComma

theorem Stuck.semicolon {fuel : Nat} {trees : List Tree} (stuck : Stuck trees) :
    endsBy (ends Grammar.form fuel) (Form.sym ";") trees = [] := by
  obtain ⟨t, rest, rfl, _, noSemicolon⟩ := stuck
  exact symbol_refused fun u head => Option.some.inj head ▸ noSemicolon

/-- A body is refused if every reading of a first constant gets stuck. -/
theorem enumBody_stuck {trees : List Tree} (start : Stuck trees)
    (stuck : ∀ fuel, ∀ rest ∈ endsBy (ends Grammar.form fuel) Grammar.enumConstant trees,
      Stuck rest) : derives .enumBody trees = false := by
  apply Bool.eq_false_iff.mpr
  intro derived
  have noBody : Grammar.isBody .enumBody = false := rfl
  simp only [Java.derives, noBody, Bool.false_eq_true, if_false] at derived
  rw [derives_iff] at derived
  generalize (trees.length + 1) * chainLength - 1 = fuel at derived
  have tidy := ends_tidy Grammar.form fuel
  obtain ⟨behind, items, ended⟩ := (mem_seq tidy).mp derived
  obtain ⟨middle, constants, comma⟩ := (mem_seq tidy).mp items
  have held : Stuck middle := by
    rcases (mem_alt tidy).mp constants with some | none
    · obtain ⟨first, one, more⟩ := (mem_seq tidy).mp some
      have held := stuck fuel first one
      rw [star_none (seq_none held.comma), List.mem_singleton] at more
      exact more ▸ held
    · exact List.mem_singleton.mp none ▸ start
  rw [opt_none held.comma, List.mem_singleton] at comma
  rw [comma, opt_none (seq_none held.semicolon), List.mem_singleton] at ended
  obtain ⟨t, rest, rfl, _⟩ := held
  simp at ended

/-- The first field of a body reads as a constant up to its name. -/
theorem field_stuck {field : Field} (plain : PlainField field) (rest : List Tree) :
    derives .enumBody (fieldTrees field ++ rest) = false := by
  refine enumBody_stuck ⟨_, _, rfl, rfl, rfl⟩ fun fuel left read => ?_
  have tidy := ends_tidy Grammar.form fuel
  have modifiers : endsBy (ends Grammar.form fuel) Grammar.modifiers (fieldTrees field ++ rest) =
      [fieldTrees field ++ rest,
        wordTree field.type :: wordTree field.name :: symbolTree ";" :: rest] :=
    star_once (modifier_taken field.isPrivate) (modifier_refused plain.type)
  obtain ⟨named, start, behind⟩ := (mem_seq tidy).mp read
  rw [modifiers, List.mem_cons, List.mem_singleton] at start
  rcases start with rfl | rfl
  · have refused :
        endsBy (ends Grammar.form fuel) (Form.name Grammar.modifierWords)
        (fieldTrees field ++ rest) = [] := by
      refine one_refused fun t head => ?_
      obtain rfl := Option.some.inj head
      exact (takes_name _ _).trans (by cases field.isPrivate <;> decide)
    rw [List.foldr_cons, seq_none refused] at behind
    simp at behind
  · have free : Grammar.modifierWords.contains field.type = false :=
      plain.type.notIn modifiers_excluded
    have noRegion :
        ∀ bracket rule, endsBy (ends Grammar.form fuel) (Form.opt (.inside bracket rule))
        (wordTree field.name :: symbolTree ";" :: rest) =
        [wordTree field.name :: symbolTree ";" :: rest] := fun bracket rule =>
      opt_none (inside_refused fun t head => Option.some.inj head ▸ rfl)
    rw [List.foldr_cons, seq_one tidy (name_taken free), List.foldr_cons, Grammar.arguments,
      seq_one tidy (noRegion _ _), List.foldr_cons,
      seq_one tidy (noRegion _ _), List.foldr_nil, endsBy, List.mem_singleton] at behind
    exact ⟨_, _, behind, rfl, rfl⟩

/-- The constructor of a body reads as a constant, and then a method may not follow. -/
theorem constructor_stuck {name : String} (named : IsPlainName name) (signatureOnly : Bool)
    (method : Method) (rest : List Tree) :
    derives .enumBody (callTrees name ++ region .brace "\x7b" "\x7d" [] ::
      (methodTrees signatureOnly method ++ rest)) = false := by
  refine enumBody_stuck ⟨_, _, rfl, rfl, rfl⟩ fun fuel left read => ?_
  obtain ⟨middle, listed, body⟩ := (constant_read named).mp read
  simp only [List.mem_cons, List.not_mem_nil, or_false] at listed
  rcases opt_region (ends_tidy _ _) body with rfl | ⟨rules, opening, closing, inside, rfl⟩
  · rcases listed with rfl | rfl
    · exact ⟨_, _, rfl, rfl, rfl⟩
    · exact ⟨_, _, rfl, rfl, rfl⟩
  · rcases listed with same | same
    · obtain ⟨_, rfl⟩ := List.cons.inj same
      exact ⟨_, _, rfl, rfl, rfl⟩
    · obtain ⟨_, rfl⟩ := List.cons.inj same
      exact ⟨_, _, rfl, rfl, rfl⟩

/-- Only with constants does the body of a new enum with members pass. -/
theorem enum_constants {c : Class} (plain : PlainClass c) (enum : c.isEnum = true)
    (derived : derives .enumBody (insideTrees c) = true) :
    c.constants ≠ [] ∨ c.fields = [] ∧ c.methods = [] := by
  refine Classical.or_iff_not_imp_left.mpr fun none => ?_
  have noConstants : c.constants = [] := Classical.not_not.mp none
  have members := plain.members
  rw [insideTrees, noConstants, constantTrees, List.nil_append, memberPieces, enum, if_pos rfl,
    constructorTrees_eq enum] at derived
  cases fields : c.fields with
  | cons field more =>
    rw [fields, List.map_cons, List.cons_append, List.flatten_cons,
      field_stuck (members.fields field (by simp [fields]))] at derived
    simp at derived
  | nil =>
    refine ⟨rfl, ?_⟩
    cases methods : c.methods with
    | nil => rfl
    | cons method more =>
      have stuck :=
        @constructor_stuck c.name plain.name c.isInterface method
          (more.map (methodTrees c.isInterface)).flatten
      simp [fields, methods, stuck] at derived

/-- A member of a list is one of any that the list is part of. -/
theorem addMembers_subset (c c' : Class) {some all : List (List Tree)} (inside : some ⊆ all) :
    (addMembers c some).fields ⊆ (addMembers c' all).fields ∧
    (addMembers c some).methods ⊆ (addMembers c' all).methods := by
  constructor
  · intro field member
    obtain ⟨declared, listed, own⟩ := List.mem_flatMap.mp member
    exact List.mem_flatMap.mpr ⟨declared, List.map_subset _ inside listed, own⟩
  · intro method member
    obtain ⟨declared, listed, own⟩ := List.mem_flatMap.mp member
    exact List.mem_flatMap.mpr ⟨declared, List.map_subset _ inside listed, own⟩

private theorem memberPieces_inside (c : Class) :
    memberPieces c ⊆ pieces false (insideTrees c) := by
  have closed : AllClosed (constantTrees c.constants) := by
    cases c.constants with
    | nil => simp [AllClosed, constantTrees, pieces]
    | cons first more =>
      have ended :=
        @allClosed_ended (callTrees first ++ commaTrees callTrees more)
          (symbolTree ";") (Or.inl rfl)
      rwa [List.append_assoc] at ended
  have cut := pieces_append closed (memberPieces c).flatten
  rw [pieces_flatten, memberPieces_cut] at cut
  rw [insideTrees, cut]
  exact List.subset_append_right ..

section
variable {c : Class} (plain : PlainClass c) {found : SourceType}
  (read : sourceTypes? (skeletonText c) = some [found])
include plain read

theorem skeleton_accepted :
    found.type = (bodyType (headerOf c) 0 (insideTrees c)).type ∧
    derives (bodyRule c.kind) (insideTrees c) = true := by
  obtain ⟨types, declared, spelled⟩ := skeleton_types plain
  rw [spelled] at read
  split at read
  next accepted =>
    obtain rfl := Option.some.inj read
    rw [List.filterMap_cons_some (skeleton_declared c), List.filterMap_nil, List.map_singleton,
      List.map_singleton] at declared
    simp only [areProgram, skeleton_heading, Bool.and_eq_true] at accepted
    have taken := declaration_body accepted.1.2
    simp only [region, takes, Bool.and_eq_true, List.contains_iff_mem] at taken
    exact ⟨List.singleton_inj.mp declared, (List.mem_filter.mp taken.2).2⟩
  next => simp at read

private theorem skeleton_members : (∀ method ∈ c.methods, found.type.hasMethod method.name = true) ∧
    (found.type.kind ≠ .interface → ∀ field ∈ c.fields, found.type.hasField field.name = true) := by
  obtain ⟨type, derived⟩ := skeleton_accepted plain read
  have inside := addMembers_subset (headerOf c) (headerOf c) (memberPieces_inside c)
  rw [addMembers_pieces plain] at inside
  have headed := headerOf_kind c
  cases kind : c.kind with
  | plain =>
    rw [kind] at headed
    simp only [bodyType, headed] at type
    rw [type]
    exact ⟨fun method listed => hasMethod_of_mem (inside.2 listed),
      fun _ field listed => hasField_of_mem (inside.1 listed)⟩
  | interface =>
    rw [kind] at headed
    simp only [bodyType, headed] at type
    refine ⟨fun method listed => ?_, fun other => absurd ?_ other⟩
    · rw [type, publicMethods, Class.hasMethod, List.any_map]
      exact List.any_eq_true.mpr ⟨method, inside.2 listed, by simp⟩
    · rw [type]
      exact headed
  | enum =>
    rw [kind] at headed derived
    rcases enum_constants plain (by simp [Class.isEnum, kind]) derived with some |
      ⟨noFields, noMethods⟩
    · obtain ⟨first, more, shape⟩ := List.exists_cons_of_ne_nil some
      have whole : insideTrees c =
          callTrees first ++ commaTrees callTrees more ++ .leaf (symbolToken ";") ::
          (memberPieces c).flatten := by
        simp [insideTrees, shape, constantTrees, symbolTree]
      simp only [bodyType, headed, whole,
        enumType_separated _ _ constants_inner
        (show (symbolToken ";").isSymbol ";" = true by decide),
        memberPieces_cut, addMembers_pieces plain] at type
      rw [type]
      exact ⟨fun method listed => hasMethod_of_mem listed,
        fun _ field listed => hasField_of_mem listed⟩
    · simp [noFields, noMethods]

end

/-- A new file shows the class it was written for. -/
theorem skeleton_shows {c : Class} (plain : PlainClass c) : Shows (skeletonText c) c :=
  fun _ read => skeleton_members plain read

/-- A class that grew by members in one place is of its old kind, keeps what it had, and has the
members. -/
theorem grown_keeps {existing new : Class} {missing : Missing} {before after : List Method}
    (parts : existing.methods = before ++ after)
    (grown : new = { existing with fields := existing.fields ++ missing.fields,
                                   methods := before ++ (missing.methods ++ after) }) :
    new.kind = existing.kind ∧
    (∀ name, existing.hasMethod name = true → new.hasMethod name = true) ∧
      (∀ name, existing.hasField name = true → new.hasField name = true) ∧
        (∀ method ∈ missing.methods, new.hasMethod method.name = true) ∧
      (existing.kind ≠ .interface → ∀ field ∈ missing.fields, new.hasField field.name = true) := by
  subst grown
  refine ⟨rfl, fun name => hasMethod_subset ?_,
    fun name => hasField_subset (List.subset_append_left ..),
    fun method listed => hasMethod_of_mem (by simp [listed]), fun _ field listed =>
      hasField_of_mem (by simp [listed])⟩
  rw [parts]
  simp

section
variable {source : String} {existing : SourceType} {model : Class}
  (read : sourceTypes? source = some [existing]) (plain : PlainMembers model.fields model.methods)
include read plain

/-- What a source becomes if the members that it lacks are put in. Its type, if it is still
accepted, is of the same kind, keeps what it had, and has the members, fields of an interface
apart. -/
theorem merge_text :
    ∃ text, splice? source existing.anchor
      ((Missing.between existing.type model).lines model.isInterface) = some text ∧
    ∀ new, sourceTypes? text = some [new] → new.type.kind = existing.type.kind ∧
      (∀ name, existing.type.hasMethod name = true → new.type.hasMethod name = true) ∧
      (∀ name, existing.type.hasField name = true → new.type.hasField name = true) ∧
      (∀ method ∈ (Missing.between existing.type model).methods,
        new.type.hasMethod method.name = true) ∧
      (existing.type.kind ≠ .interface →
        ∀ field ∈ (Missing.between existing.type model).fields,
        new.type.hasField field.name = true) := by
  obtain ⟨sole⟩ := exists_sole read
  have missing := missing_plain plain existing.type
  cases kind : existing.type.kind with
  | plain =>
    obtain ⟨text, new, before, after, spliced, accepted, parts, grown⟩ :=
      grown_class sole missing model.isInterface kind
    refine ⟨text, spliced, fun other same => ?_⟩
    obtain rfl : new = other := by simpa [accepted] using same
    exact kind ▸ grown_keeps parts grown
  | interface =>
    obtain ⟨text, new, spliced, accepted, fieldless, grown⟩ :=
      grown_interface sole missing model.isInterface kind
    refine ⟨text, spliced, fun other same => ?_⟩
    obtain rfl : new = other := by simpa [accepted] using same
    have methods : new.type.methods =
        (Missing.between existing.type model).methods.map (shown .interface) ++
        existing.type.methods :=
      congrArg Class.methods grown
    refine ⟨(congrArg Class.kind grown).trans kind, fun name => hasMethod_subset ?_,
      fun name => hasField_subset ?_, fun method listed => ?_, fun other => absurd rfl other⟩
    · rw [methods]
      exact List.subset_append_right ..
    · simp [fieldless]
    · rw [Class.hasMethod, methods, List.any_append, List.any_map, Bool.or_eq_true]
      exact Or.inl (List.any_eq_true.mpr ⟨method, listed, by simp [shown_name]⟩)
  | enum =>
    obtain ⟨text, spliced, ⟨_, _, _, _, refused⟩ | ⟨_, new, _, _, accepted, _, _, parts, grown⟩⟩ :=
      enum_grown missing model.isInterface kind sole
    · exact ⟨text, spliced, fun other same => by simp [refused] at same⟩
    · refine ⟨text, spliced, fun other same => ?_⟩
      obtain rfl : new = other := by simpa [accepted] using same
      exact kind ▸ grown_keeps parts grown

end

private theorem interface_fieldless {source : String} {found : SourceType}
    (read : sourceTypes? source = some [found]) (interface : found.type.kind = .interface) :
    found.type.fields = [] := by
  obtain ⟨sole⟩ := exists_sole read
  have kind : sole.bare.kind = .interface := sole.bare_kind.trans interface
  have type : found = bodyType sole.bare sole.opening.stop sole.inside := sole.found_eq
  simp only [bodyType, kind] at type
  rw [type]
  rfl

/-- An interface lacks every field, so that a model with fields is merged into it each time. -/
theorem interface_merged {source : String} {found : SourceType} {model : Class}
    (read : sourceTypes? source = some [found]) (interface : found.type.kind = .interface)
    (plain : PlainMembers model.fields model.methods) (some : model.fields ≠ []) :
    ∃ fields methods text, Java.merge source model = .merged fields methods text := by
  obtain ⟨text, spliced, _⟩ := merge_text read plain
  have lacks : (Missing.between found.type model).isEmpty = false := by
    simp [Missing.between, Missing.isEmpty, Class.hasField,
      interface_fieldless read interface, some]
  refine ⟨(Missing.between found.type model).fields.length,
    (Missing.between found.type model).methods.length, text, ?_⟩
  simp only [Java.merge, read, lacks, Bool.false_eq_true, if_false, spliced]

/-- A source that a merge leaves alone shows the model. -/
theorem unchanged_shows {source : String} {model : Class}
    (plain : PlainMembers model.fields model.methods)
    (unwritten : ∀ fields methods text, Java.merge source model ≠ .merged fields methods text) :
    Shows source model := by
  intro found read
  obtain ⟨text, spliced, _⟩ := merge_text read plain
  have nothing : (Missing.between found.type model).isEmpty = true := by
    apply Classical.byContradiction
    intro some
    simp only [Java.merge, read, some, if_false, spliced] at unwritten
    exact unwritten _ _ _ rfl
  simp only [Missing.isEmpty, Bool.and_eq_true, List.isEmpty_iff, Missing.between,
    List.filter_eq_nil_iff, Bool.not_eq_true', Bool.not_eq_false] at nothing
  exact ⟨nothing.2, fun _ => nothing.1⟩

section
variable {source text : String} {model : Class} {fields methods : Nat}
  (plain : PlainMembers model.fields model.methods)
  (merged : Java.merge source model = .merged fields methods text)
include plain merged

theorem merged_shows : Shows text model := by
  obtain ⟨existing, read, _, _, spliced⟩ := merge_merged merged
  obtain ⟨other, same, grown⟩ := merge_text read plain
  obtain rfl := Option.some.inj (spliced.symm.trans same)
  intro new reread
  obtain ⟨kind, keptMethods, keptFields, newMethods, newFields⟩ := grown new reread
  refine ⟨fun method listed => ?_, fun noInterface field listed => ?_⟩
  · cases known : existing.type.hasMethod method.name with
    | true => exact keptMethods _ known
    | false => exact newMethods method (List.mem_filter.mpr ⟨listed, by simp [known]⟩)
  · cases known : existing.type.hasField field.name with
    | true => exact keptFields _ known
    | false =>
      exact newFields (kind ▸ noInterface) field (List.mem_filter.mpr ⟨listed, by simp [known]⟩)

/-- A merge keeps what the source showed. -/
theorem merged_keeps {other : Class} (shows : Shows source other) : Shows text other := by
  obtain ⟨existing, read, _, _, spliced⟩ := merge_merged merged
  obtain ⟨_, same, grown⟩ := merge_text read plain
  obtain rfl := Option.some.inj (spliced.symm.trans same)
  intro new reread
  obtain ⟨kind, keptMethods, keptFields, _, _⟩ := grown new reread
  obtain ⟨methods, fields⟩ := shows existing read
  exact ⟨fun method listed => keptMethods _ (methods method listed),
    fun noInterface field listed => keptFields _ (fields (kind ▸ noInterface) field listed)⟩

end

end ClassDiagram.Proofs.ShownModels
