import ClassDiagram.Proofs.FileWrites
import ClassDiagram.Proofs.MemberPlaces

/-! Merging a model into a class or an interface. The source grows by the members that it lacked and
by nothing else: read again it declares the old type with those members, so that merging once more
finds nothing to add. -/

namespace ClassDiagram.Proofs.MergedMembers
open Java Java.Tree Java.Outline TokenTrees BareTrees BodyPieces SourceCuts GeneratedText
  GeneratedMembers GrownSources MemberPlaces
  DiskChanges FileWrites
open Files (Disk)

/-- A method as a type of the kind shows it: those of an interface are never private. -/
def shown (kind : Kind) (method : Method) : Method :=
  if kind = .interface then { method with isPrivate := false } else method

theorem shown_name (kind : Kind) (method : Method) : (shown kind method).name = method.name := by
  simp only [shown]
  split <;> rfl

private theorem shown_plain (method : Method) : shown .plain method = method := rfl

section
variable {source : String} {found : SourceType} (sole : Sole source found)

variable {missing : Missing} (plain : PlainMembers missing.fields missing.methods)
  (signatureOnly : Bool)
include sole plain

/-- New members between two declarations of a body. -/
theorem spliced_members (body : Grammar.isBody (bodyRule sole.heading.1) = true)
    {first second : List (List Tree)} (parts : pieces false sole.inside = first ++ second)
    {before : List Token} {t : Token}
    (ended : sole.opening :: allTokens first.flatten = before ++ [t]) (isEdge : IsEdgeToken t)
    (here : found.anchor.offset = t.stop) (bare : found.anchor.needsSeparator = false) :
    ∃ text new, splice? source found.anchor (missing.lines signatureOnly) = some text ∧
      sourceTypes? text = some [new] ∧ new.type = (bodyType sole.bare sole.opening.stop
        (first.flatten ++
          ((memberTrees signatureOnly missing).flatten ++ second.flatten))).type := by
  have whole : sole.inside = first.flatten ++ second.flatten := by
    rw [← pieces_flatten sole.inside, parts, List.flatten_append]
  obtain ⟨text, new, spliced, isType, _, accepted⟩ :=
    spliced_body signatureOnly plain ⟨whole, before, t, ended, isEdge, here⟩
  have nothing : separatorTrees found.anchor.needsSeparator = [] := by
    rw [bare]
    rfl
  rw [nothing, List.nil_append] at isType accepted
  exact ⟨text, new, spliced,
    accepted.mp (derives_grown signatureOnly plain body sole.derived parts), isType⟩

/-- A class grows by the members at the place for them, and by nothing else. -/
theorem class_grown (kind : found.type.kind = .plain) :
    ∃ text new first second, splice? source found.anchor (missing.lines signatureOnly) = some text ∧
      sourceTypes? text = some [new] ∧
      pieces false sole.inside = first ++ second ∧ IsPlace first second ∧
      found.type.methods = (first.map member).flatMap methodsOf ++
      (second.map member).flatMap methodsOf ∧
      new.type = { found.type with
        fields := found.type.fields ++ missing.fields
        methods :=
  (first.map member).flatMap methodsOf ++
    (missing.methods ++ (second.map member).flatMap methodsOf) } := by
  have headed : sole.heading.1 = .plain := sole.heading_kind.trans kind
  have body : Grammar.isBody (bodyRule sole.heading.1) = true := by rw [headed]; rfl
  have closed := body_closes body sole.derived
  have type_eq : ∀ inside, bodyType sole.bare sole.opening.stop inside =
      ⟨addMembers sole.bare (pieces false inside),
        ⟨(lastFieldStop? (pieces false inside)).getD sole.opening.stop, false⟩⟩ := by
    intro inside
    simp only [bodyType, sole.bare_kind, kind]
  have found_eq := sole.found_eq.trans (type_eq sole.inside)
  have old := congrArg SourceType.type found_eq
  obtain ⟨first, second, before, t, parts, ended, isEdge, stop, place⟩ :=
    members_place closed sole.well_inside (.opening sole.opens)
  have here : found.anchor.offset = t.stop := by rw [found_eq]; exact stop
  obtain ⟨text, new, spliced, read, isType⟩ :=
    spliced_members sole plain signatureOnly body parts ended isEdge here (by rw [found_eq])
  refine ⟨text, new, first, second, spliced, read, parts, place, ?_, ?_⟩
  · rw [old, parts]
    simp [addMembers]
  · rw [isType, type_eq, old, parts]
    simp only [pieces_grown signatureOnly closed parts,
      addMembers_grown signatureOnly plain sole.bare place.fieldless]
    rfl

theorem grown_class (kind : found.type.kind = .plain) :
    ∃ text new before after, splice? source found.anchor (missing.lines signatureOnly) = some text ∧
      sourceTypes? text = some [new] ∧
      found.type.methods = before ++ after ∧ new.type = { found.type with
        fields := found.type.fields ++ missing.fields
        methods := before ++ (missing.methods ++ after) } := by
  obtain ⟨text, new, first, second, spliced, read, _, _, old, grown⟩ :=
    class_grown sole plain signatureOnly kind
  exact ⟨text, new, _, _, spliced, read, old, grown⟩

/-- An interface grows by the methods, which it shows as public ones; fields are written, but it
shows none. -/
theorem grown_interface (kind : found.type.kind = .interface) :
    ∃ text new, splice? source found.anchor (missing.lines signatureOnly) = some text ∧
      sourceTypes? text = some [new] ∧ found.type.fields = [] ∧ new.type = { found.type with
        methods := missing.methods.map (shown .interface) ++ found.type.methods } := by
  have headed : sole.heading.1 = .interface := sole.heading_kind.trans kind
  have body : Grammar.isBody (bodyRule sole.heading.1) = true := by rw [headed]; rfl
  have closed := body_closes body sole.derived
  have type_eq : ∀ inside, bodyType sole.bare sole.opening.stop inside =
      ⟨publicMethods (addMembers sole.bare (pieces false inside)), ⟨sole.opening.stop, false⟩⟩ := by
    intro inside
    simp only [bodyType, sole.bare_kind, kind]
  have found_eq := sole.found_eq.trans (type_eq sole.inside)
  have old := congrArg SourceType.type found_eq
  obtain ⟨text, new, spliced, read, isType⟩ :=
    @spliced_members _ _ sole _ plain signatureOnly body [] (pieces false sole.inside) rfl
    [] sole.opening rfl (.opening sole.opens) (congrArg (·.anchor.offset) found_eq)
    (congrArg (·.anchor.needsSeparator) found_eq)
  have grown := @pieces_grown [] (pieces false sole.inside) missing signatureOnly _ closed rfl
  refine ⟨text, new, spliced, read, by rw [old]; rfl, ?_⟩
  rw [List.flatten_nil, List.nil_append, pieces_flatten, List.nil_append] at grown
  rw [isType, type_eq, old, List.flatten_nil, List.nil_append, pieces_flatten, grown]
  simp [publicMethods, addMembers, memberTrees_methods signatureOnly plain, shown]

end

/-- What a merge wrote: the lines of the members that the one type of the source lacks. -/
theorem merge_merged {source text : String} {model : Class} {fields methods : Nat}
    (merged : merge source model = .merged fields methods text) :
    ∃ existing, sourceTypes? source = some [existing] ∧
      fields = (Missing.between existing.type model).fields.length ∧
      methods = (Missing.between existing.type model).methods.length ∧
      splice? source existing.anchor
      ((Missing.between existing.type model).lines model.isInterface) = some text := by
  simp only [merge] at merged
  split at merged
  · simp at merged
  next existing single =>
    split at merged
    · simp at merged
    · split at merged
      next spliced =>
        obtain ⟨rfl, rfl, rfl⟩ := Merge.merged.inj merged
        exact ⟨existing, single, rfl, rfl, spliced⟩
      next => simp at merged
  · simp at merged

theorem missing_plain {model : Class} (plain : PlainMembers model.fields model.methods)
    (existing : Class) :
    PlainMembers (Missing.between existing model).fields (Missing.between existing model).methods :=
  ⟨fun field listed => plain.fields field (List.mem_filter.mp listed).1,
    fun method listed => plain.methods method (List.mem_filter.mp listed).1⟩

/-- A class that has members by all the names of the model lacks none. -/
theorem merge_unchanged {text : String} {found : SourceType} {model : Class}
    (read : sourceTypes? text = some [found])
    (fields : ∀ field ∈ model.fields, found.type.hasField field.name = true)
    (methods : ∀ method ∈ model.methods, found.type.hasMethod method.name = true) :
    merge text model = .unchanged := by
  have noFields : (Missing.between found.type model).fields = [] :=
    List.filter_eq_nil_iff.mpr fun field listed => by simp [fields field listed]
  have noMethods : (Missing.between found.type model).methods = [] :=
    List.filter_eq_nil_iff.mpr fun method listed => by simp [methods method listed]
  simp [merge, read, Missing.isEmpty, noFields, noMethods]

private theorem hasField_added {existing new : Class} {model : Class}
    (grown : new.fields = existing.fields ++ (Missing.between existing model).fields) :
    ∀ field ∈ model.fields, new.hasField field.name = true := by
  intro field listed
  cases known : existing.hasField field.name with
  | true => simpa [Class.hasField, grown] using Or.inl (by simpa [Class.hasField] using known)
  | false =>
    have added : field ∈ (Missing.between existing model).fields :=
      List.mem_filter.mpr ⟨listed, by simp [known]⟩
    simpa [Class.hasField, grown] using Or.inr ⟨field, added, rfl⟩

private theorem hasMethod_added {existing new : Class} {model : Class} {before after : List Method}
    {kind : Kind} (parts : existing.methods = before ++ after)
    (grown : new.methods = before ++
      ((Missing.between existing model).methods.map (shown kind) ++ after)) :
    ∀ method ∈ model.methods, new.hasMethod method.name = true := by
  intro method listed
  simp only [Class.hasMethod, grown, List.any_append, List.any_map, Bool.or_eq_true]
  cases known : existing.hasMethod method.name with
  | true =>
    simp only [Class.hasMethod, parts, List.any_append, Bool.or_eq_true] at known
    exact known.imp_right Or.inr
  | false =>
    have added : method ∈ (Missing.between existing model).methods :=
      List.mem_filter.mpr ⟨listed, by simp [known]⟩
    exact Or.inr (Or.inl (List.any_eq_true.mpr ⟨method, added, by simp [shown_name]⟩))

/-- A merge into a class, or of a model without fields into an interface, adds exactly the members
whose names were missing: fields behind the old ones, methods together in one place. Merging again
changes nothing. -/
theorem merge_adds_missing_members {disk changed : Disk} {path : Path} {source : String}
    {existing : SourceType} {model : Class} {fields methods : Nat}
    (read : disk.readText path = .ok source) (single : sourceTypes? source = some [existing])
    (kind : existing.type.kind = .plain ∨ existing.type.kind = .interface ∧ model.fields = [])
    (plain : PlainMembers model.fields model.methods)
    (merged : (mergeFile path model).run.run disk = (.ok (.merged fields methods), changed)) :
    ∃ text new before after, changed.readText path = .ok text ∧ sourceTypes? text = some [new] ∧
      existing.type.methods = before ++ after ∧
      new.type = { existing.type with
        fields := existing.type.fields ++ model.fields.filter (!existing.type.hasField ·.name)
        methods :=
  before ++
    ((model.methods.filter (!existing.type.hasMethod ·.name)).map
      (shown existing.type.kind) ++ after) } ∧
      fields = (model.fields.filter (!existing.type.hasField ·.name)).length ∧
      methods = (model.methods.filter (!existing.type.hasMethod ·.name)).length ∧
      (mergeFile path model).run.run changed = (.ok .unchanged, changed) := by
  obtain ⟨_, _, failed⟩ | ⟨_, read', ⟨_, other, _⟩ | ⟨_, _, text, isMerged, written, same⟩⟩ :=
    mergeFile_cases merged
  · exact nomatch failed
  · exact absurd rfl (other fields methods)
  obtain rfl := Except.ok.inj (read.symm.trans read')
  obtain ⟨rfl, rfl⟩ := Outcome.merged.inj (Except.ok.inj same)
  obtain ⟨existing', single', rfl, rfl, spliced⟩ := merge_merged isMerged
  obtain rfl : existing = existing' := by simpa using single.symm.trans single'
  obtain ⟨sole⟩ := exists_sole single
  have missing := missing_plain plain existing.type
  have reread := writeText_read written
  have again : ∀ {new : SourceType} {before after : List Method}, sourceTypes? text = some [new] →
      existing.type.methods = before ++ after → new.type = { existing.type with
        fields := existing.type.fields ++ (Missing.between existing.type model).fields
        methods :=
          before ++
            ((Missing.between existing.type model).methods.map
              (shown existing.type.kind) ++ after) } →
      (mergeFile path model).run.run changed = (.ok .unchanged, changed) := by
    intro new before after accepted parts grown
    have settled :=
      merge_unchanged accepted (hasField_added (congrArg Class.fields grown))
        (hasMethod_added parts (congrArg Class.methods grown))
    rw [mergeFile, run_bind_ok (run_ask_ok reread), settled]
    rfl
  rcases kind with kind | ⟨kind, noFields⟩
  · obtain ⟨_, new, before, after, spliced', accepted, parts, grown⟩ :=
      grown_class sole missing model.isInterface kind
    obtain rfl := Option.some.inj (spliced.symm.trans spliced')
    have same : (Missing.between existing.type model).methods.map (shown existing.type.kind) =
        (Missing.between existing.type model).methods := by
      rw [kind]
      exact (List.map_congr_left fun method _ => shown_plain method).trans (List.map_id _)
    rw [← same] at grown
    exact ⟨_, new, before, after, reread, accepted, parts, grown, rfl, rfl,
      again accepted parts grown⟩
  · obtain ⟨_, new, spliced', accepted, fieldless, grown⟩ :=
      grown_interface sole missing model.isInterface kind
    obtain rfl := Option.some.inj (spliced.symm.trans spliced')
    have nothing : (Missing.between existing.type model).fields = [] := by
      simp [Missing.between, noFields]
    have whole : new.type = { existing.type with
        fields := existing.type.fields ++ (Missing.between existing.type model).fields
        methods :=
          [] ++ ((Missing.between existing.type model).methods.map (shown existing.type.kind) ++
            existing.type.methods) } := by
      rw [grown, nothing, kind, List.append_nil, List.nil_append]
    exact ⟨_, new, [], existing.type.methods, reread, accepted, rfl, whole, rfl, rfl,
      again accepted rfl whole⟩

def tillText : String :=
  "class Till \x7b\n    int sum; // in cents\n\n    void open() \x7b\x7d\n\x7d\n"

def till : Disk where
  root := .dir [("Till.java", .file tillText.toUTF8)]
  cwd := []

def fullTill : Class where
  name := "Till"
  fields :=
    [{ name := "sum", type := "int" }, { name := "owner", type := "String", isPrivate := true }]
  methods :=
    [{ name := "open", returnType := "void" },
      { name := "add", returnType := "int", parameters := [{ name := "sum", type := "int" }] }]

theorem till_merged :
    ∃ existing fields methods changed, till.readText ⟨"Till.java"⟩ = .ok tillText ∧
    sourceTypes? tillText = some [existing] ∧
    (mergeFile ⟨"Till.java"⟩ fullTill).run.run till = (.ok (.merged fields methods), changed) ∧
    ∃ text new before after, changed.readText ⟨"Till.java"⟩ = .ok text ∧
      sourceTypes? text = some [new] ∧ existing.type.methods = before ++ after ∧
      new.type = { existing.type with
        fields := existing.type.fields ++ fullTill.fields.filter (!existing.type.hasField ·.name)
        methods :=
  before ++
    ((fullTill.methods.filter (!existing.type.hasMethod ·.name)).map
      (shown existing.type.kind) ++ after) } ∧
      fields = (fullTill.fields.filter (!existing.type.hasField ·.name)).length ∧
      methods = (fullTill.methods.filter (!existing.type.hasMethod ·.name)).length ∧
      (mergeFile ⟨"Till.java"⟩ fullTill).run.run changed = (.ok .unchanged, changed) := by
  have plain : PlainMembers fullTill.fields fullTill.methods :=
    ⟨by decide +kernel, by decide +kernel⟩
  have read : till.readText ⟨"Till.java"⟩ = .ok tillText := decode_encoded tillText
  have typed :
      ((sourceTypes? tillText).any fun types => types.map (·.type.kind) == [Kind.plain]) =
      true := by decide +kernel
  have ran : ((mergeFile ⟨"Till.java"⟩ fullTill).run.run till).1.toOption = some (.merged 1 1) := by
    decide +kernel
  obtain ⟨types, found, kinds⟩ := (Option.any_eq_true _ _).mp typed
  obtain ⟨existing, rfl, kind⟩ := List.map_eq_singleton_iff.mp (beq_iff_eq.mp kinds)
  obtain ⟨changed, run⟩ := run_of_value ran
  exact ⟨existing, 1, 1, changed, read, found, run,
    merge_adds_missing_members read found (Or.inl kind) plain run⟩

end ClassDiagram.Proofs.MergedMembers
