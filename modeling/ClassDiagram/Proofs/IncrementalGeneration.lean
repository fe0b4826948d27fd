import ClassDiagram.Proofs.EnumBodies
import ClassDiagram.Proofs.MergedMembers
import ClassDiagram.Proofs.Skeletons

/-! New files and files that grow. A file that was written for a class without some of its members
and has the class merged into it declares the same as a file that is written for the whole class at
once, but for the order of the members: the fields that were left out follow the others, and the
methods that were left out precede them. -/

namespace ClassDiagram.Proofs.IncrementalGeneration
open Java Java.Tree Java.Outline TokenTrees BareTrees BodyPieces GeneratedText GeneratedMembers
  GrownSources MemberPlaces EnumBodies MergedMembers
  SkeletonText Skeletons DiskChanges FileWrites
open Files (Disk)
open List (Forall₂)

def without (fields methods : String → Bool) (c : Class) : Class :=
  { c with
    fields := c.fields.filter (!fields ·.name)
    methods := c.methods.filter (!methods ·.name) }

/-- Of the members of one name all are left out or none. -/
theorem filter_left_out {α : Type} (name : α → String) (out : String → Bool) (all : List α) :
    (all.filter fun x => !(all.filter fun y => !out (name y)).any fun y => name y == name x) =
      all.filter fun x => out (name x) := by
  refine List.filter_congr fun x listed => ?_
  cases isOut : out (name x) with
  | true =>
    simp only [Bool.not_eq_true', List.any_eq_false, beq_iff_eq, List.mem_filter]
    rintro y ⟨_, kept⟩ same
    simp [same, isOut] at kept
  | false =>
    simp only [Bool.not_eq_false', List.any_eq_true, beq_iff_eq, List.mem_filter]
    exact ⟨x, ⟨listed, by simp [isOut]⟩, rfl⟩

section
variable {c : Class} (fields methods : String → Bool)

private theorem without_plain (plain : PlainClass c) : PlainClass (without fields methods c) :=
  ⟨plain.name, plain.superclass, plain.interfaces, plain.constants,
    fun field listed => plain.members.fields field (List.mem_filter.mp listed).1,
    fun method listed => plain.members.methods method (List.mem_filter.mp listed).1⟩

private theorem without_shape (shape : HasShape c) : HasShape (without fields methods c) := by
  obtain ⟨name, kind, isAbstract, superclass, interfaces, ownFields, ownMethods, constants,
      contained⟩ := c
  cases kind with
  | plain => exact shape
  | interface =>
    obtain ⟨superclass, interfaces, noFields, noConstants, shown, concrete⟩ := shape
    refine ⟨superclass, interfaces, ?_, noConstants,
      fun method listed => shown method (List.mem_filter.mp listed).1, concrete⟩
    rw [show ownFields = [] from noFields]
    rfl
  | enum => exact shape

/-- What such a class lacks are the members that were left out. -/
theorem missing_without {existing : Class}
    (kept : existing.fields = (without fields methods c).fields)
    (kept' : existing.methods = (without fields methods c).methods) :
    Missing.between existing c =
      ⟨c.fields.filter (fields ·.name), c.methods.filter (methods ·.name)⟩ := by
  simp only [Missing.between, Class.hasField, Class.hasMethod, kept, kept', without,
    filter_left_out]

end

section
variable {c : Class} (plain : PlainClass c) {found : SourceType}
  (sole : Sole (skeletonText c) found)
include plain

/-- The body of a new file, token for token. -/
theorem sole_inside : Forall₂ SameBare sole.inside (insideTrees c) := by
  obtain ⟨tokens, lexed, same⟩ := skeleton_tokens plain
  obtain ⟨built, isBuilt, like⟩ := build_places (skeletonTrees_wellBuilt c) same
  obtain rfl := Option.some.inj (sole.lexed.symm.trans lexed)
  obtain rfl := Option.some.inj ((build_allTokens_eq sole.well).symm.trans isBuilt)
  have cut := pieces_bare like
  rw [sole.cut, skeleton_piece] at cut
  have single :
      Forall₂ SameBare (sole.front ++ [body sole.opening sole.closing sole.inside])
      (skeletonTrees c) := by
    cases earlier : sole.earlier with
    | nil =>
      rw [earlier, List.nil_append] at cut
      cases cut with
      | cons first _ => exact first
    | cons =>
      rw [earlier, List.cons_append] at cut
      have short := cut.length_eq
      simp at short
  have last := last_like single
  rw [skeletonTrees, List.getLast?_append_cons, List.getLast?_append_cons, List.getLast?_singleton,
    List.getLast?_singleton] at last
  cases last with
  | some pair =>
    rcases pair.cases with ⟨_, _, none, _⟩ | ⟨_, _, _, _, _, _, _, _, here, there, _, inner⟩
    · simp [body] at none
    · obtain ⟨_, _, _, _, rfl⟩ := Tree.group.inj here
      obtain ⟨_, _, _, _, rfl⟩ := Tree.group.inj there
      exact inner

omit plain sole in
/-- Fields are written before the constructor and the methods. -/
theorem memberPieces_fieldsFirst (plain : PlainClass c) :
    FieldsFirst ((memberPieces c).map member) := by
  refine ⟨c.fields.map ([·]), (if c.isEnum then [.other] else []) ++ c.methods.map .method, ?_,
    fun list => ?_⟩
  · rw [memberPieces_read plain, List.map_map]
    rfl
  · split <;> simp

private theorem class_fieldsFirst (noConstants : c.constants = []) :
    FieldsFirst ((pieces false sole.inside).map member) := by
  have inside : insideTrees c = (memberPieces c).flatten := by
    simp [insideTrees, noConstants, constantTrees]
  rw [members_bare (pieces_bare (sole_inside plain sole)), inside, memberPieces_cut]
  exact memberPieces_fieldsFirst plain

/-- Behind the constants of an enum a new file has the semicolon and the members. -/
theorem enum_rest (some : c.constants ≠ []) :
    ∃ separator rest, sole.inside.dropWhile (!·.isSymbol ";") = separator :: rest ∧
      Forall₂ SameBare rest (memberPieces c).flatten := by
  obtain ⟨first, more, shape⟩ := List.exists_cons_of_ne_nil some
  have inside : insideTrees c =
      callTrees first ++ commaTrees callTrees more ++ .leaf (ScannedText.symbolToken ";") ::
      (memberPieces c).flatten := by
    simp [insideTrees, shape, constantTrees, symbolTree]
  have like := (OutlineLikeness.cut_like (fun _ _ same => same.twin) (sole_inside plain sole) ";").2
  rw [inside, (cut_separated constants_inner (by decide) _).2] at like
  obtain ⟨separator, rest, _, behind, whole⟩ := List.forall₂_cons_right_iff.mp like
  exact ⟨separator, rest, whole, behind⟩

private theorem enum_fieldsFirst (some : c.constants ≠ []) :
    FieldsFirst ((enumMembers sole.inside).map member) := by
  obtain ⟨separator, rest, whole, like⟩ := enum_rest plain sole some
  rw [enumMembers, whole, List.tail_cons, members_bare (pieces_bare like), memberPieces_cut]
  exact memberPieces_fieldsFirst plain

private theorem enum_closed (some : c.constants ≠ []) {first second : List Tree} :
    ¬IsOpen sole first second := by
  intro isOpen
  obtain ⟨separator, rest, whole, _⟩ := enum_rest plain sole some
  simp [(cut_open isOpen.inner).2] at whole

end

/-- What a new file becomes by further members: new fields are the last ones, and new methods the
first ones. -/
theorem skeleton_grown {c : Class} (plain : PlainClass c) (shape : HasShape c) {found : SourceType}
    (read : sourceTypes? (skeletonText c) = some [found]) {missing : Missing}
    (members : PlainMembers missing.fields missing.methods)
    (open' : c.kind = .interface → missing.fields = [] ∧
      ∀ method ∈ missing.methods, method.isPrivate = false) (signatureOnly : Bool) :
    ∃ text new, splice? (skeletonText c) found.anchor (missing.lines signatureOnly) = some text ∧
      sourceTypes? text = some [new] ∧ new.type = { found.type with
        fields := found.type.fields ++ missing.fields
        methods := missing.methods ++ found.type.methods } := by
  obtain ⟨sole⟩ := exists_sole read
  obtain ⟨anchor, read'⟩ := skeleton_read plain shape
  have same : found.type.kind = c.kind := by
    obtain rfl : found = ⟨{ c with contained := [] }, anchor⟩ := by
      simpa using read.symm.trans read'
    rfl
  cases kind : c.kind with
  | plain =>
    simp only [HasShape, kind] at shape
    obtain ⟨text, new, first, second, spliced, accepted, cut, place, old, grown⟩ :=
      class_grown sole members signatureOnly (same.trans kind)
    have none := place.methodless (cut ▸ class_fieldsFirst plain sole shape)
    rw [none, List.nil_append] at old grown
    exact ⟨text, new, spliced, accepted, by rw [grown, old]⟩
  | interface =>
    obtain ⟨noFields, public'⟩ := open' kind
    obtain ⟨text, new, spliced, accepted, _, grown⟩ :=
      grown_interface sole members signatureOnly (same.trans kind)
    have all : missing.methods.map (shown .interface) = missing.methods := by
      conv_rhs => rw [← List.map_id missing.methods]
      refine List.map_congr_left fun method listed => ?_
      simp [shown, ← public' method listed]
    rw [all] at grown
    exact ⟨text, new, spliced, accepted, by rw [grown, noFields, List.append_nil]⟩
  | enum =>
    simp only [HasShape, kind] at shape
    obtain ⟨text, spliced,
        ⟨_, _, isOpen, _⟩ | ⟨_, new, first, second, accepted, cut, place, old, grown⟩⟩ :=
      enum_grown members signatureOnly (same.trans kind) sole
    · exact absurd isOpen (enum_closed plain sole shape.1)
    · have none := place.methodless (cut ▸ enum_fieldsFirst plain sole shape.1)
      rw [none, List.nil_append] at old grown
      exact ⟨text, new, spliced, accepted, by rw [grown, old]⟩

/-- Merging into a file that can be read succeeds, and what was merged is in the file. -/
theorem mergeFile_text {disk : Disk} {path : Path} {source : String} {existing : SourceType}
    {model : Class} {text : String} (read : disk.readText path = .ok source)
    (single : sourceTypes? source = some [existing])
    (spliced :
      splice? source existing.anchor
      ((Missing.between existing.type model).lines model.isInterface) = some text) :
    ∃ outcome changed, (mergeFile path model).run.run disk = (.ok outcome, changed) ∧
      ((Missing.between existing.type model).isEmpty = true ∧ outcome = .unchanged ∧
        changed = disk ∨
        (Missing.between existing.type model).isEmpty = false ∧ changed.readText path = .ok text ∧
          outcome = .merged (Missing.between existing.type model).fields.length
          (Missing.between existing.type model).methods.length) := by
  cases empty : (Missing.between existing.type model).isEmpty with
  | true =>
    refine ⟨.unchanged, disk, ?_, Or.inl ⟨rfl, rfl, rfl⟩⟩
    rw [mergeFile, run_bind_ok (run_ask_ok read)]
    simp only [merge, single, empty, if_true]
    rfl
  | false =>
    obtain ⟨written, done⟩ := writeText_readable read text
    refine ⟨_, written, ?_, Or.inr ⟨rfl, writeText_read done, rfl⟩⟩
    rw [mergeFile, run_bind_ok (run_ask_ok read)]
    simp only [merge, single, empty, Bool.false_eq_true, if_false, spliced]
    rw [run_bind_ok (run_attempt_ok done)]
    rfl

/-- Writing a class without some of its members and merging the class into the file gives a file
that declares what a new file for the whole class declares, with the same members: the fields that
were left out behind the others, the methods that were left out before. -/
theorem incremental_generation {c : Class} (plain : PlainClass c) (shape : HasShape c)
    (fields methods : String → Bool) {disk : Disk} {path : Path}
    (read : disk.readText path = .ok (skeletonText (without fields methods c))) :
    ∃ outcome changed text fresh grown, (mergeFile path c).run.run disk = (.ok outcome, changed) ∧
      changed.readText path = .ok text ∧
      (outcome = .unchanged ∨ outcome =
        .merged (c.fields.filter (fields ·.name)).length
        (c.methods.filter (methods ·.name)).length) ∧
      sourceTypes? (skeletonText c) = some [fresh] ∧ sourceTypes? text = some [grown] ∧
      grown.type = { fresh.type with
        fields := c.fields.filter (!fields ·.name) ++ c.fields.filter (fields ·.name)
        methods := c.methods.filter (methods ·.name) ++ c.methods.filter (!methods ·.name) } ∧
      grown.type.fields.Perm c.fields ∧ grown.type.methods.Perm c.methods := by
  obtain ⟨anchor, fresh⟩ := skeleton_read plain shape
  obtain ⟨anchor', partial'⟩ :=
    skeleton_read (without_plain fields methods plain) (without_shape fields methods shape)
  have missing :=
    @missing_without c fields methods { without fields methods c with contained := [] } rfl rfl
  have open' : (without fields methods c).kind = .interface → c.fields.filter (fields ·.name) = [] ∧
      ∀ method ∈ c.methods.filter (methods ·.name), method.isPrivate = false := by
    intro kind
    simp only [HasShape, show c.kind = .interface from kind] at shape
    obtain ⟨_, _, noFields, _, shown, _⟩ := shape
    exact ⟨by simp [noFields], fun method listed => shown method (List.mem_filter.mp listed).1⟩
  have members := missing_plain plain.members { without fields methods c with contained := [] }
  obtain ⟨text, new, spliced, accepted, grown⟩ :=
    skeleton_grown (without_plain fields methods plain) (without_shape fields methods shape)
      partial' members (missing ▸ open') c.isInterface
  obtain ⟨outcome, changed, run, result⟩ := mergeFile_text read partial' spliced
  rw [missing] at grown result
  have declared : ∃ text grown, changed.readText path = .ok text ∧
      sourceTypes? text = some [grown] ∧
      (outcome = .unchanged ∨ outcome =
        .merged (c.fields.filter (fields ·.name)).length
        (c.methods.filter (methods ·.name)).length) ∧ grown.type = { c with
        fields := c.fields.filter (!fields ·.name) ++ c.fields.filter (fields ·.name)
        methods := c.methods.filter (methods ·.name) ++ c.methods.filter (!methods ·.name)
        contained := [] } := by
    rcases result with ⟨empty, isUnchanged, rfl⟩ | ⟨_, reread, isMerged⟩
    · obtain ⟨noFields, noMethods⟩ : c.fields.filter (fields ·.name) = [] ∧
          c.methods.filter (methods ·.name) = [] := by
        simpa only [Missing.isEmpty, Bool.and_eq_true, List.isEmpty_iff] using empty
      refine ⟨_, _, read, partial', Or.inl isUnchanged, ?_⟩
      rw [noFields, noMethods, List.append_nil, List.nil_append]
      rfl
    · exact ⟨text, new, reread, accepted, Or.inr isMerged, grown⟩
  obtain ⟨text, new, reread, accepted, ended, same⟩ := declared
  refine ⟨outcome, changed, text, _, new, run, reread, ended, fresh, accepted, same, ?_, ?_⟩
  · rw [same]
    exact List.perm_append_comm.trans (List.filter_append_perm (fields ·.name) c.fields)
  · rw [same]
    exact List.filter_append_perm (methods ·.name) c.methods

def tram : Class where
  name := "Tram"
  kind := .enum
  constants := ["RED", "BLUE"]
  fields :=
    [{ name := "seats", type := "int", isPrivate := true }, { name := "depot", type := "Depot" },
      { name := "doors", type := "int" }]
  methods :=
    [{ name := "start", returnType := "void", parameters := [{ name := "stop", type := "Stop" }] },
    { name := "load", returnType := "int", isPrivate := true },
    { name := "halt", returnType := "void" }]

def depot (text : String) : Disk where
  root := .dir [("Tram.java", .file text.toUTF8)]
  cwd := []

private theorem depot_read (text : String) : (depot text).readText ⟨"Tram.java"⟩ = .ok text :=
  decode_encoded text

def tramDisk : Disk :=
  depot (skeletonText (without (· == "seats") (· == "halt") tram))

theorem tram_restored : PlainClass tram ∧ HasShape tram ∧
    tramDisk.readText ⟨"Tram.java"⟩ =
      .ok (skeletonText (without (· == "seats") (· == "halt") tram)) ∧
    ∃ outcome changed text fresh grown, (mergeFile ⟨"Tram.java"⟩ tram).run.run tramDisk =
      (.ok outcome, changed) ∧ changed.readText ⟨"Tram.java"⟩ = .ok text ∧
      (outcome = .unchanged ∨ outcome =
        .merged (tram.fields.filter (·.name == "seats")).length
        (tram.methods.filter (·.name == "halt")).length) ∧
      sourceTypes? (skeletonText tram) = some [fresh] ∧ sourceTypes? text = some [grown] ∧
      grown.type = { fresh.type with
        fields := tram.fields.filter (!·.name == "seats") ++ tram.fields.filter (·.name == "seats")
        methods :=
  tram.methods.filter (·.name == "halt") ++ tram.methods.filter (!·.name == "halt") } ∧
      grown.type.fields.Perm tram.fields ∧ grown.type.methods.Perm tram.methods := by
  have members : PlainMembers tram.fields tram.methods := ⟨by decide +kernel, by decide +kernel⟩
  have plain : PlainClass tram :=
    ⟨by decide +kernel, by simp [tram], by simp [tram], by decide +kernel, members⟩
  have shape : HasShape tram := ⟨by simp [tram], rfl, rfl, rfl⟩
  have read : tramDisk.readText ⟨"Tram.java"⟩ =
      .ok (skeletonText (without (· == "seats") (· == "halt") tram)) := depot_read _
  exact ⟨plain, shape, read, incremental_generation plain shape (· == "seats") (· == "halt") read⟩

end ClassDiagram.Proofs.IncrementalGeneration
