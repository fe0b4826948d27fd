import ClassDiagram.Proofs.EnumBodies
import ClassDiagram.Proofs.MergedMembers

/-! Merging a model into an enum. The members go behind the constants, after a semicolon if there is
none yet, or among the members that are there. The source stays one that declares this enum, with
its constants and its old members, if and only if no comma of the constants is left behind the new
semicolon. -/

namespace ClassDiagram.Proofs.EnumMerges
open Java Java.Tree Java.Outline TokenTrees BareTrees SourceCuts TokenOrder GrownSources
  MemberPlaces EnumBodies MergedMembers DiskChanges FileWrites
open Files (Disk)

/-- Whether a comma is the next token behind the place for new members, where these come with the
semicolon that ends the constants. -/
def strandsComma (source : String) (anchor : Anchor) : Bool :=
  anchor.needsSeparator && (((tokens? source.toList).getD []).find? (anchor.offset ≤ ·.start)).any
    (·.isSymbol ",")

section
variable {source : String} {found : SourceType} {sole : Sole source found}

private theorem sole_closes (sole : Sole source found) : sole.closing.kind = .closing .brace := by
  have well := sole.well
  rw [← List.append_assoc, wellBuilt_split] at well
  exact well.2.1.2.1

/-- The next token behind a place of the body is the first of the trees that follow, or the brace
that closes the body. -/
theorem next_token {first second : List Tree} (place : Anchored sole first second) :
    ((tokens? source.toList).getD []).find? (found.anchor.offset ≤ ·.start) =
      (allTokens second ++ [sole.closing]).head? := by
  obtain ⟨before, t, ended, _, offset⟩ := place.edge
  have lexed := sole.lexed
  rw [place.whole, ← List.nil_append second, sole.tokens_eq ended] at lexed
  rw [lexed, offset, Option.getD_some, (tokens_ordered lexed).next]
  cases shape : allTokens second with
  | nil => simp [allTokens]
  | cons => simp [allTokens]

private theorem strandsComma_open {first second : List Tree} (isOpen : IsOpen sole first second) :
    strandsComma source found.anchor = (second.head?.any (·.isSymbol ",")) := by
  have brace : sole.closing.isSymbol "," = false := by simp [Token.isSymbol, sole_closes sole]
  rw [strandsComma, isOpen.needed, next_token isOpen.anchored]
  rcases isOpen.behind with rfl | ⟨comma, rfl, isComma⟩
  · simp [allTokens, brace]
  · simp [allTokens, tokensOf, isSymbol]

end

/-- A merge that reports members has written the source with their lines. -/
theorem mergeFile_spliced {disk changed : Disk} {path : Path} {source : String}
    {existing : SourceType} {model : Class} {fields methods : Nat}
    (read : disk.readText path = .ok source) (single : sourceTypes? source = some [existing])
    (merged : (mergeFile path model).run.run disk = (.ok (.merged fields methods), changed)) :
    ∃ text, splice? source existing.anchor
      ((Missing.between existing.type model).lines model.isInterface) = some text ∧
      changed.readText path = .ok text := by
  obtain ⟨_, _, failed⟩ | ⟨_, read', ⟨_, other, _⟩ | ⟨_, _, text, isMerged, written, same⟩⟩ :=
    mergeFile_cases merged
  · exact nomatch failed
  · exact absurd rfl (other fields methods)
  obtain rfl := Except.ok.inj (read.symm.trans read')
  obtain ⟨existing', single', _, _, spliced⟩ := merge_merged isMerged
  obtain rfl : existing = existing' := by simpa using single.symm.trans single'
  exact ⟨text, spliced, writeText_read written⟩

/-- A merge into an enum adds exactly the members whose names were missing, behind the old fields
and together among the methods, and keeps everything else; but where the semicolon that it puts
before them lands before a comma, the source is refused from then on. -/
theorem merge_into_enum {disk changed : Disk} {path : Path} {source : String}
    {existing : SourceType} {model : Class} {fields methods : Nat}
    (read : disk.readText path = .ok source) (single : sourceTypes? source = some [existing])
    (kind : existing.type.kind = .enum)
    (plain : PlainMembers (Missing.between existing.type model).fields
      (Missing.between existing.type model).methods)
    (merged : (mergeFile path model).run.run disk = (.ok (.merged fields methods), changed)) :
    ∃ text, changed.readText path = .ok text ∧
      (strandsComma source existing.anchor = true → sourceTypes? text = none) ∧
      (strandsComma source existing.anchor = false →
        ∃ new before after, sourceTypes? text = some [new] ∧
        existing.type.methods = before ++ after ∧ new.type = { existing.type with
          fields := existing.type.fields ++ model.fields.filter (!existing.type.hasField ·.name)
          methods :=
  before ++ (model.methods.filter (!existing.type.hasMethod ·.name) ++ after) }) := by
  obtain ⟨text, spliced, reread⟩ := mergeFile_spliced read single merged
  obtain ⟨sole⟩ := exists_sole single
  obtain ⟨text', spliced', grown⟩ := enum_grown plain model.isInterface kind sole
  obtain rfl := Option.some.inj (spliced.symm.trans spliced')
  refine ⟨text, reread, ?_⟩
  rcases grown with ⟨first, comma, isOpen, isComma, refused⟩ |
    ⟨behind, new, first, second, accepted, _, _, old, grown⟩
  · have stranded : strandsComma source existing.anchor = true := by
      simp [strandsComma_open isOpen, isSymbol, isComma]
    exact ⟨fun _ => refused, fun clear => by simp [stranded] at clear⟩
  · have clear : strandsComma source existing.anchor = false := by
      cases needed : existing.anchor.needsSeparator with
      | false => simp [strandsComma, needed]
      | true =>
        obtain ⟨_, isOpen⟩ := behind needed
        simp [strandsComma_open isOpen]
    exact ⟨fun stranded => by simp [clear] at stranded, fun _ => ⟨new, _, _, accepted, old, grown⟩⟩

def coinText : String :=
  "enum Coin \x7b\n    PENNY(1), /* ten of them */ DIME(10) \x7b int rim() \x7b return 2; \x7d \x7d, // more to come\n\x7d\n"

def strandedText : String :=
  "enum Coin \x7b PENNY /* only */, \x7d"

def purse (text : String) : Disk where
  root := .dir [("Coin.java", .file text.toUTF8)]
  cwd := []

def fullCoin : Class where
  name := "Coin"
  kind := .enum
  fields := [{ name := "worth", type := "int", isPrivate := true }]
  methods := [{ name := "toss", returnType := "boolean" }]

/-- What is known of a merge into such a file before the merged text is read. -/
theorem purse_merged {text : String} {stranded : Bool}
    (typed : ((sourceTypes? text).any fun types =>
      types.map (fun found => (found.type.kind, strandsComma text found.anchor)) ==
      [(.enum, stranded)]) = true)
    (ran : ((mergeFile ⟨"Coin.java"⟩ fullCoin).run.run (purse text)).1.toOption =
      some (.merged 1 1)) :
    ∃ existing fields methods changed, (purse text).readText ⟨"Coin.java"⟩ = .ok text ∧
      sourceTypes? text = some [existing] ∧
      existing.type.kind = .enum ∧ strandsComma text existing.anchor = stranded ∧
      (mergeFile ⟨"Coin.java"⟩ fullCoin).run.run (purse text) =
        (.ok (.merged fields methods), changed) := by
  have read : (purse text).readText ⟨"Coin.java"⟩ = .ok text := decode_encoded text
  obtain ⟨types, found, kinds⟩ := (Option.any_eq_true _ _).mp typed
  obtain ⟨existing, rfl, facts⟩ := List.map_eq_singleton_iff.mp (beq_iff_eq.mp kinds)
  obtain ⟨kind, comma⟩ := Prod.mk.inj facts
  obtain ⟨changed, run⟩ := run_of_value ran
  exact ⟨existing, 1, 1, changed, read, found, kind, comma, run⟩

theorem coin_merged :
    (∃ existing fields methods changed text new before after,
      (purse coinText).readText ⟨"Coin.java"⟩ = .ok coinText ∧
      sourceTypes? coinText = some [existing] ∧ existing.type.kind = .enum ∧
      strandsComma coinText existing.anchor = false ∧
      (mergeFile ⟨"Coin.java"⟩ fullCoin).run.run (purse coinText) =
        (.ok (.merged fields methods), changed) ∧
      changed.readText ⟨"Coin.java"⟩ = .ok text ∧ sourceTypes? text = some [new] ∧
      existing.type.methods = before ++ after ∧
      new.type = { existing.type with
        fields := existing.type.fields ++ fullCoin.fields.filter (!existing.type.hasField ·.name)
        methods :=
  before ++ (fullCoin.methods.filter (!existing.type.hasMethod ·.name) ++ after) }) ∧
    ∃ existing fields methods changed text, (purse strandedText).readText ⟨"Coin.java"⟩ =
    .ok strandedText ∧
      sourceTypes? strandedText = some [existing] ∧ existing.type.kind = .enum ∧
      strandsComma strandedText existing.anchor = true ∧
      (mergeFile ⟨"Coin.java"⟩ fullCoin).run.run (purse strandedText) =
      (.ok (.merged fields methods), changed) ∧
      changed.readText ⟨"Coin.java"⟩ = .ok text ∧ sourceTypes? text = none := by
  have plain : PlainMembers fullCoin.fields fullCoin.methods :=
    ⟨by decide +kernel, by decide +kernel⟩
  constructor
  · obtain ⟨existing, fields, methods, changed, read, single, kind, clear, merged⟩ :=
      @purse_merged coinText false (by decide +kernel) (by decide +kernel)
    obtain ⟨text, reread, _, kept⟩ :=
      merge_into_enum read single kind (missing_plain plain existing.type) merged
    obtain ⟨new, before, after, accepted, parts, grown⟩ := kept clear
    exact ⟨existing, fields, methods, changed, text, new, before, after, read, single, kind, clear,
      merged, reread, accepted, parts, grown⟩
  · obtain ⟨existing, fields, methods, changed, read, single, kind, stranded, merged⟩ :=
      @purse_merged strandedText true (by decide +kernel) (by decide +kernel)
    obtain ⟨text, reread, refused, _⟩ :=
      merge_into_enum read single kind (missing_plain plain existing.type) merged
    exact ⟨existing, fields, methods, changed, text, read, single, kind, stranded, merged, reread,
      refused stranded⟩

end ClassDiagram.Proofs.EnumMerges
