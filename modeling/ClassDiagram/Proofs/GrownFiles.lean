import ClassDiagram.Proofs.Insertions
import ClassDiagram.Proofs.PathPlaces

/-! Files that only grow. Generation creates files where none were and merges into others, and
merging puts bytes in between: whatever becomes of a run, a file that was there keeps its bytes in
their order, and one that changes is a Java file. -/

namespace ClassDiagram.Proofs.GrownFiles
open Files Walks DiskChanges FileWrites PathPlaces Insertions

def bytes (content : ByteArray) : List UInt8 :=
  content.data.toList

def IsJavaName (name : String) : Prop :=
  ∃ stem, name = stem ++ ".java"

/-- Files stay where they are. Those with other content are Java files in which the old bytes are
left, in order. -/
def Grows (old new : Disk) : Prop :=
  ∀ place content, fileAt old.root place = some content →
    ∃ later, fileAt new.root place = some later ∧
    (later = content ∨ (∃ name, place.getLast? = some name ∧ IsJavaName name) ∧
      (bytes content).Sublist (bytes later))

theorem Grows.of_files {old new : Disk}
    (same : ∀ place, fileAt new.root place = fileAt old.root place) : Grows old new :=
  fun place content found => ⟨content, (same place).trans found, Or.inl rfl⟩

theorem Grows.refl (disk : Disk) : Grows disk disk :=
  .of_files fun _ => rfl

theorem Grows.trans {first second third : Disk} (one : Grows first second)
    (two : Grows second third) : Grows first third := by
  intro place content found
  obtain ⟨between, found, kept⟩ := one place content found
  obtain ⟨last, found, still⟩ := two place between found
  refine ⟨last, found, ?_⟩
  rcases kept with rfl | ⟨named, kept⟩
  · exact still
  · rcases still with rfl | ⟨_, still⟩
    · exact Or.inr ⟨named, kept⟩
    · exact Or.inr ⟨named, kept.trans still⟩

/-- What is decoded is what was encoded. -/
theorem decode_bytes {content : ByteArray} {text : String} (read : Disk.decode content = .ok text) :
    content = text.toUTF8 := by
  simp only [Disk.decode] at read
  split at read
  next decoded found =>
    obtain rfl := Except.ok.inj read
    simp only [String.fromUTF8?] at found
    split at found
    next valid =>
      obtain rfl := Option.some.inj found
      rfl
    next => simp at found
  next => simp at read

private theorem toUTF8_append {text : String} {first second : List Char}
    (whole : text.toList = first ++ second) :
    bytes text.toUTF8 = bytes first.utf8Encode ++ bytes second.utf8Encode := by
  have encoded : text.toUTF8 = first.utf8Encode ++ second.utf8Encode := by
    rw [← List.utf8Encode_append, ← whole]
    exact String.utf8Encode_toList.symm
  rw [encoded, bytes, ByteArray.data_append, Array.toList_append]
  rfl

/-- A text that is put into another one leaves the bytes of that. -/
theorem inserted_bytes {old new : String} {before inserted after : List Char}
    (source : old.toList = before ++ after) (text : new.toList = before ++ inserted ++ after) :
    (bytes old.toUTF8).Sublist (bytes new.toUTF8) := by
  rw [List.append_assoc] at text
  rw [toUTF8_append source, toUTF8_append text]
  have behind : bytes (inserted ++ after).utf8Encode =
      bytes inserted.utf8Encode ++ bytes after.utf8Encode := by
    simp [bytes, List.utf8Encode_append, ByteArray.data_append]
  rw [behind]
  exact (List.Sublist.refl _).append (List.sublist_append_right _ _)

private theorem inserted_between {source head tail text before after : List Char}
    {needsSeparator : Bool} {lines : List String}
    (inserted : Inserted source head tail needsSeparator lines text before after) :
    ∃ between, text = before ++ between ++ after := by
  cases loose : Java.isLoose (tail.takeWhile (· != '\n')) with
  | false => exact ⟨_, (inserted.split loose).2.1⟩
  | true =>
    rcases inserted.loose loose with ⟨_, whole, _⟩ | ⟨_, _, _, whole⟩
    · exact ⟨_, whole⟩
    · exact ⟨_, whole⟩

private theorem merge_bytes {source text : String} {model : Class} {fields methods : Nat}
    (merged : Java.merge source model = .merged fields methods text) :
    (bytes source.toUTF8).Sublist (bytes text.toUTF8) := by
  obtain ⟨existing, single, _, _, spliced⟩ := MergedMembers.merge_merged merged
  obtain ⟨head, tail, whole, here, _⟩ := anchor_followed single
  obtain ⟨text', before, after, spliced', inserted⟩ :=
    splice_inserts whole (Or.inl here)
      (Java.Missing.lines model.isInterface (.between existing.type model))
  obtain rfl := Option.some.inj (spliced.symm.trans spliced')
  obtain ⟨between, parts⟩ := inserted_between inserted
  exact inserted_bytes inserted.source_eq parts

private theorem writes_grows {disk written : Disk} {path : Path} {text : String}
    {place : List String} {name : String} (writes : Writes disk path text written place name)
    (here : ∀ content, fileAt disk.root (place ++ [name]) = some content → IsJavaName name ∧
      (bytes content).Sublist (bytes text.toUTF8)) :
    Grows disk written := by
  intro other content found
  by_cases same : other = place ++ [name]
  · subst same
    obtain ⟨named, kept⟩ := here content found
    exact ⟨text.toUTF8, fileAt_iff.mpr writes.here, Or.inr ⟨⟨name, by simp, named⟩, kept⟩⟩
  · exact ⟨content, (writes.files same).trans found, Or.inl rfl⟩

/-- Where nothing was, nothing is lost. -/
theorem create_grows {disk written : Disk} {path : Path} {text : String}
    (new : disk.has path = false) (done : disk.writeText path text = .ok written) :
    Grows disk written := by
  obtain ⟨place, name, writes⟩ := writeText_writes done
  refine writes_grows writes fun content found => ?_
  have here : disk.node path = .ok (.file content) := by
    simp [Disk.node, writes.spotted, fileAt_iff.mp found]
  simp [Disk.has, here] at new

/-- The file of a class has its name. -/
theorem spotted_javaName {disk : Disk} {dir : Path} {stem last : String} {place : List String}
    {asDir : Bool} (isFile : Path.isFileName ⟨stem ++ ".java"⟩ = true)
    (spotted : disk.spot (dir.join (stem ++ ".java")) = .ok ⟨place ++ [last], asDir⟩) :
    last = stem ++ ".java" := by
  obtain ⟨_, single⟩ := javaFile_named isFile
  have down : Path.isDownward ⟨stem ++ ".java"⟩ = true := by simp [Path.isDownward, single]
  have led : place ++ [last] = placeOf disk.cwd dir ++ [stem ++ ".java"] := by
    have whole := spot_place spotted
    rwa [placeOf, join_components down, single, List.foldl_append] at whole
  exact List.singleton_inj.mp (List.append_inj' led rfl).2

private theorem mergeFile_grows {disk : Disk} {dir : Path} {c : Class}
    (isFile : Path.isFileName ⟨c.name ++ ".java"⟩ = true) :
    Grows disk ((mergeFile (dir.join (c.name ++ ".java")) c).run.run disk).2 := by
  cases run : (mergeFile (dir.join (c.name ++ ".java")) c).run.run disk with
  | mk outcome changed =>
    rcases mergeFile_cases run with ⟨rfl, _⟩ |
      ⟨source, read, ⟨rfl, _⟩ | ⟨fields, methods, text, merged, written, _⟩⟩
    · exact .refl changed
    · exact .refl changed
    · obtain ⟨place, name, writes⟩ := writeText_writes written
      refine writes_grows writes fun content found =>
        ⟨⟨c.name, spotted_javaName isFile writes.spotted⟩, ?_⟩
      obtain ⟨names, old, spotted, here, decoded⟩ := readText_place read
      obtain ⟨rfl, _⟩ := Spot.mk.inj (Except.ok.inj (writes.spotted.symm.trans spotted))
      obtain rfl := Option.some.inj (found.symm.trans here)
      rw [decode_bytes decoded]
      exact merge_bytes merged

def Growing {α : Type} (work : Work α) : Prop :=
  ∀ disk, Grows disk (work.run.run disk).2

theorem Growing.pure {α : Type} (value : α) : Growing (Pure.pure value) :=
  fun disk => .refl disk

theorem Growing.bind {α β : Type} {work : Work α} {next : α → Work β} (first : Growing work)
    (second : ∀ value, Growing (next value)) : Growing (work >>= next) := by
  intro disk
  have start := first disk
  cases run : work.run.run disk with
  | mk outcome between =>
    rw [run] at start
    cases outcome with
    | error error =>
      rw [run_bind_error run]
      exact start
    | ok value =>
      rw [run_bind_ok run]
      exact start.trans (second value between)

theorem Growing.makeDirs (path : Path) : Growing (Work.makeDirs path) := by
  intro disk
  rw [Work.makeDirs, run_get]
  cases made : disk.makeDirs path with
  | mk outcome between =>
    have stays := makeDirs_stays made
    cases outcome <;> exact .of_files stays.files

private theorem writeClass_growing (dir : Path) (c : Class) :
    Growing (Generation.writeClass dir c) := by
  simp only [Generation.writeClass]
  split
  next isFile =>
    intro disk
    rw [run_get]
    split
    next there =>
      have merges : Growing (mergeFile (dir.join (c.name ++ ".java")) c) :=
        fun _ => mergeFile_grows isFile
      refine merges.bind (fun outcome => ?_) disk
      cases outcome <;> exact .pure _
    next new =>
      cases done : disk.writeText (dir.join (c.name ++ ".java")) (Java.skeletonText c) with
      | error fault =>
        rw [run_bind_error (run_attempt_error done)]
        exact .refl disk
      | ok written =>
        rw [run_bind_ok (run_attempt_ok done)]
        exact create_grows (by simpa using new) done
  next => exact .pure _

private theorem writeClasses_growing (dir : Path) (classes : List Class) :
    Growing (Generation.writeClasses dir classes) := by
  induction classes with
  | nil => exact .pure _
  | cons c rest ih => exact .bind (writeClass_growing dir c) fun _ => .bind ih fun _ => .pure _

mutual
theorem writePackage_growing (parent : Path) (p : Package) :
    Growing (Generation.writePackage parent p) := by
  match p with
  | ⟨name, classes, packages⟩ =>
    simp only [Generation.writePackage]
    split
    · exact .bind (.makeDirs _) fun _ => .bind (writePackages_growing _ packages) fun _ =>
        .bind (writeClasses_growing _ classes) fun _ => .pure _
    · exact .pure _
termination_by structural p

private theorem writePackages_growing (parent : Path) (packages : List Package) :
    Growing (Generation.writePackages parent packages) := by
  match packages with
  | [] => exact .pure _
  | p :: rest =>
    exact .bind (writePackage_growing parent p) fun _ =>
      .bind (writePackages_growing parent rest) fun _ => .pure _
termination_by structural packages
end

theorem generate_growing (project : Project) (root : Path) : Growing (generate project root) :=
  .bind (.makeDirs root) fun _ => .bind (writePackages_growing root project.packages) fun _ =>
    .bind (writeClasses_growing root project.classes) fun _ => .pure _

end ClassDiagram.Proofs.GrownFiles
