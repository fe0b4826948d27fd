import ClassDiagram.Proofs.ExtractionRoundTrip
import Mathlib.Data.List.Induction
import Mathlib.Data.List.Nodup

/-! The arrows of a diagram. Index and containment are computed from names and fields, and the
arrows from index and containment. Taken together, a class has one arrow for each type of its fields
that is the name of a class, in the order in which the types come first, and the arrow tells one
field from several. -/

namespace ClassDiagram.Diagram

/-- The types of fields, each once, where it comes first. -/
def fieldTypes (fields : List Field) : List String :=
  (fields.map Field.type).eraseDups

/-- The line for all fields of a class that have one type. -/
def containmentLine (source : String) (fields : List Field) (target : String) : String :=
  if (fields.filter (·.type == target)).length = 1 then source ++ " o-- " ++ target ++ ": contains"
  else source ++ " \"1\" o-- \"many\" " ++ target ++ ": contains"

/-- The lines for all classes, given by their names and fields. -/
def containmentLines (classes : List (String × List Field)) : List String :=
  classes.flatMap fun (source, fields) =>
    ((fieldTypes fields).filter fun target => classes.any (·.1 == target)).map
      (containmentLine source fields)

end ClassDiagram.Diagram

namespace ClassDiagram.Proofs.ContainmentArrows
open Diagram

/-- The index has what the list has, each once, in the order of first occurrences. -/
structure Indexes (index whole : List String) : Prop where
  distinct : index.Nodup
  complete : ∀ name, name ∈ index ↔ name ∈ whole
  ordered : index.Pairwise fun first second => whole.idxOf first < whole.idxOf second

/-- A last element is left out if it occurred before. -/
theorem eraseDups_concat (front : List String) (last : String) :
    (front ++ [last]).eraseDups = if last ∈ front then front.eraseDups
      else front.eraseDups ++ [last] := by
  rw [List.eraseDups_append]
  by_cases before : last ∈ front
  · simp [List.removeAll, before]
  · simp [List.removeAll, before, List.eraseDups_cons]

private theorem eraseDups_indexes (whole : List String) : Indexes whole.eraseDups whole := by
  induction whole using List.reverseRecOn with
  | nil => exact ⟨by simp, by simp, by simp⟩
  | append_singleton front last ih =>
    have older : ∀ {name}, name ∈ front.eraseDups →
        (front ++ [last]).idxOf name = front.idxOf name := fun member =>
      List.idxOf_append_of_mem (List.mem_eraseDups.mp member)
    have ordered : front.eraseDups.Pairwise fun first second =>
        (front ++ [last]).idxOf first < (front ++ [last]).idxOf second :=
      ih.ordered.imp_of_mem fun first second less => by rwa [older first, older second]
    refine ⟨?_, fun name => List.mem_eraseDups, ?_⟩ <;> rw [eraseDups_concat] <;> split
    · exact ih.distinct
    next fresh =>
      exact List.nodup_append_comm.mp (List.nodup_cons.mpr ⟨by simpa using fresh, ih.distinct⟩)
    · exact ordered
    next fresh =>
      refine List.pairwise_append.mpr ⟨ordered, by simp, ?_⟩
      intro name member other single
      obtain rfl := List.mem_singleton.mp single
      rw [older member, List.idxOf_append_of_notMem fresh]
      have inside := List.idxOf_lt_length_of_mem (List.mem_eraseDups.mp member)
      omega

private theorem eraseDups_filter (keep : String → Bool) (whole : List String) :
    (whole.filter keep).eraseDups = whole.eraseDups.filter keep := by
  induction whole using List.reverseRecOn with
  | nil => rfl
  | append_singleton front last ih =>
    by_cases kept : keep last = true
    · have longer : (front ++ [last]).filter keep = front.filter keep ++ [last] := by simp [kept]
      have same : last ∈ front.filter keep ↔ last ∈ front := by simp [kept]
      rw [longer, eraseDups_concat, eraseDups_concat, ih]
      by_cases before : last ∈ front
      · rw [if_pos before, if_pos (same.mpr before)]
      · rw [if_neg before, if_neg (before ∘ same.mp), List.filter_append]
        simp [kept]
    · have shorter : (front ++ [last]).filter keep = front.filter keep := by simp [kept]
      rw [shorter, eraseDups_concat, ih]
      split
      · rfl
      · simp [kept]

/-- A project as normalizing, extracting or reading leaves it. -/
inductive Finished : Project → Prop where
  | normalized (p : Project) : Finished p.normalize
  | extracted {disk : Files.Disk} {source : Path} {exclude : List String} {found : Extraction} :
    extract disk source exclude = .ok found → Finished found.project
  | read (text : String) : Finished (Diagram.read text)

private theorem linked_indexed (p : Project) : p.indexNames.inferContainment.Indexed :=
  PackageTree.relinked (Class.inferContained _) _ p (fun _ => rfl) (fun _ _ => rfl)

theorem Finished.indexed {p : Project} (finished : Finished p) : p.Indexed := by
  cases finished with
  | normalized p => exact linked_indexed p.collapsePackages
  | extracted extracted =>
    obtain ⟨_, _, harvest, _, _, _, normal⟩ := ExtractionRoundTrip.extract_gathers extracted
    rw [normal]
    exact linked_indexed _
  | read text => exact linked_indexed _

section
variable {p : Project} (indexed : p.Indexed)
include indexed

private theorem index_eq : p.classNames = (p.allClasses.map Class.name).eraseDups :=
  (congrArg Project.classNames indexed).symm

private theorem known_iff (name : String) :
    p.classNames.contains name = true ↔ ∃ c ∈ p.allClasses, c.name = name := by
  rw [index_eq indexed]
  simp

/-- Containment is what the fields and the index say. -/
theorem contained_eq {c : Class} (member : c ∈ p.allClasses) :
    c.contained = (c.fields.map Field.type).filter p.classNames.contains := by
  have same : p.allClasses.map (Class.inferContained p.classNames) = p.allClasses := by
    have classes :=
      PackageTree.project_allClasses_map (Class.inferContained p.indexNames.classNames) p.indexNames
    rw [show p.indexNames.mapClasses _ = p from indexed,
      show p.indexNames.classNames = p.classNames from (index_eq indexed).symm] at classes
    exact classes.symm
  have own : c.inferContained p.classNames = c :=
    List.map_inj_left.mp (same.trans (List.map_id _).symm) c member
  exact (congrArg Class.contained own).symm

/-- The arrows of a class by its fields. -/
theorem arrows_eq {c : Class} (member : c ∈ p.allClasses) :
    arrows p.classNames c =
      ((fieldTypes c.fields).filter fun target =>
        (p.allClasses.map fun c => (c.name, c.fields)).any (·.1 == target)).map
      (containmentLine c.name c.fields) := by
  have known : ∀ target, (p.allClasses.map fun c => (c.name, c.fields)).any (·.1 == target) =
      p.classNames.contains target := by
    intro target
    rw [Bool.eq_iff_iff, known_iff indexed]
    simp
  have targets : c.contained.filter p.classNames.contains =
      (c.fields.map Field.type).filter p.classNames.contains := by
    rw [contained_eq indexed member, List.filter_filter]
    simp only [Bool.and_self]
  simp only [arrows, targets, eraseDups_filter, known, fieldTypes]
  refine List.map_congr_left fun target listed => ?_
  have count : ((c.fields.map Field.type).filter p.classNames.contains).count target =
      (c.fields.filter (·.type == target)).length := by
    rw [List.count_filter (List.mem_filter.mp listed).2, List.count, List.countP_map,
      List.countP_eq_length_filter]
    rfl
  rw [count]
  rfl

end

/-- Between the blocks and the end of the diagram stand the arrows that names and fields alone call
for. The index lists the names of all classes, each once, where it comes first, so that a name is
known if and only if there is a class to be found. -/
theorem arrows_follow_fields {p : Project} (finished : Finished p) :
    render p = [startMarker] ++ packagesLines 0 p.packages ++ p.classes.flatMap (classLines 0) ++
        containmentLines (p.allClasses.map fun c => (c.name, c.fields)) ++ [endMarker] ∧
      (∀ c ∈ p.allClasses, Indexes (fieldTypes c.fields) (c.fields.map Field.type)) ∧
      Indexes p.classNames (p.allClasses.map Class.name) ∧
      ∀ name, p.isKnown name = true ↔ (p.find? name).isSome = true := by
  have indexed := finished.indexed
  refine ⟨?_, fun c _ => eraseDups_indexes _, ?_, fun name => ?_⟩
  · have arrows : p.allClasses.flatMap (arrows p.classNames) =
        containmentLines (p.allClasses.map fun c => (c.name, c.fields)) := by
      rw [containmentLines, List.flatMap_map]
      exact List.flatMap_congr fun c member => arrows_eq indexed member
    rw [render, arrows]
  · rw [index_eq indexed]
    exact eraseDups_indexes _
  · rw [Project.isKnown, known_iff indexed, Project.find?, List.find?_isSome]
    simp

def garage : Project where
  classes :=
    [{ name := "Car", fields :=
         [⟨"engine", "Engine", true⟩, ⟨"front", "Wheel", true⟩, ⟨"trailer", "Car", true⟩,
           ⟨"back", "Wheel", true⟩, ⟨"name", "String", true⟩] }]
  packages :=
    [{ name := "parts", packages :=
         [{ name := "spare", classes := [{ name := "Wheel" }, { name := "Engine" },
    { name := "Wheel", fields := [⟨"of", "Car", false⟩] }] }] }]

theorem garage_arrows : garage.normalize.classNames = ["Car", "Wheel", "Engine"] ∧
    (∃ blocks, render garage.normalize =
      blocks ++ ["Car o-- Engine: contains", "Car \"1\" o-- \"many\" Wheel: contains",
      "Car o-- Car: contains", "Wheel o-- Car: contains"] ++ [endMarker]) ∧
    Indexes garage.normalize.classNames (garage.normalize.allClasses.map Class.name) := by
  obtain ⟨drawn, _, names, _⟩ := arrows_follow_fields (.normalized garage)
  exact ⟨by decide, ⟨_, drawn⟩, names⟩

end ClassDiagram.Proofs.ContainmentArrows
