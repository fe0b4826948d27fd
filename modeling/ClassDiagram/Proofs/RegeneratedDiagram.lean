import ClassDiagram.Proofs.RegeneratedTree

/-! Sources, their diagram, new sources made of it in an empty directory, and the diagram of those.
The packages come back since directories that were collapsed are collapsed again, and a class comes
back as it was unless it is an enum without constants: then the constructor in its new file is read
as a constant, or the file is refused. -/

namespace ClassDiagram.Proofs.RegeneratedDiagram
open Files Extraction Walks Regeneration RepeatedGeneration SortedHarvest GrownDirectories
  GeneratedTree RegeneratedTree
open ScannedTree ExtractionRoundTrip OutlineNames SkeletonText Skeletons

section
open Java Java.Outline

private theorem bodyType_shaped (kind : Kind) (isAbstract : Bool) (name : String) (more : List Tree)
    (opening : Nat) (inside : List Tree) :
    let c := (bodyType (header kind isAbstract name more) opening inside).type
    (c.kind = .enum → c.constants ≠ []) → HasShape c := by
  cases kind with
  | plain => exact fun _ => rfl
  | interface =>
    refine fun _ => ⟨rfl, rfl, rfl, rfl, fun method listed => ?_, rfl⟩
    obtain ⟨shown, _, rfl⟩ := List.mem_map.mp listed
    rfl
  | enum =>
    simp only [bodyType, header, enumType]
    split
    · exact fun some => ⟨some rfl, rfl, rfl, rfl⟩
    · exact fun some => ⟨some rfl, rfl, rfl, rfl⟩

/-- The classes of a source have the shapes that a source gives, but for enums without constants. -/
theorem sourceTypes_shaped {source : String} {types : List SourceType}
    (read : sourceTypes? source = some types) :
    ∀ found ∈ types, (found.type.kind = .enum → found.type.constants ≠ []) →
      HasShape found.type := by
  intro found listed
  obtain ⟨kind, isAbstract, name, more, opening, inside, rfl⟩ := sourceTypes_headed read listed
  exact bodyType_shaped kind isAbstract name more opening inside

end

private theorem extracted_shaped {disk : Disk} {source : Path} {exclude : List String}
    {found : Extraction} (extracted : extract disk source exclude = .ok found) {c : Class}
    (member : c ∈ found.project.allClasses) (some : c.kind = .enum → c.constants ≠ []) :
    HasShape c := by
  obtain ⟨raw, known, rfl, file, listed, types, read, among⟩ := extract_declares extracted member
  obtain ⟨type, present, rfl⟩ := List.mem_map.mp among
  exact sourceTypes_shaped read type present some

private theorem mapClasses_name (f : Class → Class) (p : Package) :
    (p.mapClasses f).name = p.name := by
  cases p
  rfl

private theorem arranged_map {f : Class → Class} (name : ∀ c, (f c).name = c.name)
    {classes : List Class} {packages : List Package} (arranged : Arranged classes packages) :
    Arranged (classes.map f) (Package.mapAll f packages) := by
  have file : ∀ c, fileOf (f c) = fileOf c := fun c => by rw [fileOf, name, fileOf]
  rw [PackageTree.mapAll_eq]
  refine ⟨?_, ?_, ?_, ?_⟩
  · simpa [file] using arranged.named
  · simpa [List.pairwise_map, file] using arranged.files
  · simpa [List.pairwise_map, mapClasses_name] using arranged.directories
  · simpa [file, mapClasses_name] using arranged.apart

mutual
theorem orderly_map {f : Class → Class} (name : ∀ c, (f c).name = c.name) (p : Package)
    (orderly : Orderly p) : Orderly (p.mapClasses f) := by
  match p with
  | ⟨label, classes, packages⟩ =>
    obtain ⟨named, arranged, below⟩ := orderly
    exact ⟨named, arranged_map name arranged, allOrderly_map name packages below⟩
termination_by structural p

private theorem allOrderly_map {f : Class → Class} (name : ∀ c, (f c).name = c.name)
    (all : List Package) (orderly : AllOrderly all) : AllOrderly (Package.mapAll f all) := by
  match all with
  | [] => trivial
  | p :: ps => exact ⟨orderly_map name p orderly.1, allOrderly_map name ps orderly.2⟩
termination_by structural all
end

mutual
/-- If a collapsed package fits, then so do the directories that it leads through. -/
theorem fits_of_collapsed (p : Package) (orderly : Orderly p) {dir : Path}
    (nonempty : dir.text ≠ "")
    (dirs : ∀ path ∈ packageDirs dir p.collapse, checkEntry path = .ok ())
    (files : ∀ path ∈ packageFiles dir p.collapse, checkEntry path = .ok ()) : Fits dir p := by
  match p with
  | ⟨name, classes, packages⟩ =>
    obtain ⟨named, _, below⟩ := orderly
    have within : (dir.join name).text ≠ "" := join_nonempty nonempty (entry_relative named.noSlash)
    have whole (own : Package.collapse ⟨name, classes, packages⟩ =
        ⟨name, classes, Package.collapseAll packages⟩) : Fits dir ⟨name, classes, packages⟩ := by
      have downward : Path.isDownward ⟨name⟩ = true := by
        simp [Path.isDownward, entry_components named]
      simp only [own, packageDirs, downward, if_true, List.mem_cons, packageFiles, List.mem_append]
        at dirs files
      refine ⟨dirs _ (Or.inl rfl),
        fun c listed => files _ (Or.inr (List.mem_map_of_mem listed)), ?_⟩
      exact fit_of_collapsed packages below within (fun path listed => dirs path (Or.inr listed))
        fun path listed => files path (Or.inl listed)
    match classes, packages with
    | [], [child] =>
      obtain ⟨_, leads⟩ := collapse_leads child below.1
      have inner := @fits_of_collapsed child below.1 _ within
      have longer := (leads_down named leads).downward
      have relative := (downward_parts leads.downward).1
      have downward := leads.downward
      simp only [Package.collapse] at dirs files longer
      generalize child.collapse = last at dirs files longer relative downward inner
      obtain ⟨label, classes, packages⟩ := last
      simp only [packageDirs, packageFiles, longer, downward, if_true,
        ← join_join dir named relative] at dirs files inner
      have first := checkEntry_iff.mp (dirs _ List.mem_cons_self)
      exact ⟨checkEntry_iff.mpr (Nat.le_trans (join_size within relative) first), by simp,
        inner dirs files, trivial⟩
    | [], [] => exact whole rfl
    | [], first :: second :: more => exact whole rfl
    | c :: classes, packages => exact whole rfl
termination_by structural p

private theorem fit_of_collapsed (all : List Package) (orderly : AllOrderly all) {dir : Path}
    (nonempty : dir.text ≠ "")
    (dirs : ∀ path ∈ packagesDirs dir (Package.collapseAll all), checkEntry path = .ok ())
    (files : ∀ path ∈ packagesFiles dir (Package.collapseAll all), checkEntry path = .ok ()) :
    AllFit dir all := by
  match all with
  | [] => trivial
  | p :: ps =>
    simp only [Package.collapseAll, packagesDirs, packagesFiles, List.mem_append] at dirs files
    exact ⟨fits_of_collapsed p orderly.1 nonempty (fun path listed => dirs path (Or.inl listed))
      (fun path listed => files path (Or.inl listed)),
      fit_of_collapsed ps orderly.2 nonempty (fun path listed => dirs path (Or.inr listed))
      (fun path listed => files path (Or.inr listed))⟩
termination_by structural all
end

def bare (c : Class) : Class :=
  { c with contained := [] }

private theorem reread_shaped {c : Class} (plain : PlainClass c) (shape : HasShape c) :
    reread c = [bare c] := by
  obtain ⟨anchor, read⟩ := skeleton_read plain shape
  simp [reread, read, bare]

private theorem flatMap_bare {classes : List Class} (same : ∀ c ∈ classes, reread c = [bare c]) :
    classes.flatMap reread = classes.map bare := by
  rw [← List.flatMap_pure_eq_map]
  exact List.flatMap_congr same

mutual
theorem rereadPackage_same (p : Package) (same : ∀ c ∈ p.allClasses, reread c = [bare c]) :
    rereadPackage p = p.mapClasses bare := by
  match p with
  | ⟨name, classes, packages⟩ =>
    simp only [Package.allClasses, List.mem_append] at same
    rw [rereadPackage, Package.mapClasses, flatMap_bare fun c listed => same c (Or.inl listed),
      rereadAll_same packages fun c listed => same c (Or.inr listed)]
termination_by structural p

private theorem rereadAll_same (all : List Package)
    (same : ∀ c ∈ Package.classesOf all, reread c = [bare c]) :
    rereadAll all = Package.mapAll bare all := by
  match all with
  | [] => rfl
  | p :: ps =>
    simp only [Package.classesOf, List.mem_append] at same
    rw [rereadAll, Package.mapAll, rereadPackage_same p fun c listed => same c (Or.inl listed),
      rereadAll_same ps fun c listed => same c (Or.inr listed)]
termination_by structural all
end

section
open Java Java.Tree Java.Outline Form Likeness Remainders GeneratedText PlainReadings DottedNames
  GeneratedMembers EnumBodies ShownModels

/-- Where no constant comes before it, the constructor of an enum is taken for one. -/
theorem constructor_constant {name : String} (named : PlainReadings.IsPlainName name) :
    constantNames (callTrees name ++ [region .brace "\x7b" "\x7d" []]) = [name] := by
  have bodied : takes (.inside .brace .classBody) (region .brace "\x7b" "\x7d" []) = true := by
    decide +kernel
  have longest :
      Grammar.enumConstant.longest? Grammar.form
      (callTrees name ++ [region .brace "\x7b" "\x7d" []]) = some [] := by
    refine longest_least
      ((constant_read named).mpr ⟨_, List.mem_cons_of_mem _ List.mem_cons_self, ?_⟩) (by simp)
    refine (mem_alt (ends_tidy _ _)).mpr (Or.inl ?_)
    rw [inside_taken bodied]
    simp
  have unmodified : after Grammar.modifiers (callTrees name ++ [region .brace "\x7b" "\x7d" []]) =
      callTrees name ++ [region .brace "\x7b" "\x7d" []] :=
    after_one fun fuel => constant_unmodified named
  have parts : partsOf Grammar.enumConstant (callTrees name ++ [region .brace "\x7b" "\x7d" []]) =
      [callTrees name ++ [region .brace "\x7b" "\x7d" []]] := by
    simp only [partsOf, listed, longest, before, List.length_nil, Nat.sub_zero, List.take_length]
  have known : constantName? (callTrees name ++ [region .brace "\x7b" "\x7d" []]) = some name := by
    rw [constantName?, unmodified]
    rfl
  rw [constantNames, parts, List.filterMap_cons_some known, List.filterMap_nil]

/-- The new file of an enum without constants is refused, or it declares a constant. -/
theorem enum_reread {c : Class} (plain : PlainClass c) (enum : c.kind = .enum)
    (none : c.constants = []) {found : SourceType}
    (read : sourceTypes? (skeletonText c) = some [found]) :
    found.type = { name := c.name, kind := .enum, constants := [c.name] } := by
  obtain ⟨type, derived⟩ := skeleton_accepted plain read
  rw [enum] at derived
  have isEnum : c.isEnum = true := by simp [Class.isEnum, enum]
  obtain ⟨noFields, noMethods⟩ :=
    (enum_constants plain isEnum derived).resolve_left (by simp [none])
  have inside : insideTrees c = callTrees c.name ++ [region .brace "\x7b" "\x7d" []] := by
    simp [insideTrees, none, constantTrees, memberPieces, noFields, noMethods, isEnum,
      constructorTrees]
  have inner :
      ∀ t ∈ callTrees c.name ++ [region .brace "\x7b" "\x7d" []], t.isSymbol ";" = false := by
    intro t listed
    simp only [callTrees, List.cons_append, List.nil_append, List.mem_cons, List.not_mem_nil,
      or_false] at listed
    rcases listed with rfl | rfl | rfl <;> rfl
  rw [type, inside]
  simp only [bodyType, headerOf, header, enum, enumType_open _ _ inner,
    constructor_constant plain.name]

/-- A new file is refused or declares one type. -/
theorem reread_cases {c : Class} (plain : PlainClass c) :
    reread c = [] ∨ ∃ found, sourceTypes? (skeletonText c) = some [found] ∧
      reread c = [found.type] := by
  obtain ⟨types, declared, spelled⟩ := skeleton_types plain
  rw [List.filterMap_cons_some (skeleton_declared c), List.filterMap_nil, List.map_singleton]
    at declared
  obtain ⟨found, rfl, _⟩ := List.map_eq_singleton_iff.mp declared
  rw [reread, spelled]
  split
  · exact Or.inr ⟨found, rfl, rfl⟩
  · exact Or.inl rfl

end

/-- A plain name is not qualified. -/
theorem plain_memberName {name : String} (plain : PlainReadings.IsPlainName name)
    (typed : IsTypeName name) : IsMemberName name := by
  refine ⟨typed.nonempty, fun c inside => ?_⟩
  have noDot : '.' ∉ name.toList := by
    have identifier := plain.identifier
    simp only [ScannedText.isIdentifier] at identifier
    split at identifier
    · simp at identifier
    next first rest shape =>
      obtain ⟨starts, parts⟩ := Bool.and_eq_true_iff.mp identifier
      rw [shape]
      rintro (_ | ⟨_, dot⟩)
      · exact absurd starts (by decide)
      · exact absurd (List.all_eq_true.mp parts _ dot) (by decide)
  have other : c ≠ '.' := fun dot => noDot (dot ▸ inside)
  simpa [Text.isQualifiedChar, other] using typed.qualified c inside

/-- What is read from the new file of a class can be drawn if the class can. -/
theorem reread_clean {c : Class} (plain : PlainClass c) (clean : c.Clean)
    (shaped : (c.kind = .enum → c.constants ≠ []) → HasShape c) :
    ∀ found ∈ reread c, found.Clean := by
  by_cases some : c.kind = .enum → c.constants ≠ []
  · rw [reread_shaped plain (shaped some)]
    simp only [List.mem_singleton, forall_eq]
    exact ⟨clean.name, clean.superclass, clean.interfaces, clean.fields, clean.methods,
      clean.constants, clean.isAbstract⟩
  · obtain ⟨enum, none⟩ : c.kind = .enum ∧ c.constants = [] := by simpa using some
    rcases reread_cases plain with refused | ⟨found, read, same⟩
    · simp [refused]
    · rw [same, enum_reread plain enum none read]
      simp only [List.mem_singleton, forall_eq]
      have constant := memberName_constant (plain_memberName plain.name clean.name)
      exact ⟨clean.name, by simp, by simp, by simp, by simp, by simpa using constant, by simp⟩

mutual
theorem rereadPackage_names (p : Package) : (rereadPackage p).names = p.names := by
  match p with
  | ⟨name, classes, packages⟩ =>
    rw [rereadPackage, Package.names, Package.names, rereadAll_names packages]
termination_by structural p

private theorem rereadAll_names (all : List Package) :
    Package.namesOf (rereadAll all) = Package.namesOf all := by
  match all with
  | [] => rfl
  | p :: ps =>
    rw [rereadAll, Package.namesOf, Package.namesOf, rereadPackage_names p, rereadAll_names ps]
termination_by structural all
end

mutual
theorem rereadPackage_classes (p : Package) :
    (rereadPackage p).allClasses = p.allClasses.flatMap reread := by
  match p with
  | ⟨name, classes, packages⟩ =>
    rw [rereadPackage, Package.allClasses, Package.allClasses, rereadAll_classes packages,
      List.flatMap_append]
termination_by structural p

private theorem rereadAll_classes (all : List Package) :
    Package.classesOf (rereadAll all) = (Package.classesOf all).flatMap reread := by
  match all with
  | [] => rfl
  | p :: ps =>
    rw [rereadAll, Package.classesOf, Package.classesOf, rereadPackage_classes p,
      rereadAll_classes ps, List.flatMap_append]
termination_by structural all
end

/-- A project as a tree that is not collapsed yet: in order, and with containment inferred from
it. -/
structure Unfolds (project : Project) (classes : List Class) (packages : List Package) : Prop where
  arranged : Arranged classes packages
  orderly : AllOrderly packages
  folded : project.packages = Package.collapseAll packages
  own : project.classes = classes
  linked : ({ classes := classes.map bare, packages := Package.mapAll bare packages } :
    Project).normalize = project

theorem Unfolds.allClasses {project : Project} {classes : List Class} {packages : List Package}
    (unfolds : Unfolds project classes packages) :
    project.allClasses = classes ++ Package.classesOf packages := by
  rw [Project.allClasses, unfolds.folded, unfolds.own, collapseAll_classes]

private theorem extracted_unfolds {disk : Disk} {source : Path} {exclude : List String}
    {found : Extraction} (proper : Proper disk.root)
    (extracted : extract disk source exclude = .ok found)
    (single : SingleTypes (sources disk source exclude)) :
    ∃ classes packages, Unfolds found.project classes packages ∧
      ∀ name ∈ Package.namesOf packages, ∃ dir ∈ directories disk source exclude, name =
      dir.fileName?.getD "" := by
  obtain ⟨entries, scanner, harvest, located, made, gathered, normal⟩ := extract_gathers extracted
  simp only [sources, located, made] at single
  obtain ⟨spot, _, here⟩ := node_spot located
  have inner : Proper (.dir entries) := proper_get proper here
  have each := gatherAll_entry (node_nonempty located) entries inner.2 single
  obtain ⟨arranged, orderly⟩ := gathered_arranged inner each gathered
  -- linking goes through the tree before it is collapsed just as well as after
  let raw : Project := { classes := harvest.classes, packages := harvest.packages }
  let link := Class.inferContained raw.collapsePackages.indexNames.classNames
  have same := PackageTree.normalize_map (bare ∘ link) raw (fun _ => rfl) (fun _ _ => rfl)
  rw [← PackageTree.project_map_comp] at same
  refine ⟨harvest.classes.map link, Package.mapAll link harvest.packages,
    ⟨@arranged_map link (fun _ => rfl) _ _ arranged,
    @allOrderly_map link (fun _ => rfl) _ orderly, by
    rw [normal, PackageTree.collapseAll_map]; rfl, by rw [normal]; rfl, by rw [normal]; exact same⟩,
      ?_⟩
  rw [mapAll_names]
  simp only [directories, located, made]
  exact (mirrors_rooted harvest.packages (entries_held (gatherAll_held entries) gathered).2).names

/-- A project that is written to an empty directory is extracted as the same tree, but for what is
read from its files. -/
theorem written_reread {project : Project} {classes : List Class} {packages : List Package}
    (unfolds : Unfolds project classes packages) (named : ∀ c ∈ project.allClasses, c.name ≠ "")
    {disk : Disk} {target : Path} (empty : disk.node target = .ok (.dir []))
    (fits : ∀ path ∈ packagesDirs target project.packages ++ projectFiles target project,
      checkEntry path = .ok ()) :
    ∃ report changed again, (generate project target).run.run disk = (.ok report, changed) ∧
      extract changed target [] = .ok again ∧
      again.project =
      ({ classes := classes.flatMap reread, packages := rereadAll packages } :
        Project).normalize := by
  obtain ⟨place, holds⟩ := holds_of_node empty
  rw [unfolds.allClasses] at named
  obtain ⟨collapsed, own, known⟩ := project
  obtain rfl : collapsed = Package.collapseAll packages := unfolds.folded
  obtain rfl : own = classes := unfolds.own
  simp only [projectFiles, List.mem_append] at fits
  have fit :=
    fit_of_collapsed packages unfolds.orderly holds.nonempty
      (fun path listed => fits path (Or.inl listed))
    fun path listed => fits path (Or.inr (Or.inl listed))
  have small : ∀ c ∈ own, checkEntry (classFile target c) = .ok () := fun c listed =>
    fits _ (Or.inr (Or.inr (List.mem_map_of_mem listed)))
  obtain ⟨report, run⟩ :=
    @generate_adds _ _ known unfolds.arranged unfolds.orderly _ _ _ holds fit small
  obtain ⟨again, extracted, same⟩ :=
    extract_reread (holds.more _) unfolds.arranged unfolds.orderly fit small named
  exact ⟨report, _, again, run, extracted, same⟩

private theorem normalize_allClasses (p : Project) :
    ∃ known, p.normalize.allClasses = p.allClasses.map (Class.inferContained known) := by
  refine ⟨p.collapsePackages.indexNames.classNames, ?_⟩
  rw [Project.normalize, Project.inferContainment, PackageTree.project_allClasses_map]
  simp [Project.indexNames, Project.collapsePackages, Project.allClasses, collapseAll_classes]

section
variable {α : Type} {images : α → List α} {all : List α} (short : ∀ x ∈ all, (images x).length ≤ 1)
include short

private theorem flatMap_shorter : (all.flatMap images).length ≤ all.length := by
  induction all with
  | nil => simp
  | cons x rest ih =>
    have first := short x (by simp)
    have others := ih fun y listed => short y (by simp [listed])
    rw [List.flatMap_cons, List.length_append, List.length_cons]
    omega

/-- A list that is its own image, where nothing has more than one image, is so member by member. -/
theorem flatMap_self (same : all.flatMap images = all) : ∀ x ∈ all, images x = [x] := by
  induction all with
  | nil => simp
  | cons x rest ih =>
    have others : ∀ y ∈ rest, (images y).length ≤ 1 := fun y listed => short y (by simp [listed])
    rw [List.flatMap_cons] at same
    match shape : images x, short x (by simp) with
    | [], _ =>
      have shorter := flatMap_shorter others
      simp only [shape, List.nil_append] at same
      rw [same, List.length_cons] at shorter
      omega
    | [y], _ =>
      rw [shape, List.singleton_append, List.cons.injEq] at same
      obtain ⟨rfl, same⟩ := same
      simpa [shape] using ih others same

end

/-- What is read from new sources can be drawn if the project can. -/
theorem reread_drawable {classes : List Class} {packages : List Package}
    (cleans : ∀ c ∈ classes ++ Package.classesOf packages, ∀ found ∈ reread c, found.Clean)
    (plain : ∀ name ∈ Package.namesOf packages, IsDirectoryName name) :
    Drawable ({ classes := classes.flatMap reread, packages := rereadAll packages } :
      Project).normalize := by
  refine ⟨fun c listed => ?_, normalize_labels (by rwa [rereadAll_names]), normalize_indexed _⟩
  obtain ⟨raw, present, known, rfl⟩ := normalize_classes listed
  have origin : raw ∈ (classes ++ Package.classesOf packages).flatMap reread := by
    rwa [Project.allClasses, rereadAll_classes, ← List.flatMap_append] at present
  obtain ⟨c, member, among⟩ := List.mem_flatMap.mp origin
  have clean := cleans c member raw among
  exact ⟨clean.name, clean.superclass, clean.interfaces, clean.fields, clean.methods,
    clean.constants, clean.isAbstract⟩

/-- Classes that are read back as they were are no enums without constants. -/
theorem constants_of_reread {classes : List Class} {packages : List Package}
    (words : ∀ c ∈ classes ++ Package.classesOf packages, PlainClass c)
    (same : ({ classes := classes.flatMap reread, packages := rereadAll packages } :
      Project).normalize.allClasses = classes ++ Package.classesOf packages) :
    ∀ c ∈ classes ++ Package.classesOf packages, c.kind = .enum → c.constants ≠ [] := by
  obtain ⟨known, linked⟩ :=
    normalize_allClasses { classes := classes.flatMap reread, packages := rereadAll packages }
  rw [linked, Project.allClasses, rereadAll_classes, ← List.flatMap_append, List.map_flatMap]
    at same
  intro c listed enum none
  have own := flatMap_self (fun c listed => ?_) same c listed
  · rcases reread_cases (words c listed) with refused | ⟨found, read, declares⟩
    · simp [refused] at own
    · rw [declares, enum_reread (words c listed) enum none read, List.map_singleton,
        List.singleton_inj] at own
      have constants := congrArg Class.constants own
      simp [Class.inferContained, none] at constants
  · rcases reread_cases (words c listed) with refused | ⟨found, read, declares⟩
    · simp [refused]
    · simp [declares]

/-- From sources to a diagram, to new sources in an empty directory, and to their diagram: the last
diagram is the first, if and only if every enum has a constant. -/
theorem regenerated_diagram {disk : Disk} {source target : Path} {exclude : List String}
    {found : Extraction} (proper : Proper disk.root)
    (extracted : extract disk source exclude = .ok found)
    (single : SingleTypes (sources disk source exclude))
    (ascii : ∀ file ∈ sources disk source exclude, AsciiWords file.2)
    (words : ∀ c ∈ found.project.allClasses, PlainClass c)
    (unreserved : ∀ c ∈ found.project.allClasses, ∀ name ∈ typeNames c, name ∉ reservedWords)
    (plain : ∀ dir ∈ directories disk source exclude, IsDirectoryName (dir.fileName?.getD ""))
    (empty : disk.node target = .ok (.dir []))
    (fits : ∀ path ∈ packagesDirs target found.project.packages ++ projectFiles target found.project,
      checkEntry path = .ok ()) :
    ∃ report changed again,
      (generate (Diagram.read (Diagram.renderText found.project)) target).run.run disk =
      (.ok report, changed) ∧ extract changed target [] = .ok again ∧
      (Diagram.render again.project = Diagram.render found.project ↔
        ∀ c ∈ found.project.allClasses, c.kind = .enum → c.constants ≠ []) := by
  have drawable := extracted_drawable extracted ascii unreserved plain
  obtain ⟨classes, packages, unfolds, names⟩ := extracted_unfolds proper extracted single
  have named : ∀ c ∈ found.project.allClasses, c.name ≠ "" :=
    fun c listed => (drawable.classes c listed).name.nonempty
  obtain ⟨report, changed, again, run, reextracted, tree⟩ := written_reread unfolds named empty fits
  rw [drawable.read_back]
  refine ⟨report, changed, again, run, reextracted, fun lines => ?_, fun some => ?_⟩
  · have redrawn : Drawable again.project := by
      rw [tree]
      refine reread_drawable (fun c listed => ?_) fun name listed => ?_
      · rw [← unfolds.allClasses] at listed
        exact reread_clean (words c listed) (drawable.classes c listed)
          (extracted_shaped extracted listed)
      · obtain ⟨dir, among, rfl⟩ := names name listed
        exact plain dir among
    have same : again.project = found.project := by
      rw [← redrawn.read_back, Diagram.renderText, lines, ← Diagram.renderText, drawable.read_back]
    rw [unfolds.allClasses] at words ⊢
    refine constants_of_reread words ?_
    rw [← tree, same, unfolds.allClasses]
  · have each : ∀ c ∈ classes ++ Package.classesOf packages, reread c = [bare c] := by
      intro c listed
      rw [← unfolds.allClasses] at listed
      exact reread_shaped (words c listed) (extracted_shaped extracted listed (some c listed))
    rw [tree, flatMap_bare fun c listed => each c (List.mem_append_left _ listed),
      rereadAll_same packages fun c listed =>
        each c (List.mem_append_right _ listed), unfolds.linked]

def moneyText : String :=
  "enum Coin { DIME(1), CENT; int[] worth; Coin pay(Till t) { } }"

def mint : Disk where
  root := .dir
    [("s", .dir [("bank", .dir [("coin", .dir [("Coin.java", .file moneyText.toUTF8)])])]),
      ("t", .dir [])]
  cwd := []

private theorem mint_proper : Proper mint.root := by
  refine ⟨by decide, by decide, ⟨by decide, ?_⟩, by decide, ⟨by decide, trivial⟩, trivial⟩
  exact ⟨by decide, ⟨by decide, by decide, ⟨by decide, by decide, trivial, trivial⟩, trivial⟩,
    trivial⟩

theorem mint_regenerated : ∃ found report changed again, extract mint ⟨"s"⟩ [] = .ok found ∧
    found.project.allClasses.map Class.constants = [["DIME", "CENT"]] ∧
    (generate (Diagram.read (Diagram.renderText found.project)) ⟨"t"⟩).run.run mint =
      (.ok report, changed) ∧
    extract changed ⟨"t"⟩ [] = .ok again ∧
    Diagram.render again.project = Diagram.render found.project := by
  have checked : ((extract mint ⟨"s"⟩ []).toOption.any fun found =>
      decide (found.project.allClasses.map Class.constants = [["DIME", "CENT"]] ∧
        (∀ c ∈ found.project.allClasses, PlainClass c) ∧
        (∀ c ∈ found.project.allClasses, ∀ name ∈ typeNames c, name ∉ reservedWords) ∧
        (∀ path ∈ packagesDirs ⟨"t"⟩ found.project.packages ++ projectFiles ⟨"t"⟩ found.project,
          path.text.utf8ByteSize ≤ pathLimit) ∧
        ∀ c ∈ found.project.allClasses, c.kind = .enum → c.constants ≠ [])) =
        true := by decide +kernel
  have single : SingleTypes (sources mint ⟨"s"⟩ []) := by decide +kernel
  have ascii : ∀ file ∈ sources mint ⟨"s"⟩ [], AsciiWords file.2 := by decide +kernel
  have plain : ∀ dir ∈ directories mint ⟨"s"⟩ [], IsDirectoryName (dir.fileName?.getD "") := by
    decide +kernel
  have empty : mint.node ⟨"t"⟩ = .ok (.dir []) := by rfl
  obtain ⟨found, extracted, holds⟩ := (Option.any_eq_true _ _).mp checked
  obtain ⟨constants, words, unreserved, fits, some⟩ := of_decide_eq_true holds
  have extracted := ok_of_toOption extracted
  obtain ⟨report, changed, again, run, reextracted, same⟩ :=
    regenerated_diagram mint_proper extracted single ascii words unreserved plain
    empty fun path listed => checkEntry_iff.mpr (fits path listed)
  exact ⟨found, report, changed, again, extracted, constants, run, reextracted, same.mpr some⟩

def hollow : Disk where
  root := .dir [("s", .dir [("E.java", .file "enum E { }".toUTF8)]), ("t", .dir [])]
  cwd := []

example : ((extract hollow ⟨"s"⟩ []).toOption.any fun found =>
    (extract ((generate found.project ⟨"t"⟩).run.run hollow).2 ⟨"t"⟩ []).toOption.any fun again =>
      (found.project.allClasses ++ again.project.allClasses).map Class.constants == [[], ["E"]]) =
        true := by decide +kernel

end ClassDiagram.Proofs.RegeneratedDiagram
