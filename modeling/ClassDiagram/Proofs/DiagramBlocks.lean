import ClassDiagram.Diagram.Reader
import ClassDiagram.Proofs.HeaderLines
import ClassDiagram.Proofs.PackageTree

/-! The blocks that are written for classes and packages are read as those classes and packages,
whatever lines follow them. Containment is not written: what is read has none. -/

namespace ClassDiagram.Proofs.DiagramBlocks
open Text Diagram Blanks JoinedTexts MemberLines HeaderLines
open ClassDiagram.Class (unlinked)

def chars (lines : List String) : List (List Char) :=
  lines.map String.toList

def padding (depth : Nat) : List Char :=
  List.replicate (2 * depth) ' '

theorem padding_blank (depth : Nat) : ∀ c ∈ padding depth, isBlank c = true := by
  intro c member
  rw [List.eq_of_mem_replicate member]
  decide

theorem indent_toList (depth : Nat) (line : String) :
    (indent depth line).toList = padding depth ++ line.toList := by
  simp [indent, padding]

/-- Lines that are read as entries add those entries one after another. -/
theorem entries_added {line : α → List Char} {entry : α → Entry} {all : List α} (c : Class)
    (read : ∀ x ∈ all, entryOf? (line x) = some (entry x)) :
    (all.map line).foldl addLine c = all.foldl (fun c x => (entry x).addTo c) c := by
  induction all generalizing c with
  | nil => rfl
  | cons first rest ih =>
    have step : addLine c (line first) = (entry first).addTo c := by
      simp [addLine, read first (by simp)]
    rw [List.map_cons, List.foldl_cons, List.foldl_cons, step]
    exact ih _ fun x member => read x (by simp [member])

private theorem constants_added {depth : Nat} (c : Class) {all : List String}
    (clean : ∀ text ∈ all, IsConstantText text) :
    (chars (all.map (indent depth))).foldl addLine c =
      { c with constants := c.constants ++ all } := by
  have added : ∀ c : Class, all.foldl (fun c x => (Entry.constant x).addTo c) c =
      { c with constants := c.constants ++ all } := by
    clear clean
    induction all with
    | nil => simp
    | cons first rest ih =>
      intro c
      rw [List.foldl_cons, ih]
      simp [Entry.addTo, Class.addConstant]
  rw [chars, List.map_map, ← added]
  apply entries_added
  intro text member
  rw [Function.comp_apply, indent_toList, constant_read (padding_blank depth) (clean text member)]

private theorem fields_added {depth : Nat} (c : Class) {all : List Field}
    (clean : ∀ field ∈ all, field.Clean) :
    (chars ((all.map fieldLine).map (indent depth))).foldl addLine c =
      { c with fields := c.fields ++ all } := by
  have added : ∀ c : Class, all.foldl (fun c x => (Entry.field x).addTo c) c =
      { c with fields := c.fields ++ all } := by
    clear clean
    induction all with
    | nil => simp
    | cons first rest ih =>
      intro c
      rw [List.foldl_cons, ih]
      simp [Entry.addTo, Class.addField]
  rw [chars, List.map_map, List.map_map, ← added]
  apply entries_added
  intro field member
  rw [Function.comp_apply, Function.comp_apply, indent_toList,
    field_read (padding_blank depth) field (clean field member)]

private theorem methods_added {depth : Nat} (c : Class) {all : List Method}
    (legible : ∀ method ∈ all, method.Legible) :
    (chars ((all.map methodLine).map (indent depth))).foldl addLine c =
      { c with methods := c.methods ++ all } := by
  have added : ∀ c : Class, all.foldl (fun c x => (Entry.method x).addTo c) c =
      { c with methods := c.methods ++ all } := by
    clear legible
    induction all with
    | nil => simp
    | cons first rest ih =>
      intro c
      rw [List.foldl_cons, ih]
      simp [Entry.addTo, Class.addMethod]
  rw [chars, List.map_map, List.map_map, ← added]
  apply entries_added
  intro method member
  rw [Function.comp_apply, Function.comp_apply, indent_toList,
    method_read (padding_blank depth) method (legible method member)]

def memberLines (c : Class) : List String :=
  c.constants ++ c.fields.map fieldLine ++ c.methods.map methodLine

theorem members_added {depth : Nat} {c : Class} (legible : c.Legible) (header : Class) :
    (chars ((memberLines c).map (indent depth))).foldl addLine header =
      { header with
        constants := header.constants ++ c.constants
        fields := header.fields ++ c.fields
        methods := header.methods ++ c.methods } := by
  have constants := @constants_added depth header _ legible.constants
  have fields :=
    @fields_added depth { header with constants := header.constants ++ c.constants }
      _ legible.fields
  have methods :=
    @methods_added depth { header with constants := header.constants ++ c.constants,
                                       fields := header.fields ++ c.fields } _ legible.methods
  simp only [chars] at constants fields methods
  simp only [memberLines, chars, List.map_append, List.foldl_append]
  rw [constants, fields, methods]

def marks : List Char :=
  ['+', '-', ' ', ':', '(', ')', ',']

theorem lacks_append {x : Char} {first second : List Char} (one : x ∉ first) (two : x ∉ second) :
    x ∉ first ++ second := by
  simpa using ⟨one, two⟩

private theorem marks_lack {x : Char} (mark : x ∉ marks) {text : List Char}
    (listed : ∀ c ∈ text, c ∈ marks) : x ∉ text :=
  fun member => mark (listed x member)

private theorem sign_lacks {x : Char} (mark : x ∉ marks) (isPrivate : Bool) :
    x ∉ (sign isPrivate).toList := by
  apply marks_lack mark
  cases isPrivate <;> decide

theorem name_lacks {x : Char} (other : isNameChar x = false) {name : String}
    (clean : IsMemberName name) : x ∉ name.toList := by
  intro member
  rw [clean.word x member] at other
  cases other

private theorem fieldLine_lacks {x : Char} (other : isNameChar x = false) (mark : x ∉ marks)
    {field : Field} (clean : field.Clean) (type : x ∉ field.type.toList) :
    x ∉ (fieldLine field).toList := by
  rw [fieldLine_toList]
  apply lacks_append
    (lacks_append (sign_lacks mark _) (lacks_append (name_lacks other clean.name) _)) type
  exact marks_lack mark (by decide)

private theorem parameterText_lacks {x : Char} (other : isNameChar x = false) (mark : x ∉ marks)
    {parameter : Parameter} (clean : parameter.Clean) (type : x ∉ parameter.type.toList) :
    x ∉ (parameterText parameter).toList := by
  rw [parameterText, String.toList_append, String.toList_append]
  exact lacks_append (lacks_append (name_lacks other clean.name) (marks_lack mark (by decide))) type

private theorem methodLine_lacks {x : Char} (other : isNameChar x = false) (mark : x ∉ marks)
    {method : Method} (legible : method.Legible) (type : x ∉ method.returnType.toList)
    (types : ∀ parameter ∈ method.parameters, x ∉ parameter.type.toList) :
    x ∉ (methodLine method).toList := by
  have inside : x ∉ (", ".intercalate (method.parameters.map parameterText)).toList := by
    rw [String.toList_intercalate]
    intro member
    rcases mem_intercalate member with comma | ⟨part, present, inside⟩
    · exact marks_lack mark (by decide) comma
    · simp only [List.map_map, List.mem_map, Function.comp_apply] at present
      obtain ⟨parameter, known, rfl⟩ := present
      exact parameterText_lacks other mark (legible.parameters parameter known)
        (types parameter known) inside
  rw [methodLine_toList]
  apply lacks_append
    (lacks_append (sign_lacks mark _) (lacks_append (name_lacks other legible.name) _)) type
  rw [← List.singleton_append]
  exact lacks_append (marks_lack mark (by decide))
    (lacks_append inside (marks_lack mark (by decide)))

/-- A character that stands in no text of a class stands in no line of its body. -/
theorem member_lacks {x : Char} (other : isNameChar x = false) (mark : x ∉ marks) {c : Class}
    (legible : c.Legible) (absent : ∀ text, IsLineText text → x ∉ text.toList) :
    ∀ line ∈ memberLines c, x ∉ line.toList := by
  intro line member
  simp only [memberLines, List.mem_append, List.mem_map] at member
  rcases member with (member | ⟨field, known, rfl⟩) | ⟨method, known, rfl⟩
  · exact absent line (legible.constants line member).line
  · exact fieldLine_lacks other mark (legible.fields field known)
      (absent _ (legible.fields field known).type)
  · have legible := legible.methods method known
    exact methodLine_lacks other mark legible (absent _ legible.returnType) fun parameter known =>
      absent _ (legible.parameters parameter known).type

theorem members_open {depth : Nat} {c : Class} (legible : c.Legible) :
    ∀ line ∈ chars ((memberLines c).map (indent depth)), (!closes line) = true := by
  intro line member
  simp only [chars, List.map_map, List.mem_map, Function.comp_apply] at member
  obtain ⟨text, known, rfl⟩ := member
  have inside :=
    member_lacks (x := '}') (by decide) (by decide) legible
      (fun _ clean => clean.noBrace) text known
  rw [indent_toList, not_closes (lacks_append (blank_noBrace (padding_blank depth)) inside)]
  rfl

def closingLine (depth : Nat) : List Char :=
  padding depth ++ ['}']

theorem closing_closes (depth : Nat) : closes (closingLine depth) = true := by
  simp [closes, closingLine]

theorem closing_words (depth : Nat) : words (closingLine depth) = [['}']] := by
  rw [closingLine, words_pad (padding_blank depth)]
  decide

def classRest (depth : Nat) (c : Class) : List (List Char) :=
  chars ((memberLines c).map (indent (depth + 1))) ++ [closingLine depth]

def headerLine (depth : Nat) (c : Class) : List Char :=
  padding depth ++ (headerText c ++ " \x7b").toList

theorem classLines_chars (depth : Nat) (c : Class) :
    chars (classLines depth c) = headerLine depth c :: classRest depth c := by
  simp [chars, classLines, classRest, headerLine, closingLine, memberLines, indent_toList]

theorem class_read {depth : Nat} {c : Class} (clean : c.Clean) (rest : List (List Char)) :
    (readClass (headerLine depth c) (classRest depth c ++ rest)).1 = unlinked c ∧
      (readClass (headerLine depth c) (classRest depth c ++ rest)).2.val = rest := by
  have stops : ∀ line ∈ (closingLine depth :: rest).head?, (!closes line) = false := by
    simp [closing_closes]
  have legible := members_legible clean
  have members := @members_open (depth + 1) _ legible
  have taken := takeWhile_stops members stops
  have dropped := dropWhile_stops members stops
  have opened : closes (headerLine depth c) = false := header_open (padding_blank depth) clean
  have header : classHeader (headerLine depth c) = headed c :=
    header_read (padding_blank depth) clean
  simp only [readClass, opened, classRest, List.append_assoc, List.singleton_append, behindBrace,
    taken, dropped, header, members_added legible]
  simp [headed, unlinked]

def inside (p : Package) (lines : List (List Char)) : Package × List (List Char) :=
  ((readBody p lines).1, (readBody p lines).2.val)

private theorem inside_class {p : Package} {line : List Char} {lines : List (List Char)}
    (header : isClassHeader line = true) :
    inside p (line :: lines) =
      inside (p.addClass (readClass line lines).1) (readClass line lines).2.val := by
  rw [inside, readBody]
  simp [header, inside]

private theorem inside_package {p : Package} {line : List Char} {lines : List (List Char)}
    (other : isClassHeader line = false) (header : isPackageHeader line = true)
    (opened : closes line = false) :
    inside p (line :: lines) =
      inside (p.addPackage (inside { name := packageName line } lines).1)
      (inside { name := packageName line } lines).2 := by
  rw [inside, readBody]
  simp [other, header, opened, inside]

private theorem inside_close {p : Package} {line : List Char} {lines : List (List Char)}
    (noClass : isClassHeader line = false) (noPackage : isPackageHeader line = false)
    (closed : closes line = true) :
    inside p (line :: lines) = (p, lines) := by
  rw [inside, readBody]
  simp [noClass, noPackage, closed]

private theorem closing_inside (p : Package) (depth : Nat) (rest : List (List Char)) :
    inside p (closingLine depth :: rest) = (p, rest) := by
  apply inside_close
  · rw [isClassHeader, closing_words]
    decide
  · rw [isPackageHeader, closing_words]
    decide
  · exact closing_closes depth

theorem headerLine_isClassHeader (depth : Nat) (c : Class) :
    isClassHeader (headerLine depth c) = true :=
  header_isClassHeader (padding_blank depth) c

private theorem classes_inside {depth : Nat} {all : List Class} (clean : ∀ c ∈ all, c.Clean)
    (p : Package) (rest : List (List Char)) :
    inside p (chars (all.flatMap (classLines depth)) ++ rest) =
      inside { p with classes := p.classes ++ all.map unlinked } rest := by
  induction all generalizing p with
  | nil => cases p; simp [chars]
  | cons first more ih =>
    have own :=
      @class_read depth _ (clean first (by simp)) (chars (more.flatMap (classLines depth)) ++ rest)
    have shape : chars ((first :: more).flatMap (classLines depth)) ++ rest =
        headerLine depth first ::
        (classRest depth first ++ (chars (more.flatMap (classLines depth)) ++ rest)) := by
      have lines := classLines_chars depth first
      simp only [chars, List.flatMap_cons, List.map_append] at lines ⊢
      simp [lines]
    rw [shape, inside_class (headerLine_isClassHeader depth first), own.1, own.2,
      ih fun c member => clean c (by simp [member])]
    simp [Package.addClass]

def packageHeader (depth : Nat) (name : String) : List Char :=
  padding depth ++ (packageLine name).toList

theorem packageHeader_opens (depth : Nat) {name : String} (label : IsLabel name) :
    isClassHeader (packageHeader depth name) = false ∧
    isPackageHeader (packageHeader depth name) = true ∧
      closes (packageHeader depth name) = false ∧
      packageName (packageHeader depth name) = name := by
  have blank := padding_blank depth
  refine ⟨package_notClass blank label.noKeyword, package_isHeader blank name, ?_, ?_⟩
  · simpa [packageHeader, package_closes blank] using label.noBrace
  · rw [packageHeader, package_name blank, (requote_eq_iff name).mpr label.noQuote]

theorem packageLines_chars (depth : Nat) (name : String) (classes : List Class)
    (packages : List Package) : chars (packageLines depth ⟨name, classes, packages⟩) =
      packageHeader depth name :: (chars (classes.flatMap (classLines (depth + 1))) ++
        (chars (packagesLines (depth + 1) packages) ++ [closingLine depth])) := by
  simp [chars, packageLines, packageHeader, packageLine, closingLine, indent_toList]

mutual
/-- The block of a package behind its header holds its classes and packages. -/
theorem package_inside {depth : Nat} (child : Package) (clean : ∀ c ∈ child.allClasses, c.Clean)
    (labels : ∀ label ∈ child.names, IsLabel label) (rest : List (List Char)) :
    inside { name := child.name } (chars (child.classes.flatMap (classLines (depth + 1))) ++
        (chars (packagesLines (depth + 1) child.packages) ++ closingLine depth :: rest)) =
      (child.mapClasses unlinked, rest) := by
  match child with
  | ⟨name, classes, packages⟩ =>
    simp only [Package.allClasses, List.mem_append] at clean
    simp only [Package.names, List.mem_cons] at labels
    rw [classes_inside fun c member => clean c (Or.inl member),
      packages_inside packages (fun c member => clean c (Or.inr member))
      (fun label member => labels label (Or.inr member)), closing_inside]
    simp [Package.mapClasses]
termination_by structural child

theorem packages_inside {depth : Nat} (all : List Package)
    (clean : ∀ c ∈ Package.classesOf all, c.Clean)
    (labels : ∀ label ∈ Package.namesOf all, IsLabel label) (p : Package)
    (rest : List (List Char)) :
    inside p (chars (packagesLines depth all) ++ rest) =
      inside { p with packages := p.packages ++ Package.mapAll unlinked all } rest := by
  match all with
  | [] => cases p; simp [chars, packagesLines, Package.mapAll]
  | ⟨name, classes, packages⟩ :: more =>
    simp only [Package.classesOf, List.mem_append] at clean
    simp only [Package.namesOf, List.mem_append] at labels
    have label : IsLabel name := labels name (Or.inl (by simp [Package.names]))
    have own :=
      @package_inside depth ⟨name, classes, packages⟩ (fun c member => clean c (Or.inl member))
      (fun label member => labels label (Or.inl member)) (chars (packagesLines depth more) ++ rest)
    have others := @packages_inside depth more (fun c member => clean c (Or.inr member))
      (fun label member => labels label (Or.inr member))
    have shape : chars (packagesLines depth (⟨name, classes, packages⟩ :: more)) ++ rest =
        packageHeader depth name :: (chars (classes.flatMap (classLines (depth + 1))) ++
          (chars (packagesLines (depth + 1) packages) ++ closingLine depth ::
            (chars (packagesLines depth more) ++ rest))) := by
      have lines := packageLines_chars depth name classes packages
      simp only [chars, packagesLines, List.map_append] at lines ⊢
      simp [lines]
    obtain ⟨noClass, isPackage, opened, named⟩ := packageHeader_opens depth label
    rw [shape, inside_package noClass isPackage opened, named, own, others]
    simp [Package.addPackage, Package.mapAll]
termination_by structural all
end

end ClassDiagram.Proofs.DiagramBlocks
