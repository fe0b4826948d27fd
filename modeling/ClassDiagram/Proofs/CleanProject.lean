import ClassDiagram.Diagram.BodyLine
import ClassDiagram.Diagram.Header
import ClassDiagram.Model.Project
import ClassDiagram.Proofs.Blanks

/-! Projects whose texts a diagram can hold. Each condition keeps a text from being cut, from
closing the block it stands in, or from being taken for a header. -/

namespace ClassDiagram

open Text Diagram

/-- The words that structure the headers of a diagram. -/
def reservedWords : List String :=
  ["class", "abstract", "interface", "enum", "package", "extends", "implements"]

structure IsTypeName (name : String) : Prop where
  nonempty : name ≠ ""
  qualified : ∀ c ∈ name.toList, isQualifiedChar c = true
  unreserved : name ∉ reservedWords

structure IsMemberName (name : String) : Prop where
  nonempty : name ≠ ""
  word : ∀ c ∈ name.toList, isNameChar c = true

/-- A text that may end a line of a class body. -/
structure IsLineText (text : String) : Prop where
  nonempty : text ≠ ""
  trimmed : trim text.toList = text.toList
  oneLine : '\n' ∉ text.toList
  noBrace : '}' ∉ text.toList

structure Field.Clean (field : Field) : Prop where
  name : IsMemberName field.name
  type : IsLineText field.type

structure Parameter.Clean (parameter : Parameter) : Prop where
  name : IsMemberName parameter.name
  type : IsLineText parameter.type
  noComma : ',' ∉ parameter.type.toList

structure Method.Clean (method : Method) : Prop where
  name : IsMemberName method.name
  returnType : IsLineText method.returnType
  noParen : ')' ∉ method.returnType.toList
  parameters : ∀ parameter ∈ method.parameters, parameter.Clean

/-- A constant is what no member line can be. -/
structure IsConstantText (text : String) : Prop where
  line : IsLineText text
  noMethod : method? text.toList = none
  noField : field? text.toList = none

/-- Only plain classes are abstract. -/
structure Class.Clean (c : Class) : Prop where
  name : IsTypeName c.name
  superclass : ∀ name ∈ c.superclass, IsTypeName name
  interfaces : ∀ name ∈ c.interfaces, IsTypeName name
  fields : ∀ field ∈ c.fields, field.Clean
  methods : ∀ method ∈ c.methods, method.Clean
  constants : ∀ constant ∈ c.constants, IsConstantText constant
  isAbstract : c.isAbstract = true → c.kind = .plain

structure IsPackageName (name : String) : Prop where
  oneLine : '\n' ∉ name.toList
  noQuote : '"' ∉ name.toList
  noBrace : '}' ∉ name.toList
  noKeyword : ∀ word ∈ words name.toList, word ∉ classKeywords

namespace Package

mutual
def names : Package → List String
  | ⟨name, _, packages⟩ => name :: namesOf packages

def namesOf : List Package → List String
  | [] => []
  | p :: ps => p.names ++ namesOf ps
end

end Package

structure Project.Clean (p : Project) : Prop where
  classes : ∀ c ∈ p.allClasses, c.Clean
  packages : ∀ name ∈ Package.namesOf p.packages, IsPackageName name

/-- Index and containment are what they are computed to be. -/
def Project.Indexed (p : Project) : Prop :=
  p.indexNames.inferContainment = p

instance (name : String) : Decidable (IsTypeName name) :=
  decidable_of_iff (name ≠ "" ∧ (∀ c ∈ name.toList, isQualifiedChar c = true) ∧
    name ∉ reservedWords) ⟨fun ⟨a, b, c⟩ => ⟨a, b, c⟩, fun ⟨a, b, c⟩ => ⟨a, b, c⟩⟩

instance (name : String) : Decidable (IsMemberName name) :=
  decidable_of_iff (name ≠ "" ∧ ∀ c ∈ name.toList, isNameChar c = true)
    ⟨fun ⟨a, b⟩ => ⟨a, b⟩, fun ⟨a, b⟩ => ⟨a, b⟩⟩

instance (text : String) : Decidable (IsLineText text) :=
  decidable_of_iff (text ≠ "" ∧ trim text.toList = text.toList ∧ '\n' ∉ text.toList ∧
    '}' ∉ text.toList) ⟨fun ⟨a, b, c, d⟩ => ⟨a, b, c, d⟩, fun ⟨a, b, c, d⟩ => ⟨a, b, c, d⟩⟩

instance (field : Field) : Decidable field.Clean :=
  decidable_of_iff (IsMemberName field.name ∧ IsLineText field.type)
    ⟨fun ⟨a, b⟩ => ⟨a, b⟩, fun ⟨a, b⟩ => ⟨a, b⟩⟩

instance (parameter : Parameter) : Decidable parameter.Clean :=
  decidable_of_iff (IsMemberName parameter.name ∧ IsLineText parameter.type ∧
    ',' ∉ parameter.type.toList) ⟨fun ⟨a, b, c⟩ => ⟨a, b, c⟩, fun ⟨a, b, c⟩ => ⟨a, b, c⟩⟩

instance (method : Method) : Decidable method.Clean :=
  decidable_of_iff (IsMemberName method.name ∧ IsLineText method.returnType ∧
      ')' ∉ method.returnType.toList ∧ ∀ parameter ∈ method.parameters, parameter.Clean)
    ⟨fun ⟨a, b, c, d⟩ => ⟨a, b, c, d⟩, fun ⟨a, b, c, d⟩ => ⟨a, b, c, d⟩⟩

instance (text : String) : Decidable (IsConstantText text) :=
  decidable_of_iff (IsLineText text ∧ method? text.toList = none ∧ field? text.toList = none)
    ⟨fun ⟨a, b, c⟩ => ⟨a, b, c⟩, fun ⟨a, b, c⟩ => ⟨a, b, c⟩⟩

instance (c : Class) : Decidable c.Clean :=
  decidable_of_iff (IsTypeName c.name ∧ (∀ name ∈ c.superclass.toList, IsTypeName name) ∧
      (∀ name ∈ c.interfaces, IsTypeName name) ∧ (∀ field ∈ c.fields, field.Clean) ∧
      (∀ method ∈ c.methods, method.Clean) ∧ (∀ constant ∈ c.constants, IsConstantText constant) ∧
      (c.isAbstract = true → c.kind = .plain))
    ⟨fun ⟨a, b, c, d, e, f, g⟩ => ⟨a, by simpa using b, c, d, e, f, g⟩,
     fun ⟨a, b, c, d, e, f, g⟩ => ⟨a, by simpa using b, c, d, e, f, g⟩⟩

instance (name : String) : Decidable (IsPackageName name) :=
  decidable_of_iff ('\n' ∉ name.toList ∧ '"' ∉ name.toList ∧ '}' ∉ name.toList ∧
      ∀ word ∈ words name.toList, word ∉ classKeywords)
    ⟨fun ⟨a, b, c, d⟩ => ⟨a, b, c, d⟩, fun ⟨a, b, c, d⟩ => ⟨a, b, c, d⟩⟩

instance (p : Project) : Decidable p.Clean :=
  decidable_of_iff ((∀ c ∈ p.allClasses, c.Clean) ∧
    ∀ name ∈ Package.namesOf p.packages, IsPackageName name)
    ⟨fun ⟨a, b⟩ => ⟨a, b⟩, fun ⟨a, b⟩ => ⟨a, b⟩⟩

end ClassDiagram
