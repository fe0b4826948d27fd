import ClassDiagram.Model.Member

/-! A declared type with its members. Superclass, interfaces and contained classes are plain names. -/

namespace ClassDiagram

/-- A `plain` type is neither an interface nor an enum; it may be abstract. -/
inductive Kind where
  | plain
  | interface
  | enum
  deriving DecidableEq, Repr, Inhabited

/-- `constants` are the constants of an enum in their order. `contained` names, one entry per field,
the classes of the project that fields refer to; it is derived from the fields. -/
structure Class where
  name : String
  kind : Kind := .plain
  isAbstract : Bool := false
  superclass : Option String := none
  interfaces : List String := []
  fields : List Field := []
  methods : List Method := []
  constants : List String := []
  contained : List String := []
  deriving DecidableEq, Repr, Inhabited

namespace Class

def isInterface (c : Class) : Bool :=
  c.kind == .interface

def isEnum (c : Class) : Bool :=
  c.kind == .enum

def addField (c : Class) (field : Field) : Class :=
  { c with fields := c.fields ++ [field] }

def addMethod (c : Class) (method : Method) : Class :=
  { c with methods := c.methods ++ [method] }

def addConstant (c : Class) (constant : String) : Class :=
  { c with constants := c.constants ++ [constant] }

def addContained (c : Class) (name : String) : Class :=
  { c with contained := c.contained ++ [name] }

def hasField (c : Class) (name : String) : Bool :=
  c.fields.any (·.name == name)

def hasMethod (c : Class) (name : String) : Bool :=
  c.methods.any (·.name == name)

/-- Containment afresh: the types of fields that are among the known class names. -/
def inferContained (known : List String) (c : Class) : Class :=
  { c with contained := (c.fields.map Field.type).filter known.contains }

end Class

end ClassDiagram
