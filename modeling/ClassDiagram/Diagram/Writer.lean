import ClassDiagram.Model.Project

/-! The diagram of a project as lines: packages, top-level classes, and one arrow per contained class.
Blocks are indented by two blanks a level. -/

namespace ClassDiagram.Diagram

def startMarker : String := "@startuml"

def endMarker : String := "@enduml"

def keyword (c : Class) : String :=
  match c.kind with
  | .enum => "enum"
  | .interface => "interface"
  | .plain => if c.isAbstract then "abstract" else "class"

/-- The header of a class without its brace. -/
def headerText (c : Class) : String :=
  let superclass :=
    match c.superclass with
    | some name => " extends " ++ name
    | none => ""
  let interfaces :=
    match c.interfaces with
    | [] => ""
    | names => " implements " ++ ", ".intercalate names
  keyword c ++ " " ++ c.name ++ superclass ++ interfaces

def sign (isPrivate : Bool) : String :=
  if isPrivate then "- " else "+ "

def fieldLine (field : Field) : String :=
  sign field.isPrivate ++ field.name ++ ": " ++ field.type

def parameterText (parameter : Parameter) : String :=
  parameter.name ++ ": " ++ parameter.type

def methodLine (method : Method) : String :=
  sign method.isPrivate ++ method.name ++ "(" ++ ", ".intercalate (method.parameters.map parameterText)
    ++ "): " ++ method.returnType

def indent (depth : Nat) (line : String) : String :=
  String.ofList (List.replicate (2 * depth) ' ') ++ line

def classLines (depth : Nat) (c : Class) : List String :=
  [indent depth (headerText c ++ " \x7b")]
    ++ (c.constants ++ c.fields.map fieldLine ++ c.methods.map methodLine).map (indent (depth + 1))
    ++ [indent depth "\x7d"]

mutual
def packageLines (depth : Nat) : Package → List String
  | ⟨name, classes, packages⟩ =>
    [indent depth ("package \"" ++ name ++ "\" \x7b")]
      ++ classes.flatMap (classLines (depth + 1))
      ++ packagesLines (depth + 1) packages
      ++ [indent depth "\x7d"]

def packagesLines (depth : Nat) : List Package → List String
  | [] => []
  | p :: ps => packageLines depth p ++ packagesLines depth ps
end

/-- One arrow to a contained class, which tells one field of that type from several. -/
def arrow (source : String) (target : String) (count : Nat) : String :=
  if count = 1 then source ++ " o-- " ++ target ++ ": contains"
  else source ++ " \"1\" o-- \"many\" " ++ target ++ ": contains"

/-- Arrows of one class, in the order in which its contained classes come first. -/
def arrows (known : List String) (c : Class) : List String :=
  let targets := c.contained.filter known.contains
  targets.eraseDups.map fun target => arrow c.name target (targets.count target)

def render (p : Project) : List String :=
  [startMarker]
    ++ packagesLines 0 p.packages
    ++ p.classes.flatMap (classLines 0)
    ++ p.allClasses.flatMap (arrows p.classNames)
    ++ [endMarker]

/-- The diagram as one text, without a line feed at its end. -/
def renderText (p : Project) : String :=
  "\n".intercalate (render p)

end ClassDiagram.Diagram
