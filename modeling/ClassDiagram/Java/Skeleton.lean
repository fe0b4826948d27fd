import ClassDiagram.Model.Class

/-! Java text for a class of the model. Methods of interfaces are bare signatures, all others have a
placeholder body, and an enum has a constructor for its constants to call. -/

namespace ClassDiagram.Java

def indent : String := "    "

def bodyIndent : String := "        "

def todo : String := bodyIndent ++ "//TODO"

def kindText : Kind → String
  | .plain => "class"
  | .interface => "interface"
  | .enum => "enum"

def access (isPrivate : Bool) : String :=
  if isPrivate then "private" else "public"

/-- The first line of a type, through its opening brace. -/
def declaration (c : Class) : String :=
  let superclass :=
    match c.superclass with
    | some name => " extends " ++ name
    | none => ""
  let interfaces :=
    match c.interfaces with
    | [] => ""
    | names => " implements " ++ ", ".intercalate names
  "public" ++ (if c.isAbstract then " abstract " else " ") ++ kindText c.kind ++ " " ++ c.name
    ++ superclass ++ interfaces ++ " \x7b"

def fieldText (field : Field) : String :=
  indent ++ access field.isPrivate ++ " " ++ field.type ++ " " ++ field.name ++ ";"

def signature (method : Method) : String :=
  indent ++ access method.isPrivate ++ " " ++ method.returnType ++ " " ++ method.name ++ "("
    ++ ", ".intercalate (method.parameters.map fun p => p.type ++ " " ++ p.name) ++ ")"

/-- A method behind a blank line, with or without a body. -/
def methodLines (signatureOnly : Bool) (method : Method) : List String :=
  if signatureOnly then ["", signature method ++ ";"]
  else
    ["", signature method ++ " \x7b", todo]
      ++ (if method.returnsVoid then [] else [bodyIndent ++ "return null;"])
      ++ [indent ++ "\x7d"]

/-- Constants one a line, the last one ended by the separator of the members. -/
def constantLines : List String → List String
  | [] => []
  | [last] => [indent ++ last ++ "();", ""]
  | constant :: more => (indent ++ constant ++ "(),") :: constantLines more

def enumConstructor (c : Class) : List String :=
  if c.isEnum then ["", indent ++ c.name ++ "() \x7b", todo, indent ++ "\x7d"] else []

/-- The whole type. -/
def skeleton (c : Class) : List String :=
  [declaration c, ""]
    ++ constantLines c.constants
    ++ c.fields.map fieldText
    ++ enumConstructor c
    ++ c.methods.flatMap (methodLines c.isInterface)
    ++ ["\x7d"]

/-- The text of a new file: every line is ended. -/
def skeletonText (c : Class) : String :=
  "\n".intercalate (skeleton c) ++ "\n"

end ClassDiagram.Java
