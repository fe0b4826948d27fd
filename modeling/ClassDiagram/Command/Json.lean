import ClassDiagram.Model.Project

/-! A project as JSON text, indented by two blanks a level. -/

namespace ClassDiagram.Command

inductive Json where
  | null
  | bool (value : Bool)
  | text (value : String)
  | list (items : List Json)
  | object (entries : List (String × Json))
  deriving Repr, Inhabited

namespace Json

def hexDigit (n : Nat) : Char :=
  if n < 10 then Char.ofNat (0x30 + n) else Char.ofNat (0x57 + n)

def escaped (c : Char) : List Char :=
  match c with
  | '"' => ['\\', '"']
  | '\\' => ['\\', '\\']
  | '\x08' => ['\\', 'b']
  | '\x0c' => ['\\', 'f']
  | '\n' => ['\\', 'n']
  | '\r' => ['\\', 'r']
  | '\t' => ['\\', 't']
  | _ =>
    if c.toNat < 0x20 then ['\\', 'u', '0', '0', hexDigit (c.toNat / 16), hexDigit (c.toNat % 16)] else [c]

def quoted (text : String) : String :=
  String.ofList ('"' :: text.toList.flatMap escaped ++ ['"'])

def line (depth : Nat) : String :=
  "\n" ++ String.ofList (List.replicate (2 * depth) ' ')

mutual
def render (depth : Nat) : Json → String
  | null => "null"
  | bool value => if value then "true" else "false"
  | text value => quoted value
  | list [] => "[]"
  | list (first :: rest) =>
    "[" ++ line (depth + 1) ++ render (depth + 1) first ++ renderItems (depth + 1) rest ++ line depth ++ "]"
  | object [] => "\x7b\x7d"
  | object ((key, first) :: rest) =>
    "\x7b" ++ line (depth + 1) ++ quoted key ++ ": " ++ render (depth + 1) first
      ++ renderEntries (depth + 1) rest ++ line depth ++ "\x7d"

def renderItems (depth : Nat) : List Json → String
  | [] => ""
  | item :: rest => "," ++ line depth ++ render depth item ++ renderItems depth rest

def renderEntries (depth : Nat) : List (String × Json) → String
  | [] => ""
  | (key, item) :: rest =>
    "," ++ line depth ++ quoted key ++ ": " ++ render depth item ++ renderEntries depth rest
end

def texts (items : List String) : Json :=
  list (items.map text)

def ofField (field : Field) : Json :=
  object [("name", text field.name), ("field_type", text field.type), ("is_private", bool field.isPrivate)]

def ofParameter (parameter : Parameter) : Json :=
  object [("name", text parameter.name), ("param_type", text parameter.type)]

def ofMethod (method : Method) : Json :=
  object [("name", text method.name), ("return_type", text method.returnType),
    ("parameters", list (method.parameters.map ofParameter)), ("is_private", bool method.isPrivate)]

def ofKind : Kind → Json
  | .plain => text "class"
  | .interface => text "interface"
  | .enum => text "enum"

def ofOption : Option String → Json
  | some value => text value
  | none => null

def ofClass (c : Class) : Json :=
  object [("name", text c.name), ("kind", ofKind c.kind), ("is_abstract", bool c.isAbstract),
    ("superclass", ofOption c.superclass), ("implemented_interfaces", texts c.interfaces),
    ("fields", list (c.fields.map ofField)), ("methods", list (c.methods.map ofMethod)),
    ("enum_types", texts c.constants), ("contained_classes", texts c.contained)]

mutual
def ofPackage : Package → Json
  | ⟨name, classes, packages⟩ =>
    object [("name", text name), ("classes", list (classes.map ofClass)), ("packages", list (ofPackages packages))]

def ofPackages : List Package → List Json
  | [] => []
  | p :: rest => ofPackage p :: ofPackages rest
end

def ofProject (p : Project) : Json :=
  object [("packages", list (ofPackages p.packages)), ("classes", list (p.classes.map ofClass)),
    ("class_names", texts p.classNames)]

end Json

end ClassDiagram.Command
