import ClassDiagram.Model.Class
import ClassDiagram.Text.Blank
import ClassDiagram.Text.Lines
import ClassDiagram.Text.Word

/-! One line of a class body. A method is `± name(parameters): type`, a field is `± name: type`, and
every other line with something on it is a constant, so no line that is not blank is lost. -/

namespace ClassDiagram.Diagram

open Text

inductive Entry where
  | field (field : Field)
  | method (method : Method)
  | constant (name : String)
  deriving DecidableEq, Repr

def Entry.addTo (c : Class) : Entry → Class
  | field f => c.addField f
  | method m => c.addMethod m
  | constant name => c.addConstant name

/-- The sign that opens a member line: whether it says private, and the text after it. -/
def visibility (text : List Char) : Bool × List Char :=
  match text with
  | '-' :: rest => (true, rest)
  | '+' :: rest => (false, rest)
  | _ => (false, text)

/-- A name at the start of the text, and the text after it and its blanks. -/
def name? (text : List Char) : Option (String × List Char) :=
  match text.takeWhile isNameChar with
  | [] => none
  | name => some (String.ofList name, skipBlanks (text.dropWhile isNameChar))

/-- The text behind a colon, without the blanks around it. There must be some. -/
def afterColon? (text : List Char) : Option String :=
  match skipBlanks text with
  | ':' :: rest =>
    match trim rest with
    | [] => none
    | type => some (String.ofList type)
  | _ => none

/-- Splits at the last closing parenthesis that a colon and a type follow. -/
def closing? : List Char → Option (List Char × String)
  | [] => none
  | c :: rest =>
    match closing? rest with
    | some (inside, type) => some (c :: inside, type)
    | none => if c = ')' then (afterColon? rest).map fun type => ([], type) else none

def parameter? (text : List Char) : Option Parameter := do
  let (name, rest) ← name? (skipBlanks text)
  let type ← afterColon? rest
  return { name, type }

/-- Pieces between commas; one that is no `name: type` is dropped. -/
def parameters (text : List Char) : List Parameter :=
  (pieces ',' text).filterMap parameter?

def method? (text : List Char) : Option Method := do
  let (isPrivate, rest) := visibility text
  let (name, rest) ← name? (skipBlanks rest)
  match rest with
  | '(' :: rest =>
    let (inside, returnType) ← closing? rest
    return { name, returnType, parameters := parameters inside, isPrivate }
  | _ => none

def field? (text : List Char) : Option Field := do
  let (isPrivate, rest) := visibility text
  let (name, rest) ← name? (skipBlanks rest)
  let type ← afterColon? rest
  return { name, type, isPrivate }

def entryOf? (line : List Char) : Option Entry :=
  match trim line with
  | [] => none
  | text =>
    match method? text with
    | some method => some (.method method)
    | none =>
      match field? text with
      | some field => some (.field field)
      | none => some (.constant (String.ofList text))

end ClassDiagram.Diagram
