import ClassDiagram.Model.Package
import ClassDiagram.Text.Blank
import ClassDiagram.Text.Lines
import ClassDiagram.Text.Word

/-! Header lines of classes and packages. A class header is

    [abstract] [interface, enum or class] name [extends name] [implements names] [braces]

where each optional part is taken if the line can be read with it, and otherwise left out: the words of
the grammar are names too. A header of any other form gives its first word that is no keyword. -/

namespace ClassDiagram.Diagram

open Text

def classKeywords : List (List Char) :=
  ["class".toList, "abstract".toList, "interface".toList, "enum".toList]

def isClassHeader (line : List Char) : Bool :=
  (words line).any classKeywords.contains

def isPackageHeader (line : List Char) : Bool :=
  (words line).contains "package".toList

/-- Blocks close where a brace stands on the line, wherever it stands. -/
def closes (line : List Char) : Bool :=
  line.contains '}'

def startsBlank : List Char → Bool
  | c :: _ => isBlank c
  | [] => false

/-- The text behind a word and the blanks that must follow it. -/
def afterWord? (word : String) (text : List Char) : Option (List Char) :=
  match word.toList.isPrefixOf? text with
  | some rest => if startsBlank rest then some (skipBlanks rest) else none
  | none => none

def skipChar (c : Char) : List Char → List Char
  | d :: rest => if d = c then rest else d :: rest
  | [] => []

/-- A header may end in an opening brace, a closing brace or both. -/
def isHeaderEnd (text : List Char) : Bool :=
  (skipBlanks (skipChar '}' (skipBlanks (skipChar '{' (skipBlanks text))))).isEmpty

def qualifiedName? (text : List Char) : Option (String × List Char) :=
  match text.takeWhile isQualifiedChar with
  | [] => none
  | name => some (String.ofList name, text.dropWhile isQualifiedChar)

def isListChar (c : Char) : Bool :=
  isQualifiedChar c || c == ',' || isBlank c

/-- The shortest list of names behind which the header ends. -/
def listText? : List Char → Option (List Char)
  | [] => none
  | c :: rest =>
    if isListChar c then
      if isHeaderEnd rest then some [c] else (listText? rest).map (c :: ·)
    else none

def listedNames (text : List Char) : List String :=
  (((pieces ',' text).map trim).filter (!·.isEmpty)).map String.ofList

/-- The list of interfaces up to the end of the header. Two blanks stand for an empty list. -/
def interfaces? (text : List Char) : Option (List String) :=
  if startsBlank text then
    match "implements".toList.isPrefixOf? (skipBlanks text) with
    | none => none
    | some rest =>
      if startsBlank rest then
        match listText? (skipBlanks rest) with
        | some list => some (listedNames list)
        | none => if startsBlank rest.tail && isHeaderEnd rest then some [] else none
      else none
  else none

def interfacesOrEnd? (text : List Char) : Option (List String) :=
  match interfaces? text with
  | some names => some names
  | none => if isHeaderEnd text then some [] else none

def extends? (text : List Char) : Option (String × List Char) :=
  if startsBlank text then
    match afterWord? "extends" (skipBlanks text) with
    | some rest => qualifiedName? rest
    | none => none
  else none

/-- What follows the name of the class: its superclass and its interfaces. -/
def supertypes? (text : List Char) : Option (Option String × List String) :=
  match extends? text with
  | none => (interfacesOrEnd? text).map (none, ·)
  | some (superclass, rest) =>
    match interfacesOrEnd? rest with
    | some names => some (some superclass, names)
    | none => (interfacesOrEnd? text).map (none, ·)

def named? (kind : Kind) (text : List Char) : Option Class :=
  match qualifiedName? text with
  | none => none
  | some (name, rest) =>
    (supertypes? rest).map fun (superclass, interfaces) => { name, kind, superclass, interfaces }

def kindWord? (text : List Char) : Option (Kind × List Char) :=
  match afterWord? "class" text, afterWord? "interface" text, afterWord? "enum" text with
  | some rest, _, _ => some (.plain, rest)
  | none, some rest, _ => some (.interface, rest)
  | none, none, some rest => some (.enum, rest)
  | none, none, none => none

def kinded? (text : List Char) : Option Class :=
  match kindWord? text with
  | none => named? .plain text
  | some (kind, rest) =>
    match named? kind rest with
    | some c => some c
    | none => named? .plain text

/-- A header of the full grammar. -/
def wellFormedHeader? (line : List Char) : Option Class :=
  let text := skipBlanks line
  match afterWord? "abstract" text with
  | none => kinded? text
  | some rest =>
    match kinded? rest with
    | some c => some { c with isAbstract := true }
    | none => kinded? text

def dropBraces (word : List Char) : List Char :=
  (word.reverse.dropWhile (· == '{')).reverse

/-- Any other header: the first word that is no keyword names the class. -/
def looseHeader (line : List Char) : Class :=
  let tokens := words line
  { name :=
      match tokens.find? (!classKeywords.contains ·) with
      | some word => String.ofList (dropBraces word)
      | none => "Unknown"
    kind :=
      if tokens.contains "interface".toList then .interface
      else if tokens.contains "enum".toList then .enum
      else .plain
    isAbstract := tokens.contains "abstract".toList }

def classHeader (line : List Char) : Class :=
  (wellFormedHeader? line).getD (looseHeader line)

/-- The text between the first two quotes. -/
def quoted? (line : List Char) : Option (List Char) :=
  match line.dropWhile (· != '"') with
  | [] => none
  | _ :: rest => if rest.contains '"' then some (rest.takeWhile (· != '"')) else none

/-- A package is named by its quoted text, else by the word behind the keyword. -/
def packageName (line : List Char) : String :=
  match quoted? line with
  | some name => String.ofList name
  | none =>
    match (words line).dropWhile (· != "package".toList) with
    | _ :: word :: _ => String.ofList (dropBraces word)
    | _ => ""

end ClassDiagram.Diagram
