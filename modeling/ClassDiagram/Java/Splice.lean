import ClassDiagram.Java.Skeleton
import ClassDiagram.Text.Blank
import ClassDiagram.Text.Offset

/-! Inserting lines into a source text. Where nothing but blanks or a line comment follows the anchor,
the block goes behind that line and every line of the source is kept. Otherwise the line is split at the
anchor, so that the block lands inside the body. -/

namespace ClassDiagram.Java

open Text

/-- Where new members go. An enum whose constants no separator ends needs one before them. -/
structure Anchor where
  offset : Nat
  needsSeparator : Bool := false
  deriving DecidableEq, Repr, Inhabited

def hasCarriageReturns : List Char → Bool
  | '\r' :: '\n' :: _ => true
  | _ :: rest => hasCarriageReturns rest
  | [] => false

/-- Line breaks follow the source: with a carriage return if it has one before any line feed. -/
def lineBreak (source : List Char) : List Char :=
  if hasCarriageReturns source then ['\r', '\n'] else ['\n']

def block (newline : List Char) (needsSeparator : Bool) (lines : List String) : List Char :=
  let lines := (if needsSeparator then [indent ++ ";"] else []) ++ lines
  lines.flatMap fun line => line.toList ++ newline

def endsLine (text : List Char) : Bool :=
  text.getLast? == some '\n'

/-- What follows the anchor on its line may stay there. -/
def isLoose (tail : List Char) : Bool :=
  match trim tail with
  | [] => true
  | '/' :: '/' :: _ => true
  | _ => false

/-- Splits a text behind its first line feed, or at its end. -/
def splitLine (text : List Char) : List Char × List Char :=
  match text.dropWhile (· != '\n') with
  | [] => (text, [])
  | feed :: rest => (text.takeWhile (· != '\n') ++ [feed], rest)

/-- Refused only for an anchor inside a character. -/
def splice? (source : String) (anchor : Anchor) (lines : List String) : Option String :=
  let text := source.toList
  let newline := lineBreak text
  let inserted := block newline anchor.needsSeparator lines
  (cut? anchor.offset text).map fun (before, after) =>
    if isLoose (after.takeWhile (· != '\n')) then
      let (tail, rest) := splitLine after
      let head := before ++ tail
      String.ofList (head ++ (if endsLine head then [] else newline) ++ inserted ++ rest)
    else
      String.ofList (before ++ newline ++ inserted ++ after)

end ClassDiagram.Java
