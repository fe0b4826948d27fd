import ClassDiagram.Java.Number
import ClassDiagram.Java.Token
import ClassDiagram.Text.Letter
import ClassDiagram.Text.Offset

/-! Cutting a source into tokens. At each place the longest lexeme counts; blanks and comments separate
tokens and leave no trace but a mark. The only context is what string, embedded expression or block of
braces the place lies in. -/

namespace ClassDiagram.Java

open Text

/-- What an open region is: braces, or one of the two kinds of strings, or a hole in one. -/
inductive Level where
  | braces
  | hole
  | string
  | textBlock
  deriving DecidableEq, Repr

inductive Lexeme where
  | blank
  | comment
  | fragment
  | token (kind : Token.Kind)
  deriving DecidableEq, Repr

def isLayout (c : Char) : Bool :=
  c == ' ' || (0x09 ≤ c.toNat && c.toNat ≤ 0x0d)

def isNameStart (c : Char) : Bool :=
  if c.toNat < 0x80 then c.isAlpha || c == '_' || c == '$' else nameStarts.has c

def isNamePart (c : Char) : Bool :=
  if c.toNat < 0x80 then c.isAlphanum || c == '_' || c == '$'
  else c.toNat == 0xa2 || nameStarts.has c || nameTails.has c

/-- Symbols that are no brackets, a longer one before those it starts with. A closing angle is always a
token of its own. -/
def symbols : List (List Char) :=
  ["@interface", "...", "<<=", "::", "->", "--", "-=", "++", "+=", "*=", "/=", "%=", "&&", "&=", "||", "|=",
   "^=", "!=", "==", "<<", "<=", ";", ",", ".", "@", ":", "?", "-", "+", "*", "/", "%", "&", "|", "^", "!",
   "~", "=", "<", ">"].map String.toList

def symbolLength? (text : List Char) : Option Nat :=
  (symbols.find? (·.isPrefixOf text)).map List.length

/-- The length through the mark that ends a block comment. -/
def commentLength? : List Char → Option Nat
  | '*' :: '/' :: _ => some 2
  | _ :: rest => (commentLength? rest).map (· + 1)
  | [] => none

/-- The length of the inside of a character literal and its closing quote. -/
def characterLength? : List Char → Option Nat
  | '\'' :: _ => some 1
  | '\\' :: _ :: rest => (characterLength? rest).map (· + 2)
  | '\n' :: _ => none
  | '\\' :: [] => none
  | _ :: rest => (characterLength? rest).map (· + 1)
  | [] => none

/-- The parts of the one modifier with a hyphen in it. -/
def splitModifier : List Char × List Char :=
  ("non".toList, "-sealed".toList)

def isFragmentChar (c : Char) : Bool :=
  c != '"' && c != '\\'

/-- The length of a comment at the start of the text. -/
def leadingComment? (text : List Char) : Option Nat :=
  match text with
  | '/' :: '/' :: _ => some (text.takeWhile (· != '\n')).length
  | '/' :: '*' :: rest => (commentLength? rest).map (· + 2)
  | _ => none

/-- The length of a quote in a text block with the plain text and the escaped quotes behind it. -/
def quoteLength : List Char → Nat
  | '\\' :: '"' :: rest => quoteLength rest + 2
  | c :: rest => if isFragmentChar c then quoteLength rest + 1 else 0
  | [] => 0

/-- The lexeme in a text block that is neither an escape nor a quote. A comment that outruns the plain text is
a comment even there, also behind blanks. -/
def plainLexeme (text : List Char) : Nat × Lexeme :=
  let plain := (text.takeWhile isFragmentChar).length
  let indent := (text.takeWhile isLayout).length
  match leadingComment? (text.drop indent) with
  | some n => if plain < indent + n then (indent + n, .comment) else (plain, .fragment)
  | none => (plain, .fragment)

/-- The lexeme in a text block that is no escape. -/
def blockLexeme (text : List Char) : Nat × Lexeme :=
  match text with
  | '"' :: '"' :: '"' :: _ => (3, .token (.closing .quote))
  | '"' :: rest => (1 + quoteLength rest, .fragment)
  | _ => plainLexeme text

/-- The lexeme inside a string, with its length. -/
def stringLexeme? (level : Level) (text : List Char) : Option (Nat × Lexeme) :=
  match text, level with
  | [], _ => none
  | '\\' :: '{' :: _, _ => some (2, .token (.opening .hole))
  | '\\' :: _ :: _, _ => some (2, .fragment)
  | ['\\'], _ => none
  | _, .textBlock => some (blockLexeme text)
  | '"' :: _, _ => some (1, .token (.closing .quote))
  | _, _ => some ((text.takeWhile isFragmentChar).length, .fragment)

/-- A blank, a word, a number or a symbol at the start of the text. -/
def simpleLexeme? (text : List Char) : Option (Nat × Lexeme) :=
  match text with
  | [] => none
  | c :: _ =>
    if isLayout c then some (1, .blank)
    else if isNameStart c then some ((text.takeWhile isNamePart).length, .token .word)
    else
      match Number.pattern.longest? text with
      | some n => some (n, .token .number)
      | none => (symbolLength? text).map fun n => (n, .token .symbol)

/-- The lexeme outside strings, with its length. `inHole` tells what a closing brace closes. -/
def codeLexeme? (inHole : Bool) (text : List Char) : Option (Nat × Lexeme) :=
  match text with
  | '(' :: _ => some (1, .token (.opening .paren))
  | ')' :: _ => some (1, .token (.closing .paren))
  | '[' :: _ => some (1, .token (.opening .square))
  | ']' :: _ => some (1, .token (.closing .square))
  | '{' :: _ => some (1, .token (.opening .brace))
  | '}' :: _ => some (1, .token (.closing (if inHole then .hole else .brace)))
  | '"' :: '"' :: '"' :: _ => some (3, .token (.opening .quote))
  | '"' :: _ => some (1, .token (.opening .quote))
  | '\'' :: '\'' :: _ => none
  | '\'' :: rest => (characterLength? rest).map fun n => (n + 1, .token .character)
  | '/' :: '/' :: _ => some ((text.takeWhile (· != '\n')).length, .comment)
  | '/' :: '*' :: rest => (commentLength? rest).map fun n => (n + 2, .comment)
  | _ => simpleLexeme? text

def lexeme? (levels : List Level) (text : List Char) : Option (Nat × Lexeme) :=
  match levels with
  | .string :: _ => stringLexeme? .string text
  | .textBlock :: _ => stringLexeme? .textBlock text
  | .hole :: _ => codeLexeme? true text
  | _ => codeLexeme? false text

/-- The open regions after a token. -/
def Level.after (levels : List Level) (t : Token) : List Level :=
  match t.kind with
  | .opening .brace => .braces :: levels
  | .opening .hole => .hole :: levels
  | .opening .quote => (if t.text = "\"" then .string else .textBlock) :: levels
  | .closing .brace => levels.drop 1
  | .closing .hole => levels.drop 1
  | .closing .quote => levels.drop 1
  | _ => levels

def isGlued (text : List Char) (length : Nat) : Bool :=
  let rest := text.drop length
  if text.head? == some '>' then rest.head? == some '>' || rest.head? == some '='
  else
    let (first, second) := splitModifier
    text.take length == first && second.isPrefixOf rest && !(rest.drop second.length).head?.any isNamePart

/-- Tokens of the text behind the `skip` characters that belong to the lexeme before it. -/
def tokensFrom (levels : List Level) (commented : Bool) : (skip : Nat) → (offset : Nat) → List Char →
    Option (List Token)
  | _, _, [] => some []
  | skip + 1, offset, c :: rest => tokensFrom levels commented skip (offset + c.utf8Size) rest
  | 0, offset, c :: rest =>
    match lexeme? levels (c :: rest) with
    | none => none
    | some (length, lexeme) =>
      let next := offset + c.utf8Size
      match lexeme with
      | .token kind =>
        let text := (c :: rest).take length
        let token : Token := {
          kind
          text := String.ofList text
          start := offset
          stop := offset + byteLength text
          glued := isGlued (c :: rest) length
          commented }
        (tokensFrom (Level.after levels token) false (length - 1) next rest).map (token :: ·)
      | _ => tokensFrom levels (commented || lexeme = .comment) (length - 1) next rest

/-- A byte order mark at the very start is skipped. -/
def tokens? (source : List Char) : Option (List Token) :=
  match source with
  | '\ufeff' :: rest => tokensFrom [] false 0 ('\ufeff').utf8Size rest
  | _ => tokensFrom [] false 0 0 source

end ClassDiagram.Java
