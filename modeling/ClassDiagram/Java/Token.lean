/-! Tokens of a Java source. A string literal is a bracketed region like any other, since expressions may
be embedded in it; what stands between its quotes otherwise is no token. -/

namespace ClassDiagram.Java

/-- `hole` is an expression embedded in a string. -/
inductive Bracket where
  | paren
  | brace
  | square
  | quote
  | hole
  deriving DecidableEq, Repr, Inhabited

inductive Token.Kind where
  | word
  | number
  | character
  | symbol
  | opening (bracket : Bracket)
  | closing (bracket : Bracket)
  deriving DecidableEq, Repr, Inhabited

/-- Offsets count bytes. `glued` marks a token that may be read as one with what touches it: a closing angle
before a further angle or an equals sign, and the first part of the one modifier with a hyphen in it.
`commented` marks a comment between the token and the one before. -/
structure Token where
  kind : Token.Kind
  text : String
  start : Nat
  stop : Nat
  glued : Bool := false
  commented : Bool := false
  deriving DecidableEq, Repr, Inhabited

/-- The keyword that a word may be read as. -/
def Token.keyword (t : Token) : String :=
  if t.glued then "non-sealed" else t.text

def Token.isWord (t : Token) (text : String) : Bool :=
  t.kind == .word && t.text == text

def Token.isSymbol (t : Token) (text : String) : Bool :=
  t.kind == .symbol && t.text == text

end ClassDiagram.Java
