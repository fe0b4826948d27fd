/-! Regular patterns over characters and their longest match, by derivatives. The derivative of a pattern
by a character matches what may follow that character; constructors drop dead branches, so a pattern
stays small along a match. -/

namespace ClassDiagram.Text

inductive Pattern where
  | never
  | empty
  | one (accepts : Char → Bool)
  | seq (first second : Pattern)
  | alt (left right : Pattern)
  | star (body : Pattern)

namespace Pattern

def isNullable : Pattern → Bool
  | never => false
  | empty => true
  | one _ => false
  | seq first second => first.isNullable && second.isNullable
  | alt left right => left.isNullable || right.isNullable
  | star _ => true

def thenMatch : Pattern → Pattern → Pattern
  | never, _ => never
  | empty, second => second
  | first, second => seq first second

def orMatch : Pattern → Pattern → Pattern
  | never, right => right
  | left, never => left
  | left, right => alt left right

def derive (c : Char) : Pattern → Pattern
  | never => never
  | empty => never
  | one accepts => if accepts c then empty else never
  | seq first second =>
    let inFirst := thenMatch (derive c first) second
    if first.isNullable then orMatch inFirst (derive c second) else inFirst
  | alt left right => orMatch (derive c left) (derive c right)
  | star body => thenMatch (derive c body) (star body)

def isNever : Pattern → Bool
  | never => true
  | _ => false

/-- How many characters the longest match at the start of the text has. -/
def longest? (p : Pattern) : List Char → Option Nat
  | [] => if p.isNullable then some 0 else none
  | c :: rest =>
    let next := p.derive c
    match if next.isNever then none else next.longest? rest with
    | some n => some (n + 1)
    | none => if p.isNullable then some 0 else none

def char (c : Char) : Pattern :=
  one (· == c)

def among (chars : String) : Pattern :=
  one chars.toList.contains

def opt (p : Pattern) : Pattern :=
  alt p empty

def some1 (p : Pattern) : Pattern :=
  seq p (star p)

def all (ps : List Pattern) : Pattern :=
  ps.foldr seq empty

def any (ps : List Pattern) : Pattern :=
  ps.foldr alt never

/-- At least one `p`, with separators between them. -/
def separated (p separator : Pattern) : Pattern :=
  seq p (star (seq separator p))

end Pattern

end ClassDiagram.Text
