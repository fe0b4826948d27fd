import ClassDiagram.Text.Ranges

/-! Blanks, and the ways a text is cut at them. Blank means the Unicode property White_Space. -/

namespace ClassDiagram.Text

/-- Blanks beyond ASCII. -/
def wideBlanks : Ranges :=
  [(0x85, 0x85), (0xa0, 0xa0), (0x1680, 0x1680), (0x2000, 0x200a), (0x2028, 0x2029), (0x202f, 0x202f),
   (0x205f, 0x205f), (0x3000, 0x3000)]

def isBlank (c : Char) : Bool :=
  if c.toNat < 0x80 then c == ' ' || (0x09 ≤ c.toNat && c.toNat ≤ 0x0d) else wideBlanks.has c

def skipBlanks (text : List Char) : List Char :=
  text.dropWhile isBlank

def trimEnd (text : List Char) : List Char :=
  (text.reverse.dropWhile isBlank).reverse

def trim (text : List Char) : List Char :=
  trimEnd (skipBlanks text)

/-- The maximal runs without blanks. -/
def words : List Char → List (List Char)
  | [] => []
  | [c] => if isBlank c then [] else [[c]]
  | c :: d :: rest =>
    if isBlank c then words (d :: rest)
    else if isBlank d then [c] :: words (d :: rest)
    else match words (d :: rest) with
      | word :: more => (c :: word) :: more
      | [] => [[c]]

end ClassDiagram.Text
