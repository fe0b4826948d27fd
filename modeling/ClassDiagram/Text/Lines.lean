/-! A text as lines, and a line as pieces between separators. -/

namespace ClassDiagram.Text

/-- Lines end at a line feed, which takes a carriage return before it along. The last line needs no
line feed, and none follows a line feed at the very end. -/
def lines : List Char → List (List Char)
  | [] => []
  | '\n' :: rest => [] :: lines rest
  | '\r' :: '\n' :: rest => [] :: lines rest
  | c :: rest =>
    match lines rest with
    | line :: more => (c :: line) :: more
    | [] => [[c]]

/-- The texts between separators; there is one more of them than separators. -/
def pieces (separator : Char) : List Char → List (List Char)
  | [] => [[]]
  | c :: rest =>
    if c = separator then [] :: pieces separator rest
    else match pieces separator rest with
      | piece :: more => (c :: piece) :: more
      | [] => [[c]]

end ClassDiagram.Text
