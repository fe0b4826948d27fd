/-! Offsets into a text count the bytes of its UTF-8 form. -/

namespace ClassDiagram.Text

def byteLength : List Char → Nat
  | [] => 0
  | c :: rest => c.utf8Size + byteLength rest

/-- Cuts a text at an offset. One past the end stands for the end; one inside a character is refused. -/
def cut? : Nat → List Char → Option (List Char × List Char)
  | 0, text => some ([], text)
  | _ + 1, [] => some ([], [])
  | offset + 1, c :: rest =>
    if c.utf8Size ≤ offset + 1 then
      (cut? (offset + 1 - c.utf8Size) rest).map fun (before, after) => (c :: before, after)
    else none

end ClassDiagram.Text
