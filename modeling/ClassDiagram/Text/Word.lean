import ClassDiagram.Text.Letter

/-! Word characters of a diagram: alphabetic characters, marks, decimal digits, connectors and joiners.
Beyond ASCII this class is that of name characters but for a handful of exceptions each way. -/

namespace ClassDiagram.Text

/-- Name characters that are no word characters. -/
def nonWords : Ranges :=
  [(0xb7, 0xb7), (0x387, 0x387), (0x1369, 0x1371), (0x19da, 0x19da), (0x2118, 0x2118), (0x212e, 0x212e),
   (0x30fb, 0x30fb), (0xff65, 0xff65)]

/-- Word characters that may not stand in a name. -/
def extraWords : Ranges :=
  [(0x37a, 0x37a), (0x488, 0x489), (0x1abe, 0x1abe), (0x20dd, 0x20e0), (0x20e2, 0x20e4), (0x24b6, 0x24e9),
   (0x2e2f, 0x2e2f), (0xa670, 0xa672), (0xfc5e, 0xfc63), (0xfdfa, 0xfdfb), (0xfe70, 0xfe70),
   (0xfe72, 0xfe72), (0xfe74, 0xfe74), (0xfe76, 0xfe76), (0xfe78, 0xfe78), (0xfe7a, 0xfe7a),
   (0xfe7c, 0xfe7c), (0xfe7e, 0xfe7e), (0x1f130, 0x1f149), (0x1f150, 0x1f169), (0x1f170, 0x1f189)]

def isWord (c : Char) : Bool :=
  if c.toNat < 0x80 then c.isAlphanum || c == '_'
  else extraWords.has c || ((nameStarts.has c || nameTails.has c) && !nonWords.has c)

/-- Names of classes' members consist of word characters and dollar signs. -/
def isNameChar (c : Char) : Bool :=
  isWord c || c == '$'

/-- Class names may be qualified, so a dot joins in. -/
def isQualifiedChar (c : Char) : Bool :=
  isNameChar c || c == '.'

end ClassDiagram.Text
