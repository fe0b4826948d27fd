import ClassDiagram.Text.Printable

/-! Texts in quotes, for messages. Quotes and backslashes are escaped, and what cannot be shown is given
by its code in hexadecimal. -/

namespace ClassDiagram.Text

def hexDigit (n : Nat) : Char :=
  if n < 10 then Char.ofNat (0x30 + n) else Char.ofNat (0x57 + n)

/-- Hexadecimal digits without leading zeros. -/
def hexDigits (n : Nat) : List Char :=
  if n < 16 then [hexDigit n] else hexDigits (n / 16) ++ [hexDigit (n % 16)]

def escaped (quotes : List Char) (c : Char) : List Char :=
  match c with
  | '\x00' => ['\\', '0']
  | '\t' => ['\\', 't']
  | '\r' => ['\\', 'r']
  | '\n' => ['\\', 'n']
  | '\\' => ['\\', '\\']
  | _ =>
    if quotes.contains c then ['\\', c]
    else if isPrintable c then [c]
    else "\\u\x7b".toList ++ hexDigits c.toNat ++ ['}']

def quoted (quotes : List Char) (text : String) : String :=
  String.ofList ('"' :: text.toList.flatMap (escaped quotes) ++ ['"'])

/-- Plain texts escape the quotes that they stand in. -/
def quotedText : String → String :=
  quoted ['"']

/-- Paths escape both kinds of quotes. -/
def quotedPath : String → String :=
  quoted ['"', '\'']

end ClassDiagram.Text
