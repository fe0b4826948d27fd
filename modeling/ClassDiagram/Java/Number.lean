import ClassDiagram.Text.Pattern

/-! Number literals: integers in four bases and floating point numbers in two. Underscores stand between
digits. -/

namespace ClassDiagram.Java.Number

open Text Text.Pattern

def digits : Pattern :=
  some1 (one Char.isDigit)

/-- Digits with single underscores between them. -/
def grouped : Pattern :=
  separated digits (char '_')

/-- A decimal numeral without leading zero; underscores may stand in rows. -/
def numeral : Pattern :=
  alt (char '0')
    (seq (one fun c => c.isDigit && c != '0')
      (opt (seq (opt (char '_')) (separated digits (some1 (char '_'))))))

def hexDigits : Pattern :=
  separated (some1 (one fun c => c.isDigit || ('a' ≤ c && c ≤ 'f') || ('A' ≤ c && c ≤ 'F'))) (char '_')

def longSuffix : Pattern :=
  opt (among "lL")

def floatSuffix : Pattern :=
  among "fFdD"

def hexMark : Pattern :=
  seq (char '0') (among "xX")

def octal : Pattern :=
  all [any [seq (char '0') (among "oO"), char '0'], separated (some1 (among "01234567")) (char '_'), longSuffix]

def binary : Pattern :=
  all [char '0', among "bB", separated (some1 (among "01")) (char '_'), longSuffix]

def exponent : Pattern :=
  all [among "eEpP", opt (among "+-"), grouped]

def decimalFloat : Pattern :=
  any [
    all [grouped, char '.', opt grouped, opt exponent, opt floatSuffix],
    all [char '.', grouped, opt exponent, opt floatSuffix],
    all [numeral, exponent, opt floatSuffix],
    all [numeral, opt exponent, floatSuffix]]

def hexFloat : Pattern :=
  all [hexMark,
    alt (seq hexDigits (opt (char '.'))) (all [opt hexDigits, char '.', hexDigits]),
    opt (all [among "eEpP", opt (among "+-"), numeral]),
    opt floatSuffix]

def pattern : Pattern :=
  any [seq numeral longSuffix, all [hexMark, hexDigits, longSuffix], octal, binary, decimalFloat, hexFloat]

end ClassDiagram.Java.Number
