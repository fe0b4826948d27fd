import ClassDiagram.Text.Pattern

/-! TOML documents, as far as settings need them: strings, arrays and tables are kept, and of every other
value only that it is one. What may define a table once and what may still add to it is part of the
format, so each table remembers how it came about. -/

namespace ClassDiagram.Toml

open Text

/-- How a table came about: from a header, as a step towards a header, from a dotted key, or in braces,
there possibly from a dotted key too. -/
inductive Shape where
  | header
  | implied
  | dotted
  | inline
  | inlineDotted
  deriving DecidableEq, Repr

inductive Item where
  | string (text : String)
  | scalar
  | array (items : List Item)
  | table (shape : Shape) (entries : List (String × Item))
  | tables (items : List Item)
  deriving Repr, Inhabited

abbrev Entries := List (String × Item)

/-- Reads something at the start of a text and leaves the rest. -/
abbrev Reader (α : Type) := List Char → Option (α × List Char)

def isSpace (c : Char) : Bool :=
  c == ' ' || c == '\t'

def skipSpaces (text : List Char) : List Char :=
  text.dropWhile isSpace

/-- Characters of comments and strings on one line. -/
def isPlain (c : Char) : Bool :=
  c == '\t' || (0x20 ≤ c.toNat && c.toNat ≤ 0x7e) || 0x80 ≤ c.toNat

def newline? : List Char → Option (List Char)
  | '\n' :: rest => some rest
  | '\r' :: '\n' :: rest => some rest
  | _ => none

def skipComment : List Char → List Char
  | '#' :: rest => rest.dropWhile isPlain
  | text => text

/-- The rest behind the end of a line, which blanks and a comment may precede. -/
def lineEnd? (text : List Char) : Option (List Char) :=
  match skipComment (skipSpaces text) with
  | [] => some []
  | rest => newline? rest

/-- Skips blanks, line ends and comments that a line end follows. -/
def skipLines : Nat → List Char → List Char
  | 0, text => text
  | fuel + 1, text =>
    let rest := skipSpaces text
    match rest with
    | '#' :: _ =>
      match newline? (skipComment rest) with
      | some rest => skipLines fuel rest
      | none => rest
    | _ =>
      match newline? rest with
      | some rest => skipLines fuel rest
      | none => rest

def skipAll (text : List Char) : List Char :=
  skipLines (text.length + 1) text

def hexValue? (c : Char) : Option Nat :=
  if c.isDigit then some (c.toNat - 0x30)
  else if 'a' ≤ c && c ≤ 'f' then some (c.toNat - 0x57)
  else if 'A' ≤ c && c ≤ 'F' then some (c.toNat - 0x37)
  else none

def hexNumber? (digits : List Char) : Option Nat :=
  digits.foldl (fun found c => do return (← found) * 16 + (← hexValue? c)) (some 0)

def scalarValue? (digits : Nat) (text : List Char) : Option (Char × List Char) := do
  let code ← if digits ≤ text.length then hexNumber? (text.take digits) else none
  if h : code.isValidChar then some (Char.ofNatAux code h, text.drop digits) else none

/-- What follows a backslash. -/
def escape? : Reader Char
  | 'b' :: rest => some ('\x08', rest)
  | 't' :: rest => some ('\t', rest)
  | 'n' :: rest => some ('\n', rest)
  | 'f' :: rest => some ('\x0c', rest)
  | 'r' :: rest => some ('\r', rest)
  | '"' :: rest => some ('"', rest)
  | '\\' :: rest => some ('\\', rest)
  | 'u' :: rest => scalarValue? 4 rest
  | 'U' :: rest => scalarValue? 8 rest
  | _ => none

/-- The inside of a string on one line, through its closing quote. -/
def lineString (quote : Char) (escapes : Bool) : Nat → Reader (List Char)
  | 0, _ => none
  | _, [] => none
  | fuel + 1, c :: rest =>
    if c = quote then some ([], rest)
    else if escapes && c == '\\' then do
      let (c, rest) ← escape? rest
      let (inside, rest) ← lineString quote escapes fuel rest
      return (c :: inside, rest)
    else if isPlain c then do
      let (inside, rest) ← lineString quote escapes fuel rest
      return (c :: inside, rest)
    else none

/-- The rest behind a backslash at the end of a line, all blank lines and the next line's blanks. -/
def joinLines? (text : List Char) : Option (List Char) :=
  match newline? (skipSpaces text) with
  | none => none
  | some rest => some (skip (rest.length + 1) rest)
where
  skip : Nat → List Char → List Char
    | 0, text => text
    | fuel + 1, text =>
      match newline? (skipSpaces text) with
      | some rest => skip fuel rest
      | none => skipSpaces text

/-- The inside of a string over several lines. Up to two quotes may stand before the closing three. -/
def blockString (quote : Char) (escapes : Bool) : Nat → Reader (List Char)
  | 0, _ => none
  | _, [] => none
  | fuel + 1, c :: rest =>
    if c = quote then
      let count := ((c :: rest).takeWhile (· == quote)).length
      let left := (c :: rest).drop count
      if count < 3 then do
        let (inside, rest) ← blockString quote escapes fuel left
        return (List.replicate count quote ++ inside, rest)
      else if count < 6 then some (List.replicate (count - 3) quote, left)
      else none
    else
      match newline? (c :: rest) with
      | some rest => do
        let (inside, rest) ← blockString quote escapes fuel rest
        return ('\n' :: inside, rest)
      | none =>
        if escapes && c == '\\' then
          match joinLines? rest with
          | some rest => blockString quote escapes fuel rest
          | none => do
            let (c, rest) ← escape? rest
            let (inside, rest) ← blockString quote escapes fuel rest
            return (c :: inside, rest)
        else if isPlain c then do
          let (inside, rest) ← blockString quote escapes fuel rest
          return (c :: inside, rest)
        else none

def dropNewline (text : List Char) : List Char :=
  (newline? text).getD text

def string? : Reader String
  | '"' :: '"' :: '"' :: rest => block '"' true rest
  | '\'' :: '\'' :: '\'' :: rest => block '\'' false rest
  | '"' :: rest => line '"' true rest
  | '\'' :: rest => line '\'' false rest
  | _ => none
where
  block (quote : Char) (escapes : Bool) (rest : List Char) : Option (String × List Char) :=
    (blockString quote escapes (rest.length + 1) (dropNewline rest)).map fun (inside, rest) =>
      (String.ofList inside, rest)
  line (quote : Char) (escapes : Bool) (rest : List Char) : Option (String × List Char) :=
    (lineString quote escapes (rest.length + 1) rest).map fun (inside, rest) => (String.ofList inside, rest)

def isBare (c : Char) : Bool :=
  c.isAlphanum || c == '_' || c == '-'

def simpleKey? (text : List Char) : Option (String × List Char) :=
  match text with
  | '"' :: rest => (lineString '"' true (rest.length + 1) rest).map fun (key, rest) => (String.ofList key, rest)
  | '\'' :: rest => (lineString '\'' false (rest.length + 1) rest).map fun (key, rest) => (String.ofList key, rest)
  | _ =>
    match text.takeWhile isBare with
    | [] => none
    | key => some (String.ofList key, text.dropWhile isBare)

/-- How deep values and keys may nest. -/
def depthLimit : Nat := 80

def keyPath : Nat → Reader (List String)
  | 0, _ => none
  | fuel + 1, text => do
    let (key, rest) ← simpleKey? (skipSpaces text)
    match skipSpaces rest with
    | '.' :: rest =>
      let (keys, rest) ← keyPath fuel rest
      return (key :: keys, rest)
    | rest => return ([key], rest)

def key? (text : List Char) : Option (List String × List Char) :=
  keyPath (depthLimit - 1) text

namespace Literal

open Pattern

def digit : Pattern :=
  one Char.isDigit

/-- Digits with single underscores between them. -/
def grouped (digit : Pattern) : Pattern :=
  seq digit (star (seq (opt (char '_')) digit))

def sign : Pattern :=
  opt (among "+-")

def decimal : Pattern :=
  seq sign (alt (char '0') (seq (one fun c => c.isDigit && c != '0') (star (seq (opt (char '_')) digit))))

def word (text : String) : Pattern :=
  all (text.toList.map char)

def exponent : Pattern :=
  all [among "eE", sign, grouped digit]

def float : Pattern :=
  seq decimal (alt exponent (all [char '.', grouped digit, opt exponent]))

def special : Pattern :=
  seq sign (alt (word "inf") (word "nan"))

def hexDigit : Pattern :=
  one fun c => (hexValue? c).isSome

def hexadecimal : Pattern :=
  seq (word "0x") (grouped hexDigit)

def octal : Pattern :=
  seq (word "0o") (grouped (among "01234567"))

def binary : Pattern :=
  seq (word "0b") (grouped (among "01"))

def boolean : Pattern :=
  alt (word "true") (word "false")

def two : Pattern :=
  seq digit digit

def date : Pattern :=
  all [two, two, char '-', two, char '-', two]

def time : Pattern :=
  all [two, char ':', two, char ':', two, opt (seq (char '.') (some1 digit))]

def zone : Pattern :=
  alt (among "Zz") (all [among "+-", two, char ':', two])

def matchesAll (p : Pattern) (text : List Char) : Bool :=
  p.longest? text == some text.length

def number (digits : List Char) : Nat :=
  digits.foldl (fun n c => n * 10 + (c.toNat - 0x30)) 0

def numberIn (radix : Nat) (digits : List Char) : Nat :=
  digits.foldl (fun n c => n * radix + (hexValue? c).getD 0) 0

def withoutUnderscores (text : List Char) : List Char :=
  text.filter (· != '_')

/-- Integers have 64 bits, one of them for the sign. -/
def integerBound : Nat := Nat.pow 2 63

def isDecimal (text : List Char) : Bool :=
  matchesAll decimal text &&
    match withoutUnderscores text with
    | '-' :: digits => number digits ≤ integerBound
    | '+' :: digits => number digits < integerBound
    | digits => number digits < integerBound

def isRadix (p : Pattern) (radix : Nat) (text : List Char) : Bool :=
  matchesAll p text && numberIn radix (withoutUnderscores (text.drop 2)) < integerBound

/-- Whether a float is too large for double precision: at least halfway from the largest finite one to
the next power of two. -/
def overflows (text : List Char) : Bool :=
  let text := withoutUnderscores text
  let body := if text.head? == some '+' then text.tail else text
  let mantissa := body.takeWhile fun c => c != 'e' && c != 'E'
  let power := (body.dropWhile fun c => c != 'e' && c != 'E').tail
  let whole := mantissa.takeWhile (· != '.')
  let fraction := (mantissa.dropWhile (· != '.')).tail
  let value := number (whole ++ fraction)
  let exponent : Int :=
    match power with
    | '-' :: digits => -(number digits : Int)
    | '+' :: digits => number digits
    | digits => number digits
  let shift := exponent - fraction.length
  let magnitude := shift + (Nat.toDigits 10 value).length
  if value = 0 || text.head? == some '-' || magnitude < 308 then false
  else if 310 < magnitude then true
  else
    let bound := Nat.pow 2 1024 - Nat.pow 2 970
    if 0 ≤ shift then bound ≤ value * Nat.pow 10 shift.toNat else bound * Nat.pow 10 (-shift).toNat ≤ value

def isFloat (text : List Char) : Bool :=
  matchesAll special text || (matchesAll float text && !overflows text)

def field (text : List Char) (start length : Nat) : Nat :=
  number ((text.drop start).take length)

def daysIn (year month : Nat) : Nat :=
  if month = 2 then if year % 4 = 0 && (year % 100 != 0 || year % 400 = 0) then 29 else 28
  else if [4, 6, 9, 11].contains month then 30
  else 31

def isDate (text : List Char) : Bool :=
  let month := field text 5 2
  let day := field text 8 2
  matchesAll date text && 1 ≤ month && month ≤ 12 && 1 ≤ day && day ≤ daysIn (field text 0 4) month

def isTime (text : List Char) : Bool :=
  matchesAll time text && field text 0 2 ≤ 23 && field text 3 2 ≤ 59 && field text 6 2 ≤ 60

def isZone (text : List Char) : Bool :=
  matchesAll zone text && (text.length = 1 || (field text 1 2 ≤ 23 && field text 4 2 ≤ 59))

def isTimeChar (c : Char) : Bool :=
  c.isDigit || c == ':' || c == '.'

/-- A date with a time, with or without zone. -/
def isDateTime (text : List Char) : Bool :=
  let clock := (text.drop 11).takeWhile isTimeChar
  let zone := (text.drop 11).dropWhile isTimeChar
  isDate (text.take 10) && (text.drop 10).head?.any ("Tt ".toList.contains ·) && isTime clock
    && (zone.isEmpty || isZone zone)

def isChar (c : Char) : Bool :=
  c.isAlphanum || "+-_.:".toList.contains c

def isLiteral (text : List Char) : Bool :=
  matchesAll boolean text || isDecimal text || isRadix hexadecimal 16 text || isRadix octal 8 text
    || isRadix binary 2 text || isFloat text || isDate text || isTime text || isDateTime text

end Literal

/-- Numbers, dates, times and truth values. A blank may stand between a date and its time. -/
def literal? (text : List Char) : Option (Item × List Char) :=
  let word := text.takeWhile Literal.isChar
  let rest := text.dropWhile Literal.isChar
  match rest with
  | ' ' :: more =>
    let joined := word ++ ' ' :: more.takeWhile Literal.isChar
    if Literal.isDateTime joined then some (.scalar, more.dropWhile Literal.isChar)
    else if Literal.isLiteral word then some (.scalar, rest)
    else none
  | _ => if Literal.isLiteral word then some (.scalar, rest) else none

def replace (key : String) (item : Item) : Entries → Entries
  | [] => [(key, item)]
  | (other, found) :: rest =>
    if other == key then (key, item) :: rest else (other, found) :: replace key item rest

def Shape.isInline : Shape → Bool
  | inline => true
  | inlineDotted => true
  | _ => false

/-- A change to a table, which may be refused. -/
abbrev Change := Shape → Entries → Option (Shape × Entries)

/-- Makes a change where a path leads. Missing tables on the way take the given shape. `enters` says
which tables may be entered; of an array of tables it is the last one. -/
def change (missing : Shape) (enters : Shape → Bool) (final : Change) : List String → Change
  | [], shape, entries => final shape entries
  | key :: path, shape, entries =>
    match entries.lookup key with
    | none => do
      let (inner, found) ← change missing enters final path missing []
      return (shape, replace key (.table inner found) entries)
    | some (.table inner found) =>
      if enters inner then do
        let (inner, found) ← change missing enters final path inner found
        return (shape, replace key (.table inner found) entries)
      else none
    | some (.tables items) =>
      match items.getLast? with
      | some (.table inner found) => do
        let (inner, found) ← change missing enters final path inner found
        return (shape, replace key (.tables (items.dropLast ++ [.table inner found])) entries)
      | _ => none
    | some _ => none

def addKey (joining : Shape) (path : List String) (key : String) (item : Item) : Change :=
  fun shape entries =>
    if (shape == joining) == path.isEmpty then none
    else if (entries.lookup key).isSome then none
    else some (shape, entries ++ [(key, item)])

/-- Sets a key, dotted or not. Dotted keys make tables of the given shape, and only to such tables may
they add. -/
def setKey (joining : Shape) (keys : List String) (item : Item) : Change :=
  match keys.getLast? with
  | none => fun _ _ => none
  | some key =>
    let path := keys.dropLast
    let enters := fun shape => shape == joining || (joining == .dotted && shape == .implied)
    change joining enters (addKey joining path key item) path

/-- A header opens a new table or one that was only implied so far. -/
def openTable (key : String) : Change := fun shape entries =>
  match entries.lookup key with
  | none => some (shape, entries ++ [(key, .table .header [])])
  | some (.table .implied found) => some (shape, replace key (.table .header found) entries)
  | some _ => none

def openElement (key : String) : Change := fun shape entries =>
  match entries.lookup key with
  | none => some (shape, entries ++ [(key, .tables [.table .header []])])
  | some (.tables items) => some (shape, replace key (.tables (items ++ [.table .header []])) entries)
  | some _ => none

def atHeader (final : Change) (path : List String) : Change :=
  change .implied (!·.isInline) final path

def arrayItems (element : Reader Item) : Nat → Reader (List Item)
  | 0, _ => none
  | fuel + 1, text =>
    match skipAll text with
    | ']' :: rest => some ([], rest)
    | rest => do
      let (item, rest) ← element rest
      match skipAll rest with
      | ',' :: rest =>
        let (items, rest) ← arrayItems element fuel rest
        return (item :: items, rest)
      | ']' :: rest => return ([item], rest)
      | _ => none

def keyValue (element : Reader Item) : Reader (List String × Item) := fun text => do
  let (keys, rest) ← key? text
  match rest with
  | '=' :: rest =>
    let (item, rest) ← element (skipSpaces rest)
    return ((keys, item), skipSpaces rest)
  | _ => none

def inlineEntries (element : Reader Item) : Nat → Entries → Reader Entries
  | 0, _, _ => none
  | fuel + 1, entries, text => do
    let ((keys, item), rest) ← keyValue element text
    let (_, entries) ← setKey .inlineDotted keys item .inline entries
    match rest with
    | ',' :: rest => inlineEntries element fuel entries rest
    | '}' :: rest => return (entries, rest)
    | _ => none

/-- A value, with at most the given number of levels in it. -/
def value? : Nat → Reader Item
  | 0, _ => none
  | depth + 1, text =>
    match text with
    | '[' :: rest =>
      if depth = 0 then none
      else (arrayItems (value? depth) (rest.length + 1) rest).map fun (items, rest) => (.array items, rest)
    | '{' :: rest =>
      if depth = 0 then none
      else
        match skipSpaces rest with
        | '}' :: rest => some (.table .inline [], rest)
        | rest =>
          (inlineEntries (value? depth) (rest.length + 1) [] rest).map fun (entries, rest) =>
            (.table .inline entries, rest)
    | '"' :: _ => (string? text).map fun (text, rest) => (.string text, rest)
    | '\'' :: _ => (string? text).map fun (text, rest) => (.string text, rest)
    | _ => literal? text

/-- The header at the start of a line: its path, and whether it adds to an array of tables. -/
def header? (text : List Char) : Option ((List String × Bool) × List Char) :=
  match text with
  | '[' :: '[' :: rest => do
    let (keys, rest) ← key? rest
    match rest with
    | ']' :: ']' :: rest => return ((keys, true), rest)
    | _ => none
  | '[' :: rest => do
    let (keys, rest) ← key? rest
    match rest with
    | ']' :: rest => return ((keys, false), rest)
    | _ => none
  | _ => none

/-- Reads line by line. `path` leads to the table that keys are added to. -/
def document : Nat → (path : List String) → Entries → List Char → Option Entries
  | 0, _, _, _ => none
  | fuel + 1, path, entries, text =>
    match skipSpaces text with
    | [] => some entries
    | '#' :: rest => do
      let rest ← lineEnd? ('#' :: rest)
      document fuel path entries rest
    | '[' :: rest => do
      let ((keys, element), rest) ← header? ('[' :: rest)
      let rest ← lineEnd? rest
      let key ← keys.getLast?
      let final := if element then openElement key else openTable key
      let (_, entries) ← atHeader final keys.dropLast .header entries
      document fuel keys entries rest
    | rest =>
      match newline? rest with
      | some rest => document fuel path entries rest
      | none => do
        let ((keys, item), rest) ← keyValue (value? depthLimit) rest
        let rest ← lineEnd? rest
        let (_, entries) ← atHeader (setKey .dotted keys item) path .header entries
        document fuel path entries rest

/-- The entries of a document, unless it is malformed. -/
def parse? (text : String) : Option Entries :=
  match text.toList with
  | '\ufeff' :: rest => document (rest.length + 1) [] [] rest
  | rest => document (rest.length + 1) [] [] rest

end ClassDiagram.Toml
