/-! Patterns for paths. A question mark stands for one character, a star for any number of them, slashes
included, and brackets for one character of a set. Two stars are a whole segment of the pattern and stand
for any number of segments. -/

namespace ClassDiagram.Files

structure CharSpan where
  low : Char
  high : Char
  deriving DecidableEq, Repr

inductive Glob.Token where
  | char (c : Char)
  | anyChar
  | anySequence
  | anySegments
  | within (spans : List CharSpan)
  | except (spans : List CharSpan)
  deriving DecidableEq, Repr

/-- What is wrong with a pattern. -/
inductive Glob.Flaw where
  | tooManyStars
  | notWholeSegment
  | badRange
  deriving DecidableEq, Repr

/-- Positions count characters. -/
structure Glob.Error where
  position : Nat
  flaw : Glob.Flaw
  deriving DecidableEq, Repr

structure Glob where
  tokens : List Glob.Token
  deriving DecidableEq, Repr

namespace Glob

def Flaw.message : Flaw → String
  | tooManyStars => "wildcards are either regular `*` or recursive `**`"
  | notWholeSegment => "recursive wildcards must form a single path component"
  | badRange => "invalid range pattern"

def Error.message (error : Error) : String :=
  "Pattern syntax error near position " ++ toString error.position ++ ": " ++ error.flaw.message

/-- A hyphen between two characters makes a span of them. -/
def spans : List Char → List CharSpan
  | low :: '-' :: high :: rest => ⟨low, high⟩ :: spans rest
  | c :: rest => ⟨c, c⟩ :: spans rest
  | [] => []

/-- The inside of a set that opens here, and the text behind it. Its first character belongs to the set
even if it is a closing bracket. -/
def charSet? : List Char → Option (List Char × List Char)
  | [] => none
  | first :: rest =>
    if rest.contains ']' then
      some (first :: rest.takeWhile (· != ']'), (rest.dropWhile (· != ']')).drop 1)
    else none

def bracket? (text : List Char) : Option (Token × List Char) :=
  match text with
  | '!' :: rest => (charSet? rest).map fun (inside, rest) => (.except (spans inside), rest)
  | _ => (charSet? text).map fun (inside, rest) => (.within (spans inside), rest)

/-- Two stars take the slash behind them along, and several such segments in a row are one. -/
def addSegments (found : List Token) : List Token :=
  match found with
  | .anySegments :: _ :: _ => found
  | _ => .anySegments :: found

/-- Reads the text behind what the given tokens, last first, were read from. `previous` is the character
before it, and `skip` counts characters that belong to the token before. -/
def parseFrom (found : List Token) (previous : Option Char) : (skip : Nat) → (position : Nat) → List Char →
    Except Error Glob
  | _, _, [] => .ok ⟨found.reverse⟩
  | skip + 1, position, c :: rest => parseFrom found (some c) skip (position + 1) rest
  | 0, position, c :: rest =>
    match c with
    | '?' => parseFrom (.anyChar :: found) (some c) 0 (position + 1) rest
    | '*' =>
      let more := (rest.takeWhile (· == '*')).length
      if more = 0 then parseFrom (.anySequence :: found) (some c) 0 (position + 1) rest
      else if 1 < more then .error ⟨position + 2, .tooManyStars⟩
      else if previous.isNone || previous == some '/' then
        match rest.drop 1 with
        | [] => parseFrom (addSegments found) (some c) 1 (position + 1) rest
        | '/' :: _ => parseFrom (addSegments found) (some c) 2 (position + 1) rest
        | _ => .error ⟨position + 2, .notWholeSegment⟩
      else .error ⟨position - 1, .notWholeSegment⟩
    | '[' =>
      match bracket? rest with
      | some (token, left) =>
        parseFrom (token :: found) (some c) (rest.length - left.length) (position + 1) rest
      | none => .error ⟨position, .badRange⟩
    | _ => parseFrom (.char c :: found) (some c) 0 (position + 1) rest

def parse (pattern : String) : Except Error Glob :=
  parseFrom [] none 0 0 pattern.toList

def holds (spans : List CharSpan) (c : Char) : Bool :=
  spans.any fun span => span.low ≤ c && c ≤ span.high

def Token.accepts (c : Char) : Token → Bool
  | char expected => c == expected
  | anyChar => true
  | within spans => holds spans c
  | .except spans => !holds spans c
  | anySequence => false
  | anySegments => false

/-- Whether some suffix of the text passes the test. -/
def someSuffix (test : List Char → Bool) : List Char → Bool
  | [] => test []
  | c :: rest => test (c :: rest) || someSuffix test rest

/-- Whether what follows some slash of the text passes the test. -/
def behindSlash (test : List Char → Bool) : List Char → Bool
  | [] => false
  | c :: rest => (c == '/' && test rest) || behindSlash test rest

def matchTokens : List Token → List Char → Bool
  | [], text => text.isEmpty
  | .anySequence :: tokens, text => someSuffix (matchTokens tokens) text
  | .anySegments :: tokens, text =>
    matchTokens tokens text || behindSlash (matchTokens tokens) text || matchTokens tokens []
  | _ :: _, [] => false
  | token :: tokens, c :: rest => token.accepts c && matchTokens tokens rest

def accepts (glob : Glob) (text : String) : Bool :=
  matchTokens glob.tokens text.toList

end Glob

end ClassDiagram.Files
