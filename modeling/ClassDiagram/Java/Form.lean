import ClassDiagram.Java.Tree

/-! Right-hand sides of grammar rules and what they derive. Recognition follows all ways to read the
trees at once: its result is the list of all remainders that a form may leave. A remainder is a suffix of
the input, so its length tells it from all others. -/

namespace ClassDiagram.Java

/-- Single tokens. A word is a name unless it is among the excluded ones. -/
inductive Shape where
  | name (excluded : List String)
  | words (texts : List String)
  | symbols (texts : List String)
  | number
  | character
  | angle (glued : Bool)
  deriving DecidableEq, Repr

def Shape.accepts (t : Token) : Shape → Bool
  | name excluded => t.kind == .word && !excluded.contains t.keyword
  | words texts => t.kind == .word && texts.contains t.keyword
  | symbols texts => t.kind == .symbol && texts.contains t.text
  | number => t.kind == .number
  | character => t.kind == .character
  | angle glued => t.isSymbol ">" && t.glued == glued

/-- `inside` is a region whose inside the rule derives; `absent` takes nothing and asks that the form does
not apply. -/
inductive Form where
  | empty
  | one (shape : Shape)
  | inside (bracket : Bracket) (rule : Rule)
  | call (rule : Rule)
  | seq (first second : Form)
  | alt (left right : Form)
  | star (body : Form)
  | absent (form : Form)
  deriving DecidableEq, Repr

namespace Form

/-- Adds a remainder to a list kept by falling length, unless it is there already. -/
def insert (rest : List Tree) : List (List Tree) → List (List Tree)
  | [] => [rest]
  | other :: others =>
    if other.length < rest.length then rest :: other :: others
    else if rest.length < other.length then other :: insert rest others
    else other :: others

def merge (left right : List (List Tree)) : List (List Tree) :=
  left.foldr insert right

/-- All remainders that repeated steps reach. Steps that take nothing lead nowhere new. -/
def closure (step : List Tree → List (List Tree)) : Nat → List (List Tree) → List (List Tree)
  | 0, pending => pending
  | _ + 1, [] => []
  | fuel + 1, rest :: pending =>
    let shorter := (step rest).filter (·.length < rest.length)
    rest :: closure step fuel (merge shorter pending)

/-- The remainders of a form, given those of the rules it calls. -/
def endsBy (callees : Rule → List Tree → List (List Tree)) : Form → List Tree → List (List Tree)
  | empty, trees => [trees]
  | one shape, trees =>
    match trees with
    | .leaf t :: rest => if shape.accepts t then [rest] else []
    | _ => []
  | inside bracket rule, trees =>
    match trees with
    | .group found rules _ _ _ :: rest => if found = bracket && rules.contains rule then [rest] else []
    | _ => []
  | call rule, trees => callees rule trees
  | seq first second, trees =>
    (endsBy callees first trees).foldr (fun rest found => merge (endsBy callees second rest) found) []
  | alt left right, trees => merge (endsBy callees left trees) (endsBy callees right trees)
  | star body, trees => closure (endsBy callees body) (trees.length + 1) [trees]
  | absent form, trees => if (endsBy callees form trees).isEmpty then [trees] else []

/-- The remainders of a rule, for calls nested no deeper than the fuel. -/
def ends (grammar : Rule → Form) : Nat → Rule → List Tree → List (List Tree)
  | 0, _, _ => []
  | fuel + 1, rule, trees => endsBy (ends grammar fuel) (grammar rule) trees

/-- Calls that take nothing between them nest at most this deep, as no rule calls itself that way. -/
def chainLength : Nat := 32

/-- The remainders of a form of the grammar. -/
def remainders (grammar : Rule → Form) (form : Form) (trees : List Tree) : List (List Tree) :=
  endsBy (ends grammar ((trees.length + 1) * chainLength)) form trees

/-- What the longest reading of a form leaves. -/
def longest? (grammar : Rule → Form) (form : Form) (trees : List Tree) : Option (List Tree) :=
  (remainders grammar form trees).getLast?

/-- Whether a form derives all of the trees. -/
def covers (grammar : Rule → Form) (form : Form) (trees : List Tree) : Bool :=
  (remainders grammar form trees).any List.isEmpty

def derives (grammar : Rule → Form) (rule : Rule) (trees : List Tree) : Bool :=
  (call rule).covers grammar trees

def all (forms : List Form) : Form :=
  forms.foldr seq empty

/-- One of the forms, of which there is at least one. -/
def any (first : Form) (others : List Form) : Form :=
  others.foldl alt first

def opt (form : Form) : Form :=
  alt form empty

def some1 (form : Form) : Form :=
  seq form (star form)

def word (text : String) : Form :=
  one (.words [text])

def sym (text : String) : Form :=
  one (.symbols [text])

def name (excluded : List String) : Form :=
  one (.name excluded)

/-- Takes nothing and asks that none of the words comes next. -/
def notNext (words : List String) : Form :=
  absent (one (.words words))

def separated (separator : String) (form : Form) : Form :=
  seq form (star (seq (sym separator) form))

def list1 (form : Form) : Form :=
  separated "," form

def list0 (form : Form) : Form :=
  opt (list1 form)

end Form

end ClassDiagram.Java
