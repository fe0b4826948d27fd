import ClassDiagram.Java.Token

/-! Bracketed tokens as trees. Each region carries the rules of the grammar that derive its inside, so
that a place in the tree above has only to look them up. -/

namespace ClassDiagram.Java

/-- The named rules of the grammar. The first group derives whole insides of brackets. -/
inductive Rule where
  | condition | parenthesized | castType | castTypes | arguments | parameters | lambdaParameters
  | inferredParameters | annotationArguments | recordComponents | labelComponents | catchParameter
  | resources | forHeader
  | block | constructorBlock | classBody | interfaceBody | annotationBody | enumBody | switchBody
  | arrayItems | elementItems | moduleBody
  | index | nothing | template | embedded
  | program | statement | expression | labelExpression | tag | typeArguments | elementValue
  deriving DecidableEq, Repr, Inhabited

inductive Tree where
  | leaf (token : Token)
  | group (bracket : Bracket) (rules : List Rule) (opening closing : Token) (inside : List Tree)
  deriving Repr, Inhabited

/-- The rules that may derive the inside of a region. -/
def Bracket.rules : Bracket → List Rule
  | paren => [.condition, .parenthesized, .castType, .castTypes, .arguments, .parameters, .lambdaParameters,
      .inferredParameters, .annotationArguments, .recordComponents, .labelComponents, .catchParameter,
      .resources, .forHeader, .nothing]
  | brace => [.block, .constructorBlock, .classBody, .interfaceBody, .annotationBody, .enumBody,
      .switchBody, .arrayItems, .elementItems, .moduleBody]
  | square => [.index, .nothing]
  | quote => [.template]
  | hole => [.embedded]

namespace Tree

def isSymbol (text : String) : Tree → Bool
  | leaf t => t.isSymbol text
  | group .. => false

def isBraces : Tree → Bool
  | group .brace .. => true
  | _ => false

/-- Cuts a list of declarations into single ones. One ends at a semicolon, or at braces unless an equals
sign stands before them. -/
def pieces (assigned : Bool) : List Tree → List (List Tree)
  | [] => []
  | t :: rest =>
    if t.isSymbol ";" || (t.isBraces && !assigned) then [t] :: pieces false rest
    else
      match pieces (assigned || t.isSymbol "=") rest with
      | piece :: more => (t :: piece) :: more
      | [] => [[t]]

/-- An open region: the token that opens it and the trees before it, last first. -/
structure Frame where
  bracket : Bracket
  opening : Token
  before : List Tree

/-- Builds trees with the given recogniser for the insides of regions. `current` holds the trees since
the innermost opening, last first. Brackets that do not match are refused. -/
def build (derives : Rule → List Tree → Bool) : List Frame → List Tree → List Token → Option (List Tree)
  | [], current, [] => some current.reverse
  | _ :: _, _, [] => none
  | frames, current, t :: rest =>
    match t.kind with
    | .opening bracket => build derives (⟨bracket, t, current⟩ :: frames) [] rest
    | .closing bracket =>
      match frames with
      | [] => none
      | frame :: frames =>
        if frame.bracket = bracket then
          let inside := current.reverse
          let rules := bracket.rules.filter (derives · inside)
          build derives frames (group bracket rules frame.opening t inside :: frame.before) rest
        else none
    | _ => build derives frames (leaf t :: current) rest

end Tree

end ClassDiagram.Java
