import ClassDiagram.Java.Grammar
import ClassDiagram.Java.Lexer
import ClassDiagram.Java.Splice

/-! The types that a source declares at top level, read off its trees once the grammar has accepted them.
Declarations, members and parameters are told apart by their first trees; within them modifiers, types
and declarators extend as far as the grammar lets them. -/

namespace ClassDiagram.Java

/-- A type of a source with the place where its members may grow. -/
structure SourceType where
  type : Class
  anchor : Anchor
  deriving DecidableEq, Repr, Inhabited

namespace Tree

def stop : Tree → Nat
  | leaf t => t.stop
  | group _ _ _ closing _ => closing.stop

def isWord (text : String) : Tree → Bool
  | leaf t => t.isWord text
  | group .. => false

def startsTag (tree : Tree) : Bool :=
  tree.isSymbol "@" || tree.isSymbol "@interface"

/-- The text of a word. -/
def word? : Tree → Option String
  | leaf t => if t.kind = .word then some t.text else none
  | group .. => none

/-- The text of the first token. -/
def firstText : Tree → String
  | leaf t => t.text
  | group _ _ opening _ _ => opening.text

end Tree

namespace Outline

open ClassDiagram.Java.Tree

/-- What a form leaves, or everything if it does not apply. -/
def after (form : Form) (trees : List Tree) : List Tree :=
  (form.longest? Grammar.form trees).getD trees

def before (rest trees : List Tree) : List Tree :=
  trees.take (trees.length - rest.length)

/-- The parts of a list of forms with commas between them. -/
def listed (form : Form) : Nat → List Tree → List (List Tree)
  | 0, _ => []
  | fuel + 1, trees =>
    match form.longest? Grammar.form trees with
    | none => []
    | some rest =>
      before rest trees ::
        match rest with
        | t :: rest => if t.isSymbol "," then listed form fuel rest else []
        | [] => []

def partsOf (form : Form) (trees : List Tree) : List (List Tree) :=
  listed form (trees.length + 1) trees

/-- The names at the start of the trees, joined by dots. -/
def nameChain : List Tree → List String
  | [] => []
  | [name] => name.word?.toList
  | name :: dot :: rest =>
    match name.word? with
    | some text => text :: if dot.isSymbol "." then nameChain rest else []
    | none => []

/-- The names of a class type. Type arguments are dropped, and a part with type arguments that a dot
follows is dropped along with all before it. `depth` counts open angles. -/
def typeChain : (depth : Nat) → (chain : List String) → List Tree → List String
  | _, chain, [] => chain
  | depth, chain, t :: rest =>
    if t.isSymbol "<" then typeChain (depth + 1) chain rest
    else if t.isSymbol ">" then
      let further := depth = 1 && rest.head?.any (·.isSymbol ".")
      typeChain (depth - 1) (if further then [] else chain) rest
    else if depth = 0 then typeChain depth (chain ++ t.word?.toList) rest
    else typeChain depth chain rest

/-- The trees without the annotations among them. -/
def withoutAnnotations : Nat → List Tree → List Tree
  | 0, trees => trees
  | _, [] => []
  | fuel + 1, t :: rest =>
    if t.startsTag then withoutAnnotations fuel (after (.call .tag) (t :: rest))
    else t :: withoutAnnotations fuel rest

def joined : List String → Option String
  | [] => none
  | names => some (".".intercalate names)

/-- The names of an annotation at the start of the trees. -/
def annotationChain : List Tree → List String
  | [] => []
  | t :: rest =>
    if t.isSymbol "@interface" then
      "interface" :: if rest.head?.any (·.isSymbol ".") then nameChain rest.tail else []
    else nameChain rest

/-- How a supertype is named: by its names joined with dots, or by its first annotation if it has one in
front. A primitive type has no name but that of an annotation. -/
def supertypeName? (type : List Tree) : Option String :=
  match type with
  | t :: rest =>
    if t.startsTag then joined (annotationChain type)
    else if Grammar.primitives.contains t.firstText then
      joined (annotationChain (rest.dropWhile (!·.startsTag)))
    else joined (typeChain 0 [] (withoutAnnotations type.length type))
  | [] => none

/-- Whether a word stands among modifiers, annotations apart. -/
def hasModifier (word : String) (modifiers : List Tree) : Bool :=
  (withoutAnnotations modifiers.length modifiers).any (·.isWord word)

/-- A parameter from its type on. One that takes any number of arguments has no name here, and in the path
of a receiver a dot follows the first name. -/
def parameter? (typed : List Tree) : Option Parameter :=
  match typed, after (Grammar.bareType Grammar.modifierWords) typed with
  | type :: _, name :: rest =>
    if rest.head?.any (·.isSymbol ".") then none
    else
      match name.word?, type.word? with
      | some name, some type => some { name, type }
      | _, _ => none
  | _, _ => none

/-- Whether the first parameter is the receiver. Modifiers make it an ordinary one by the name of a
receiver, unless only a receiver may be followed by the rest. -/
def startsWithReceiver (first trees : List Tree) : Bool :=
  first.getLast?.any (·.isWord "this")
    && ((after Grammar.modifiers first).length == first.length || trees.getLast?.any (·.isSymbol ","))

/-- Parameters by name, without the receiver. -/
def parameters (trees : List Tree) : List Parameter :=
  match partsOf (.alt Grammar.parameter Grammar.receiver) trees with
  | [] => []
  | first :: rest =>
    let ordinary := if startsWithReceiver first trees then rest else first :: rest
    (ordinary.map (after Grammar.modifiers)).filterMap parameter?

def declaredNames (declarators : List Tree) : List String :=
  (partsOf (Grammar.declarator []) declarators).filterMap fun part =>
    part.head?.bind word?

inductive Member where
  | fields (fields : List Field)
  | method (method : Method)
  | other
  deriving DecidableEq, Repr

/-- A method from its type and what follows that. Without a name and parameters it is none. -/
def method? (isPrivate : Bool) (type : Tree) (trees : List Tree) : Option Method :=
  match trees with
  | name :: .group .paren _ _ _ inside :: _ =>
    match name.word?, type.word? with
    | some name, some returnType => some { name, returnType, parameters := parameters inside, isPrivate }
    | _, _ => none
  | _ => none

/-- Fields from their type and what follows that, if a name does. -/
def fields? (isPrivate : Bool) (type : Tree) (trees : List Tree) : Option (List Field) :=
  match type.word?, trees.head?.bind word? with
  | some type, some _ => some ((declaredNames trees).map fun name => { name, type, isPrivate })
  | _, _ => none

/-- A member from its type on. Without a name behind the type it is a constructor. -/
def typedMember (isPrivate : Bool) (type : Tree) (trees : List Tree) : Member :=
  match method? isPrivate type trees with
  | some method => .method method
  | none =>
    match fields? isPrivate type trees with
    | some fields => .fields fields
    | none => .other

def member (piece : List Tree) : Member :=
  let rest := after Grammar.ownModifiers piece
  let isPrivate := hasModifier "private" (before rest piece)
  match rest with
  | [] => .other
  | t :: more =>
    if Grammar.declarationWords.contains t.firstText || t.isSymbol "@interface" || t.isBraces then .other
    else if t.isSymbol "<" then
      match after (.seq Grammar.typeParameters Grammar.annotations) (t :: more) with
      | type :: more =>
        match method? isPrivate type (after (Grammar.bareType []) (type :: more)) with
        | some method => .method method
        | none => .other
      | [] => .other
    else typedMember isPrivate t (after (Grammar.bareType Grammar.notMemberTypes) (t :: more))

def fieldsOf : Member → List Field
  | .fields fields => fields
  | _ => []

def methodsOf : Member → List Method
  | .method method => [method]
  | _ => []

def lastStop? (trees : List Tree) : Option Nat :=
  trees.getLast?.map stop

/-- The end of the last piece that declares fields. -/
def lastFieldStop? (members : List (List Tree)) : Option Nat :=
  members.foldl (fun found piece =>
    match member piece with
    | .fields _ => lastStop? piece
    | _ => found) none

def addMembers (c : Class) (members : List (List Tree)) : Class :=
  let members := members.map member
  { c with fields := members.flatMap fieldsOf, methods := members.flatMap methodsOf }

def publicMethods (c : Class) : Class :=
  { c with fields := [], methods := c.methods.map ({ · with isPrivate := false }) }

def constantName? (trees : List Tree) : Option String :=
  (after Grammar.modifiers trees).head?.bind word?

/-- Where members of an enum without a separator go: behind the last constant, and behind the comma that
follows it unless a comment stands between. -/
def constantStop? : List (List Tree) → List Tree → Option Nat
  | constants, trees => do
    let last ← constants.getLast?
    let stop ← lastStop? last
    let next := (trees.dropWhile fun t => t.stop ≤ stop).head?
    match next with
    | some (.leaf t) => if t.isSymbol "," && !t.commented then some t.stop else some stop
    | _ => some stop

def enumType (c : Class) (opening : Nat) (inside : List Tree) : SourceType :=
  let first := inside.takeWhile (!·.isSymbol ";")
  let constants := partsOf Grammar.enumConstant first
  let c := { c with constants := constants.filterMap constantName? }
  match inside.dropWhile (!·.isSymbol ";") with
  | [] =>
    { type := c
      anchor := { offset := (constantStop? constants first).getD opening, needsSeparator := true } }
  | separator :: rest =>
    let members := pieces false rest
    { type := addMembers c members
      anchor := { offset := (lastFieldStop? members).getD separator.stop } }

def bodyType (c : Class) (opening : Nat) (inside : List Tree) : SourceType :=
  match c.kind with
  | .enum => enumType c opening inside
  | .interface =>
    { type := publicMethods (addMembers c (pieces false inside)), anchor := { offset := opening } }
  | .plain =>
    let members := pieces false inside
    { type := addMembers c members, anchor := { offset := (lastFieldStop? members).getD opening } }

def kind? (t : Tree) : Option Kind :=
  if t.isWord "class" then some .plain
  else if t.isWord "interface" then some .interface
  else if t.isWord "enum" then some .enum
  else none

/-- The superclass at the start of what follows the name and its type parameters, and what stands behind
it. -/
def extended (trees : List Tree) : Option String × List Tree :=
  match trees with
  | t :: more =>
    if t.isWord "extends" then
      let rest := after Grammar.type more
      (supertypeName? (before rest more), rest)
    else (none, trees)
  | [] => (none, trees)

def implemented (trees : List Tree) : List String :=
  match trees with
  | t :: more => if t.isWord "implements" then (partsOf Grammar.type more).filterMap supertypeName? else []
  | [] => []

/-- Superclass and interfaces from what follows the name and its type parameters. -/
def supertypes (trees : List Tree) : Option String × List String :=
  let (superclass, rest) := extended trees
  (superclass, implemented rest)

def header (kind : Kind) (isAbstract : Bool) (name : String) (trees : List Tree) : Class :=
  match kind with
  | .plain =>
    let (superclass, interfaces) := supertypes (after Grammar.typeParameters trees)
    { name, kind, isAbstract, superclass, interfaces }
  | _ => { name, kind }

/-- How a piece of the source starts that declares a type: its kind, its name and what follows the name. -/
def heading? (piece : List Tree) : Option (Kind × String × List Tree) :=
  match after Grammar.ownModifiers piece with
  | keyword :: name :: more =>
    match kind? keyword, name.word? with
    | some kind, some name => some (kind, name, more)
    | _, _ => none
  | _ => none

/-- The type that a piece of the source declares, if it declares one. -/
def sourceType? (piece : List Tree) : Option SourceType :=
  match heading? piece, piece.getLast? with
  | some (kind, name, more), some (.group .brace _ opening _ inside) =>
    let isAbstract := hasModifier "abstract" (before (after Grammar.ownModifiers piece) piece)
    some (bodyType (header kind isAbstract name more) opening.stop inside)
  | _, _ => none

def declaration : Kind → Form
  | .plain => Grammar.classDeclaration
  | .interface => Grammar.interfaceDeclaration
  | .enum => Grammar.enumDeclaration

/-- Whether pieces make up a source: those that start like a type have to declare one, and what stands
between them has to be a program of its own. `run` is what stands since the last type. -/
def areProgram (run : List Tree) : List (List Tree) → Bool
  | [] => derives .program run
  | piece :: rest =>
    match heading? piece with
    | some (kind, _, _) =>
      derives .program run && (declaration kind).covers Grammar.form piece && areProgram [] rest
    | none => areProgram (run ++ piece) rest

end Outline

/-- The trees of a source, if the grammar accepts it. -/
def trees? (source : String) : Option (List Tree) := do
  let tokens ← tokens? source.toList
  let trees ← Tree.build derives [] [] tokens
  if Outline.areProgram [] (Tree.pieces false trees) then some trees else none

/-- The top-level classes, interfaces and enums of a source in their order, unless it is refused. -/
def sourceTypes? (source : String) : Option (List SourceType) :=
  (trees? source).map fun trees => (Tree.pieces false trees).filterMap Outline.sourceType?

end ClassDiagram.Java
