import ClassDiagram.Java.Form

/-! The grammar of Java sources. It is deliberately wide: a source is any sequence of types, statements and
methods, modifiers come in any order and number, and precedence is left open, since only acceptance
counts here. A word is a keyword only where the keyword may come next, so every place that takes a name
says which words it excludes. -/

namespace ClassDiagram.Java.Grammar

open Form

def primitives : List String :=
  ["byte", "short", "int", "long", "char", "float", "double", "boolean", "void"]

def modifierWords : List String :=
  ["public", "protected", "private", "abstract", "static", "final", "strictfp", "default", "synchronized",
   "native", "transient", "volatile", "sealed", "non-sealed"]

/-- Words with a meaning in some declarations that are names in expressions. -/
def contextual : List String :=
  ["open", "module", "record", "with", "sealed", "yield"]

/-- Words that start an expression and are no names. -/
def expressionWords : List String :=
  ["new", "this", "super", "switch", "true", "false", "null"]

/-- Words that start a primary and are no names. -/
def primaryWords : List String :=
  expressionWords.filter (· != "switch")

def notNames : List String :=
  expressionWords ++ primitives

/-- Modifiers that cannot be read as names in an expression. -/
def hardModifiers : List String :=
  modifierWords.filter (!contextual.contains ·)

def statementWords : List String :=
  ["assert", "break", "class", "continue", "do", "enum", "for", "if", "import", "interface", "package",
   "return", "throw", "try", "while"]

def declarationWords : List String :=
  ["class", "interface", "enum", "record"]

/-- Words behind annotations that go with packages and modules. -/
def moduleWords : List String :=
  ["module", "open", "package"]

/-- Excluded as first word of a type where an expression may stand as well. -/
def notTypes : List String :=
  expressionWords ++ contextual

/-- Excluded as first word of a type where an expression or modifiers may stand as well. -/
def notModifiedTypes : List String :=
  notTypes ++ modifierWords

/-- Excluded as first word of a type where a statement starts. -/
def notStatementTypes : List String :=
  notModifiedTypes ++ statementWords

/-- Excluded as first word of a type or a name where a member starts. -/
def notMemberTypes : List String :=
  modifierWords ++ declarationWords

def annotations : Form :=
  star (call .tag)

def dimensions : Form :=
  some1 (seq annotations (inside .square .nothing))

/-- A class type: names joined by dots, each with type arguments or without. -/
def classType (excluded : List String) : Form :=
  all [name (primitives ++ excluded), opt (call .typeArguments),
    star (all [sym ".", annotations, name [], opt (call .typeArguments)])]

/-- A class type that is more than one name. -/
def longClassType (excluded : List String) : Form :=
  let further := all [sym ".", annotations, name [], opt (call .typeArguments)]
  seq (name (primitives ++ excluded)) (alt (seq (call .typeArguments) (star further)) (some1 further))

/-- A class type whose last name has type arguments. -/
def genericType (excluded : List String) : Form :=
  all [name (primitives ++ excluded), star (all [opt (call .typeArguments), sym ".", annotations, name []]),
    call .typeArguments]

def simpleType (excluded : List String) : Form :=
  alt (one (.words primitives)) (classType excluded)

/-- A type without annotations in front of it. -/
def bareType (excluded : List String) : Form :=
  seq (simpleType excluded) (opt dimensions)

/-- A type without annotations in front of it that is more than one name. -/
def longType (excluded : List String) : Form :=
  alt (seq (alt (one (.words primitives)) (longClassType excluded)) (opt dimensions))
    (all [name (primitives ++ excluded), dimensions])

/-- A type without annotations in front of it and what follows it. A type of one name may also be read as
an expression, which the given words may follow; as such they are no names behind it. -/
def typeThen (excluded followers : List String) (rest : List String → Form) : Form :=
  alt (seq (name (primitives ++ excluded)) (rest followers)) (seq (longType excluded) (rest []))

def type : Form :=
  seq annotations (bareType [])

/-- A type with annotations in front of it. Behind a single one other things may stand as well. -/
def annotatedType (excluded : List String) : Form :=
  seq (call .tag) (alt (bareType excluded) (seq (some1 (call .tag)) (bareType [])))

def wildcard : Form :=
  all [annotations, sym "?", opt (seq (one (.words ["extends", "super"])) type)]

def typeArguments : Form :=
  all [sym "<", list0 (alt type wildcard), sym ">"]

def typeParameters : Form :=
  all [sym "<",
    list1 (all [annotations, name [], opt (seq (word "extends") (separated "&" type))]),
    sym ">"]

def qualifiedName (excluded : List String) : Form :=
  seq (name excluded) (star (seq (sym ".") (name [])))

/-- An annotation. Where no annotation type may be declared, the symbol that starts one is an annotation
by the name of its keyword. -/
def tag : Form :=
  all [alt (seq (sym "@") (name [])) (sym "@interface"), star (seq (sym ".") (name [])),
    opt (inside .paren .annotationArguments)]

def elementValue : Form :=
  any (call .expression) [inside .brace .elementItems, call .tag]

def annotationArguments : Form :=
  let rest := seq (sym "=") (call .elementValue)
  alt (call .elementValue)
    (opt (all [name notNames, rest, star (all [sym ",", name [], rest])]))

def items (form : Form) : Form :=
  seq (list0 form) (opt (sym ","))

def modifier : Form :=
  any (call .tag) [
    one (.words (modifierWords.filter (· != "non-sealed"))),
    all [word "non-sealed", sym "-", word "sealed"]]

def modifiers : Form :=
  star modifier

/-- An annotation where annotation types may be declared. -/
def ownTag : Form :=
  seq (absent (sym "@interface")) (call .tag)

/-- A modifier where annotation types may be declared. -/
def ownModifier : Form :=
  seq (absent (sym "@interface")) modifier

/-- Modifiers of a declaration. -/
def ownModifiers : Form :=
  star ownModifier

def arguments : Form :=
  inside .paren .arguments

def condition : Form :=
  inside .paren .condition

def string : Form :=
  inside .quote .template

def creation : Form :=
  all [word "new", annotations, opt (seq (call .typeArguments) annotations), simpleType [], arguments,
    opt (inside .brace .classBody)]

def arrayCreation : Form :=
  all [word "new", annotations, simpleType [], dimensions, inside .brace .arrayItems]

/-- An array of given sizes. It takes all brackets that follow. -/
def sizedArray : Form :=
  all [word "new", annotations, simpleType [], some1 (seq annotations (inside .square .index)),
    opt dimensions]

/-- Selects a field. The excluded words mean something else behind the dot. -/
def fieldSelector (excluded : List String) : Form :=
  seq (sym ".")
    (any (name excluded) [word "this", all [word "super", sym ".", alt (name ["this"]) (word "this")]])

def callSelector (excluded : List String) : Form :=
  all [sym ".",
    any (name excluded) [
      seq (call .typeArguments) (name []),
      all [word "super", sym ".", name ["this"]],
      all [word "super", sym ".", call .typeArguments, name []]],
    arguments]

/-- Words that mean something behind an expression and a dot. -/
def selectorWords : List String :=
  ["this", "super", "new"]

/-- Words that mean something behind the word `super` and a dot. -/
def superWords : List String :=
  ["this", "super"]

def reference : Form :=
  all [sym "::", opt (call .typeArguments), name []]

def indexSelector : Form :=
  inside .square .index

def plainSelector : Form :=
  any (fieldSelector selectorWords) [callSelector selectorWords, reference,
    seq (sym ".") (alt creation string)]

def selectors : Form :=
  star (alt indexSelector plainSelector)

/-- A primary before any selector. The word `super` needs one. -/
def head (excluded : List String) : Form :=
  any (one .number) [
    one .character,
    string,
    one (.words ["true", "false", "null", "this"]),
    seq (name (primitives ++ excluded)) (opt arguments),
    inside .paren .parenthesized,
    creation,
    arrayCreation,
    all [bareType (contextual ++ excluded), sym ".", word "class"],
    seq (alt (bareType (contextual ++ excluded)) (annotatedType [])) reference,
    seq (word "super") (any (fieldSelector superWords) [callSelector superWords, reference])]

/-- A primary that brackets may follow. -/
def indexable (excluded : List String) : Form :=
  alt (seq (head excluded) selectors) (all [sizedArray, plainSelector, selectors])

def primary (excluded : List String) : Form :=
  alt (indexable excluded) sizedArray

def fieldAccess (excluded : List String) : Form :=
  alt (seq (primary excluded) (fieldSelector selectorWords)) (seq (word "super") (fieldSelector superWords))

/-- What may stand left of an assignment: a name, a field or an element. -/
def assignable : Form :=
  any (name notNames) [fieldAccess expressionWords, seq (indexable expressionWords) indexSelector]

def binaryOperator : Form :=
  any (one (.symbols ["+", "-", "*", "/", "%", "&", "|", "^", "&&", "||", "==", "!=", "<", "<=", "<<"])) [
    one (.angle false),
    seq (one (.angle true)) (alt (one (.angle false)) (sym "=")),
    all [one (.angle true), one (.angle true), one (.angle false)]]

def assignmentOperator : Form :=
  any (one (.symbols ["=", "+=", "-=", "*=", "/=", "%=", "&=", "^=", "|=", "<<="])) [
    all [one (.angle true), one (.angle true), sym "="],
    all [one (.angle true), one (.angle true), one (.angle true), sym "="]]

def between : Form :=
  alt binaryOperator (all [sym "?", call .expression, sym ":"])

def switch : Form :=
  all [word "switch", condition, inside .brace .switchBody]

def lambdaHead (excluded : List String) : Form :=
  seq
    (any (name (primitives ++ excluded)) [inside .paren .lambdaParameters, inside .paren .inferredParameters])
    (sym "->")

def blockLambda (excluded : List String) : Form :=
  seq (lambdaHead excluded) (inside .brace .block)

/-- A record pattern. Its name may be contextual unless it has type arguments; only without them its
components may be read in another way too, by the given rule. -/
def recordPattern (components : Rule) (excluded : List String) : Form :=
  alt (seq (name (primitives ++ excluded)) (inside .paren components))
    (seq (genericType (contextual ++ excluded)) (inside .paren .recordComponents))

/-- A component of a record pattern. -/
def recordComponent : Form :=
  any (word "_") [seq (bareType ("_" :: contextual)) (name []), recordPattern .recordComponents ["_"]]

/-- The components of a record pattern where arguments of a call may stand as well. -/
def labelComponents : Form :=
  let first := any (word "_") [
    typeThen ("_" :: notTypes) ["instanceof"] name,
    recordPattern .labelComponents ("_" :: expressionWords)]
  opt (seq first (star (seq (sym ",") recordComponent)))

/-- What a value is tested against, and the name it then has. -/
def tested (excluded followers : List String) : Form :=
  alt (seq (alt (annotatedType []) (bareType (contextual ++ excluded))) (opt (name followers)))
    (recordPattern .recordComponents excluded)

def typeTest (followers : List String) : Form :=
  seq (word "instanceof") (alt (seq (word "final") (tested [] followers)) (tested ["final"] followers))

/-- An operand with what follows it. -/
def operand (followers : List String) : Form :=
  seq
    (any (primary expressionWords) [switch, blockLambda expressionWords,
      seq (inside .paren .castTypes) (alt (primary primaryWords) (blockLambda primaryWords))])
    (star (alt (one (.symbols ["++", "--"])) (typeTest followers)))

def unary : Form :=
  alt (one (.symbols ["+", "-", "!", "~", "++", "--"])) (inside .paren .castType)

/-- Operands with operators before and between them, and at the end an operand or a lambda, whose body is
the given rule. The keywords that may follow are no names at the end. -/
def expression (body : Rule) (followers : List String) : Form :=
  seq (star (any unary [seq assignable assignmentOperator, seq (operand followers) between]))
    (alt (operand followers)
      (seq (alt (lambdaHead expressionWords) (seq (inside .paren .castTypes) (lambdaHead primaryWords)))
        (call body)))

/-- Asks that what follows does not start with one of the words, nor with an annotation and one of the
words that may follow it. -/
def notFrom (words afterTag : List String) : Form :=
  seq (notNext words) (absent (seq (call .tag) (one (.words afterTag))))

/-- An expression where modifiers may stand as well. -/
def unmodifiedExpression : Form :=
  seq (notFrom hardModifiers modifierWords) (call .expression)

def initializer : Form :=
  alt (call .expression) (inside .brace .arrayItems)

def declared (excluded : List String) : Form :=
  seq (name excluded) (opt dimensions)

def declarator (excluded : List String) : Form :=
  seq (declared excluded) (opt (seq (sym "=") initializer))

def declarators (excluded : List String) : Form :=
  seq (declarator excluded) (star (seq (sym ",") (declarator [])))

/-- Modifiers where an expression may stand as well. -/
def someModifiers (modifier : Form) : Form :=
  seq (absent (seq (word "sealed") (word "instanceof"))) (some1 modifier)

/-- Modifiers where a statement starts. -/
def statementModifiers : Form :=
  seq (absent (seq (call .tag) (one (.words moduleWords)))) (someModifiers ownModifier)

/-- A type behind modifiers, or one without them where an expression may stand as well, and what follows
it. -/
def modifiedThen (modifiers : Form) (afterModifiers alone : List String) (rest : List String → Form) : Form :=
  alt (all [modifiers, bareType afterModifiers, rest []]) (typeThen alone ["instanceof"] rest)

/-- What follows the type of a parameter. -/
def parameterName (excluded : List String) : Form :=
  alt (declared excluded) (seq (sym "...") (declarator []))

def modifiedParameter : Form :=
  all [some1 modifier, bareType modifierWords, parameterName []]

def parameter : Form :=
  alt modifiedParameter (seq (bareType modifierWords) (parameterName []))

/-- A first parameter. Without modifiers it is not named like a receiver. -/
def firstParameter (followers : List String) : Form :=
  alt modifiedParameter
    (typeThen modifierWords followers fun followers => parameterName ("this" :: followers))

def receiver : Form :=
  let path := star (seq (name ["this"]) (sym "."))
  seq
    (alt (seq (annotatedType modifierWords) path)
      (seq (bareType modifierWords) (opt (all [name ("this" :: "_" :: contextual), sym ".", path]))))
    (word "this")

def parameters (followers : List String) : Form :=
  any receiver [
    all [receiver, sym ",", list0 parameter],
    opt (seq (firstParameter followers) (star (seq (sym ",") parameter)))]

def throws : Form :=
  opt (seq (word "throws") (list1 type))

def extendsType : Form :=
  opt (seq (word "extends") type)

def typeList (keyword : String) : Form :=
  opt (seq (word keyword) (list1 type))

def classDeclaration : Form :=
  all [ownModifiers, word "class", name [], opt typeParameters, extendsType, typeList "implements",
    typeList "permits", inside .brace .classBody]

/-- A record. Without modifiers its keyword may also be read as a name, which the given words may follow. -/
def recordDeclaration (followers : List String) : Form :=
  all [alt (all [some1 ownModifier, word "record", name []]) (seq (word "record") (name followers)),
    opt typeParameters, inside .paren .parameters, typeList "implements", inside .brace .classBody]

def interfaceDeclaration : Form :=
  all [ownModifiers, word "interface", name [], opt typeParameters, typeList "extends", typeList "permits",
    inside .brace .interfaceBody]

def annotationDeclaration : Form :=
  all [ownModifiers, sym "@interface", name [], inside .brace .annotationBody]

def enumDeclaration : Form :=
  all [ownModifiers, word "enum", name [], typeList "implements", inside .brace .enumBody]

def importDeclaration : Form :=
  all [word "import", opt (word "static"), qualifiedName ["static"], opt (seq (sym ".") (sym "*")), sym ";"]

def packageDeclaration : Form :=
  all [star ownTag, word "package", qualifiedName [], sym ";"]

def moduleDeclaration : Form :=
  seq
    (alt (seq (word "module") (qualifiedName ["instanceof"]))
      (all [alt (seq (some1 ownTag) (opt (word "open"))) (word "open"), word "module",
        qualifiedName []]))
    (inside .brace .moduleBody)

def moduleDirective : Form :=
  seq
    (any (all [word "requires", star (one (.words ["transitive", "static"])),
          qualifiedName ["transitive", "static"]]) [
      all [one (.words ["exports", "opens"]), qualifiedName [],
        opt (seq (word "to") (list1 (qualifiedName [])))],
      all [word "uses", qualifiedName []],
      all [word "provides", qualifiedName [], word "with", list1 (qualifiedName [])]])
    (sym ";")

/-- A method from its return type on. -/
def methodRest (excluded : List String) : Form :=
  all [name excluded, inside .paren .parameters, opt dimensions, throws,
    alt (inside .brace .block) (sym ";")]

def genericResult : Form :=
  all [typeParameters, annotations, bareType []]

/-- An underscore is a name only where no variable may be declared. -/
def memberMethod : Form :=
  seq ownModifiers (alt (seq genericResult (methodRest [])) (seq (bareType notMemberTypes) (methodRest ["_"])))

def topLevelMethod : Form :=
  alt (all [ownModifiers, genericResult, methodRest []])
    (modifiedThen statementModifiers notMemberTypes notStatementTypes fun followers =>
      methodRest ("_" :: followers))

def constructor : Form :=
  all [ownModifiers, alt (seq typeParameters (name primitives)) (name (primitives ++ notMemberTypes)),
    inside .paren .parameters, throws, inside .brace .constructorBlock]

def compactConstructor : Form :=
  all [ownModifiers, name (primitives ++ notMemberTypes), inside .brace .block]

/-- Asks that no declaration or other statement with a keyword starts here. -/
def notStatement : Form :=
  seq (absent (sym "@interface"))
    (notFrom (hardModifiers ++ statementWords)
      (modifierWords ++ declarationWords ++ moduleWords))

def constructorCall : Form :=
  all [
    alt (seq (opt (call .typeArguments)) (one (.words ["this", "super"])))
      (all [notStatement, primary expressionWords, sym ".", opt (call .typeArguments), word "super"]),
    arguments, sym ";"]

def fieldDeclaration : Form :=
  all [ownModifiers, bareType notMemberTypes, declarators [], sym ";"]

def classMember : Form :=
  any fieldDeclaration [memberMethod, constructor, compactConstructor, classDeclaration,
    recordDeclaration [], interfaceDeclaration, annotationDeclaration, enumDeclaration,
    seq (opt (word "static")) (inside .brace .block), sym ";"]

def interfaceMember : Form :=
  any fieldDeclaration [memberMethod, classDeclaration, recordDeclaration [], interfaceDeclaration,
    annotationDeclaration, enumDeclaration, sym ";"]

def notElementTypes : List String :=
  modifierWords ++ ["class", "interface", "enum"]

def annotationMember : Form :=
  any (all [ownModifiers, bareType notElementTypes, declarators [], sym ";"]) [
    all [ownModifiers, bareType notElementTypes, name ["_"], inside .paren .nothing, opt dimensions,
      opt (seq (word "default") (call .elementValue)), sym ";"],
    classDeclaration, interfaceDeclaration, annotationDeclaration, enumDeclaration, sym ";"]

def enumConstant : Form :=
  all [modifiers, name modifierWords, opt arguments, opt (inside .brace .classBody)]

def enumBody : Form :=
  seq (items enumConstant) (opt (seq (sym ";") (star classMember)))

def block : Form :=
  inside .brace .block

def localVariable : Form :=
  seq (modifiedThen statementModifiers notMemberTypes notStatementTypes declarators) (sym ";")

def catchClause : Form :=
  all [word "catch", inside .paren .catchParameter, block]

def finallyClause : Form :=
  seq (word "finally") block

def expressionStatement : Form :=
  all [notStatement, call .expression, sym ";"]

def statement : Form :=
  let ending := alt finallyClause (notNext ["catch", "finally"])
  any block [
    sym ";",
    classDeclaration, recordDeclaration ["instanceof"], interfaceDeclaration, annotationDeclaration,
    enumDeclaration, importDeclaration, packageDeclaration, moduleDeclaration,
    expressionStatement,
    localVariable,
    all [name (notNames ++ notStatementTypes), sym ":", call .statement],
    all [word "if", condition, call .statement, alt (seq (word "else") (call .statement)) (notNext ["else"])],
    all [word "while", condition, call .statement],
    all [word "for", inside .paren .forHeader, call .statement],
    all [word "assert", call .expression, opt (seq (sym ":") (call .expression)), sym ";"],
    all [word "do", call .statement, word "while", condition, sym ";"],
    all [one (.words ["break", "continue"]), opt (name []), sym ";"],
    all [word "return", opt (call .expression), sym ";"],
    all [word "yield", notNext ["instanceof"], call .expression, sym ";"],
    all [word "throw", call .expression, sym ";"],
    switch,
    all [word "synchronized", condition, block],
    all [word "try", block, alt (seq (some1 catchClause) ending) finallyClause],
    all [word "try", inside .paren .resources, block, star catchClause, ending]]

def switchLabel : Form :=
  alt (word "default")
    (all [word "case",
      any (list1 (call .labelExpression)) [
        typeThen notTypes ["instanceof", "when"] name,
        recordPattern .labelComponents expressionWords],
      opt (seq (word "when") (call .expression))])

def switchBody : Form :=
  alt
    (star
      (seq (some1 (seq switchLabel (sym ":")))
        (star (seq (notNext ["case", "default"]) (call .statement)))))
    (star (all [switchLabel, sym "->",
      any block [
        all [word "throw", call .expression, sym ";"],
        all [notNext ["throw"], call .expression, sym ";"]]]))

def resource : Form :=
  let excluded := primaryWords ++ contextual ++ modifierWords
  any (all [alt (seq (some1 modifier) (bareType modifierWords)) (bareType excluded), declared [], sym "=",
      call .expression]) [
    name (primitives ++ excluded),
    seq (notFrom hardModifiers modifierWords) (fieldAccess primaryWords)]

def forHeader : Form :=
  alt
    (all [modifiedThen (someModifiers modifier) modifierWords notModifiedTypes declared, sym ":",
      call .expression])
    (all [
      alt (modifiedThen (someModifiers modifier) modifierWords notModifiedTypes declarators)
        (opt (seq unmodifiedExpression (star (seq (sym ",") (call .expression))))),
      sym ";", opt (call .expression), sym ";", list0 (call .expression)])

/-- The first type of a cast. -/
def castType : Form :=
  alt (annotatedType modifierWords) (bareType notModifiedTypes)

/-- Bodies that are cut into declarations. -/
def isBody : Rule → Bool
  | .classBody => true
  | .interfaceBody => true
  | _ => false

/-- The right-hand side of each rule. That of a body is for each of its declarations. -/
def form : Rule → Form
  | .program => star (alt (call .statement) topLevelMethod)
  | .statement => statement
  | .expression => expression .expression ["instanceof"]
  | .labelExpression => expression .labelExpression ["instanceof", "when"]
  | .tag => tag
  | .typeArguments => typeArguments
  | .elementValue => elementValue
  | .condition => call .expression
  | .parenthesized => unmodifiedExpression
  | .castType => castType
  | .castTypes => seq castType (some1 (seq (sym "&") type))
  | .arguments => list0 (call .expression)
  | .parameters => parameters []
  | .lambdaParameters =>
    all [notNext (notTypes.filter (· != "sealed")), absent (seq (word "sealed") (word "instanceof")),
      parameters ["instanceof"]]
  | .inferredParameters =>
    all [notNext hardModifiers, name notNames, star (seq (sym ",") (name []))]
  | .annotationArguments => annotationArguments
  | .recordComponents => list0 recordComponent
  | .labelComponents => labelComponents
  | .catchParameter =>
    all [modifiers, bareType modifierWords, star (seq (sym "|") (bareType [])), declared []]
  | .resources => seq (separated ";" resource) (opt (sym ";"))
  | .forHeader => forHeader
  | .block => star (call .statement)
  | .constructorBlock => seq (opt constructorCall) (star (call .statement))
  | .classBody => classMember
  | .interfaceBody => interfaceMember
  | .annotationBody => star annotationMember
  | .enumBody => enumBody
  | .switchBody => switchBody
  | .arrayItems => items initializer
  | .elementItems => items (call .elementValue)
  | .moduleBody => star moduleDirective
  | .index => call .expression
  | .nothing => empty
  | .template => star (inside .hole .embedded)
  | .embedded => call .expression

end Grammar

/-- Whether a rule of the grammar derives all of the trees. -/
def derives (rule : Rule) (trees : List Tree) : Bool :=
  if Grammar.isBody rule then (Tree.pieces false trees).all (Form.derives Grammar.form rule)
  else Form.derives Grammar.form rule trees

end ClassDiagram.Java
