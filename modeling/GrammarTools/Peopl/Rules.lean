import GrammarTools.Grammar
import GrammarTools.Operators
import GrammarTools.Peopl.Kind
import GrammarTools.Peopl.Token

/-!
# Rules of PeoPl

Three rules may stand inside themselves: expressions, type identifiers, and
operands with operators in front. Every other rule is given these three for one
level further down (`Below`). `level n` has room for `n` more levels; with no
room left, the three rules fail.

Every statement ends with two dots. An expression is a chain of steps between
semicolons and question marks; a step is a simple expression, or branches with a
capture between bars and perhaps a default. A type in an expression must be
called or accessed, unless it is the first capture of a branch.
-/

namespace GrammarTools.Peopl

open Rule

/-- The rules that may stand inside themselves. -/
abbrev Below := Nested Token

/-! ## Signs -/

/-- Whether a token is an argument name. -/
def isArgumentName : Token → Bool
  | .argumentName | .underscore => true
  | _ => false

/-- Whether an argument name comes next. -/
def atArgumentName (s : TokenStream Token) : Bool := s.peek.any isArgumentName

/-- Whether a name with a colon comes next. -/
def atNamedParam (s : TokenStream Token) : Bool :=
  atArgumentName s && s.peekNth 1 == some .colon

/-! ## Operators -/

/-- The tokens that are operators. -/
def operatorForm? : Token → Option OperatorForm
  | .star => some ⟨.multiplicative, Kind.star, some Kind.multiplicativeOperator⟩
  | .slash => some ⟨.multiplicative, Kind.slash, some Kind.multiplicativeOperator⟩
  | .percent => some ⟨.multiplicative, Kind.percent, some Kind.multiplicativeOperator⟩
  | .plus => some ⟨.additive, Kind.plus, some Kind.additiveOperator⟩
  | .minus => some ⟨.additive, Kind.minus, some Kind.additiveOperator⟩
  | .equals => some ⟨.comparative, Kind.equals, some Kind.comparativeOperator⟩
  | .notEquals => some ⟨.comparative, Kind.notEquals, some Kind.comparativeOperator⟩
  | .greater => some ⟨.comparative, Kind.greater, some Kind.comparativeOperator⟩
  | .greaterEquals => some ⟨.comparative, Kind.greaterEquals, some Kind.comparativeOperator⟩
  | .less => some ⟨.comparative, Kind.less, some Kind.comparativeOperator⟩
  | .lessEquals => some ⟨.comparative, Kind.lessEquals, some Kind.comparativeOperator⟩
  | .andKeyword => some ⟨.conjunctive, Kind.andOperator, none⟩
  | .orKeyword => some ⟨.disjunctive, Kind.orOperator, none⟩
  | _ => none

/-- The binary operators. -/
def operators : Operators Token where
  form? := operatorForm?
  binary := Kind.binaryExpression
  left := Field.left
  operator := Field.operator
  right := Field.right

/-- The operators that may stand in front of an operand. -/
def signForm? : Token → Option OperatorForm
  | .plus => some ⟨.additive, Kind.plus, some Kind.additiveOperator⟩
  | .minus => some ⟨.additive, Kind.minus, some Kind.additiveOperator⟩
  | .notKeyword => some ⟨.conjunctive, Kind.notOperator, none⟩
  | _ => none

/-- The operators in front of an operand. -/
def signs : Signs Token where
  form? := signForm?
  unary := Kind.unaryExpression
  operator := Field.operator
  operand := Field.operand

section Rules

variable (below : Below)

/-- The name of an argument. -/
def argumentName : Rule Token RawNode := do
  if ← ask atArgumentName then leaf Kind.argumentName else fail ["argument name"]

/-- A colon. -/
def colon : Rule Token RawNode := expect .colon Kind.colon "`:`"

/-- A comma, if there is one. -/
def optionalComma : Rule Token (List RawNode) := do
  if ← ask (·.isAt .comma) then return [← leaf Kind.comma] else return []

/-! ## Types -/

/-- A type and more types, with commas between. -/
def typeIdentifiers : Rule Token (List RawNode) := do
  let first ← below.typeIdentifier
  let more ← repeatWhile (·.isAt .comma) do
    let comma ← leaf Kind.comma
    return [comma, ← below.typeIdentifier]
  return first :: more

/-- Types between angle brackets. -/
def typeArguments : Rule Token RawNode := do
  let opening ← leaf Kind.less
  let types ← typeIdentifiers below
  let closing ← expect .greater Kind.greater "`>`"
  return .branch Kind.typeArguments (opening :: types ++ [closing])

/-- The name of a type, perhaps with arguments. -/
def flatNominalType : Rule Token RawNode := do
  let name ← expect .typeName Kind.typeName "type name"
  let name := name.withField Field.typeName
  if ← ask (·.isAt .less) then
    let arguments ← typeArguments below
    return .branch Kind.flatNominalType [name, arguments.withField Field.typeArguments]
  else return .branch Kind.flatNominalType [name]

/-- Names of types with double colons between. -/
def nominalType : Rule Token RawNode := do
  let first ← flatNominalType below
  let more ← repeatWhile (·.isAt .colonColon) do
    let colons ← leaf Kind.colonColon
    return [colons, ← flatNominalType below]
  return .branch Kind.nominalType (first :: more)

/-- Types in brackets. -/
def tupleStructuralType : Rule Token RawNode := do
  let opening ← leaf Kind.openBracket
  let types ← typeIdentifiers below
  let closing ← expect .closeBracket Kind.closeBracket "`]`"
  return .branch Kind.tupleStructuralType (opening :: types ++ [closing])

/-- The types of the inputs of a function, commas included. -/
def inputTypes : Rule Token (List RawNode) := do
  if ← ask (·.isAt .closeBrace) then return []
  else return (← typeIdentifiers below).map (·.withField Field.inputType)

/-- Types in braces, an arrow and the type of the result. -/
def lambdaStructuralType : Rule Token RawNode := do
  let opening ← leaf Kind.openBrace
  let inputs ← inputTypes below
  let closing ← expect .closeBrace Kind.closeBrace "`\x7d`"
  let arrow ← expect .arrow Kind.arrow "`->`"
  let result ← below.typeIdentifier
  return .branch Kind.lambdaStructuralType
    (opening :: inputs ++ [closing, arrow, result.withField Field.returnType])

/-- A type. -/
def typeReference : Rule Token RawNode := do
  let inner ← match ← peek with
    | some .nothingKeyword => leaf Kind.nothing
    | some .neverKeyword => leaf Kind.never
    | some .typeName => nominalType below
    | some .openBrace => lambdaStructuralType below
    | some .openBracket => tupleStructuralType below
    | _ => fail ["type"]
  return .branch Kind.typeIdentifier [inner]

/-! ## Operands -/

/-- What binary operators join, and all that they join it with. -/
def simpleExpression : Rule Token RawNode := operators.expression below.unary

/-- Expressions in brackets, with commas between. -/
def tupleLiteral : Rule Token RawNode := do
  let opening ← leaf Kind.openBracket
  let first ← below.expression
  let more ← repeatWhile (·.isAt .comma) do
    let comma ← leaf Kind.comma
    return [comma, ← below.expression]
  let closing ← expect .closeBracket Kind.closeBracket "`]`"
  return .branch Kind.tupleLiteral (opening :: first :: more ++ [closing])

/-- An expression in parentheses. -/
def parenthisizedExpression : Rule Token RawNode := do
  let opening ← leaf Kind.openParen
  let expression ← below.expression
  let closing ← expect .closeParen Kind.closeParen "`)`"
  return .branch Kind.parenthisizedExpression [opening, expression, closing]

/-- An expression in braces. -/
def lambdaExpression : Rule Token RawNode := do
  let opening ← leaf Kind.openBrace
  let expression ← below.expression
  let closing ← expect .closeBrace Kind.closeBrace "`\x7d`"
  return .branch Kind.lambdaExpression [opening, expression, closing]

/-- A number, with or without a fraction. -/
def numberLiteral : Rule Token RawNode := numeral Kind.floatLiteral Kind.intLiteral

/-- A truth value. -/
def boolLiteral (kind : Kind) : Rule Token RawNode := do
  return .branch Kind.boolLiteral [← leaf kind]

/-- A type where an operand is due. Unless it may stand by itself, it must be called or
    accessed. -/
def typeOperand (mayStandAlone : Bool) : Rule Token RawNode := do
  let type ← nominalType below
  if ← ask (fun s => mayStandAlone || s.isAt .openParen || s.isAt .dot) then return type
  else fail ["`(`", "`.`"]

/-- An operand without what follows it. -/
def primary (bareType : Bool) : Rule Token RawNode := do
  match ← peek with
  | some .nothingKeyword => leaf Kind.nothing
  | some .neverKeyword => leaf Kind.never
  | some .number => numberLiteral
  | some .string => leaf Kind.stringLiteral
  | some .trueKeyword => boolLiteral .trueKeyword
  | some .falseKeyword => boolLiteral .falseKeyword
  | some .argumentName | some .underscore => leaf Kind.argumentName
  | some .openBracket => tupleLiteral below
  | some .openParen => parenthisizedExpression below
  | some .openBrace => lambdaExpression below
  | some .typeName => typeOperand below bareType
  | _ => fail ["expression"]

/-- A name with its value, and perhaps a comma. -/
def callParam : Rule Token RawNode := do
  let name ← argumentName
  let colon ← colon
  let value ← simpleExpression below
  let comma ← optionalComma
  return .branch Kind.callParam
    (name.withField Field.name :: colon :: value.withField Field.value :: comma)

/-- The arguments of a call, if there are any. -/
def callParams : Rule Token (List RawNode) := do
  if ← ask atNamedParam then
    let params ← repeatWhile atNamedParam do return [← callParam below]
    return [(RawNode.branch Kind.callParamList params).withField Field.params]
  else return []

/-- What can follow an operand and belong to it. -/
inductive Suffix where
  /-- Arguments in parentheses. -/
  | call
  /-- A dot and a name. -/
  | access

/-- The suffix that comes next, if one does. -/
def suffix? (s : TokenStream Token) : Option Suffix :=
  match s.peek with
  | some .openParen => some .call
  | some .dot => some .access
  | _ => none

/-- An operand with the suffix that comes next. -/
def withSuffix : Suffix → RawNode → Rule Token RawNode
  | .call, operand => do
    let opening ← leaf Kind.openParen
    let params ← callParams below
    let closing ← expect .closeParen Kind.closeParen "`)`"
    return .branch Kind.callExpression
      (operand.withField Field.command :: opening :: params ++ [closing])
  | .access, operand => do
    let dot ← leaf Kind.dot
    let name ← argumentName
    return .branch Kind.accessExpression [operand, dot, name]

/-- An operand with all the suffixes that follow. -/
def withSuffixes (operand : RawNode) : Rule Token RawNode :=
  growWhile suffix? (withSuffix below) operand

/-- An operand with its suffixes. -/
def suffixed (bareType : Bool) : Rule Token RawNode := do
  let operand ← primary below bareType
  withSuffixes below operand

/-- An operand with its suffixes, perhaps with an operator in front. -/
def signed : Rule Token RawNode := signs.signed (suffixed below false) below.unary

/-! ## Expressions -/

/-- The first capture of a branch, which may be a type by itself. -/
def firstCapture : Rule Token RawNode := do
  if ← ask (·.isAt .typeName) then
    let operand ← suffixed below true
    operators.extend below.unary operand
  else simpleExpression below

/-- Captures with commas between. -/
def captureGroup : Rule Token RawNode := do
  let first ← firstCapture below
  let more ← repeatWhile (·.isAt .comma) do
    let comma ← leaf Kind.comma
    return [comma, ← simpleExpression below]
  return .branch Kind.captureGroup (first :: more)

/-- What follows a parenthesised expression that begins the body of a branch. -/
def afterParens (parens : RawNode) : Rule Token RawNode := do
  if ← ask (·.isAt .caret) then
    let caret ← leaf Kind.caret
    return .branch Kind.loopedExpression [parens, caret]
  else
    let operand ← withSuffixes below parens
    operators.extend below.unary operand

/-- A simple or looped expression. -/
def branchBody : Rule Token RawNode := do
  if ← ask (·.isAt .openParen) then
    let parens ← parenthisizedExpression below
    afterParens below parens
  else simpleExpression below

/-- Captures between bars, and what to do with them. -/
def branchExpression : Rule Token RawNode := do
  let opening ← leaf Kind.pipe
  let captures ← captureGroup below
  let closing ← expect .pipe Kind.pipe "`|`"
  let body ← branchBody below
  return .branch Kind.branchExpression
    [opening, captures.withField Field.captureGroup, closing, body.withField Field.body]

/-- Whether another branch follows after a comma. -/
def atNextBranch (s : TokenStream Token) : Bool :=
  s.isAt .comma && s.peekNth 1 == some .pipe

/-- The default after the last branch, if there is one. -/
def branchDefault : Rule Token (List RawNode) := do
  if ← ask (·.isAt .comma) then
    let comma ← leaf Kind.comma
    return [comma, ← simpleExpression below]
  else return []

/-- Branches with commas between, and perhaps a default. -/
def branchedExpression : Rule Token RawNode := do
  let first ← branchExpression below
  let more ← repeatWhile atNextBranch do
    let comma ← leaf Kind.comma
    return [comma, ← branchExpression below]
  let default ← branchDefault below
  return .branch Kind.branchedExpression (first :: more ++ default)

/-- A step of an expression. -/
def pipeOperand : Rule Token RawNode := do
  if ← ask (·.isAt .pipe) then branchedExpression below else simpleExpression below

/-- The kind of the token that joins two steps, if one comes next. -/
def pipeKind? (s : TokenStream Token) : Option Kind :=
  match s.peek with
  | some .question => some .question
  | some .semicolon => some .semicolon
  | _ => none

/-- Steps joined to a chain, grouped to the left. -/
def pipeChain : Rule Token RawNode := do
  let first ← pipeOperand below
  growWhile pipeKind? (fun kind left => do
    let token ← leaf kind
    let right ← pipeOperand below
    return .branch Kind.pipedExpression
      [left.withField Field.left,
        (RawNode.branch Kind.pipeOperator [token]).withField Field.operator,
        right.withField Field.right]) first

end Rules

/-! ## Levels -/

/-- The rules with room for a number of levels. -/
def level : Nat → Below :=
  Nested.level fun below => ⟨pipeChain below, typeReference below, signed below⟩

/-- The rules at the top. -/
def top : Below := level maxNesting

/-! ## Statements -/

/-- The default value of a parameter, if it is given. -/
def defaultValue : Rule Token (List RawNode) := do
  if ← ask (·.isAt .openParen) then
    let opening ← leaf Kind.openParen
    let value ← simpleExpression top
    let closing ← expect .closeParen Kind.closeParen "`)`"
    return [opening, value.withField Field.defaultValue, closing]
  else return []

/-- A name with its type, and perhaps a default value and a comma. -/
def paramDefinition : Rule Token RawNode := do
  let name ← argumentName
  let colon ← colon
  let type ← top.typeIdentifier
  let value ← defaultValue
  let comma ← optionalComma
  return .branch Kind.paramDefinition
    (name.withField Field.name :: colon :: type.withField Field.type :: value ++ comma)

/-- Parameters, if there are any. -/
def paramList : Rule Token (List RawNode) := do
  if ← ask atNamedParam then
    let params ← repeatWhile atNamedParam do return [← paramDefinition]
    return [(RawNode.branch Kind.paramList params).withField Field.params]
  else return []

/-- A type with its parameters, where its name has already been read. -/
def simpleTypeDefinition (name : RawNode) : Rule Token RawNode := do
  let params ← paramList
  return .branch Kind.simpleTypeDefinition (name.withField Field.name :: params)

/-- A type with cases, where its name has already been read. -/
def enumTypeDefinition (name : RawNode) : Rule Token RawNode := do
  let cases ← repeatWhile (·.isAt .typeName) do
    let caseName ← nominalType top
    let case ← simpleTypeDefinition caseName
    return [case.withField Field.caseType]
  return .branch Kind.enumTypeDefinition (name.withField Field.metaType :: cases)

/-- The definition of a type. -/
def typeDefinition : Rule Token RawNode := do
  let keyword ← leaf Kind.typeKeyword
  let name ← nominalType top
  let definition ←
    if ← ask (·.isAt .typeName) then enumTypeDefinition name else simpleTypeDefinition name
  return .branch Kind.typeDefinition [keyword, definition]

/-- The first module of a namespace, if there is one. -/
def firstModule : Rule Token (List RawNode) := do
  if ← ask (·.isAt .typeName) then return [← nominalType top] else return []

/-- The modules in use. -/
def namespaceState : Rule Token RawNode := do
  let keyword ← leaf Kind.namespaceKeyword
  let opening ← expect .openBracket Kind.openBracket "`[`"
  let first ← firstModule
  let more ← repeatWhile (·.isAt .comma) do
    let comma ← leaf Kind.comma
    return [comma, ← nominalType top]
  let closing ← expect .closeBracket Kind.closeBracket "`]`"
  return .branch Kind.namespaceState (keyword :: opening :: first ++ more ++ [closing])

/-- A named value, where its scope has already been read. -/
def constantsStatement (scope : List RawNode) : Rule Token RawNode := do
  let name ← argumentName
  let equals ← expect .equals Kind.equals "`=`"
  let value ← simpleExpression top
  return .branch Kind.constantsStatement (scope ++ [name, equals, value])

/-- The type whose values a function takes, if it is given. -/
def inputType : Rule Token (List RawNode) := do
  if ← ask (·.isAt .openParen) then
    let opening ← leaf Kind.openParen
    let type ← top.typeIdentifier
    let closing ← expect .closeParen Kind.closeParen "`)`"
    return [opening, type.withField Field.inputType, closing]
  else return []

/-- The type that a function belongs to, if it is given. -/
def functionScope : Rule Token (List RawNode) := do
  if ← ask (·.isAt .typeName) then
    let type ← nominalType top
    let dot ← expect .dot Kind.dot "`.`"
    return [type.withField Field.scope, dot.withField Field.scope]
  else return []

/-- The definition of a function. -/
def functionDefinition : Rule Token RawNode := do
  let keyword ← leaf Kind.funcKeyword
  let input ← inputType
  let scope ← functionScope
  let name ← argumentName
  let opening ← expect .openParen Kind.openParen "`(`"
  let params ← paramList
  let closing ← expect .closeParen Kind.closeParen "`)`"
  let arrow ← expect .fatArrow Kind.fatArrow "`=>`"
  let output ← top.typeIdentifier
  let body ← top.expression
  return .branch Kind.functionDefinition
    (keyword :: input ++ scope ++ name.withField Field.name :: opening.withField Field.params ::
      params ++ [closing.withField Field.params, arrow, output.withField Field.outputType,
        body.withField Field.body])

/-- A statement that begins with a type: an implementation, or a value in the type's scope. -/
def scopedStatement : Rule Token RawNode := do
  let type ← nominalType top
  match ← peek with
  | some .equals =>
    let equals ← leaf Kind.equals
    let implementation ← nominalType top
    return .branch Kind.implementationStatement [type, equals, implementation]
  | some .dot =>
    let dot ← leaf Kind.dot
    constantsStatement [type, dot]
  | _ => fail ["`=`", "`.`"]

/-- A statement without its end. -/
def openStatement : Rule Token RawNode := do
  match ← peek with
  | some .namespaceKeyword => namespaceState
  | some .typeKeyword => typeDefinition
  | some .funcKeyword => functionDefinition
  | some .typeName => scopedStatement
  | some .argumentName | some .underscore => constantsStatement []
  | _ => fail ["statement"]

/-- A statement and the two dots that end it. -/
def statement : Rule Token (List RawNode) := do
  let statement ← openStatement
  let ending ← expect .dotDot Kind.dotDot "`..`"
  return [statement, ending]

/-- A broken statement reaches up to the next two dots, its own first token aside. -/
def recover (s : TokenStream Token) : List RawNode × TokenStream Token :=
  let (span, rest) := s.skipUntil fun _ s => s.atEnd || s.isAt .dotDot
  if rest.isAt .dotDot then ([.error span [], .leaf Kind.dotDot rest.span], rest.advance)
  else ([.error span []], rest)

/-- The grammar. -/
def grammar : Grammar Token where
  lexicon := lexicon
  statement := statement
  recover := recover
  root := Kind.sourceFile
  comment := Kind.comment

end GrammarTools.Peopl
