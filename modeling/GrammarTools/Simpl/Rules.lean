import GrammarTools.Grammar
import GrammarTools.Operators
import GrammarTools.Simpl.Kind
import GrammarTools.Simpl.Token

/-!
# Rules of Simpl

Three rules may stand inside themselves: expressions, type identifiers, and
operands with operators in front. Every other rule is given these three for one
level further down (`Below`). `level n` has room for `n` more levels; with no
room left, the three rules fail.

An expression is a chain of steps between semicolons. A step is a call, a
parenthesised or simple expression, or a *subpipe*: branches with a capture
between bars, and perhaps a default. Function types are called whenever they
stand where a step may begin; field names only if an argument follows.
-/

namespace GrammarTools.Simpl

open Rule

/-- The rules that may stand inside themselves. -/
abbrev Below := Nested Token

/-! ## Signs -/

/-- Whether a declaration begins here. -/
def atDeclaration (s : TokenStream Token) : Bool :=
  match s.peek with
  | some .typeKeyword | some .contractKeyword | some .funcKeyword => true
  | _ => false

/-- Whether a name with a colon comes next. -/
def atNamedParam (s : TokenStream Token) : Bool :=
  s.isAt .fieldName && s.peekNth 1 == some .colon

/-- Whether a type comes next. -/
def atType (s : TokenStream Token) : Bool := s.isAt .typeName || s.isAt .openBrace

/-- Whether a call comes next: a type, or a field name with an argument after it. -/
def atCall (s : TokenStream Token) : Bool :=
  atType s ||
    (s.isAt .fieldName && s.peekNth 1 == some .fieldName && s.peekNth 2 == some .colon)

/-! ## Operators -/

/-- The tokens that are operators. -/
def operatorForm? : Token → Option OperatorForm
  | .star => some ⟨.multiplicative, Kind.star, some Kind.multiplicativeOperator⟩
  | .slash => some ⟨.multiplicative, Kind.slash, some Kind.multiplicativeOperator⟩
  | .percent => some ⟨.multiplicative, Kind.percent, some Kind.multiplicativeOperator⟩
  | .plus => some ⟨.additive, Kind.plus, some Kind.additiveOperator⟩
  | .minus => some ⟨.additive, Kind.minus, some Kind.additiveOperator⟩
  | .equals => some ⟨.comparative, Kind.equals, some Kind.comparativeOperator⟩
  | .notEquals => some ⟨.comparative, Kind.notEquals, some Kind.comparativeOperator⟩
  | .greater => some ⟨.comparative, Kind.greater, some Kind.comparativeOperator⟩
  | .greaterEquals => some ⟨.comparative, Kind.greaterEquals, some Kind.comparativeOperator⟩
  | .less => some ⟨.comparative, Kind.less, some Kind.comparativeOperator⟩
  | .lessEquals => some ⟨.comparative, Kind.lessEquals, some Kind.comparativeOperator⟩
  | .andKeyword => some ⟨.conjunctive, Kind.andOperator, none⟩
  | .orKeyword => some ⟨.disjunctive, Kind.orOperator, none⟩
  | _ => none

/-- The binary operators. -/
def operators : Operators Token where
  form? := operatorForm?
  binary := Kind.binaryExpression
  left := Field.left
  operator := Field.operator
  right := Field.right

/-- The operators that may stand in front of an operand. -/
def signForm? : Token → Option OperatorForm
  | .plus => some ⟨.additive, Kind.plus, some Kind.additiveOperator⟩
  | .minus => some ⟨.additive, Kind.minus, some Kind.additiveOperator⟩
  | .notKeyword => some ⟨.conjunctive, Kind.notKeyword, none⟩
  | _ => none

/-- The operators in front of an operand. -/
def signs : Signs Token where
  form? := signForm?
  unary := Kind.unaryExpression
  operator := Field.operator
  operand := Field.operand

/-! ## Types -/

section Rules

variable (below : Below)

/-- The name of a field. -/
def fieldIdentifier : Rule Token RawNode :=
  expect .fieldName Kind.fieldIdentifier "field identifier"

/-- A colon. -/
def colon : Rule Token RawNode := expect .colon Kind.colon "`:`"

/-- A name with its type. -/
def paramDeclaration : Rule Token RawNode := do
  let name ← fieldIdentifier
  let colon ← colon
  let type ← below.typeIdentifier
  return .branch Kind.paramDeclaration
    [name.withField Field.name, colon, type.withField Field.type]

/-- One or more names with their types. -/
def paramList : Rule Token RawNode := do
  let params ← repeatWhile atNamedParam do return [← paramDeclaration below]
  return .branch Kind.paramList params

/-- Named types in braces, and the type of the result. -/
def inlineFunctionDeclaration : Rule Token RawNode := do
  let opening ← leaf Kind.openBrace
  let params ← repeatWhile (·.isAt .fieldName) do return [← paramDeclaration below]
  let closing ← expect .closeBrace Kind.closeBrace "`\x7d`"
  let result ← below.typeIdentifier
  return .branch Kind.inlineFunctionDeclaration (opening :: params ++ [closing, result])

/-- A type. -/
def typeReference : Rule Token RawNode := do
  match ← peek with
  | some .typeName => leaf Kind.typeIdentifier
  | some .openBrace => return .branch Kind.typeIdentifier [← inlineFunctionDeclaration below]
  | _ => fail ["type identifier"]

/-! ## Operands -/

/-- What binary operators join, and all that they join it with. -/
def simpleExpression : Rule Token RawNode := operators.expression below.unary

/-- Values in brackets. -/
def arrayLiteral : Rule Token RawNode := do
  let opening ← leaf Kind.openBracket
  let values ← repeatWhile (fun s => !s.isAt .closeBracket && !s.atEnd) do
    return [← simpleExpression below]
  let closing ← expect .closeBracket Kind.closeBracket "`]`"
  return .branch Kind.arrayLiteral (opening :: values ++ [closing])

/-- An expression in parentheses. -/
def parenthisedExpression : Rule Token RawNode := do
  let opening ← leaf Kind.openParen
  let expression ← below.expression
  let closing ← expect .closeParen Kind.closeParen "`)`"
  return .branch Kind.parenthisedExpression [opening, expression, closing]

/-- A number, with or without a fraction. -/
def numberLiteral : Rule Token RawNode := numeral Kind.floatLiteral Kind.intLiteral

/-- An operand. -/
def primary : Rule Token RawNode := do
  match ← peek with
  | some .number => numberLiteral
  | some .string => leaf Kind.stringLiteral
  | some .trueKeyword => leaf Kind.trueLiteral
  | some .falseKeyword => leaf Kind.falseLiteral
  | some .fieldName => leaf Kind.fieldIdentifier
  | some .openBracket => arrayLiteral below
  | some .openParen => parenthisedExpression below
  | _ => fail ["expression"]

/-- An operand, perhaps with an operator in front. -/
def signed : Rule Token RawNode := signs.signed (primary below) below.unary

/-! ## Expressions -/

/-- A name with its value. -/
def paramDefinition : Rule Token RawNode := do
  let name ← fieldIdentifier
  let colon ← colon
  let value ← simpleExpression below
  return .branch Kind.paramDefinition
    [name.withField Field.name, colon, value.withField Field.value]

/-- Arguments, if there are any. -/
def callParams : Rule Token (List RawNode) := do
  if ← ask atNamedParam then
    let params ← repeatWhile atNamedParam do return [← paramDefinition below]
    return [(RawNode.branch Kind.paramListCall params).withField Field.params]
  else return []

/-- A field or a type with arguments. -/
def callExpression : Rule Token RawNode := do
  let callee ←
    if ← ask (·.isAt .fieldName) then leaf Kind.fieldIdentifier else below.typeIdentifier
  let params ← callParams below
  return .branch Kind.callExpression (callee.withField Field.callee :: params)

/-- What follows a parenthesised expression that begins a step. -/
def afterParens (parens : RawNode) : Rule Token RawNode := do
  if ← ask (·.isAt .caret) then
    let caret ← leaf Kind.caret
    return .branch Kind.loopedExpression [parens, caret]
  else operators.extend below.unary parens

/-- A call, or a simple or looped expression. -/
def branchBody : Rule Token RawNode := do
  if ← ask atCall then callExpression below
  else if ← ask (·.isAt .openParen) then
    let parens ← parenthisedExpression below
    afterParens below parens
  else simpleExpression below

/-- A capture between bars, and what to do with it. -/
def subpipeBranch : Rule Token RawNode := do
  let opening ← leaf Kind.pipe
  let capture ← below.expression
  let closing ← expect .pipe Kind.pipe "`|`"
  let body ← branchBody below
  return .branch Kind.subpipeBranchExpression
    [opening, capture.withField Field.captureGroup, closing, body.withField Field.subpipe]

/-- Whether another branch follows after a comma. -/
def atNextBranch (s : TokenStream Token) : Bool :=
  s.isAt .comma && s.peekNth 1 == some .pipe

/-- The default after the last branch, if there is one. -/
def subpipeDefault : Rule Token (List RawNode) := do
  if ← ask (·.isAt .comma) then
    let comma ← leaf Kind.comma
    let default ← if ← ask atCall then callExpression below else simpleExpression below
    return [comma, default]
  else return []

/-- Branches with commas between, and perhaps a default. -/
def subpipeExpression : Rule Token RawNode := do
  let first ← subpipeBranch below
  let more ← repeatWhile atNextBranch do
    let comma ← leaf Kind.comma
    return [comma, ← subpipeBranch below]
  let default ← subpipeDefault below
  return .branch Kind.subpipeExpression (first :: more ++ default)

/-- A step of an expression. -/
def pipeOperand : Rule Token RawNode := do
  if ← ask (·.isAt .pipe) then subpipeExpression below else branchBody below

/-- Steps with semicolons between, grouped to the left. -/
def pipeChain : Rule Token RawNode := do
  let first ← pipeOperand below
  growWhile (fun s => if s.isAt .semicolon then some () else none) (fun _ left => do
    let semicolon ← leaf Kind.semicolon
    let right ← pipeOperand below
    return .branch Kind.pipeExpression
      [left.withField Field.left, semicolon, right.withField Field.right]) first

end Rules

/-! ## Levels -/

/-- The rules with room for a number of levels. -/
def level : Nat → Below :=
  Nested.level fun below => ⟨pipeChain below, typeReference below, signed below⟩

/-- The rules at the top. -/
def top : Below := level maxNesting

/-! ## Statements -/

/-- The dot that ends a declaration; nothing may follow it on its line. -/
def declarationEnd : Rule Token RawNode := do
  if ← ask (fun s => s.isAt .dot && s.advance.atLineStart) then leaf Kind.dot
  else fail ["`.` at the end of a line"]

/-- Named types, if there are any. -/
def declaredParams : Rule Token (List RawNode) := do
  if ← ask atNamedParam then return [(← paramList top).withField Field.params] else return []

/-- A declaration of a type or a contract. -/
def declaration (kind keyword : Kind) : Rule Token RawNode := do
  let keyword ← leaf keyword
  let name ← top.typeIdentifier
  let params ← declaredParams
  return .branch kind (keyword :: name.withField Field.name :: params)

/-- The type that a function belongs to, if it is given. -/
def onType : Rule Token (List RawNode) := do
  if ← ask atType then return [(← top.typeIdentifier).withField Field.onType] else return []

/-- A declaration of a function. -/
def functionDeclaration : Rule Token RawNode := do
  let keyword ← leaf Kind.funcKeyword
  let onType ← onType
  let name ← fieldIdentifier
  let params ← declaredParams
  let result ← top.typeIdentifier
  let body ← top.expression
  return .branch Kind.functionDeclaration (keyword :: onType ++ name.withField Field.name ::
    params ++ [result.withField Field.result, body.withField Field.body])

/-- A declaration and its end. -/
def ended (declaration : Rule Token RawNode) : Rule Token (List RawNode) := do
  let declaration ← declaration
  let ending ← declarationEnd
  return [declaration, ending]

/-- A declaration or an expression. -/
def statement : Rule Token (List RawNode) := do
  match ← peek with
  | some .typeKeyword => ended (declaration .typeDeclaration .typeKeyword)
  | some .contractKeyword => ended (declaration .contractDeclaration .contractKeyword)
  | some .funcKeyword => ended functionDeclaration
  | _ => return [← top.expression]

/-- A broken statement ends at the end of a line. If it is a declaration, its last token is
    a dot, or a declaration begins on the next line. -/
def recover (s : TokenStream Token) : List RawNode × TokenStream Token :=
  let stop := fun token (s' : TokenStream Token) =>
    s'.atLineStart && (token == Token.dot || !atDeclaration s || atDeclaration s')
  let (span, rest) := s.skipUntil stop
  ([.error span []], rest)

/-- The grammar. -/
def grammar : Grammar Token where
  lexicon := lexicon
  statement := statement
  recover := recover
  root := Kind.sourceFile
  comment := Kind.comment

end GrammarTools.Simpl
