import GrammarTools.Proofs.Peopl.Parallel
import GrammarTools.Proofs.Tracing

/-!
# Traced rules of PeoPl

The rules of PeoPl as traced rules, each under the name of the rule it traces.
Rules that only spare others a few lines are not called by a name, and a row of
parameters or arguments is called only where there is one.

Levels are counted by `nested`. Those of `Traced.level` are there to bound the
recursion, and as there is one more of them than rules may be nested they never
run out (`top_isTracedBy`).
-/

namespace GrammarTools.Peopl

namespace Traced

open GrammarTools.Traced

/-- The traced rules that may stand inside themselves. -/
abbrev Below := GrammarTools.Traced.Nested Token

section Rules

variable (below : Below)

def argumentName : Traced Token RawNode := call "argumentName" do
  if ← ask atArgumentName then leaf Kind.argumentName else fail ["argument name"]

def colon : Traced Token RawNode := expect .colon Kind.colon "`:`"

def optionalComma : Traced Token (List RawNode) := do
  if ← ask (·.isAt .comma) then return [← leaf Kind.comma] else return []

/-! ## Types -/

def typeIdentifiers : Traced Token (List RawNode) := call "typeIdentifiers" do
  let first ← below.typeIdentifier
  let more ← repeatWhile (·.isAt .comma) do
    let comma ← leaf Kind.comma
    return [comma, ← below.typeIdentifier]
  return first :: more

def typeArguments : Traced Token RawNode := call "typeArguments" do
  let opening ← leaf Kind.less
  let types ← typeIdentifiers below
  let closing ← expect .greater Kind.greater "`>`"
  return .branch Kind.typeArguments (opening :: types ++ [closing])

def flatNominalType : Traced Token RawNode := call "flatNominalType" do
  let name ← expect .typeName Kind.typeName "type name"
  let name := name.withField Field.typeName
  if ← ask (·.isAt .less) then
    let arguments ← typeArguments below
    return .branch Kind.flatNominalType [name, arguments.withField Field.typeArguments]
  else return .branch Kind.flatNominalType [name]

def nominalType : Traced Token RawNode := call "nominalType" do
  let first ← flatNominalType below
  let more ← repeatWhile (·.isAt .colonColon) do
    let colons ← leaf Kind.colonColon
    return [colons, ← flatNominalType below]
  return .branch Kind.nominalType (first :: more)

def tupleStructuralType : Traced Token RawNode := call "tupleStructuralType" do
  let opening ← leaf Kind.openBracket
  let types ← typeIdentifiers below
  let closing ← expect .closeBracket Kind.closeBracket "`]`"
  return .branch Kind.tupleStructuralType (opening :: types ++ [closing])

def inputTypes : Traced Token (List RawNode) := do
  if ← ask (·.isAt .closeBrace) then return []
  else return (← typeIdentifiers below).map (·.withField Field.inputType)

def lambdaStructuralType : Traced Token RawNode := call "lambdaStructuralType" do
  let opening ← leaf Kind.openBrace
  let inputs ← inputTypes below
  let closing ← expect .closeBrace Kind.closeBrace "`\x7d`"
  let arrow ← expect .arrow Kind.arrow "`->`"
  let result ← below.typeIdentifier
  return .branch Kind.lambdaStructuralType
    (opening :: inputs ++ [closing, arrow, result.withField Field.returnType])

def typeReference : Traced Token RawNode := call "typeReference" do
  let inner ← match ← peek with
    | some .nothingKeyword => leaf Kind.nothing
    | some .neverKeyword => leaf Kind.never
    | some .typeName => nominalType below
    | some .openBrace => lambdaStructuralType below
    | some .openBracket => tupleStructuralType below
    | _ => fail ["type"]
  return .branch Kind.typeIdentifier [inner]

/-! ## Operands -/

def simpleExpression : Traced Token RawNode :=
  call "simpleExpression" (extended operators below.unary)

def tupleLiteral : Traced Token RawNode := call "tupleLiteral" do
  let opening ← leaf Kind.openBracket
  let first ← below.expression
  let more ← repeatWhile (·.isAt .comma) do
    let comma ← leaf Kind.comma
    return [comma, ← below.expression]
  let closing ← expect .closeBracket Kind.closeBracket "`]`"
  return .branch Kind.tupleLiteral (opening :: first :: more ++ [closing])

def parenthisizedExpression : Traced Token RawNode := call "parenthisizedExpression" do
  let opening ← leaf Kind.openParen
  let expression ← below.expression
  let closing ← expect .closeParen Kind.closeParen "`)`"
  return .branch Kind.parenthisizedExpression [opening, expression, closing]

def lambdaExpression : Traced Token RawNode := call "lambdaExpression" do
  let opening ← leaf Kind.openBrace
  let expression ← below.expression
  let closing ← expect .closeBrace Kind.closeBrace "`\x7d`"
  return .branch Kind.lambdaExpression [opening, expression, closing]

def numberLiteral : Traced Token RawNode := numeral Kind.floatLiteral Kind.intLiteral

def boolLiteral (kind : Kind) : Traced Token RawNode := call "boolLiteral" do
  return .branch Kind.boolLiteral [← leaf kind]

def typeOperand (mayStandAlone : Bool) : Traced Token RawNode := do
  let type ← nominalType below
  if ← ask (fun s => mayStandAlone || s.isAt .openParen || s.isAt .dot) then return type
  else fail ["`(`", "`.`"]

def primary (bareType : Bool) : Traced Token RawNode := call "primary" do
  match ← peek with
  | some .nothingKeyword => leaf Kind.nothing
  | some .neverKeyword => leaf Kind.never
  | some .number => numberLiteral
  | some .string => leaf Kind.stringLiteral
  | some .trueKeyword => boolLiteral .trueKeyword
  | some .falseKeyword => boolLiteral .falseKeyword
  | some .argumentName | some .underscore => leaf Kind.argumentName
  | some .openBracket => tupleLiteral below
  | some .openParen => parenthisizedExpression below
  | some .openBrace => lambdaExpression below
  | some .typeName => typeOperand below bareType
  | _ => fail ["expression"]

def callParam : Traced Token RawNode := do
  let name ← argumentName
  let colon ← colon
  let value ← simpleExpression below
  let comma ← optionalComma
  return .branch Kind.callParam
    (name.withField Field.name :: colon :: value.withField Field.value :: comma)

def callParams : Traced Token (List RawNode) := do
  if ← ask atNamedParam then
    let params ← call "callParams" (repeatWhile atNamedParam do return [← callParam below])
    return [(RawNode.branch Kind.callParamList params).withField Field.params]
  else return []

def withSuffix : Suffix → RawNode → Traced Token RawNode
  | .call, operand => do
    let opening ← leaf Kind.openParen
    let params ← callParams below
    let closing ← expect .closeParen Kind.closeParen "`)`"
    return .branch Kind.callExpression
      (operand.withField Field.command :: opening :: params ++ [closing])
  | .access, operand => do
    let dot ← leaf Kind.dot
    let name ← argumentName
    return .branch Kind.accessExpression [operand, dot, name]

def withSuffixes (operand : RawNode) : Traced Token RawNode :=
  call "withSuffixes" (growWhile suffix? (withSuffix below) operand)

def suffixed (bareType : Bool) : Traced Token RawNode := do
  let operand ← primary below bareType
  withSuffixes below operand

def signed : Traced Token RawNode :=
  call "signed" (signedBy signs (suffixed below false) below.unary)

/-! ## Expressions -/

def firstCapture : Traced Token RawNode := do
  if ← ask (·.isAt .typeName) then
    let operand ← suffixed below true
    extend operators below.unary operand
  else simpleExpression below

def captureGroup : Traced Token RawNode := call "captureGroup" do
  let first ← firstCapture below
  let more ← repeatWhile (·.isAt .comma) do
    let comma ← leaf Kind.comma
    return [comma, ← simpleExpression below]
  return .branch Kind.captureGroup (first :: more)

def afterParens (parens : RawNode) : Traced Token RawNode := do
  if ← ask (·.isAt .caret) then
    let caret ← leaf Kind.caret
    return .branch Kind.loopedExpression [parens, caret]
  else
    let operand ← withSuffixes below parens
    extend operators below.unary operand

def branchBody : Traced Token RawNode := call "branchBody" do
  if ← ask (·.isAt .openParen) then
    let parens ← parenthisizedExpression below
    afterParens below parens
  else simpleExpression below

def branchExpression : Traced Token RawNode := call "branchExpression" do
  let opening ← leaf Kind.pipe
  let captures ← captureGroup below
  let closing ← expect .pipe Kind.pipe "`|`"
  let body ← branchBody below
  return .branch Kind.branchExpression
    [opening, captures.withField Field.captureGroup, closing, body.withField Field.body]

def branchDefault : Traced Token (List RawNode) := do
  if ← ask (·.isAt .comma) then
    let comma ← leaf Kind.comma
    return [comma, ← simpleExpression below]
  else return []

def branchedExpression : Traced Token RawNode := call "branchedExpression" do
  let first ← branchExpression below
  let more ← repeatWhile atNextBranch do
    let comma ← leaf Kind.comma
    return [comma, ← branchExpression below]
  let default ← branchDefault below
  return .branch Kind.branchedExpression (first :: more ++ default)

def pipeOperand : Traced Token RawNode := call "pipeOperand" do
  if ← ask (·.isAt .pipe) then branchedExpression below else simpleExpression below

def pipeChain : Traced Token RawNode := call "pipeChain" do
  let first ← pipeOperand below
  growWhile pipeKind? (fun kind left => do
    let token ← leaf kind
    let right ← pipeOperand below
    return .branch Kind.pipedExpression
      [left.withField Field.left,
        (RawNode.branch Kind.pipeOperator [token]).withField Field.operator,
        right.withField Field.right]) first

end Rules

/-! ## Levels -/

/-- The traced rules with a number of levels. -/
def level : Nat → Below :=
  GrammarTools.Traced.Nested.level fun below => ⟨pipeChain below, typeReference below, signed below⟩

/-- The traced rules at the top. -/
def top : Below := level (maxNesting + 1)

/-! ## Statements -/

def defaultValue : Traced Token (List RawNode) := do
  if ← ask (·.isAt .openParen) then
    let opening ← leaf Kind.openParen
    let value ← simpleExpression top
    let closing ← expect .closeParen Kind.closeParen "`)`"
    return [opening, value.withField Field.defaultValue, closing]
  else return []

def paramDefinition : Traced Token RawNode := call "paramDefinition" do
  let name ← argumentName
  let colon ← colon
  let type ← top.typeIdentifier
  let value ← defaultValue
  let comma ← optionalComma
  return .branch Kind.paramDefinition
    (name.withField Field.name :: colon :: type.withField Field.type :: value ++ comma)

def paramList : Traced Token (List RawNode) := do
  if ← ask atNamedParam then
    let params ← call "paramList" (repeatWhile atNamedParam do return [← paramDefinition])
    return [(RawNode.branch Kind.paramList params).withField Field.params]
  else return []

def simpleTypeDefinition (name : RawNode) : Traced Token RawNode := call "simpleTypeDefinition" do
  let params ← paramList
  return .branch Kind.simpleTypeDefinition (name.withField Field.name :: params)

def enumTypeDefinition (name : RawNode) : Traced Token RawNode := do
  let cases ← repeatWhile (·.isAt .typeName) do
    let caseName ← nominalType top
    let case ← simpleTypeDefinition caseName
    return [case.withField Field.caseType]
  return .branch Kind.enumTypeDefinition (name.withField Field.metaType :: cases)

def typeDefinition : Traced Token RawNode := call "typeDefinition" do
  let keyword ← leaf Kind.typeKeyword
  let name ← nominalType top
  let definition ←
    if ← ask (·.isAt .typeName) then enumTypeDefinition name else simpleTypeDefinition name
  return .branch Kind.typeDefinition [keyword, definition]

def firstModule : Traced Token (List RawNode) := do
  if ← ask (·.isAt .typeName) then return [← nominalType top] else return []

def namespaceState : Traced Token RawNode := call "namespaceState" do
  let keyword ← leaf Kind.namespaceKeyword
  let opening ← expect .openBracket Kind.openBracket "`[`"
  let first ← firstModule
  let more ← repeatWhile (·.isAt .comma) do
    let comma ← leaf Kind.comma
    return [comma, ← nominalType top]
  let closing ← expect .closeBracket Kind.closeBracket "`]`"
  return .branch Kind.namespaceState (keyword :: opening :: first ++ more ++ [closing])

def constantsStatement (scope : List RawNode) : Traced Token RawNode := call "constantsStatement" do
  let name ← argumentName
  let equals ← expect .equals Kind.equals "`=`"
  let value ← simpleExpression top
  return .branch Kind.constantsStatement (scope ++ [name, equals, value])

def inputType : Traced Token (List RawNode) := do
  if ← ask (·.isAt .openParen) then
    let opening ← leaf Kind.openParen
    let type ← top.typeIdentifier
    let closing ← expect .closeParen Kind.closeParen "`)`"
    return [opening, type.withField Field.inputType, closing]
  else return []

def functionScope : Traced Token (List RawNode) := do
  if ← ask (·.isAt .typeName) then
    let type ← nominalType top
    let dot ← expect .dot Kind.dot "`.`"
    return [type.withField Field.scope, dot.withField Field.scope]
  else return []

def functionDefinition : Traced Token RawNode := call "functionDefinition" do
  let keyword ← leaf Kind.funcKeyword
  let input ← inputType
  let scope ← functionScope
  let name ← argumentName
  let opening ← expect .openParen Kind.openParen "`(`"
  let params ← paramList
  let closing ← expect .closeParen Kind.closeParen "`)`"
  let arrow ← expect .fatArrow Kind.fatArrow "`=>`"
  let output ← top.typeIdentifier
  let body ← top.expression
  return .branch Kind.functionDefinition
    (keyword :: input ++ scope ++ name.withField Field.name :: opening.withField Field.params ::
      params ++ [closing.withField Field.params, arrow, output.withField Field.outputType,
        body.withField Field.body])

def scopedStatement : Traced Token RawNode := do
  let type ← nominalType top
  match ← peek with
  | some .equals =>
    let equals ← leaf Kind.equals
    let implementation ← nominalType top
    return .branch Kind.implementationStatement [type, equals, implementation]
  | some .dot =>
    let dot ← leaf Kind.dot
    constantsStatement [type, dot]
  | _ => fail ["`=`", "`.`"]

def openStatement : Traced Token RawNode := call "openStatement" do
  match ← peek with
  | some .namespaceKeyword => namespaceState
  | some .typeKeyword => typeDefinition
  | some .funcKeyword => functionDefinition
  | some .typeName => scopedStatement
  | some .argumentName | some .underscore => constantsStatement []
  | _ => fail ["statement"]

def statement : Traced Token (List RawNode) := call "statement" do
  let statement ← openStatement
  let ending ← expect .dotDot Kind.dotDot "`..`"
  return [statement, ending]

end Traced

/-! ## Rules that are traced -/

open TokenStream
open GrammarTools.Traced (Traces)

variable {s : TokenStream Token} {depth : Nat}

theorem atEnd_of_atArgumentName (h : atArgumentName s = true) : s.atEnd = false := by
  obtain ⟨t, -, hp⟩ := peek_of_atArgumentName h
  exact atEnd_of_peek hp

/-- An argument name is one token or an error, so what reads it moves on. -/
theorem argumentName_traces : Traces true depth Traced.argumentName argumentName s :=
  .call (.ite (fun hs => .leaf (atEnd_of_atArgumentName hs)) fun _ => .fail)

/-- A colon that is missing is an error, so what asks for it moves on. -/
theorem colon_traces : Traces true depth Traced.colon colon s := .expect

/-- A comma may be left out, so nothing is said to move on. -/
theorem optionalComma_traces : Traces false depth Traced.optionalComma optionalComma s := by
  refine .ite (fun hs => ?_) fun _ => .pure _
  exact .bind (.leaf (atEnd_of_isAt hs)) fun _ _ => .pure _

/-- Parts of a row, each with a mark in front of it. -/
theorem marked_traces {mark : Token} {kind : KindId} {traced : Traced Token RawNode}
    {part : Rule Token RawNode} (h : ∀ s, Traces true depth traced part s) :
    Traces false depth
      (Traced.repeatWhile (·.isAt mark) do
        let mark ← Traced.leaf kind
        return [mark, ← traced])
      (Rule.repeatWhile (·.isAt mark) do
        let mark ← Rule.leaf kind
        return [mark, ← part]) s :=
  .repeatWhile isAt_of_end fun hs => .marked (atEnd_of_isAt hs) (h _)

section Rules

variable {below : Below} {traced : Traced.Below} (hb : below.IsTracedBy depth traced)
include hb

/-! ### Types -/

/-- Types between commas move on by the first of them. -/
theorem typeIdentifiers_traces :
    Traces true depth (Traced.typeIdentifiers traced) (typeIdentifiers below) s := by
  refine .call (.bind (hb.typeIdentifier _) fun _ _ => ?_)
  exact .bind (marked_traces hb.typeIdentifier) fun _ _ => .pure _

/-- Type arguments are only read behind an angle bracket, which is then taken. -/
theorem typeArguments_traces (hs : s.isAt .less = true) :
    Traces true depth (Traced.typeArguments traced) (typeArguments below) s := by
  refine .call (.bind (.leaf (atEnd_of_isAt hs)) fun _ _ => ?_)
  refine .bind (typeIdentifiers_traces hb) fun _ _ => ?_
  exact .bind .expect fun _ _ => .pure _

/-- The name of a type is asked for whatever comes next; type arguments are traced only where they
    stand. -/
theorem flatNominalType_traces (s : TokenStream Token) :
    Traces true depth (Traced.flatNominalType traced) (flatNominalType below) s := by
  refine .call (.bind .expect fun _ _ => ?_)
  refine .ite (fun hs => ?_) fun _ => .pure _
  exact .bind (typeArguments_traces hb hs) fun _ _ => .pure _

/-- A nominal type moves on by its first name, and each further round by its double colon. -/
theorem nominalType_traces (s : TokenStream Token) :
    Traces true depth (Traced.nominalType traced) (nominalType below) s := by
  refine .call (.bind (flatNominalType_traces hb s) fun _ _ => ?_)
  exact .bind (marked_traces (flatNominalType_traces hb)) fun _ _ => .pure _

/-- The bracket in front is taken, and the types behind it are one level down. -/
theorem tupleStructuralType_traces (hs : s.isAt .openBracket = true) :
    Traces true depth (Traced.tupleStructuralType traced) (tupleStructuralType below) s := by
  refine .call (.bind (.leaf (atEnd_of_isAt hs)) fun _ _ => ?_)
  refine .bind (typeIdentifiers_traces hb) fun _ _ => ?_
  exact .bind .expect fun _ _ => .pure _

/-- There may be no types of inputs, where the closing brace stands. -/
theorem inputTypes_traces :
    Traces false depth (Traced.inputTypes traced) (inputTypes below) s := by
  refine .ite (fun _ => .pure _) fun _ => ?_
  exact .bind (typeIdentifiers_traces hb) fun _ _ => .pure _

/-- A function type moves on by its brace, and its result is one level down. -/
theorem lambdaStructuralType_traces (hs : s.isAt .openBrace = true) :
    Traces true depth (Traced.lambdaStructuralType traced) (lambdaStructuralType below) s := by
  refine .call (.bind (.leaf (atEnd_of_isAt hs)) fun _ _ => ?_)
  refine .bind (inputTypes_traces hb) fun _ _ => ?_
  refine .bind .expect fun _ _ => ?_
  refine .bind .expect fun _ _ => ?_
  exact .bind (hb.typeIdentifier _) fun _ _ => .pure _

/-- Each token that begins a type picks a rule that takes it, and any other token is an error. -/
theorem typeReference_traces :
    Traces true depth (Traced.typeReference traced) (typeReference below) s := by
  refine .call (.peek ?_)
  cases hp : s.peek with
  | none => exact .bind .fail fun _ _ => .pure _
  | some t =>
    have hend := atEnd_of_peek hp
    have hat := isAt_of_peek hp
    cases t with
    | nothingKeyword | neverKeyword => exact .bind (.leaf hend) fun _ _ => .pure _
    | typeName => exact .bind (nominalType_traces hb s) fun _ _ => .pure _
    | openBrace => exact .bind (lambdaStructuralType_traces hb hat) fun _ _ => .pure _
    | openBracket => exact .bind (tupleStructuralType_traces hb hat) fun _ _ => .pure _
    | _ => exact .bind .fail fun _ _ => .pure _

/-! ### Operands -/

/-- A simple expression moves on by its first operand; operators may be missing. -/
theorem simpleExpression_traces (s : TokenStream Token) :
    Traces true depth (Traced.simpleExpression traced) (simpleExpression below) s :=
  .call (.extended hb.unary)

/-- The values of a tuple are expressions, each of them one level down. -/
theorem tupleLiteral_traces (hs : s.isAt .openBracket = true) :
    Traces true depth (Traced.tupleLiteral traced) (tupleLiteral below) s := by
  refine .call (.bind (.leaf (atEnd_of_isAt hs)) fun _ _ => ?_)
  refine .bind (hb.expression _) fun _ _ => ?_
  refine .bind (marked_traces hb.expression) fun _ _ => ?_
  exact .bind .expect fun _ _ => .pure _

/-- Parentheses move on by the first of them, and the expression is one level down. -/
theorem parenthisizedExpression_traces (hs : s.isAt .openParen = true) :
    Traces true depth (Traced.parenthisizedExpression traced)
      (parenthisizedExpression below) s := by
  refine .call (.bind (.leaf (atEnd_of_isAt hs)) fun _ _ => ?_)
  refine .bind (hb.expression _) fun _ _ => ?_
  exact .bind .expect fun _ _ => .pure _

/-- An expression in braces is traced as one in parentheses is. -/
theorem lambdaExpression_traces (hs : s.isAt .openBrace = true) :
    Traces true depth (Traced.lambdaExpression traced) (lambdaExpression below) s := by
  refine .call (.bind (.leaf (atEnd_of_isAt hs)) fun _ _ => ?_)
  refine .bind (hb.expression _) fun _ _ => ?_
  exact .bind .expect fun _ _ => .pure _

omit hb in
/-- A truth value is a single token, which is only read where it stands. -/
theorem boolLiteral_traces {kind : Kind} (hs : s.atEnd = false) :
    Traces true depth (Traced.boolLiteral kind) (boolLiteral kind) s :=
  .call (.bind (.leaf hs) fun _ _ => .pure _)

/-- A type that may not stand alone is an error, so there is no call to trace in that case. -/
theorem typeOperand_traces (mayStandAlone : Bool) :
    Traces true depth (Traced.typeOperand traced mayStandAlone)
      (typeOperand below mayStandAlone) s := by
  refine .bind (nominalType_traces hb s) fun _ _ => ?_
  exact .ite (fun _ => .pure _) fun _ => .weaken .fail

/-- An operand is picked by the next token alone, so each case knows that a token is left. -/
theorem primary_traces (bareType : Bool) :
    Traces true depth (Traced.primary traced bareType) (primary below bareType) s := by
  refine .call (.peek ?_)
  cases hp : s.peek with
  | none => exact .fail
  | some t =>
    have hend := atEnd_of_peek hp
    have hat := isAt_of_peek hp
    cases t with
    | nothingKeyword | neverKeyword | string | argumentName | underscore => exact .leaf hend
    | number => exact .numeral hend
    | trueKeyword | falseKeyword => exact boolLiteral_traces hend
    | openBracket => exact tupleLiteral_traces hb hat
    | openParen => exact parenthisizedExpression_traces hb hat
    | openBrace => exact lambdaExpression_traces hb hat
    | typeName => exact typeOperand_traces hb bareType
    | _ => exact .fail

/-- An argument moves on by its name; the comma behind it may be missing. -/
theorem callParam_traces :
    Traces true depth (Traced.callParam traced) (callParam below) s := by
  refine .bind argumentName_traces fun _ _ => ?_
  refine .bind colon_traces fun _ _ => ?_
  refine .bind (simpleExpression_traces hb _) fun _ _ => ?_
  exact .bind optionalComma_traces fun _ _ => .pure _

/-- Arguments are read only while a name and a colon follow, so each round takes a token. -/
theorem callParams_traces : Traces false depth (Traced.callParams traced) (callParams below) s := by
  refine .ite (fun hs => ?_) fun _ => .pure _
  refine .bind (.call (.repeatEach_of_sign atNamedParam_of_end (fun _ => callParam_traces hb) hs))
    fun _ _ => ?_
  exact .pure _

/-- A suffix shows by its first token, which is taken in either case. -/
theorem withSuffix_traces {suffix : Suffix} (hs : suffix? s = some suffix) (operand : RawNode) :
    Traces true depth (Traced.withSuffix traced suffix operand)
      (withSuffix below suffix operand) s := by
  rcases exists_peek_of_suffix? hs with ⟨rfl, hat⟩ | ⟨rfl, hat⟩
  · refine .bind (.leaf (atEnd_of_isAt hat)) fun _ _ => ?_
    refine .bind (callParams_traces hb) fun _ _ => ?_
    exact .bind .expect fun _ _ => .pure _
  · refine .bind (.leaf (atEnd_of_isAt hat)) fun _ _ => ?_
    exact .bind argumentName_traces fun _ _ => .pure _

/-- There may be no suffix at all, but each one that is read moves on. -/
theorem withSuffixes_traces (operand : RawNode) :
    Traces false depth (Traced.withSuffixes traced operand) (withSuffixes below operand) s :=
  .call_continuing (.iterate (fun hs => by simp [suffix?, peek, peekNth, hs])
    (fun _ _ _ hs => withSuffix_traces hb hs _) operand) (by decide)

/-- An operand moves on by itself; its suffixes need not. -/
theorem suffixed_traces (bareType : Bool) :
    Traces true depth (Traced.suffixed traced bareType) (suffixed below bareType) s :=
  .bind (primary_traces hb bareType) fun operand _ => withSuffixes_traces hb operand

/-- With or without signs, an operand moves on. -/
theorem signed_traces : Traces true depth (Traced.signed traced) (signed below) s :=
  .call (.signedBy (suffixed_traces hb false) hb.unary)

/-! ### Expressions -/

/-- A first capture moves on, whether it begins with a type or not. -/
theorem firstCapture_traces :
    Traces true depth (Traced.firstCapture traced) (firstCapture below) s := by
  refine .ite (fun _ => ?_) fun _ => simpleExpression_traces hb s
  exact .bind (suffixed_traces hb true) fun _ _ => .extend hb.unary _

/-- Captures move on by the first of them, and each further round by its comma. -/
theorem captureGroup_traces :
    Traces true depth (Traced.captureGroup traced) (captureGroup below) s := by
  refine .call (.bind (firstCapture_traces hb) fun _ _ => ?_)
  exact .bind (marked_traces (simpleExpression_traces hb)) fun _ _ => .pure _

/-- Behind parentheses there may be a caret, suffixes, operators, or nothing. -/
theorem afterParens_traces (parens : RawNode) :
    Traces false depth (Traced.afterParens traced parens) (afterParens below parens) s := by
  refine .ite (fun hs => ?_) fun _ => ?_
  · exact .bind (.leaf (atEnd_of_isAt hs)) fun _ _ => .pure _
  · exact .bind (withSuffixes_traces hb parens) fun _ _ => .extend hb.unary _

/-- A body moves on by its parentheses or by its first operand. -/
theorem branchBody_traces :
    Traces true depth (Traced.branchBody traced) (branchBody below) s := by
  refine .call ?_
  refine .ite (fun hs => ?_) fun _ => simpleExpression_traces hb s
  exact .bind (parenthisizedExpression_traces hb hs) fun _ _ => afterParens_traces hb _

/-- A branch is only tried where a bar stands, which is then its first token. -/
theorem branchExpression_traces (hs : s.isAt .pipe = true) :
    Traces true depth (Traced.branchExpression traced) (branchExpression below) s := by
  refine .call (.bind (.leaf (atEnd_of_isAt hs)) fun _ _ => ?_)
  refine .bind (captureGroup_traces hb) fun _ _ => ?_
  refine .bind .expect fun _ _ => ?_
  exact .bind (branchBody_traces hb) fun _ _ => .pure _

/-- Another branch moves on by its comma. -/
theorem nextBranch_traces (hs : atNextBranch s = true) :
    Traces true depth
      (do
        let comma ← Traced.leaf Kind.comma
        return [comma, ← Traced.branchExpression traced])
      (do
        let comma ← Rule.leaf Kind.comma
        return [comma, ← branchExpression below]) s := by
  obtain ⟨hcomma, hpipe⟩ := atNextBranch_iff.1 hs
  -- The branch can only begin behind this comma because the sign has looked two tokens ahead.
  exact .marked (atEnd_of_peek hcomma) (branchExpression_traces hb (isAt_of_peek hpipe))

/-- Without a comma there is no default, and nothing is taken. -/
theorem branchDefault_traces :
    Traces false depth (Traced.branchDefault traced) (branchDefault below) s := by
  refine .ite (fun hs => ?_) fun _ => .pure _
  refine .bind (.leaf (atEnd_of_isAt hs)) fun _ _ => ?_
  exact .bind (simpleExpression_traces hb _) fun _ _ => .pure _

/-- Branches move on by the first of them. -/
theorem branchedExpression_traces (hs : s.isAt .pipe = true) :
    Traces true depth (Traced.branchedExpression traced) (branchedExpression below) s := by
  refine .call (.bind (branchExpression_traces hb hs) fun _ _ => ?_)
  refine .bind (.repeatWhile (fun hs => by simp [atNextBranch, isAt_of_end hs])
    (nextBranch_traces hb)) fun _ _ => ?_
  exact .bind (branchDefault_traces hb) fun _ _ => .pure _

/-- A step moves on, whether it is made of branches or not. -/
theorem pipeOperand_traces :
    Traces true depth (Traced.pipeOperand traced) (pipeOperand below) s :=
  .call (.ite (branchedExpression_traces hb) fun _ => simpleExpression_traces hb s)

/-- A chain moves on by its first step, and each further round by its semicolon or question mark. -/
theorem pipeChain_traces :
    Traces true depth (Traced.pipeChain traced) (pipeChain below) s := by
  refine .call (.bind (pipeOperand_traces hb) fun _ _ =>
    .iterate (fun hs => by simp [pipeKind?, peek, peekNth, hs]) (fun s kind left hs => ?_) _)
  obtain ⟨t, hat, -⟩ := exists_peek_of_pipeKind? hs
  refine .bind (.leaf (atEnd_of_isAt hat)) fun _ _ => ?_
  exact .bind (pipeOperand_traces hb) fun _ _ => .pure _

end Rules

/-! ### Levels -/

/-- The levels of the rules and of the traced rules are made of the same parts, so that the parts
    being traced suffices. -/
theorem level_isTracedBy {n : Nat} (hn : depth + n = maxNesting) :
    (level n).IsTracedBy depth (Traced.level (n + 1)) :=
  Nested.level_isTracedBy (fun hb => ⟨fun _ => pipeChain_traces hb,
    fun _ => typeReference_traces hb, fun _ => signed_traces hb⟩) hn

/-- At the top no level is taken yet, and all are left. -/
theorem top_isTracedBy : top.IsTracedBy 0 Traced.top := level_isTracedBy (Nat.zero_add _)

/-! ### Statements -/

/-- A default value stands in parentheses, or is left out. -/
theorem defaultValue_traces : Traces false 0 Traced.defaultValue defaultValue s := by
  refine .ite (fun hs => ?_) fun _ => .pure _
  refine .bind (.leaf (atEnd_of_isAt hs)) fun _ _ => ?_
  refine .bind (simpleExpression_traces top_isTracedBy _) fun _ _ => ?_
  exact .bind .expect fun _ _ => .pure _

/-- A parameter moves on by its name. -/
theorem paramDefinition_traces : Traces true 0 Traced.paramDefinition paramDefinition s := by
  refine .call (.bind argumentName_traces fun _ _ => ?_)
  refine .bind colon_traces fun _ _ => ?_
  refine .bind (top_isTracedBy.typeIdentifier _) fun _ _ => ?_
  refine .bind defaultValue_traces fun _ _ => ?_
  exact .bind optionalComma_traces fun _ _ => .pure _

/-- Parameters are read only while a name and a colon follow. -/
theorem paramList_traces : Traces false 0 Traced.paramList paramList s := by
  refine .ite (fun hs => ?_) fun _ => .pure _
  refine .bind (.call (.repeatEach_of_sign atNamedParam_of_end (fun _ => paramDefinition_traces)
    hs)) fun _ _ => ?_
  exact .pure _

/-- A type with its name already read may have no parameters. -/
theorem simpleTypeDefinition_traces (name : RawNode) :
    Traces false 0 (Traced.simpleTypeDefinition name) (simpleTypeDefinition name) s :=
  .call_continuing (.bind paramList_traces fun _ _ => .pure _) (by decide)

/-- Cases are read only while a type name follows, so each round takes a token. -/
theorem enumTypeDefinition_traces (name : RawNode) :
    Traces false 0 (Traced.enumTypeDefinition name) (enumTypeDefinition name) s := by
  refine .bind (.repeatWhile isAt_of_end fun _ => ?_) fun _ _ => .pure _
  refine .bind (nominalType_traces top_isTracedBy _) fun _ _ => ?_
  exact .bind (simpleTypeDefinition_traces _) fun _ _ => .pure _

/-- The definition of a type moves on by its keyword, which stands there when it is called. -/
theorem typeDefinition_traces (hs : s.atEnd = false) :
    Traces true 0 Traced.typeDefinition typeDefinition s := by
  refine .call (.bind (.leaf hs) fun _ _ => ?_)
  refine .bind (nominalType_traces top_isTracedBy _) fun name _ => ?_
  refine .ite (fun _ => ?_) fun _ => ?_
  · exact .bind (enumTypeDefinition_traces name) fun _ _ => .pure _
  · exact .bind (simpleTypeDefinition_traces name) fun _ _ => .pure _

theorem firstModule_traces : Traces false 0 Traced.firstModule firstModule s := by
  refine .ite (fun _ => ?_) fun _ => .pure _
  exact .bind (nominalType_traces top_isTracedBy s) fun _ _ => .pure _

/-- The modules in use move on by the keyword, and each further module by its comma. -/
theorem namespaceState_traces (hs : s.atEnd = false) :
    Traces true 0 Traced.namespaceState namespaceState s := by
  refine .call (.bind (.leaf hs) fun _ _ => ?_)
  refine .bind .expect fun _ _ => ?_
  refine .bind firstModule_traces fun _ _ => ?_
  refine .bind (marked_traces (nominalType_traces top_isTracedBy)) fun _ _ => ?_
  exact .bind .expect fun _ _ => .pure _

/-- A named value moves on by its name, whatever its scope. -/
theorem constantsStatement_traces (scope : List RawNode) :
    Traces true 0 (Traced.constantsStatement scope) (constantsStatement scope) s := by
  refine .call (.bind argumentName_traces fun _ _ => ?_)
  refine .bind .expect fun _ _ => ?_
  exact .bind (simpleExpression_traces top_isTracedBy _) fun _ _ => .pure _

/-- The type of the input stands in parentheses, or is left out. -/
theorem inputType_traces : Traces false 0 Traced.inputType inputType s := by
  refine .ite (fun hs => ?_) fun _ => .pure _
  refine .bind (.leaf (atEnd_of_isAt hs)) fun _ _ => ?_
  refine .bind (top_isTracedBy.typeIdentifier _) fun _ _ => ?_
  exact .bind .expect fun _ _ => .pure _

/-- The type that a function belongs to is optional. -/
theorem functionScope_traces : Traces false 0 Traced.functionScope functionScope s := by
  refine .ite (fun _ => ?_) fun _ => .pure _
  refine .bind (nominalType_traces top_isTracedBy s) fun _ _ => ?_
  exact .bind .expect fun _ _ => .pure _

/-- Behind its keyword, a function takes its parts in order, each of them traced. -/
theorem functionDefinition_traces (hs : s.atEnd = false) :
    Traces true 0 Traced.functionDefinition functionDefinition s := by
  refine .call (.bind (.leaf hs) fun _ _ => ?_)
  refine .bind inputType_traces fun _ _ => ?_
  refine .bind functionScope_traces fun _ _ => ?_
  refine .bind argumentName_traces fun _ _ => ?_
  refine .bind .expect fun _ _ => ?_
  refine .bind paramList_traces fun _ _ => ?_
  refine .bind .expect fun _ _ => ?_
  refine .bind .expect fun _ _ => ?_
  refine .bind (top_isTracedBy.typeIdentifier _) fun _ _ => ?_
  exact .bind (top_isTracedBy.expression _) fun _ _ => .pure _

/-- What begins with a type moves on by it, before the token that decides is looked at. -/
theorem scopedStatement_traces : Traces true 0 Traced.scopedStatement scopedStatement s := by
  refine .bind (nominalType_traces top_isTracedBy s) fun type s => .peek ?_
  cases hp : s.peek with
  | none => exact .weaken .fail
  | some t =>
    have hend := atEnd_of_peek hp
    cases t with
    | equals =>
      refine .bind (.leaf hend) fun _ _ => ?_
      exact .bind (nominalType_traces top_isTracedBy _) fun _ _ => .pure _
    | dot => exact .bind (.leaf hend) fun _ _ => (constantsStatement_traces _).weaken
    | _ => exact .weaken .fail

/-- A statement without its end is picked by its first token, and fails in front of any other. -/
theorem openStatement_traces : Traces true 0 Traced.openStatement openStatement s := by
  refine .call (.peek ?_)
  cases hp : s.peek with
  | none => exact .fail
  | some t =>
    have hend := atEnd_of_peek hp
    cases t with
    | namespaceKeyword => exact namespaceState_traces hend
    | typeKeyword => exact typeDefinition_traces hend
    | funcKeyword => exact functionDefinition_traces hend
    | typeName => exact scopedStatement_traces
    | argumentName | underscore => exact constantsStatement_traces []
    | _ => exact .fail

/-- A statement with its end is traced at the level at which nothing is nested. -/
theorem statement_traces : Traces true 0 Traced.statement statement s := by
  refine .call (.bind openStatement_traces fun _ _ => ?_)
  exact .bind .expect fun _ _ => .pure _

end GrammarTools.Peopl
