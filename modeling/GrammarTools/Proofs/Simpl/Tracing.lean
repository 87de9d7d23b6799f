import GrammarTools.Proofs.Simpl.Parallel
import GrammarTools.Proofs.Tracing

/-!
# Traced rules of Simpl

The rules of Simpl as traced rules, each under the name of the rule it traces.
Rules that only spare others a few lines are not called by a name.

Levels are counted by `nested`. Those of `Traced.level` are there to bound the
recursion, and as there is one more of them than rules may be nested they never
run out (`top_isTracedBy`).
-/

namespace GrammarTools.Simpl

namespace Traced

open GrammarTools.Traced

/-- The traced rules that may stand inside themselves. -/
abbrev Below := GrammarTools.Traced.Nested Token

section Rules

variable (below : Below)

/-! ## Types -/

def fieldIdentifier : Traced Token RawNode :=
  call "fieldIdentifier" (expect .fieldName Kind.fieldIdentifier "field identifier")

def colon : Traced Token RawNode := expect .colon Kind.colon "`:`"

def paramDeclaration : Traced Token RawNode := call "paramDeclaration" do
  let name ← fieldIdentifier
  let colon ← colon
  let type ← below.typeIdentifier
  return .branch Kind.paramDeclaration
    [name.withField Field.name, colon, type.withField Field.type]

def paramList : Traced Token RawNode := call "paramList" do
  let params ← repeatWhile atNamedParam do return [← paramDeclaration below]
  return .branch Kind.paramList params

def inlineFunctionDeclaration : Traced Token RawNode := call "inlineFunctionDeclaration" do
  let opening ← leaf Kind.openBrace
  let params ← repeatWhile (·.isAt .fieldName) do return [← paramDeclaration below]
  let closing ← expect .closeBrace Kind.closeBrace "`\x7d`"
  let result ← below.typeIdentifier
  return .branch Kind.inlineFunctionDeclaration (opening :: params ++ [closing, result])

def typeReference : Traced Token RawNode := call "typeReference" do
  match ← peek with
  | some .typeName => leaf Kind.typeIdentifier
  | some .openBrace => return .branch Kind.typeIdentifier [← inlineFunctionDeclaration below]
  | _ => fail ["type identifier"]

/-! ## Operands -/

def simpleExpression : Traced Token RawNode :=
  call "simpleExpression" (extended operators below.unary)

def arrayLiteral : Traced Token RawNode := call "arrayLiteral" do
  let opening ← leaf Kind.openBracket
  let values ← repeatWhile (fun s => !s.isAt .closeBracket && !s.atEnd) do
    return [← simpleExpression below]
  let closing ← expect .closeBracket Kind.closeBracket "`]`"
  return .branch Kind.arrayLiteral (opening :: values ++ [closing])

def parenthisedExpression : Traced Token RawNode := call "parenthisedExpression" do
  let opening ← leaf Kind.openParen
  let expression ← below.expression
  let closing ← expect .closeParen Kind.closeParen "`)`"
  return .branch Kind.parenthisedExpression [opening, expression, closing]

def numberLiteral : Traced Token RawNode := numeral Kind.floatLiteral Kind.intLiteral

def primary : Traced Token RawNode := call "primary" do
  match ← peek with
  | some .number => numberLiteral
  | some .string => leaf Kind.stringLiteral
  | some .trueKeyword => leaf Kind.trueLiteral
  | some .falseKeyword => leaf Kind.falseLiteral
  | some .fieldName => leaf Kind.fieldIdentifier
  | some .openBracket => arrayLiteral below
  | some .openParen => parenthisedExpression below
  | _ => fail ["expression"]

def signed : Traced Token RawNode :=
  call "signed" (signedBy signs (primary below) below.unary)

/-! ## Expressions -/

def paramDefinition : Traced Token RawNode := call "paramDefinition" do
  let name ← fieldIdentifier
  let colon ← colon
  let value ← simpleExpression below
  return .branch Kind.paramDefinition
    [name.withField Field.name, colon, value.withField Field.value]

def callParams : Traced Token (List RawNode) := do
  if ← ask atNamedParam then
    let params ← repeatWhile atNamedParam do return [← paramDefinition below]
    return [(RawNode.branch Kind.paramListCall params).withField Field.params]
  else return []

def callExpression : Traced Token RawNode := call "callExpression" do
  let callee ←
    if ← ask (·.isAt .fieldName) then leaf Kind.fieldIdentifier else below.typeIdentifier
  let params ← callParams below
  return .branch Kind.callExpression (callee.withField Field.callee :: params)

def afterParens (parens : RawNode) : Traced Token RawNode := do
  if ← ask (·.isAt .caret) then
    let caret ← leaf Kind.caret
    return .branch Kind.loopedExpression [parens, caret]
  else extend operators below.unary parens

def branchBody : Traced Token RawNode := call "branchBody" do
  if ← ask atCall then callExpression below
  else if ← ask (·.isAt .openParen) then
    let parens ← parenthisedExpression below
    afterParens below parens
  else simpleExpression below

def subpipeBranch : Traced Token RawNode := call "subpipeBranch" do
  let opening ← leaf Kind.pipe
  let capture ← below.expression
  let closing ← expect .pipe Kind.pipe "`|`"
  let body ← branchBody below
  return .branch Kind.subpipeBranchExpression
    [opening, capture.withField Field.captureGroup, closing, body.withField Field.subpipe]

def subpipeDefault : Traced Token (List RawNode) := do
  if ← ask (·.isAt .comma) then
    let comma ← leaf Kind.comma
    let default ← if ← ask atCall then callExpression below else simpleExpression below
    return [comma, default]
  else return []

def subpipeExpression : Traced Token RawNode := call "subpipeExpression" do
  let first ← subpipeBranch below
  let more ← repeatWhile atNextBranch do
    let comma ← leaf Kind.comma
    return [comma, ← subpipeBranch below]
  let default ← subpipeDefault below
  return .branch Kind.subpipeExpression (first :: more ++ default)

def pipeOperand : Traced Token RawNode := call "pipeOperand" do
  if ← ask (·.isAt .pipe) then subpipeExpression below else branchBody below

def pipeChain : Traced Token RawNode := call "pipeChain" do
  let first ← pipeOperand below
  growWhile (fun s => if s.isAt .semicolon then some () else none) (fun _ left => do
    let semicolon ← leaf Kind.semicolon
    let right ← pipeOperand below
    return .branch Kind.pipeExpression
      [left.withField Field.left, semicolon, right.withField Field.right]) first

end Rules

/-! ## Levels -/

/-- The traced rules with a number of levels. -/
def level : Nat → Below :=
  GrammarTools.Traced.Nested.level fun below => ⟨pipeChain below, typeReference below, signed below⟩

/-- The traced rules at the top. -/
def top : Below := level (maxNesting + 1)

/-! ## Statements -/

def declarationEnd : Traced Token RawNode := call "declarationEnd" do
  if ← ask (fun s => s.isAt .dot && s.advance.atLineStart) then leaf Kind.dot
  else fail ["`.` at the end of a line"]

def declaredParams : Traced Token (List RawNode) := do
  if ← ask atNamedParam then return [(← paramList top).withField Field.params] else return []

def declaration (kind keyword : Kind) : Traced Token RawNode := call "declaration" do
  let keyword ← leaf keyword
  let name ← top.typeIdentifier
  let params ← declaredParams
  return .branch kind (keyword :: name.withField Field.name :: params)

def onType : Traced Token (List RawNode) := do
  if ← ask atType then return [(← top.typeIdentifier).withField Field.onType] else return []

def functionDeclaration : Traced Token RawNode := call "functionDeclaration" do
  let keyword ← leaf Kind.funcKeyword
  let onType ← onType
  let name ← fieldIdentifier
  let params ← declaredParams
  let result ← top.typeIdentifier
  let body ← top.expression
  return .branch Kind.functionDeclaration (keyword :: onType ++ name.withField Field.name ::
    params ++ [result.withField Field.result, body.withField Field.body])

def ended (declaration : Traced Token RawNode) : Traced Token (List RawNode) := do
  let declaration ← declaration
  let ending ← declarationEnd
  return [declaration, ending]

def statement : Traced Token (List RawNode) := call "statement" do
  match ← peek with
  | some .typeKeyword => ended (declaration .typeDeclaration .typeKeyword)
  | some .contractKeyword => ended (declaration .contractDeclaration .contractKeyword)
  | some .funcKeyword => ended functionDeclaration
  | _ => return [← top.expression]

end Traced

/-! ## Rules that are traced -/

open TokenStream
open GrammarTools.Traced (Traces)

variable {s : TokenStream Token} {depth : Nat}

/-- A name is one token or an error, so what reads it moves on. -/
theorem fieldIdentifier_traces :
    Traces true depth Traced.fieldIdentifier fieldIdentifier s :=
  .call .expect

theorem colon_traces : Traces true depth Traced.colon colon s := .expect

section Rules

variable {below : Below} {traced : Traced.Below} (hb : below.IsTracedBy depth traced)
include hb

/-- A parameter moves on by its name, and its type is read by a rule that may stand inside itself.
    -/
theorem paramDeclaration_traces :
    Traces true depth (Traced.paramDeclaration traced) (paramDeclaration below) s := by
  refine .call (.bind fieldIdentifier_traces fun _ _ => ?_)
  refine .bind colon_traces fun _ _ => ?_
  exact .bind (hb.typeIdentifier _) fun _ _ => .pure _

/-- A row of parameters is read only where its sign holds, so the first round takes a token. -/
theorem paramList_traces (hs : atNamedParam s = true) :
    Traces true depth (Traced.paramList traced) (paramList below) s :=
  .call (.bind (.repeatEach_of_sign atNamedParam_of_end (fun _ => paramDeclaration_traces hb) hs)
    fun _ _ => .pure _)

/-- The parameters of an inline function may be none; the opening brace is what moves on. -/
theorem inlineFunctionDeclaration_traces (hs : s.isAt .openBrace = true) :
    Traces true depth (Traced.inlineFunctionDeclaration traced)
      (inlineFunctionDeclaration below) s := by
  refine .call (.bind (.leaf (atEnd_of_isAt hs)) fun _ _ => ?_)
  refine .bind (.repeatEach isAt_of_end fun _ => paramDeclaration_traces hb) fun _ _ => ?_
  refine .bind .expect fun _ _ => ?_
  exact .bind (hb.typeIdentifier _) fun _ _ => .pure _

/-- A type moves on by its name or its opening brace, and fails in front of any other token. -/
theorem typeReference_traces :
    Traces true depth (Traced.typeReference traced) (typeReference below) s := by
  refine .call (.peek ?_)
  cases hp : s.peek with
  | none => exact .fail
  | some t =>
    cases t with
    | typeName => exact .leaf (atEnd_of_peek hp)
    | openBrace =>
      exact .bind (inlineFunctionDeclaration_traces hb (isAt_of_peek hp))
        fun _ _ => .pure _
    | _ => exact .fail

/-! ### Operands -/

/-- A simple expression moves on by its first operand; nothing need follow it. -/
theorem simpleExpression_traces (s : TokenStream Token) :
    Traces true depth (Traced.simpleExpression traced) (simpleExpression below) s :=
  .call (.extended hb.unary)

/-- The values of an array end at the bracket or at the end of the stream, where no token is asked
    for. -/
theorem arrayLiteral_traces (hs : s.isAt .openBracket = true) :
    Traces true depth (Traced.arrayLiteral traced) (arrayLiteral below) s := by
  refine .call (.bind (.leaf (atEnd_of_isAt hs)) fun _ _ => ?_)
  refine .bind (.repeatEach (fun hs => by simp [TokenStream.atEnd, hs]) fun _ =>
    simpleExpression_traces hb _) fun _ _ => ?_
  exact .bind .expect fun _ _ => .pure _

theorem parenthisedExpression_traces (hs : s.isAt .openParen = true) :
    Traces true depth (Traced.parenthisedExpression traced) (parenthisedExpression below) s := by
  refine .call (.bind (.leaf (atEnd_of_isAt hs)) fun _ _ => ?_)
  refine .bind (hb.expression _) fun _ _ => ?_
  exact .bind .expect fun _ _ => .pure _

/-- An operand is picked by the next token alone, so each case knows that a token is left. -/
theorem primary_traces : Traces true depth (Traced.primary traced) (primary below) s := by
  refine .call (.peek ?_)
  cases hp : s.peek with
  | none => exact .fail
  | some t =>
    have hend := atEnd_of_peek hp
    have hat := isAt_of_peek hp
    cases t with
    | number => exact .numeral hend
    | string | trueKeyword | falseKeyword | fieldName => exact .leaf hend
    | openBracket => exact arrayLiteral_traces hb hat
    | openParen => exact parenthisedExpression_traces hb hat
    | _ => exact .fail

/-- With or without signs, an operand moves on. -/
theorem signed_traces : Traces true depth (Traced.signed traced) (signed below) s :=
  .call (.signedBy (primary_traces hb) hb.unary)

/-! ### Expressions -/

theorem paramDefinition_traces :
    Traces true depth (Traced.paramDefinition traced) (paramDefinition below) s := by
  refine .call (.bind fieldIdentifier_traces fun _ _ => ?_)
  refine .bind colon_traces fun _ _ => ?_
  exact .bind (simpleExpression_traces hb _) fun _ _ => .pure _

/-- Arguments may be missing, so these need not move on. -/
theorem callParams_traces : Traces false depth (Traced.callParams traced) (callParams below) s := by
  refine .ite (fun _ => ?_) fun _ => .pure _
  refine .bind (.repeatEach atNamedParam_of_end fun _ => paramDefinition_traces hb) fun _ _ => ?_
  exact .pure _

/-- A call moves on by what is called, whether a field or a type. -/
theorem callExpression_traces :
    Traces true depth (Traced.callExpression traced) (callExpression below) s := by
  refine .call (.ite (fun hs => ?_) fun _ => ?_)
  · refine .bind (.leaf (atEnd_of_isAt hs)) fun _ _ => ?_
    exact .bind (callParams_traces hb) fun _ _ => .pure _
  · refine .bind (hb.typeIdentifier _) fun _ _ => ?_
    exact .bind (callParams_traces hb) fun _ _ => .pure _

/-- Behind parentheses there may be a caret, operators, or nothing. -/
theorem afterParens_traces (parens : RawNode) :
    Traces false depth (Traced.afterParens traced parens) (afterParens below parens) s := by
  refine .ite (fun hs => ?_) fun _ => .extend hb.unary parens
  exact .bind (.leaf (atEnd_of_isAt hs)) fun _ _ => .pure _

/-- Whatever a branch does, it begins with something that takes a token. -/
theorem branchBody_traces :
    Traces true depth (Traced.branchBody traced) (branchBody below) s := by
  refine .call ?_
  refine .ite (fun _ => callExpression_traces hb) fun _ => ?_
  refine .ite (fun hs => ?_) fun _ => simpleExpression_traces hb _
  exact .bind (parenthisedExpression_traces hb hs) fun _ _ => afterParens_traces hb _

/-- A branch is only tried where a bar stands, which is then its first token. -/
theorem subpipeBranch_traces (hs : s.isAt .pipe = true) :
    Traces true depth (Traced.subpipeBranch traced) (subpipeBranch below) s := by
  refine .call (.bind (.leaf (atEnd_of_isAt hs)) fun _ _ => ?_)
  refine .bind (hb.expression _) fun _ _ => ?_
  refine .bind .expect fun _ _ => ?_
  exact .bind (branchBody_traces hb) fun _ _ => .pure _

/-- Another branch moves on by its comma. -/
theorem nextBranch_traces (hs : atNextBranch s = true) :
    Traces true depth
      (do
        let comma ← Traced.leaf Kind.comma
        return [comma, ← Traced.subpipeBranch traced])
      (do
        let comma ← Rule.leaf Kind.comma
        return [comma, ← subpipeBranch below]) s := by
  obtain ⟨hcomma, hpipe⟩ := atNextBranch_iff.1 hs
  -- The branch can only begin behind this comma because the sign has looked two tokens ahead.
  exact .marked (atEnd_of_peek hcomma) (subpipeBranch_traces hb (isAt_of_peek hpipe))

/-- Without a comma there is no default, and nothing is taken. -/
theorem subpipeDefault_traces :
    Traces false depth (Traced.subpipeDefault traced) (subpipeDefault below) s := by
  refine .ite (fun hs => ?_) fun _ => .pure _
  refine .bind (.leaf (atEnd_of_isAt hs)) fun _ _ => ?_
  refine .ite (fun _ => ?_) fun _ => ?_
  · exact .bind (callExpression_traces hb) fun _ _ => .pure _
  · exact .bind (simpleExpression_traces hb _) fun _ _ => .pure _

/-- Branches move on by the first of them. -/
theorem subpipeExpression_traces (hs : s.isAt .pipe = true) :
    Traces true depth (Traced.subpipeExpression traced) (subpipeExpression below) s := by
  refine .call (.bind (subpipeBranch_traces hb hs) fun _ _ => ?_)
  refine .bind (.repeatWhile (fun hs => by simp [atNextBranch, isAt_of_end hs])
    (nextBranch_traces hb)) fun _ _ => ?_
  exact .bind (subpipeDefault_traces hb) fun _ _ => .pure _

theorem pipeOperand_traces :
    Traces true depth (Traced.pipeOperand traced) (pipeOperand below) s :=
  .call (.ite (subpipeExpression_traces hb) fun _ => branchBody_traces hb)

/-- A chain moves on by its first step, and each further round by its semicolon. -/
theorem pipeChain_traces :
    Traces true depth (Traced.pipeChain traced) (pipeChain below) s := by
  refine .call (.bind (pipeOperand_traces hb) fun _ _ => ?_)
  refine .iterate (fun hs => by rw [isAt_of_end hs]; rfl) (fun _ _ _ hs => ?_) _
  refine .bind (.leaf (atEnd_of_isAt (by simpa using hs))) fun _ _ => ?_
  exact .bind (pipeOperand_traces hb) fun _ _ => .pure _

end Rules

/-! ### Levels -/

/-- The levels of the rules and of the traced rules are made of the same parts, so that the parts
    being traced suffices. -/
theorem level_isTracedBy {n : Nat} (hn : depth + n = maxNesting) :
    (level n).IsTracedBy depth (Traced.level (n + 1)) :=
  Nested.level_isTracedBy (fun hb => ⟨fun _ => pipeChain_traces hb,
    fun _ => typeReference_traces hb, fun _ => signed_traces hb⟩) hn

/-- At the top no level is taken yet, and all are left. -/
theorem top_isTracedBy : top.IsTracedBy 0 Traced.top := level_isTracedBy (Nat.zero_add _)

/-! ### Statements -/

/-- The dot of a declaration is taken only where its line ends; elsewhere it is an error. -/
theorem declarationEnd_traces : Traces true depth Traced.declarationEnd declarationEnd s :=
  .call (.ite (fun hs => .leaf (atEnd_of_isAt (Bool.and_eq_true_iff.1 hs).1)) fun _ => .fail)

theorem declaredParams_traces : Traces false 0 Traced.declaredParams declaredParams s := by
  refine .ite (fun hs => ?_) fun _ => .pure _
  exact .bind (paramList_traces top_isTracedBy hs) fun _ _ => .pure _

/-- A declaration moves on by its keyword, which stands there when it is called. -/
theorem declaration_traces {kind keyword : Kind} (hs : s.atEnd = false) :
    Traces true 0 (Traced.declaration kind keyword) (declaration kind keyword) s := by
  refine .call (.bind (.leaf hs) fun _ _ => ?_)
  refine .bind (top_isTracedBy.typeIdentifier _) fun _ _ => ?_
  exact .bind declaredParams_traces fun _ _ => .pure _

/-- The type in front of a function name is optional. -/
theorem onType_traces : Traces false 0 Traced.onType onType s := by
  refine .ite (fun _ => ?_) fun _ => .pure _
  exact .bind (top_isTracedBy.typeIdentifier _) fun _ _ => .pure _

/-- Behind its keyword, a function takes its parts in order, each of them traced. -/
theorem functionDeclaration_traces (hs : s.atEnd = false) :
    Traces true 0 Traced.functionDeclaration functionDeclaration s := by
  refine .call (.bind (.leaf hs) fun _ _ => ?_)
  refine .bind onType_traces fun _ _ => ?_
  refine .bind fieldIdentifier_traces fun _ _ => ?_
  refine .bind declaredParams_traces fun _ _ => ?_
  refine .bind (top_isTracedBy.typeIdentifier _) fun _ _ => ?_
  exact .bind (top_isTracedBy.expression _) fun _ _ => .pure _

/-- What ends a declaration adds its own call to those of the declaration. -/
theorem ended_traces {traced : Traced Token RawNode} {declaration : Rule Token RawNode}
    (h : Traces true 0 traced declaration s) :
    Traces true 0 (Traced.ended traced) (ended declaration) s := by
  refine .bind h fun _ _ => ?_
  exact .bind declarationEnd_traces fun _ _ => .pure _

/-- A statement is traced at the level at which nothing is nested. -/
theorem statement_traces : Traces true 0 Traced.statement statement s := by
  refine .call (.peek ?_)
  have hexpression : Traces true 0 (do return [← Traced.top.expression])
      (do return [← top.expression]) s :=
    .bind (top_isTracedBy.expression s) fun _ _ => .pure _
  cases hp : s.peek with
  | none => exact hexpression
  | some t =>
    have hend := atEnd_of_peek hp
    cases t with
    | typeKeyword | contractKeyword => exact ended_traces (declaration_traces hend)
    | funcKeyword => exact ended_traces (functionDeclaration_traces hend)
    | _ => exact hexpression

end GrammarTools.Simpl
