import GrammarTools.Proofs.Layout
import GrammarTools.Simpl.Rules

/-!
# Layouts of Simpl

How the nodes below a node are laid out in the trees of Simpl, by the kind of
the node (`layout`). Every rule that succeeds has made nodes that conform. Each
rule is followed through once; the rules that stand inside themselves are
followed by induction on their level (`level_makes`).

Operands are what stands for itself, what is in parentheses, and either of them
with signs in front; neither a call nor a loop is one, but both may be steps and
bodies of branches. A default comes behind all branches. Steps are joined to the
left, as operators are.
-/

namespace GrammarTools.Simpl

open Layout

/-! ## Kinds -/

namespace Kind

/-- The kinds of operands without a sign. -/
def atoms : List Kind :=
  [intLiteral, floatLiteral, stringLiteral, trueLiteral, falseLiteral, fieldIdentifier,
    arrayLiteral, parenthisedExpression]

/-- The kinds of operands. -/
def operands : List Kind := unaryExpression :: atoms

/-- The kinds of simple expressions. -/
def simples : List Kind := binaryExpression :: operands

/-- The kinds of steps that are no subpipes. -/
def bodies : List Kind := callExpression :: loopedExpression :: simples

/-- The kinds of steps. -/
def steps : List Kind := subpipeExpression :: bodies

/-- The kinds of expressions. -/
def expressions : List Kind := pipeExpression :: steps

/-- The kinds of binary operators. -/
def binaryOperators : List Kind :=
  [multiplicativeOperator, additiveOperator, comparativeOperator, andOperator, orOperator]

/-- The kinds of declarations. -/
def declarations : List Kind := [typeDeclaration, contractDeclaration, functionDeclaration]

/-- The kinds of nodes right below the root. -/
def items : List Kind := error :: dot :: declarations ++ expressions

/-- The table of kinds has each kind at its own number. -/
theorem all_id (kind : Kind) : all[kind.id.index.toNat]? = some kind := by
  cases kind <;> rfl

/-- No two kinds have the same number, as the table could hold only one of them there. -/
theorem id_injective {kind other : Kind} : kind.id = other.id → kind = other :=
  Schema.eq_of_getElem? all_id

end Kind

/-! ## Layouts -/

/-- How the nodes below a node of a kind are laid out. -/
def layout : Kind → Layout Kind Field
  | .sourceFile => many (one Kind.items none)
  | .typeDeclaration =>
    only .typeKeyword ++ part .name [.typeIdentifier] ++ opt (part .params [.paramList])
  | .contractDeclaration =>
    only .contractKeyword ++ part .name [.typeIdentifier] ++ opt (part .params [.paramList])
  | .functionDeclaration =>
    only .funcKeyword ++ opt (part .onType [.typeIdentifier]) ++ part .name [.fieldIdentifier] ++
      opt (part .params [.paramList]) ++ part .result [.typeIdentifier] ++
      part .body Kind.expressions
  | .paramList => many (only .paramDeclaration)
  | .paramDeclaration =>
    part .name [.fieldIdentifier] ++ only .colon ++ part .type [.typeIdentifier]
  | .typeIdentifier => opt (only .inlineFunctionDeclaration)
  | .inlineFunctionDeclaration =>
    only .openBrace ++ many (only .paramDeclaration) ++ only .closeBrace ++ only .typeIdentifier
  | .loopedExpression => only .parenthisedExpression ++ only .caret
  | .parenthisedExpression =>
    only .openParen ++ one Kind.expressions none ++ only .closeParen
  | .pipeExpression =>
    part .left Kind.expressions ++ only .semicolon ++ part .right Kind.steps
  | .subpipeBranchExpression =>
    only .pipe ++ part .captureGroup Kind.expressions ++ only .pipe ++ part .subpipe Kind.bodies
  | .subpipeExpression =>
    only .subpipeBranchExpression ++ many (only .comma ++ only .subpipeBranchExpression) ++
      opt (only .comma ++ one (.callExpression :: Kind.simples) none)
  | .callExpression =>
    part .callee [.fieldIdentifier, .typeIdentifier] ++ opt (part .params [.paramListCall])
  | .paramListCall => many (only .paramDefinition)
  | .paramDefinition =>
    part .name [.fieldIdentifier] ++ only .colon ++ part .value Kind.simples
  | .unaryExpression =>
    part .operator [.additiveOperator, .notKeyword] ++ part .operand Kind.operands
  | .binaryExpression =>
    part .left Kind.simples ++ part .operator Kind.binaryOperators ++ part .right Kind.simples
  | .arrayLiteral => only .openBracket ++ many (one Kind.simples none) ++ only .closeBracket
  | .multiplicativeOperator => one [.star, .slash, .percent] none
  | .additiveOperator => one [.plus, .minus] none
  | .comparativeOperator =>
    one [.equals, .notEquals, .greater, .greaterEquals, .less, .lessEquals] none
  | _ => nothing

/-- The nodes of operators. -/
def operatorNodes : OperatorNodes Token where
  toOperators := operators
  classes := [(Kind.multiplicativeOperator, .multiplicative), (Kind.additiveOperator, .additive),
    (Kind.comparativeOperator, .comparative), (Kind.andOperator, .conjunctive),
    (Kind.orOperator, .disjunctive)]
  unary := Kind.unaryExpression
  operand := Field.operand
  pipe := Kind.pipeExpression

/-- The layouts of the trees of Simpl. -/
def schema : Schema Token Kind Field :=
  ⟨Kind.id, Field.id, layout, operatorNodes, Kind.id_injective⟩

/-- The fields of the schema are those of the rules. -/
@[simp] theorem schema_fieldId (field : Field) : schema.fieldId field = field.id := rfl

/-- The schema lets operators join operands: what each part of such a node may be is listed here. -/
theorem schema_joins : schema.Joins .binaryExpression Kind.operands Kind.operands
    Kind.binaryOperators .left .operator .right := by
  refine ⟨rfl, rfl, rfl, rfl, rfl, List.Subset.refl _, ?_⟩
  decide

/-- Nodes that fit a layout and conform. -/
abbrev Lays := schema.Lays

/-- A node of one of some kinds that conforms. -/
abbrev Makes (kinds : List Kind) (node : RawNode) : Prop := schema.Makes kinds node

/-! ## Tokens -/

theorem fieldIdentifier_makes : fieldIdentifier.Yields (Makes [.fieldIdentifier]) :=
  schema_joins.expect_makes rfl

theorem colon_makes : colon.Yields (Makes [.colon]) := schema_joins.expect_makes rfl

/-- The name of a type has nothing below it, unlike other types. -/
theorem typeName_makes :
    (Rule.leaf Kind.typeIdentifier : Rule Token RawNode).Yields (Makes [.typeIdentifier]) :=
  .leaf (S := schema) .none rfl (by decide)

/-- The operators show by the kinds of operators, which tell their classes. -/
theorem operatorForm?_shows (t : Token) : ∀ form ∈ operatorForm? t,
    schema.Shows Kind.binaryOperators form ∧
      operatorNodes.classes.lookup form.outerKind = some form.level := by
  cases t <;> decide

/-- Signs show as additive operators, or as the keyword of negation. -/
theorem signForm?_shows (t : Token) : ∀ form ∈ signForm? t,
    schema.Shows [.additiveOperator, .notKeyword] form := by
  cases t <;> decide

/-- Inner rules that make nodes that conform. -/
structure Below.Makes (below : Below) : Prop where
  expression : below.expression.Yields (Simpl.Makes Kind.expressions)
  typeIdentifier : below.typeIdentifier.Yields (Simpl.Makes [.typeIdentifier])
  unary : below.unary.Yields (Simpl.Makes Kind.operands)

section Rules

variable {below : Below} (hb : below.Makes)
include hb

/-! ## Types -/

/-- A parameter has a name, a colon and a type, in the order of its layout. -/
theorem paramDeclaration_makes : (paramDeclaration below).Yields (Makes [.paramDeclaration]) := by
  refine .bind fieldIdentifier_makes fun _ hname => ?_
  refine .bind colon_makes fun _ hcolon => ?_
  refine .bind hb.typeIdentifier fun _ htype => ?_
  exact .pure (.branch _ (((hname.withField Field.name).seq hcolon).seq
    (htype.withField Field.type)) (by decide))

/-- A row of parameters has nothing but parameters. -/
theorem paramList_makes : (paramList below).Yields (Makes [.paramList]) :=
  .bind (.each (paramDeclaration_makes hb)) fun _ hparams =>
    .pure (.branch _ hparams (by decide))

/-- An inline function has parameters between braces and a type behind them. -/
theorem inlineFunctionDeclaration_makes :
    (inlineFunctionDeclaration below).Yields (Makes [.inlineFunctionDeclaration]) := by
  refine .bind (schema_joins.leaf_makes rfl) fun _ hopening => ?_
  refine .bind (.each (paramDeclaration_makes hb)) fun _ hparams => ?_
  refine .bind (schema_joins.expect_makes rfl) fun _ hclosing => ?_
  refine .bind hb.typeIdentifier fun _ hresult => ?_
  exact .pure (.branch _ ((((hopening.seq hparams).seq hclosing).seq hresult).of_eq (by simp))
    (by decide))

/-- A type is a name, or has an inline function for its only child. -/
theorem typeReference_makes : (typeReference below).Yields (Makes [.typeIdentifier]) := by
  refine .peek fun next => ?_
  split
  · exact typeName_makes
  · exact .bind (inlineFunctionDeclaration_makes hb) fun _ hinner =>
      .pure (.branch _ hinner.some (by decide))
  · exact .fail

/-! ## Operands -/

/-- What extends an operand leaves it as it is, or makes binary expressions. -/
theorem extend_makes {first : RawNode} {firsts : List Kind} (hsub : firsts ⊆ Kind.operands)
    (hfirst : Makes firsts first) :
    (operators.extend below.unary first).Yields (Makes (.binaryExpression :: firsts)) :=
  schema_joins.extend operatorForm?_shows hb.unary hsub hfirst

theorem simpleExpression_makes : (simpleExpression below).Yields (Makes Kind.simples) :=
  schema_joins.expression operatorForm?_shows hb.unary

/-- An array has simple expressions between brackets. -/
theorem arrayLiteral_makes : (arrayLiteral below).Yields (Makes [.arrayLiteral]) := by
  refine .bind (schema_joins.leaf_makes rfl) fun _ hopening => ?_
  refine .bind (.each (simpleExpression_makes hb)) fun _ hvalues => ?_
  refine .bind (schema_joins.expect_makes rfl) fun _ hclosing => ?_
  exact .pure (.branch _ ((hopening.seq hvalues).seq hclosing) (by decide))

/-- Parentheses hold one expression, of whatever kind. -/
theorem parenthisedExpression_makes :
    (parenthisedExpression below).Yields (Makes [.parenthisedExpression]) := by
  refine .bind (schema_joins.leaf_makes rfl) fun _ hopening => ?_
  refine .bind hb.expression fun _ hexpression => ?_
  refine .bind (schema_joins.expect_makes rfl) fun _ hclosing => ?_
  exact .pure (.branch _ ((hopening.seq hexpression).seq hclosing) (by decide))

/-- Each token that begins an operand makes a node of one of the kinds of operands. -/
theorem primary_makes : (primary below).Yields (Makes Kind.atoms) := by
  refine .peek fun next => ?_
  split
  case h_1 => exact (schema_joins.numeral_makes rfl rfl).imp fun _ h => h.mono (by decide)
  case h_6 => exact (arrayLiteral_makes hb).imp fun _ h => h.mono (by decide)
  case h_7 => exact (parenthisedExpression_makes hb).imp fun _ h => h.mono (by decide)
  case h_8 => exact .fail
  all_goals exact (schema_joins.leaf_makes rfl).imp fun _ h => h.mono (by decide)

/-- A sign in front makes a unary expression; without one the operand is as it is. -/
theorem signed_makes : (signed below).Yields (Makes Kind.operands) := by
  refine schema_joins.signed_makes signForm?_shows rfl rfl rfl rfl (by decide) ?_ hb.unary
  exact (primary_makes hb).imp fun _ h => h.mono (List.subset_cons_self _ _)

/-! ## Expressions -/

/-- An argument has a name, a colon and a value. -/
theorem paramDefinition_makes : (paramDefinition below).Yields (Makes [.paramDefinition]) := by
  refine .bind fieldIdentifier_makes fun _ hname => ?_
  refine .bind colon_makes fun _ hcolon => ?_
  refine .bind (simpleExpression_makes hb) fun _ hvalue => ?_
  exact .pure (.branch _ (((hname.withField Field.name).seq hcolon).seq
    (hvalue.withField Field.value)) (by decide))

/-- The arguments are in one node, in a field of its own, or there is no such node. -/
theorem callParams_lay :
    (callParams below).Yields (Lays (opt (part .params [.paramListCall]))) := by
  refine .ite ?_ ?_
  · refine .bind (.each (paramDefinition_makes hb)) fun _ hparams => ?_
    exact .pure ((Schema.Lays.branch Kind.paramListCall hparams (by decide)).withField
      Field.params).some
  · exact .pure .none

/-- A call has a callee, and perhaps arguments behind it. -/
theorem callExpression_makes : (callExpression below).Yields (Makes [.callExpression]) := by
  have hcall : ∀ {kinds : List Kind} {callee : RawNode},
      kinds ⊆ [.fieldIdentifier, .typeIdentifier] → Makes kinds callee →
        (do
          let params ← callParams below
          return .branch Kind.callExpression (callee.withField Field.callee :: params) :
            Rule Token RawNode).Yields (Makes [.callExpression]) := fun hk hcallee =>
    .bind (callParams_lay hb) fun _ hparams =>
      .pure (.branch _ (((hcallee.mono hk).withField Field.callee).seq hparams) (by decide))
  refine .ite ?_ ?_
  · exact .bind (schema_joins.leaf_makes rfl) fun _ hcallee => hcall (by decide) hcallee
  · exact .bind hb.typeIdentifier fun _ hcallee => hcall (by decide) hcallee

/-- Parentheses in front of a caret are looped; in front of operators they are an operand. -/
theorem afterParens_makes {parens : RawNode} (hl : Makes [.parenthisedExpression] parens) :
    (afterParens below parens).Yields (Makes Kind.bodies) := by
  refine .ite ?_ ?_
  · refine .bind (schema_joins.leaf_makes rfl) fun _ hcaret => ?_
    exact .pure ((Schema.Lays.branch Kind.loopedExpression (hl.seq hcaret) (by decide)).mono
      (by decide))
  · exact (extend_makes hb (by decide) hl).imp fun _ h => h.mono (by decide)

/-- A branch does a call, a loop or a simple expression. -/
theorem branchBody_makes : (branchBody below).Yields (Makes Kind.bodies) := by
  refine .ite ?_ ?_
  · exact (callExpression_makes hb).imp fun _ h => h.mono (by decide)
  · refine .ite ?_ ?_
    · exact .bind (parenthisedExpression_makes hb) fun _ hparens => afterParens_makes hb hparens
    · exact (simpleExpression_makes hb).imp fun _ h => h.mono (by decide)

/-- A branch has a capture between bars, and behind them what is done with it. -/
theorem subpipeBranch_makes : (subpipeBranch below).Yields (Makes [.subpipeBranchExpression]) := by
  refine .bind (schema_joins.leaf_makes rfl) fun _ hopening => ?_
  refine .bind hb.expression fun _ hcapture => ?_
  refine .bind (schema_joins.expect_makes rfl) fun _ hclosing => ?_
  refine .bind (branchBody_makes hb) fun _ hbody => ?_
  exact .pure (.branch _ (((hopening.seq (hcapture.withField Field.captureGroup)).seq hclosing).seq
    (hbody.withField Field.subpipe)) (by decide))

/-- A default has its comma beside it, not inside it. -/
theorem subpipeDefault_lay : (subpipeDefault below).Yields
    (Lays (opt (only .comma ++ one (.callExpression :: Kind.simples) none))) := by
  refine .ite ?_ ?_
  · refine .bind (schema_joins.leaf_makes rfl) fun _ hcomma => ?_
    refine .ite ?_ ?_
    · refine .bind (callExpression_makes hb) fun _ hdefault => ?_
      exact .pure (hcomma.seq (hdefault.mono (by decide))).some
    · refine .bind (simpleExpression_makes hb) fun _ hdefault => ?_
      exact .pure (hcomma.seq (hdefault.mono (List.subset_cons_self _ _))).some
  · exact .pure .none

/-- Branches and commas stand in turn, and a default comes last. -/
theorem subpipeExpression_makes :
    (subpipeExpression below).Yields (Makes [.subpipeExpression]) := by
  refine .bind (subpipeBranch_makes hb) fun _ hfirst => ?_
  refine .bind (schema_joins.marked_lay rfl (subpipeBranch_makes hb)) fun _ hmore => ?_
  refine .bind (subpipeDefault_lay hb) fun _ hdefault => ?_
  exact .pure (.branch _ ((hfirst.seq hmore).seq hdefault) (by decide))

/-- A step is what a branch may do, or branches. -/
theorem pipeOperand_makes : (pipeOperand below).Yields (Makes Kind.steps) :=
  .ite
    ((subpipeExpression_makes hb).imp fun _ h => h.mono (by decide))
    ((branchBody_makes hb).imp fun _ h => h.mono (List.subset_cons_self _ _))

/-- Steps in a chain are grouped to the left, each with its semicolon. -/
theorem pipeChain_makes : (pipeChain below).Yields (Makes Kind.expressions) := by
  have hstep : Kind.steps ⊆ Kind.expressions := List.subset_cons_self _ _
  refine .bind (pipeOperand_makes hb) fun _ hfirst => ?_
  refine .growWhile (hfirst.mono hstep) fun _ hl => ?_
  refine .bind (schema_joins.leaf_makes rfl) fun _ hsemicolon => ?_
  refine .bind (pipeOperand_makes hb) fun _ hright => .pure ?_
  exact (Schema.Lays.branch Kind.pipeExpression (((hl.withField Field.left).seq hsemicolon).seq
    (hright.withField Field.right)) (by decide)).mono (by decide)

end Rules

/-- The rules of every level make nodes as the layouts say. -/
theorem level_makes (n : Nat) : (level n).Makes :=
  Nested.level_forall ⟨.tooDeep, .tooDeep, .tooDeep⟩
    (fun _ hb => ⟨pipeChain_makes hb, typeReference_makes hb, signed_makes hb⟩) n

theorem top_makes : top.Makes := level_makes _

/-! ## Statements -/

theorem declarationEnd_makes : declarationEnd.Yields (Makes [.dot]) :=
  .ite (schema_joins.leaf_makes rfl) .fail

/-- The parameters of a declaration are in a field of its own, if there are any. -/
theorem declaredParams_lay : declaredParams.Yields (Lays (opt (part .params [.paramList]))) := by
  refine .ite ?_ ?_
  · refine .bind (paramList_makes top_makes) fun _ hparams => ?_
    exact .pure (hparams.withField Field.params).some
  · exact .pure .none

/-- Declarations of types and of contracts have one layout, but for their keywords. -/
theorem declaration_makes {kind keyword : Kind} (hkeyword : layout keyword = nothing)
    (hkind : layout kind =
      only keyword ++ part .name [.typeIdentifier] ++ opt (part .params [.paramList]))
    (hk : kind.id ≠ Kind.binaryExpression.id) :
    (declaration kind keyword).Yields (Makes [kind]) := by
  refine .bind (schema_joins.leaf_makes hkeyword) fun _ hkeyword => ?_
  refine .bind top_makes.typeIdentifier fun _ hname => ?_
  refine .bind declaredParams_lay fun _ hparams => ?_
  have hrow : Lays (layout kind) _ :=
    hkind ▸ (hkeyword.seq (hname.withField Field.name)).seq hparams
  exact .pure (.branch kind hrow hk)

/-- The type that a function belongs to is in a field of its own. -/
theorem onType_lays : onType.Yields (Lays (opt (part .onType [.typeIdentifier]))) := by
  refine .ite ?_ ?_
  · refine .bind top_makes.typeIdentifier fun _ htype => ?_
    exact .pure (htype.withField Field.onType).some
  · exact .pure .none

/-- A function has its parts in the order of its layout, of which two are optional. -/
theorem functionDeclaration_makes : functionDeclaration.Yields (Makes [.functionDeclaration]) := by
  refine .bind (schema_joins.leaf_makes rfl) fun _ hkeyword => ?_
  refine .bind onType_lays fun _ honType => ?_
  refine .bind fieldIdentifier_makes fun _ hname => ?_
  refine .bind declaredParams_lay fun _ hparams => ?_
  refine .bind top_makes.typeIdentifier fun _ hresult => ?_
  refine .bind top_makes.expression fun _ hbody => ?_
  refine .pure (.branch _ ?_ (by decide))
  have hhead := ((hkeyword.seq honType).seq (hname.withField Field.name)).seq hparams
  exact ((hhead.seq (hresult.withField Field.result)).seq
    (hbody.withField Field.body)).of_eq (by simp)

/-- Anything of which a source may consist is such a row by itself. -/
theorem item_lays {kinds : List Kind} {node : RawNode} (h : Makes kinds node)
    (hk : kinds ⊆ Kind.items) : Lays (many (one Kind.items none)) [node] :=
  (h.mono hk).single

/-- A declaration and its dot are two children of the root, not one. -/
theorem ended_lays {declaration : Rule Token RawNode} {kinds : List Kind}
    (h : declaration.Yields (Makes kinds)) (hk : kinds ⊆ Kind.items) :
    (ended declaration).Yields (Lays (many (one Kind.items none))) := by
  refine .bind h fun _ hdeclaration => ?_
  refine .bind declarationEnd_makes fun _ hending => ?_
  exact .pure ((item_lays hdeclaration hk).append (item_lays hending (by decide)))

/-- A statement adds to the children of the root what may stand there. -/
theorem statement_lays : statement.Yields (Lays (many (one Kind.items none))) := by
  refine .peek fun next => ?_
  split
  case h_1 => exact ended_lays (declaration_makes rfl rfl (by decide)) (by decide)
  case h_2 => exact ended_lays (declaration_makes rfl rfl (by decide)) (by decide)
  case h_3 => exact ended_lays functionDeclaration_makes (by decide)
  case h_4 => exact .bind top_makes.expression fun _ h => .pure (item_lays h (by decide))

/-! ## Sources -/

/-- Statements, broken statements and comments are all that the root of a tree has. -/
theorem grammar_conforms : grammar.Conforms schema Kind.items .sourceFile where
  statement := statement_lays
  recover s := by
    have herror : ∀ span, Makes [.error] (.error span []) := fun span =>
      Schema.Lays.of_nothing (S := schema) span rfl (by decide)
    exact item_lays (herror _) (by decide)
  root_id := rfl
  root_layout := rfl
  root_ne := by decide

end GrammarTools.Simpl
