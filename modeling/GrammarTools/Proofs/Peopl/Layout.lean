import GrammarTools.Peopl.Rules
import GrammarTools.Proofs.Layout

/-!
# Layouts of PeoPl

How the nodes below a node are laid out in the trees of PeoPl, by the kind of
the node (`layout`). Every rule that succeeds has made nodes that conform. Each
rule is followed through once; the rules that stand inside themselves are
followed by induction on their level (`level_makes`).

Suffixes stand only behind atoms and types, signs only in front of operands, and
steps are joined to the left. A type is an operand only if a suffix follows it,
or at the start of a capture.
-/

namespace GrammarTools.Peopl

open Layout

/-! ## Kinds -/

namespace Kind

/-- The kinds of types inside a type identifier. -/
def types : List Kind :=
  [nothing, never, nominalType, lambdaStructuralType, tupleStructuralType]

/-- The kinds of operands with their suffixes. -/
def atoms : List Kind :=
  [callExpression, accessExpression, nothing, never, intLiteral, floatLiteral, stringLiteral,
    boolLiteral, argumentName, tupleLiteral, parenthisizedExpression, lambdaExpression]

/-- The kinds of operands. -/
def operands : List Kind := unaryExpression :: atoms

/-- The kinds of simple expressions. -/
def simples : List Kind := binaryExpression :: operands

/-- The kinds of steps. -/
def steps : List Kind := branchedExpression :: simples

/-- The kinds of expressions. -/
def expressions : List Kind := pipedExpression :: steps

/-- The kinds of binary operators. -/
def binaryOperators : List Kind :=
  [multiplicativeOperator, additiveOperator, comparativeOperator, andOperator, orOperator]

/-- The kinds of statements. -/
def statements : List Kind :=
  [namespaceState, implementationStatement, constantsStatement, typeDefinition,
    functionDefinition]

/-- The kinds of nodes right below the root. -/
def items : List Kind := error :: dotDot :: statements

/-- The table of kinds has each kind at its own number. -/
theorem all_id (kind : Kind) : all[kind.id.index.toNat]? = some kind := by
  cases kind <;> rfl

/-- No two kinds have the same number, as the table could hold only one of them there. -/
theorem id_injective {kind other : Kind} : kind.id = other.id → kind = other :=
  Schema.eq_of_getElem? all_id

end Kind

/-! ## Layouts -/

/-- How the nodes below a node of a kind are laid out. -/
def layout : Kind → Layout Kind Field
  | .sourceFile => many (one Kind.items none)
  | .namespaceState =>
    only .namespaceKeyword ++ only .openBracket ++ opt (only .nominalType) ++
      many (only .comma ++ only .nominalType) ++ only .closeBracket
  | .implementationStatement => only .nominalType ++ only .equals ++ only .nominalType
  | .constantsStatement =>
    opt (only .nominalType ++ only .dot) ++ only .argumentName ++ only .equals ++
      one Kind.simples none
  | .typeDefinition =>
    only .typeKeyword ++ one [.enumTypeDefinition, .simpleTypeDefinition] none
  | .enumTypeDefinition =>
    part .metaType [.nominalType] ++ many (part .caseType [.simpleTypeDefinition])
  | .simpleTypeDefinition => part .name [.nominalType] ++ opt (part .params [.paramList])
  | .paramList => many (only .paramDefinition)
  | .paramDefinition =>
    part .name [.argumentName] ++ only .colon ++ part .type [.typeIdentifier] ++
      opt (only .openParen ++ part .defaultValue Kind.simples ++ only .closeParen) ++
      opt (only .comma)
  | .typeIdentifier => one Kind.types none
  | .nominalType => only .flatNominalType ++ many (only .colonColon ++ only .flatNominalType)
  | .flatNominalType => part .typeName [.typeName] ++ opt (part .typeArguments [.typeArguments])
  | .typeArguments =>
    only .less ++ separated (only .typeIdentifier) (only .comma) ++ only .greater
  | .tupleStructuralType =>
    only .openBracket ++ separated (only .typeIdentifier) (only .comma) ++ only .closeBracket
  | .lambdaStructuralType =>
    only .openBrace ++
      opt (separated (part .inputType [.typeIdentifier]) (part .inputType [.comma])) ++
      only .closeBrace ++ only .arrow ++ part .returnType [.typeIdentifier]
  | .functionDefinition =>
    only .funcKeyword ++ opt (only .openParen ++ part .inputType [.typeIdentifier] ++
      only .closeParen) ++ opt (part .scope [.nominalType] ++ part .scope [.dot]) ++
      part .name [.argumentName] ++ part .params [.openParen] ++
      opt (part .params [.paramList]) ++ part .params [.closeParen] ++ only .fatArrow ++
      part .outputType [.typeIdentifier] ++ part .body Kind.expressions
  | .boolLiteral => one [.trueKeyword, .falseKeyword] none
  | .tupleLiteral =>
    only .openBracket ++ separated (one Kind.expressions none) (only .comma) ++
      only .closeBracket
  | .unaryExpression =>
    part .operator [.additiveOperator, .notOperator] ++ part .operand Kind.operands
  | .binaryExpression =>
    part .left (.binaryExpression :: .nominalType :: Kind.operands) ++
      part .operator Kind.binaryOperators ++ part .right Kind.simples
  | .multiplicativeOperator => one [.star, .slash, .percent] none
  | .additiveOperator => one [.plus, .minus] none
  | .comparativeOperator =>
    one [.equals, .notEquals, .greater, .greaterEquals, .less, .lessEquals] none
  | .parenthisizedExpression =>
    only .openParen ++ one Kind.expressions none ++ only .closeParen
  | .callExpression =>
    part .command (.nominalType :: Kind.atoms) ++ only .openParen ++
      opt (part .params [.callParamList]) ++ only .closeParen
  | .callParamList => many (only .callParam)
  | .callParam =>
    part .name [.argumentName] ++ only .colon ++ part .value Kind.simples ++ opt (only .comma)
  | .pipedExpression =>
    part .left Kind.expressions ++ part .operator [.pipeOperator] ++ part .right Kind.steps
  | .pipeOperator => one [.question, .semicolon] none
  | .branchedExpression =>
    only .branchExpression ++ many (only .comma ++ only .branchExpression) ++
      opt (only .comma ++ one Kind.simples none)
  | .branchExpression =>
    only .pipe ++ part .captureGroup [.captureGroup] ++ only .pipe ++
      part .body (.loopedExpression :: Kind.simples)
  | .captureGroup =>
    one (.nominalType :: Kind.simples) none ++ many (only .comma ++ one Kind.simples none)
  | .loopedExpression => only .parenthisizedExpression ++ only .caret
  | .lambdaExpression => only .openBrace ++ one Kind.expressions none ++ only .closeBrace
  | .accessExpression =>
    one (.nominalType :: Kind.atoms) none ++ only .dot ++ only .argumentName
  | _ => nothing

/-- The nodes of operators. -/
def operatorNodes : OperatorNodes Token where
  toOperators := operators
  classes := [(Kind.multiplicativeOperator, .multiplicative), (Kind.additiveOperator, .additive),
    (Kind.comparativeOperator, .comparative), (Kind.andOperator, .conjunctive),
    (Kind.orOperator, .disjunctive)]
  unary := Kind.unaryExpression
  operand := Field.operand
  pipe := Kind.pipedExpression

/-- The layouts of the trees of PeoPl. -/
def schema : Schema Token Kind Field :=
  ⟨Kind.id, Field.id, layout, operatorNodes, Kind.id_injective⟩

/-- The fields of the schema are those of the rules. -/
@[simp] theorem schema_fieldId (field : Field) : schema.fieldId field = field.id := rfl

/-- The schema lets operators join operands; on the left a type may stand too, as the first capture
    of a branch can be one. -/
theorem schema_joins : schema.Joins .binaryExpression (.nominalType :: Kind.operands)
    Kind.operands Kind.binaryOperators .left .operator .right := by
  refine ⟨rfl, rfl, rfl, rfl, rfl, List.subset_cons_self _ _, ?_⟩
  decide

/-- Nodes that fit a layout and conform. -/
abbrev Lays := schema.Lays

/-- A node of one of some kinds that conforms. -/
abbrev Makes (kinds : List Kind) (node : RawNode) : Prop := schema.Makes kinds node

/-! ## Tokens -/

theorem argumentName_makes : argumentName.Yields (Makes [.argumentName]) :=
  .ite (schema_joins.leaf_makes rfl) .fail

theorem colon_makes : colon.Yields (Makes [.colon]) := schema_joins.expect_makes rfl

/-- A comma that may be left out adds one child or none. -/
theorem optionalComma_lays : optionalComma.Yields (Lays (opt (only .comma))) := by
  refine .ite ?_ ?_
  · refine .bind (schema_joins.leaf_makes rfl) fun _ hcomma => ?_
    exact .pure hcomma.some
  · exact .pure .none

/-- A comma and what follows it, any number of times. -/
theorem commas_lay {condition : TokenStream Token → Bool} {item : Rule Token RawNode}
    {kinds : List Kind} (hitem : item.Yields (Makes kinds)) :
    (Rule.repeatWhile condition do
      let comma ← Rule.leaf Kind.comma
      return [comma, ← item]).Yields (Lays (many (only .comma ++ one kinds none))) :=
  schema_joins.marked_lay rfl hitem

/-- A truth value has its keyword for its only child. -/
theorem boolLiteral_makes {kind : Kind} (hk : kind ∈ [Kind.trueKeyword, .falseKeyword]) :
    (boolLiteral kind).Yields (Makes [.boolLiteral]) := by
  have hleaf : layout kind = nothing := by
    rcases List.mem_pair.1 hk with rfl | rfl <;> rfl
  exact .bind (schema_joins.leaf_makes hleaf) fun _ hkeyword =>
    .pure (.branch _ (hkeyword.mono (List.cons_subset.2 ⟨hk, List.nil_subset _⟩)) (by decide))

/-- The operators show by the kinds of operators, which tell their classes. -/
theorem operatorForm?_shows (t : Token) : ∀ form ∈ operatorForm? t,
    schema.Shows Kind.binaryOperators form ∧
      operatorNodes.classes.lookup form.outerKind = some form.level := by
  cases t <;> decide

/-- Signs show as additive operators, or as the keyword of negation. -/
theorem signForm?_shows (t : Token) : ∀ form ∈ signForm? t,
    schema.Shows [.additiveOperator, .notOperator] form := by
  cases t <;> decide

/-- Inner rules that make nodes that conform. -/
structure Below.Makes (below : Below) : Prop where
  expression : below.expression.Yields (Peopl.Makes Kind.expressions)
  typeIdentifier : below.typeIdentifier.Yields (Peopl.Makes [.typeIdentifier])
  unary : below.unary.Yields (Peopl.Makes Kind.operands)

section Rules

variable {below : Below} (hb : below.Makes)
include hb

/-! ## Types -/

/-- Types and commas stand in turn. -/
theorem typeIdentifiers_lay :
    (typeIdentifiers below).Yields (Lays (separated (only .typeIdentifier) (only .comma))) := by
  refine .bind hb.typeIdentifier fun _ hfirst => ?_
  refine .bind (commas_lay hb.typeIdentifier) fun _ hmore => ?_
  exact .pure (hfirst.seq hmore)

/-- Type arguments have types between angle brackets. -/
theorem typeArguments_makes : (typeArguments below).Yields (Makes [.typeArguments]) := by
  refine .bind (schema_joins.leaf_makes rfl) fun _ hopening => ?_
  refine .bind (typeIdentifiers_lay hb) fun _ htypes => ?_
  refine .bind (schema_joins.expect_makes rfl) fun _ hclosing => ?_
  exact .pure (.branch _ ((hopening.seq htypes).seq hclosing) (by decide))

/-- The name of a type is in a field, and so are its arguments, if it has any. -/
theorem flatNominalType_makes : (flatNominalType below).Yields (Makes [.flatNominalType]) := by
  refine .bind (schema_joins.expect_makes rfl) fun _ hname => ?_
  refine .ite ?_ ?_
  · refine .bind (typeArguments_makes hb) fun _ harguments => ?_
    exact .pure (.branch _ ((hname.withField Field.typeName).seq
      (harguments.withField Field.typeArguments).some) (by decide))
  · exact .pure (.branch _ ((hname.withField Field.typeName).seq .none) (by decide))

/-- A nominal type has names with double colons between. -/
theorem nominalType_makes : (nominalType below).Yields (Makes [.nominalType]) := by
  refine .bind (flatNominalType_makes hb) fun _ hfirst => ?_
  refine .bind (schema_joins.marked_lay rfl (flatNominalType_makes hb)) fun _ hmore => ?_
  exact .pure (.branch _ (hfirst.seq hmore) (by decide))

/-- A tuple type has types between brackets. -/
theorem tupleStructuralType_makes :
    (tupleStructuralType below).Yields (Makes [.tupleStructuralType]) := by
  refine .bind (schema_joins.leaf_makes rfl) fun _ hopening => ?_
  refine .bind (typeIdentifiers_lay hb) fun _ htypes => ?_
  refine .bind (schema_joins.expect_makes rfl) fun _ hclosing => ?_
  exact .pure (.branch _ ((hopening.seq htypes).seq hclosing) (by decide))

/-- All that stands between the braces is in one field, commas included. -/
theorem inputTypes_lay : (inputTypes below).Yields (Lays (opt
    (separated (part .inputType [.typeIdentifier]) (part .inputType [.comma])))) := by
  refine .ite ?_ ?_
  · exact .pure .none
  · refine .bind (typeIdentifiers_lay hb) fun _ htypes => ?_
    exact .pure (htypes.map_withField Field.inputType).some

/-- A function type has braces, an arrow and a result, of which the result is in a field. -/
theorem lambdaStructuralType_makes :
    (lambdaStructuralType below).Yields (Makes [.lambdaStructuralType]) := by
  refine .bind (schema_joins.leaf_makes rfl) fun _ hopening => ?_
  refine .bind (inputTypes_lay hb) fun _ hinputs => ?_
  refine .bind (schema_joins.expect_makes rfl) fun _ hclosing => ?_
  refine .bind (schema_joins.expect_makes rfl) fun _ harrow => ?_
  refine .bind hb.typeIdentifier fun _ hresult => ?_
  exact .pure (.branch _ (((((hopening.seq hinputs).seq hclosing).seq harrow).seq
    (hresult.withField Field.returnType)).of_eq (by simp)) (by decide))

/-- A type identifier is one node around a type of any form. -/
theorem typeReference_makes : (typeReference below).Yields (Makes [.typeIdentifier]) := by
  have hinner : ∀ {kinds : List Kind} {r : Rule Token RawNode}, kinds ⊆ Kind.types →
      r.Yields (Makes kinds) → (do return .branch Kind.typeIdentifier [← r] :
        Rule Token RawNode).Yields (Makes [.typeIdentifier]) := fun hk hr =>
    .bind hr fun _ hinner => .pure (.branch _ (hinner.mono hk) (by decide))
  refine .peek fun next => ?_
  split
  case h_1 => exact hinner (by decide) (schema_joins.leaf_makes rfl)
  case h_2 => exact hinner (by decide) (schema_joins.leaf_makes rfl)
  case h_3 => exact hinner (by decide) (nominalType_makes hb)
  case h_4 => exact hinner (by decide) (lambdaStructuralType_makes hb)
  case h_5 => exact hinner (by decide) (tupleStructuralType_makes hb)
  case h_6 => exact .bind .fail fun _ h => h

/-! ## Operands -/

/-- What extends an operand leaves it as it is, or makes binary expressions. -/
theorem extend_makes {first : RawNode} {firsts : List Kind}
    (hsub : firsts ⊆ .nominalType :: Kind.operands) (hfirst : Makes firsts first) :
    (operators.extend below.unary first).Yields (Makes (.binaryExpression :: firsts)) :=
  schema_joins.extend operatorForm?_shows hb.unary hsub hfirst

/-- A simple expression is an operand or a binary expression. -/
theorem simpleExpression_makes : (simpleExpression below).Yields (Makes Kind.simples) :=
  schema_joins.expression operatorForm?_shows hb.unary

/-- A tuple has expressions between brackets. -/
theorem tupleLiteral_makes : (tupleLiteral below).Yields (Makes [.tupleLiteral]) := by
  refine .bind (schema_joins.leaf_makes rfl) fun _ hopening => ?_
  refine .bind hb.expression fun _ hfirst => ?_
  refine .bind (commas_lay hb.expression) fun _ hmore => ?_
  refine .bind (schema_joins.expect_makes rfl) fun _ hclosing => ?_
  exact .pure (.branch _ ((hopening.seq (hfirst.seq hmore)).seq hclosing) (by decide))

/-- Parentheses hold one expression, of whatever kind. -/
theorem parenthisizedExpression_makes :
    (parenthisizedExpression below).Yields (Makes [.parenthisizedExpression]) := by
  refine .bind (schema_joins.leaf_makes rfl) fun _ hopening => ?_
  refine .bind hb.expression fun _ hexpression => ?_
  refine .bind (schema_joins.expect_makes rfl) fun _ hclosing => ?_
  exact .pure (.branch _ ((hopening.seq hexpression).seq hclosing) (by decide))

/-- Braces hold one expression, of whatever kind. -/
theorem lambdaExpression_makes : (lambdaExpression below).Yields (Makes [.lambdaExpression]) := by
  refine .bind (schema_joins.leaf_makes rfl) fun _ hopening => ?_
  refine .bind hb.expression fun _ hexpression => ?_
  refine .bind (schema_joins.expect_makes rfl) fun _ hclosing => ?_
  exact .pure (.branch _ ((hopening.seq hexpression).seq hclosing) (by decide))

/-- A type, with a suffix behind it unless it may stand alone. -/
theorem typeOperand_makes {bareType : Bool} {s s' : TokenStream Token} {node : RawNode}
    (h : typeOperand below bareType s = .ok (node, s')) :
    Makes [.nominalType] node ∧ (bareType = false → (suffix? s').isSome) := by
  obtain ⟨type, s₁, htype, h⟩ := Rule.bind_eq_ok.1 h
  obtain ⟨hp, h⟩ | ⟨-, h⟩ := Rule.ite_eq_ok.1 h
  · obtain ⟨rfl, rfl⟩ := Rule.pure_eq_ok.1 h
    refine ⟨nominalType_makes hb htype, ?_⟩
    rintro rfl
    rw [Bool.false_or, Bool.or_eq_true] at hp
    rcases hp with hp | hp <;> simp [suffix?, TokenStream.peek_of_isAt hp]
  · cases h

/-- An operand without what follows it, or a type with something that must follow it. -/
theorem primary_makes {bareType : Bool} {s s' : TokenStream Token} {node : RawNode}
    (h : primary below bareType s = .ok (node, s')) :
    Makes Kind.atoms node ∨
      (Makes [.nominalType] node ∧ (bareType = false → (suffix? s').isSome)) := by
  have hatom : ∀ {kinds : List Kind} {r : Rule Token RawNode}, kinds ⊆ Kind.atoms →
      r.Yields (Makes kinds) → r s = .ok (node, s') → Makes Kind.atoms node :=
    fun hk hr h => (hr h).mono hk
  obtain ⟨r, hr, h⟩ := Rule.peek_bind_eq_ok.1 h
  split at hr <;> subst hr
  case h_1 => exact .inl (hatom (by decide) (schema_joins.leaf_makes rfl) h)
  case h_2 => exact .inl (hatom (by decide) (schema_joins.leaf_makes rfl) h)
  case h_3 => exact .inl (hatom (by decide) (schema_joins.numeral_makes rfl rfl) h)
  case h_4 => exact .inl (hatom (by decide) (schema_joins.leaf_makes rfl) h)
  case h_5 => exact .inl (hatom (by decide) (boolLiteral_makes (by decide)) h)
  case h_6 => exact .inl (hatom (by decide) (boolLiteral_makes (by decide)) h)
  case h_7 => exact .inl (hatom (by decide) (schema_joins.leaf_makes rfl) h)
  case h_8 => exact .inl (hatom (by decide) (schema_joins.leaf_makes rfl) h)
  case h_9 => exact .inl (hatom (by decide) (tupleLiteral_makes hb) h)
  case h_10 => exact .inl (hatom (by decide) (parenthisizedExpression_makes hb) h)
  case h_11 => exact .inl (hatom (by decide) (lambdaExpression_makes hb) h)
  case h_12 => exact .inr (typeOperand_makes hb h)
  case h_13 => cases h

/-- An argument has a name, a colon and a value, and perhaps a comma of its own. -/
theorem callParam_makes : (callParam below).Yields (Makes [.callParam]) := by
  refine .bind argumentName_makes fun _ hname => ?_
  refine .bind colon_makes fun _ hcolon => ?_
  refine .bind (simpleExpression_makes hb) fun _ hvalue => ?_
  refine .bind optionalComma_lays fun _ hcomma => ?_
  exact .pure (.branch _ ((((hname.withField Field.name).seq hcolon).seq
    (hvalue.withField Field.value)).seq hcomma) (by decide))

/-- The arguments are in one node, in a field of its own, or there is no such node. -/
theorem callParams_lay :
    (callParams below).Yields (Lays (opt (part .params [.callParamList]))) := by
  refine .ite ?_ ?_
  · refine .bind (.each (callParam_makes hb)) fun _ hparams => ?_
    exact .pure ((Schema.Lays.branch Kind.callParamList hparams (by decide)).withField
      Field.params).some
  · exact .pure .none

/-- A suffix makes an operand of an operand or of a type. -/
theorem withSuffix_makes (suffix : Suffix) {operand : RawNode}
    (hl : Makes (.nominalType :: Kind.atoms) operand) :
    (withSuffix below suffix operand).Yields (Makes Kind.atoms) := by
  cases suffix with
  | call =>
    refine .bind (schema_joins.leaf_makes rfl) fun _ hopening => ?_
    refine .bind (callParams_lay hb) fun _ hparams => ?_
    refine .bind (schema_joins.expect_makes rfl) fun _ hclosing => .pure ?_
    have hrow := (((hl.withField Field.command).seq hopening).seq hparams).seq hclosing
    exact (Schema.Lays.branch Kind.callExpression hrow (by decide)).mono (by decide)
  | access =>
    refine .bind (schema_joins.leaf_makes rfl) fun _ hdot => ?_
    refine .bind argumentName_makes fun _ hname => .pure ?_
    have hrow := (hl.seq hdot).seq hname
    exact (Schema.Lays.branch Kind.accessExpression hrow (by decide)).mono (by decide)

/-- Suffixes leave an operand as it is, or make calls and accesses of it. -/
theorem withSuffixes_makes {operand : RawNode} {firsts : List Kind}
    (hatoms : Kind.atoms ⊆ firsts) (hsub : firsts ⊆ .nominalType :: Kind.atoms)
    (hl : Makes firsts operand) : (withSuffixes below operand).Yields (Makes firsts) :=
  .growWhile hl fun _ hl => (withSuffix_makes hb _ (hl.mono hsub)).imp fun _ h => h.mono hatoms

/-- A type with a suffix is an operand. -/
theorem withSuffixes_makes_of_type {s s' : TokenStream Token} {type node : RawNode}
    (hl : Makes [.nominalType] type) (hs : (suffix? s).isSome)
    (h : withSuffixes below type s = .ok (node, s')) : Makes Kind.atoms node := by
  obtain ⟨suffix, hs⟩ := Option.isSome_iff_exists.1 hs
  obtain ⟨t, hp⟩ : ∃ t, s.peek = some t := by
    unfold suffix? at hs
    split at hs <;> simp_all
  obtain ⟨_, operand, s₂, hround, h⟩ := Rule.exists_round_of_iterate_ok hp hs h
  refine Rule.iterateFrom_ok (I := fun node _ => Makes Kind.atoms node)
    (fun suffix _ _ _ _ _ hl hround => ?_) ?_ h
  · exact withSuffix_makes hb suffix (hl.mono (List.subset_cons_self _ _)) hround
  · exact withSuffix_makes hb suffix (hl.mono (by decide)) hround

/-- An operand with its suffixes, where a type must have one. -/
theorem suffixed_makes : (suffixed below false).Yields (Makes Kind.atoms) := fun _ _ _ h => by
  obtain ⟨operand, s₁, hoperand, h⟩ := Rule.bind_eq_ok.1 h
  rcases primary_makes hb hoperand with hoperand | ⟨htype, hs⟩
  · exact withSuffixes_makes hb (List.Subset.refl _) (List.subset_cons_self _ _) hoperand h
  · exact withSuffixes_makes_of_type hb htype (hs rfl) h

/-- A sign in front makes a unary expression; without one the operand is as it is. -/
theorem signed_makes : (signed below).Yields (Makes Kind.operands) := by
  refine schema_joins.signed_makes signForm?_shows rfl rfl rfl rfl (by decide) ?_ hb.unary
  exact (suffixed_makes hb).imp fun _ h => h.mono (List.subset_cons_self _ _)

/-! ## Expressions -/

/-- An operand with its suffixes may be a type by itself if it stands first in a capture. -/
theorem suffixed_makes_capture :
    (suffixed below true).Yields (Makes (.nominalType :: Kind.atoms)) := fun _ _ _ h => by
  obtain ⟨operand, s₁, hoperand, h⟩ := Rule.bind_eq_ok.1 h
  have hfirst : Makes (.nominalType :: Kind.atoms) operand := by
    rcases primary_makes hb hoperand with h | ⟨h, -⟩
    · exact h.mono (List.subset_cons_self _ _)
    · exact h.mono (by decide)
  exact withSuffixes_makes hb (List.subset_cons_self _ _) (List.Subset.refl _) hfirst h

/-- A first capture is a simple expression or a type by itself. -/
theorem firstCapture_makes :
    (firstCapture below).Yields (Makes (.nominalType :: Kind.simples)) := by
  refine .ite ?_ ?_
  · refine .bind (suffixed_makes_capture hb) fun _ hsuffixed => ?_
    exact (extend_makes hb (by decide) hsuffixed).imp fun _ h => h.mono (by decide)
  · exact (simpleExpression_makes hb).imp fun _ h => h.mono (List.subset_cons_self _ _)

/-- Captures and commas stand in turn. -/
theorem captureGroup_makes : (captureGroup below).Yields (Makes [.captureGroup]) := by
  refine .bind (firstCapture_makes hb) fun _ hfirst => ?_
  refine .bind (commas_lay (simpleExpression_makes hb)) fun _ hmore => ?_
  exact .pure (.branch _ (hfirst.seq hmore) (by decide))

/-- Parentheses in front of a caret are looped; in front of anything else they are an operand. -/
theorem afterParens_makes {parens : RawNode} (hl : Makes [.parenthisizedExpression] parens) :
    (afterParens below parens).Yields (Makes (.loopedExpression :: Kind.simples)) := by
  refine .ite ?_ ?_
  · refine .bind (schema_joins.leaf_makes rfl) fun _ hcaret => ?_
    exact .pure ((Schema.Lays.branch Kind.loopedExpression (hl.seq hcaret) (by decide)).mono
      (by decide))
  · refine .bind (withSuffixes_makes hb (List.Subset.refl _) (List.subset_cons_self _ _)
      (hl.mono (by decide))) fun _ hoperand => ?_
    exact (extend_makes hb (by decide) hoperand).imp fun _ h => h.mono (by decide)

/-- The body of a branch is a loop or a simple expression. -/
theorem branchBody_makes :
    (branchBody below).Yields (Makes (.loopedExpression :: Kind.simples)) := by
  refine .ite ?_ ?_
  · exact .bind (parenthisizedExpression_makes hb) fun _ hparens => afterParens_makes hb hparens
  · exact (simpleExpression_makes hb).imp fun _ h => h.mono (List.subset_cons_self _ _)

/-- A branch has its captures between bars, and behind them its body. -/
theorem branchExpression_makes : (branchExpression below).Yields (Makes [.branchExpression]) := by
  refine .bind (schema_joins.leaf_makes rfl) fun _ hopening => ?_
  refine .bind (captureGroup_makes hb) fun _ hcaptures => ?_
  refine .bind (schema_joins.expect_makes rfl) fun _ hclosing => ?_
  refine .bind (branchBody_makes hb) fun _ hbody => ?_
  exact .pure (.branch _ (((hopening.seq (hcaptures.withField Field.captureGroup)).seq hclosing).seq
    (hbody.withField Field.body)) (by decide))

/-- A default has its comma beside it, not inside it. -/
theorem branchDefault_lay :
    (branchDefault below).Yields (Lays (opt (only .comma ++ one Kind.simples none))) := by
  refine .ite ?_ ?_
  · refine .bind (schema_joins.leaf_makes rfl) fun _ hcomma => ?_
    refine .bind (simpleExpression_makes hb) fun _ hdefault => ?_
    exact .pure (hcomma.seq hdefault).some
  · exact .pure .none

/-- Branches and commas stand in turn, and a default comes last. -/
theorem branchedExpression_makes :
    (branchedExpression below).Yields (Makes [.branchedExpression]) := by
  refine .bind (branchExpression_makes hb) fun _ hfirst => ?_
  refine .bind (commas_lay (branchExpression_makes hb)) fun _ hmore => ?_
  refine .bind (branchDefault_lay hb) fun _ hdefault => ?_
  exact .pure (.branch _ ((hfirst.seq hmore).seq hdefault) (by decide))

theorem pipeOperand_makes : (pipeOperand below).Yields (Makes Kind.steps) :=
  .ite
    ((branchedExpression_makes hb).imp fun _ h => h.mono (by decide))
    ((simpleExpression_makes hb).imp fun _ h => h.mono (List.subset_cons_self _ _))

/-- Steps in a chain are grouped to the left, each with the operator that joins it. -/
theorem pipeChain_makes : (pipeChain below).Yields (Makes Kind.expressions) := by
  have hstep : Kind.steps ⊆ Kind.expressions := List.subset_cons_self _ _
  refine .bind (pipeOperand_makes hb) fun _ hfirst =>
    .growWhile (hfirst.mono hstep) fun {s kind left} hs hl => ?_
  have htoken : (Rule.leaf kind : Rule Token RawNode).Yields (Makes [.question, .semicolon]) := by
    unfold pipeKind? at hs
    split at hs <;> cases hs
    · exact (schema_joins.leaf_makes rfl).imp fun _ h => h.mono (by decide)
    · exact (schema_joins.leaf_makes rfl).imp fun _ h => h.mono (by decide)
  refine .bind htoken fun _ htoken => ?_
  refine .bind (pipeOperand_makes hb) fun _ hright => .pure ?_
  have hoperator := Schema.Lays.branch Kind.pipeOperator htoken (by decide)
  have hrow := ((hl.withField Field.left).seq (hoperator.withField Field.operator)).seq
    (hright.withField Field.right)
  exact (Schema.Lays.branch Kind.pipedExpression hrow (by decide)).mono (by decide)

end Rules

/-- The rules of every level make nodes as the layouts say. -/
theorem level_makes (n : Nat) : (level n).Makes :=
  Nested.level_forall ⟨.tooDeep, .tooDeep, .tooDeep⟩
    (fun _ hb => ⟨pipeChain_makes hb, typeReference_makes hb, signed_makes hb⟩) n

theorem top_makes : top.Makes := level_makes _

/-! ## Statements -/

/-- A default value is in a field, its parentheses are not. -/
theorem defaultValue_lays : defaultValue.Yields
    (Lays (opt (only .openParen ++ part .defaultValue Kind.simples ++ only .closeParen))) := by
  refine .ite ?_ ?_
  · refine .bind (schema_joins.leaf_makes rfl) fun _ hopening => ?_
    refine .bind (simpleExpression_makes top_makes) fun _ hvalue => ?_
    refine .bind (schema_joins.expect_makes rfl) fun _ hclosing => ?_
    exact .pure ((hopening.seq (hvalue.withField Field.defaultValue)).seq hclosing).some
  · exact .pure .none

/-- A parameter has a name, a colon and a type, perhaps a default value, and perhaps a comma. -/
theorem paramDefinition_makes : paramDefinition.Yields (Makes [.paramDefinition]) := by
  refine .bind argumentName_makes fun _ hname => ?_
  refine .bind colon_makes fun _ hcolon => ?_
  refine .bind top_makes.typeIdentifier fun _ htype => ?_
  refine .bind defaultValue_lays fun _ hvalue => ?_
  refine .bind optionalComma_lays fun _ hcomma => ?_
  exact .pure (.branch _ (((((hname.withField Field.name).seq hcolon).seq
    (htype.withField Field.type)).seq hvalue).seq hcomma) (by decide))

/-- The parameters are in one node, in a field of its own, or there is no such node. -/
theorem paramList_lays : paramList.Yields (Lays (opt (part .params [.paramList]))) := by
  refine .ite ?_ ?_
  · refine .bind (.each paramDefinition_makes) fun _ hparams => ?_
    exact .pure ((Schema.Lays.branch Kind.paramList hparams (by decide)).withField
      Field.params).some
  · exact .pure .none

/-- A type with parameters has its name in a field. -/
theorem simpleTypeDefinition_makes {name : RawNode} (hname : Makes [.nominalType] name) :
    (simpleTypeDefinition name).Yields (Makes [.simpleTypeDefinition]) :=
  .bind paramList_lays fun _ hparams =>
    .pure (.branch _ ((hname.withField Field.name).seq hparams) (by decide))

/-- A type with cases has its own name in one field and its cases in another. -/
theorem enumTypeDefinition_makes {name : RawNode} (hname : Makes [.nominalType] name) :
    (enumTypeDefinition name).Yields (Makes [.enumTypeDefinition]) := by
  have hcase : (do
      let case ← simpleTypeDefinition (← nominalType top)
      return [case.withField Field.caseType] : Rule Token (List RawNode)).Yields
        (Lays (part .caseType [.simpleTypeDefinition])) := by
    refine .bind (nominalType_makes top_makes) fun _ hname => ?_
    refine .bind (simpleTypeDefinition_makes hname) fun _ hcase => ?_
    exact .pure (hcase.withField Field.caseType)
  refine .bind (.repeatWhile hcase) fun _ hcases => ?_
  exact .pure (.branch _ ((hname.withField Field.metaType).seq hcases) (by decide))

/-- The definition of a type is one node around either form. -/
theorem typeDefinition_makes : typeDefinition.Yields (Makes [.typeDefinition]) := by
  refine .bind (schema_joins.leaf_makes rfl) fun _ hkeyword => ?_
  refine .bind (nominalType_makes top_makes) fun _ hname => ?_
  refine .ite ?_ ?_
  · refine .bind (enumTypeDefinition_makes hname) fun _ hdefinition => ?_
    exact .pure (.branch _ (hkeyword.seq (hdefinition.mono (by decide))) (by decide))
  · refine .bind (simpleTypeDefinition_makes hname) fun _ hdefinition => ?_
    exact .pure (.branch _ (hkeyword.seq (hdefinition.mono (by decide))) (by decide))

theorem firstModule_lays : firstModule.Yields (Lays (opt (only .nominalType))) := by
  refine .ite ?_ ?_
  · refine .bind (nominalType_makes top_makes) fun _ hfirst => ?_
    exact .pure hfirst.some
  · exact .pure .none

/-- A namespace has modules and commas in turn, between brackets; the first module may be missing.
    -/
theorem namespaceState_makes : namespaceState.Yields (Makes [.namespaceState]) := by
  refine .bind (schema_joins.leaf_makes rfl) fun _ hkeyword => ?_
  refine .bind (schema_joins.expect_makes rfl) fun _ hopening => ?_
  refine .bind firstModule_lays fun _ hfirst => ?_
  refine .bind (commas_lay (nominalType_makes top_makes)) fun _ hmore => ?_
  refine .bind (schema_joins.expect_makes rfl) fun _ hclosing => ?_
  exact .pure (.branch _ ((((hkeyword.seq hopening).seq hfirst).seq hmore).seq hclosing)
    (by decide))

/-- A named value has its scope in front, if it has one. -/
theorem constantsStatement_makes {scope : List RawNode}
    (hscope : Lays (opt (only .nominalType ++ only .dot)) scope) :
    (constantsStatement scope).Yields (Makes [.constantsStatement]) := by
  refine .bind argumentName_makes fun _ hname => ?_
  refine .bind (schema_joins.expect_makes rfl) fun _ hequals => ?_
  refine .bind (simpleExpression_makes top_makes) fun _ hvalue => ?_
  exact .pure (.branch _ ((((hscope.seq hname).seq hequals).seq hvalue).of_eq (by simp))
    (by decide))

/-- The type of the input is in a field, its parentheses are not. -/
theorem inputType_lays : inputType.Yields
    (Lays (opt (only .openParen ++ part .inputType [.typeIdentifier] ++ only .closeParen))) := by
  refine .ite ?_ ?_
  · refine .bind (schema_joins.leaf_makes rfl) fun _ hopening => ?_
    refine .bind top_makes.typeIdentifier fun _ htype => ?_
    refine .bind (schema_joins.expect_makes rfl) fun _ hclosing => ?_
    exact .pure ((hopening.seq (htype.withField Field.inputType)).seq hclosing).some
  · exact .pure .none

/-- The type that a function belongs to is in the field of the scope, and so is its dot. -/
theorem functionScope_lays : functionScope.Yields
    (Lays (opt (part .scope [.nominalType] ++ part .scope [.dot]))) := by
  refine .ite ?_ ?_
  · refine .bind (nominalType_makes top_makes) fun _ htype => ?_
    refine .bind (schema_joins.expect_makes rfl) fun _ hdot => ?_
    exact .pure ((htype.withField Field.scope).seq (hdot.withField Field.scope)).some
  · exact .pure .none

/-- A function has its parts in the order of its layout, of which three are optional. -/
theorem functionDefinition_makes : functionDefinition.Yields (Makes [.functionDefinition]) := by
  refine .bind (schema_joins.leaf_makes rfl) fun _ hkeyword => ?_
  refine .bind inputType_lays fun _ hinput => ?_
  refine .bind functionScope_lays fun _ hscope => ?_
  refine .bind argumentName_makes fun _ hname => ?_
  refine .bind (schema_joins.expect_makes rfl) fun _ hopening => ?_
  refine .bind paramList_lays fun _ hparams => ?_
  refine .bind (schema_joins.expect_makes rfl) fun _ hclosing => ?_
  refine .bind (schema_joins.expect_makes rfl) fun _ harrow => ?_
  refine .bind top_makes.typeIdentifier fun _ houtput => ?_
  refine .bind top_makes.expression fun _ hbody => ?_
  refine .pure (.branch _ ?_ (by decide))
  have hhead := ((hkeyword.seq hinput).seq hscope).seq (hname.withField Field.name)
  have hparams := ((hhead.seq (hopening.withField Field.params)).seq hparams).seq
    (hclosing.withField Field.params)
  exact (((hparams.seq harrow).seq (houtput.withField Field.outputType)).seq
    (hbody.withField Field.body)).of_eq (by simp)

/-- What begins with a type is an implementation or a named value. -/
theorem scopedStatement_makes :
    scopedStatement.Yields (Makes [.implementationStatement, .constantsStatement]) := by
  refine .bind (nominalType_makes top_makes) fun _ htype => .peek fun next => ?_
  split
  · refine .bind (schema_joins.leaf_makes rfl) fun _ hequals => ?_
    refine .bind (nominalType_makes top_makes) fun _ himplementation => .pure ?_
    exact (Schema.Lays.branch Kind.implementationStatement ((htype.seq hequals).seq himplementation)
      (by decide)).mono (by decide)
  · exact .bind (schema_joins.leaf_makes rfl) fun _ hdot => (constantsStatement_makes
      (htype.seq hdot).some).imp fun _ h => h.mono (by decide)
  · exact .fail

/-- A statement is one of five kinds. -/
theorem openStatement_makes : openStatement.Yields (Makes Kind.statements) := by
  refine .peek fun next => ?_
  split
  case h_1 => exact namespaceState_makes.imp fun _ h => h.mono (by decide)
  case h_2 => exact typeDefinition_makes.imp fun _ h => h.mono (by decide)
  case h_3 => exact functionDefinition_makes.imp fun _ h => h.mono (by decide)
  case h_4 => exact scopedStatement_makes.imp fun _ h => h.mono (by decide)
  case h_5 => exact (constantsStatement_makes .none).imp fun _ h => h.mono (by decide)
  case h_6 => exact (constantsStatement_makes .none).imp fun _ h => h.mono (by decide)
  case h_7 => exact .fail

/-! ## Sources -/

/-- One node that may stand at the root is such a row by itself. -/
theorem item_lays {kinds : List Kind} {node : RawNode} (h : Makes kinds node)
    (hk : kinds ⊆ Kind.items) : Lays (many (one Kind.items none)) [node] :=
  (h.mono hk).single

/-- Statements, dots, broken statements and comments are all that the root of a tree has. -/
theorem grammar_conforms : grammar.Conforms schema Kind.items .sourceFile where
  statement := by
    refine .bind openStatement_makes fun _ hstatement => ?_
    refine .bind (schema_joins.expect_makes rfl) fun _ hending => ?_
    exact .pure ((item_lays hstatement (by decide)).append (item_lays hending (by decide)))
  recover s := by
    have herror : ∀ span, Makes [.error] (.error span []) := fun span =>
      Schema.Lays.of_nothing (S := schema) span rfl (by decide)
    have hdots : ∀ span, Makes [.dotDot] (.leaf Kind.dotDot span) := fun span =>
      Schema.Lays.of_nothing (S := schema) span rfl (by decide)
    simp only [grammar, recover]
    split
    · exact (item_lays (herror _) (by decide)).append (item_lays (hdots _) (by decide))
    · exact item_lays (herror _) (by decide)
  root_id := rfl
  root_layout := rfl
  root_ne := by decide

end GrammarTools.Peopl
