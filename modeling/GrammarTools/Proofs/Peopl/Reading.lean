import GrammarTools.Peopl.Rules
import GrammarTools.Proofs.Peopl.Productions
import GrammarTools.Proofs.Reading

/-!
# What the rules of PeoPl read

Every rule of PeoPl that succeeds has read tokens derived from the production
of its name, and has built nodes that spell them (`Reads`). Each rule is
followed through once; the rules that stand inside themselves are followed by
induction on their level (`level_reads`).

A type alone is no operand. Where one is read in an expression, either a call
or an access follows, or it stands first in a capture; there it must not be
compared by a less-than sign unless it has arguments
(`nominalType_appliedType`).
-/

namespace GrammarTools.Peopl

/-- What a rule builds. -/
abbrev Reads (p : Pattern Nonterminal Token) (nodes : List RawNode)
    (s s' : TokenStream Token) : Prop :=
  Builds Kind.comment productions p nodes s s'

/-- Inner rules that read what they should. -/
structure Below.Reads (below : Below) : Prop where
  expression : ∀ {s node s'}, below.expression s = .ok (node, s') →
    Peopl.Reads (.rule .expression) [node] s s'
  typeIdentifier : ∀ {s node s'}, below.typeIdentifier s = .ok (node, s') →
    Peopl.Reads (.rule .typeIdentifier) [node] s s'
  unary : ∀ {s node s'}, below.unary s = .ok (node, s') →
    Peopl.Reads (.rule .simpleExpression) [node] s s'

variable {below : Below} {s s₁ s' : TokenStream Token} {node : RawNode} {nodes : List RawNode}

/-- The node of a rule, which is never empty. -/
theorem Reads.ofRule {n : Nonterminal} {kind : KindId} (h : Reads (productions n) nodes s s')
    (hk : kind.isPlain Kind.comment) : Reads (.rule n) [.branch kind nodes] s s' :=
  Builds.ofRule productions_isSolid h hk

/-- In front of an argument stands a name or an underscore. -/
theorem peek_of_atArgumentName (h : atArgumentName s = true) :
    ∃ t ∈ [Token.argumentName, .underscore], s.peek = some t := by
  obtain ⟨t, hp, ht⟩ := (Option.any_eq_true _ _).1 h
  refine ⟨t, ?_, hp⟩
  cases t <;> simp_all [isArgumentName]

theorem exists_peek_of_atNamedParam (h : atNamedParam s = true) : ∃ t, s.peek = some t := by
  rw [atNamedParam, Bool.and_eq_true] at h
  obtain ⟨t, -, hp⟩ := peek_of_atArgumentName h.1
  exact ⟨t, hp⟩

/-! ## Operators -/

/-- No operator shows as a comment or as an error. -/
theorem operatorForm?_isPlain (t : Token) :
    ∀ form ∈ operatorForm? t, form.IsPlain Kind.comment := by
  cases t <;> decide

/-- The tokens in front of operands, as the productions list them. -/
theorem signForm?_isPlain (t : Token) : ∀ form ∈ signForm? t,
    form.IsPlain Kind.comment ∧ t ∈ [Token.plus, .minus, .notKeyword] := by
  cases t <;> decide

/-- The less-than sign is kept apart from the other operators. -/
theorem operator_reads {t : Token} {form : OperatorForm} (hp : s.peek = some t)
    (hf : operatorForm? t = some form) (h : form.node s = .ok (node, s')) :
    Reads operatorButLess [node] s s' ∨ (t = .less ∧ Reads (.token .less) [node] s s') := by
  have hk := operatorForm?_isPlain t form hf
  by_cases ht : t = .less
  · subst ht
    exact .inr ⟨rfl, .operator h hp hk⟩
  · have ht : t ∈ [Token.star, .slash, .percent, .plus, .minus, .equals, .notEquals, .greater,
        .greaterEquals, .lessEquals, .andKeyword, .orKeyword] := by
      cases t <;> simp_all [operatorForm?]
    exact .inl (.operator_oneOf h hp hk ht)

/-! ## Names and commas -/

/-- A name is read as one of the two tokens that can name an argument. -/
theorem argumentName_reads (h : argumentName s = .ok (node, s')) :
    Reads anyArgumentName [node] s s' := by
  obtain ⟨hp, h⟩ | ⟨-, h⟩ := Rule.ite_eq_ok.1 h
  · obtain ⟨t, ht, hp⟩ := peek_of_atArgumentName hp
    exact .oneOf h hp ht rfl
  · cases h

/-- A comma is read if there is one, and the production leaves it out otherwise. -/
theorem optionalComma_reads (h : optionalComma s = .ok (nodes, s')) :
    Reads (.opt (.token .comma)) nodes s s' := by
  obtain ⟨hp, h⟩ | ⟨-, h⟩ := Rule.ite_eq_ok.1 h
  · exact .some (.each (fun h => .leaf h (TokenStream.peek_of_isAt hp) rfl) h)
  · obtain ⟨rfl, rfl⟩ := Rule.pure_eq_ok.1 h
    exact .none

/-- A token in front of a node. -/
theorem marked_reads {t : Token} {kind : Kind} {r : Rule Token RawNode}
    {p : Pattern Nonterminal Token} (hk : kind.id.isPlain Kind.comment)
    (hr : ∀ {s node s'}, r s = .ok (node, s') → Reads p [node] s s') (hp : s.isAt t = true)
    (h : (do
      let mark ← Rule.leaf kind
      return [mark, ← r] : Rule Token (List RawNode)) s = .ok (nodes, s')) :
    Reads (.token t ++ p) nodes s s' := by
  obtain ⟨mark, s₁, hmark, h⟩ := Rule.bind_eq_ok.1 h
  obtain ⟨node, s₂, hnode, h⟩ := Rule.bind_eq_ok.1 h
  obtain ⟨rfl, rfl⟩ := Rule.pure_eq_ok.1 h
  exact (Builds.leaf hmark (TokenStream.peek_of_isAt hp) hk).seq (hr hnode)

section Rules

variable (hb : below.Reads)
include hb

/-! ## Types -/

/-- Types are read with commas between. -/
theorem typeIdentifiers_reads (h : typeIdentifiers below s = .ok (nodes, s')) :
    Reads (.separated (.rule .typeIdentifier) .comma) nodes s s' := by
  obtain ⟨first, s₁, hfirst, h⟩ := Rule.bind_eq_ok.1 h
  obtain ⟨more, s₂, hmore, h⟩ := Rule.bind_eq_ok.1 h
  obtain ⟨rfl, rfl⟩ := Rule.pure_eq_ok.1 h
  exact (hb.typeIdentifier hfirst).seq
    (.repeatWhile (marked_reads rfl hb.typeIdentifier) hmore)

/-- Type arguments are read from their angle bracket on. -/
theorem typeArguments_reads (hp : s.peek = some .less)
    (h : typeArguments below s = .ok (node, s')) : Reads (.rule .typeArguments) [node] s s' := by
  obtain ⟨opening, s₁, hopening, h⟩ := Rule.bind_eq_ok.1 h
  obtain ⟨types, s₂, htypes, h⟩ := Rule.bind_eq_ok.1 h
  obtain ⟨closing, s₃, hclosing, h⟩ := Rule.bind_eq_ok.1 h
  obtain ⟨rfl, rfl⟩ := Rule.pure_eq_ok.1 h
  exact .ofRule (((Builds.leaf hopening hp rfl).seq (typeIdentifiers_reads hb htypes)).seq
    (.expect hclosing rfl)) rfl

/-- A name of a type. A less-than sign behind it has been read as part of it. -/
theorem flatNominalType_reads (h : flatNominalType below s = .ok (node, s')) :
    Reads (.rule .flatNominalType) [node] s s' ∧ (s'.peek = some .less →
      Between productions (.token .typeName ++ .rule .typeArguments) s s') := by
  obtain ⟨name, s₁, hname, h⟩ := Rule.bind_eq_ok.1 h
  have hname : Reads (.token .typeName) [name.withField Field.typeName] s s₁ :=
    (Builds.expect hname rfl).withField
  obtain ⟨hp, h⟩ | ⟨hp, h⟩ := Rule.ite_eq_ok.1 h
  · obtain ⟨arguments, s₂, harguments, h⟩ := Rule.bind_eq_ok.1 h
    obtain ⟨rfl, rfl⟩ := Rule.pure_eq_ok.1 h
    have ha := typeArguments_reads hb (TokenStream.peek_of_isAt hp) harguments
    exact ⟨.ofRule (hname.seq ha.withField.some) rfl, fun _ => hname.2.seq ha.2⟩
  · obtain ⟨rfl, rfl⟩ := Rule.pure_eq_ok.1 h
    refine ⟨.ofRule (hname.seq .none) rfl, fun hless => ?_⟩
    rw [TokenStream.isAt_of_peek hless] at hp
    cases hp

/-- A nominal type is read as its names with double colons between. -/
theorem nominalType_reads (h : nominalType below s = .ok (node, s')) :
    Reads (.rule .nominalType) [node] s s' := by
  obtain ⟨first, s₁, hfirst, h⟩ := Rule.bind_eq_ok.1 h
  obtain ⟨more, s₂, hmore, h⟩ := Rule.bind_eq_ok.1 h
  obtain ⟨rfl, rfl⟩ := Rule.pure_eq_ok.1 h
  exact .ofRule ((flatNominalType_reads hb hfirst).1.seq (.repeatWhile
    (marked_reads rfl fun h => (flatNominalType_reads hb h).1) hmore)) rfl

/-- The last name of a type begins behind names with double colons. -/
def LastName (s s' : TokenStream Token) : Prop :=
  ∃ s₁, Between productions (.many (.rule .flatNominalType ++ .token .colonColon)) s s₁ ∧
    Between productions (.rule .flatNominalType) s₁ s' ∧ (s'.peek = some .less →
      Between productions (.token .typeName ++ .rule .typeArguments) s₁ s')

/-- A type with a less-than sign behind it ends in arguments. -/
theorem nominalType_appliedType (h : nominalType below s = .ok (node, s'))
    (hp : s'.peek = some .less) : Between productions appliedType s s' := by
  obtain ⟨first, s₁, hfirst, h⟩ := Rule.bind_eq_ok.1 h
  obtain ⟨more, s₂, hmore, h⟩ := Rule.bind_eq_ok.1 h
  obtain ⟨-, rfl⟩ := Rule.pure_eq_ok.1 h
  have hlast : LastName s s₂ := by
    have hfirst := flatNominalType_reads hb hfirst
    refine Rule.repeatWhile_ok (I := LastName s) (fun hc ⟨a, ha, hflat, _⟩ hr => ?_)
      ⟨s, .nil, hfirst.1.2, hfirst.2⟩ hmore
    obtain ⟨colons, s₃, hcolons, hr⟩ := Rule.bind_eq_ok.1 hr
    obtain ⟨node, s₄, hnode, hr⟩ := Rule.bind_eq_ok.1 hr
    obtain ⟨-, rfl⟩ := Rule.pure_eq_ok.1 hr
    have hcolons : Reads (.token .colonColon) [colons] _ s₃ :=
      .leaf hcolons (TokenStream.peek_of_isAt hc) rfl
    have hnode := flatNominalType_reads hb hnode
    exact ⟨s₃, ha.snoc (hflat.seq hcolons.2), hnode.1.2, hnode.2⟩
  obtain ⟨a, ha, -, happlied⟩ := hlast
  exact ha.seq (happlied hp)

/-- A tuple type is read from its bracket on. -/
theorem tupleStructuralType_reads (hp : s.peek = some .openBracket)
    (h : tupleStructuralType below s = .ok (node, s')) :
    Reads (.rule .tupleStructuralType) [node] s s' := by
  obtain ⟨opening, s₁, hopening, h⟩ := Rule.bind_eq_ok.1 h
  obtain ⟨types, s₂, htypes, h⟩ := Rule.bind_eq_ok.1 h
  obtain ⟨closing, s₃, hclosing, h⟩ := Rule.bind_eq_ok.1 h
  obtain ⟨rfl, rfl⟩ := Rule.pure_eq_ok.1 h
  exact .ofRule (((Builds.leaf hopening hp rfl).seq (typeIdentifiers_reads hb htypes)).seq
    (.expect hclosing rfl)) rfl

/-- The types of the inputs are read if there are any. -/
theorem inputTypes_reads (h : inputTypes below s = .ok (nodes, s')) :
    Reads (.opt (.separated (.rule .typeIdentifier) .comma)) nodes s s' := by
  obtain ⟨-, h⟩ | ⟨-, h⟩ := Rule.ite_eq_ok.1 h
  · obtain ⟨rfl, rfl⟩ := Rule.pure_eq_ok.1 h
    exact .none
  · obtain ⟨types, s₁, htypes, h⟩ := Rule.bind_eq_ok.1 h
    obtain ⟨rfl, rfl⟩ := Rule.pure_eq_ok.1 h
    have ht := typeIdentifiers_reads hb htypes
    exact .some ⟨ht.1.map_withField, ht.2⟩

/-- A function type is read from its brace on. -/
theorem lambdaStructuralType_reads (hp : s.peek = some .openBrace)
    (h : lambdaStructuralType below s = .ok (node, s')) :
    Reads (.rule .lambdaStructuralType) [node] s s' := by
  obtain ⟨opening, s₁, hopening, h⟩ := Rule.bind_eq_ok.1 h
  obtain ⟨inputs, s₂, hinputs, h⟩ := Rule.bind_eq_ok.1 h
  obtain ⟨closing, s₃, hclosing, h⟩ := Rule.bind_eq_ok.1 h
  obtain ⟨arrow, s₄, harrow, h⟩ := Rule.bind_eq_ok.1 h
  obtain ⟨result, s₅, hresult, h⟩ := Rule.bind_eq_ok.1 h
  obtain ⟨rfl, rfl⟩ := Rule.pure_eq_ok.1 h
  have hresult : Reads (.rule .typeIdentifier) [result.withField Field.returnType] s₄ s₅ :=
    (hb.typeIdentifier hresult).withField
  exact .ofRule (.of_eq (((((Builds.leaf hopening hp rfl).seq (inputTypes_reads hb hinputs)).seq
    (.expect hclosing rfl)).seq (.expect harrow rfl)).seq hresult) (by simp)) rfl

/-- A type is read by one of its alternatives, as the next token decides. -/
theorem typeReference_reads (h : typeReference below s = .ok (node, s')) :
    Reads (.rule .typeIdentifier) [node] s s' := by
  obtain ⟨r, hr, h⟩ := Rule.peek_bind_eq_ok.1 h
  split at hr <;> subst hr
  case h_6 =>
    obtain ⟨inner, s₁, hinner, h⟩ := Rule.bind_eq_ok.1 h
    cases hinner
  case h_1 hp =>
    obtain ⟨inner, s₁, hinner, h⟩ := Rule.bind_eq_ok.1 h
    obtain ⟨rfl, rfl⟩ := Rule.pure_eq_ok.1 h
    exact .ofRule (Builds.anyOf (.leaf hinner hp rfl) (by simp)) rfl
  case h_2 hp =>
    obtain ⟨inner, s₁, hinner, h⟩ := Rule.bind_eq_ok.1 h
    obtain ⟨rfl, rfl⟩ := Rule.pure_eq_ok.1 h
    exact .ofRule (Builds.anyOf (.leaf hinner hp rfl) (by simp)) rfl
  case h_3 hp =>
    obtain ⟨inner, s₁, hinner, h⟩ := Rule.bind_eq_ok.1 h
    obtain ⟨rfl, rfl⟩ := Rule.pure_eq_ok.1 h
    exact .ofRule (Builds.anyOf (nominalType_reads hb hinner) (by simp)) rfl
  case h_4 hp =>
    obtain ⟨inner, s₁, hinner, h⟩ := Rule.bind_eq_ok.1 h
    obtain ⟨rfl, rfl⟩ := Rule.pure_eq_ok.1 h
    exact .ofRule (Builds.anyOf (lambdaStructuralType_reads hb hp hinner) (by simp)) rfl
  case h_5 hp =>
    obtain ⟨inner, s₁, hinner, h⟩ := Rule.bind_eq_ok.1 h
    obtain ⟨rfl, rfl⟩ := Rule.pure_eq_ok.1 h
    exact .ofRule (Builds.anyOf (tupleStructuralType_reads hb hp hinner) (by simp)) rfl

/-! ## Operands -/

/-- A type at the place of an operand. -/
def ReadsType (node : RawNode) (s s' : TokenStream Token) : Prop :=
  Reads (.rule .nominalType) [node] s s' ∧
    (s'.peek = some .less → Between productions appliedType s s')

omit hb in
/-- A binary expression is read, once its operator and both of its operands are. -/
theorem binary_reads {t : Token} {form : OperatorForm} {left operator right : RawNode}
    {s₁ s₂ : TokenStream Token} (hl : Reads (.rule .simpleExpression) [left] s s₁)
    (hp : s₁.peek = some t) (hf : operatorForm? t = some form)
    (ho : form.node s₁ = .ok (operator, s₂))
    (hr : Reads (.rule .simpleExpression) [right] s₂ s') :
    Reads (.rule .simpleExpression) [operators.node left operator right] s s' := by
  have ho : Reads binaryOperator [operator.withField operators.operator] s₁ s₂ := by
    rcases operator_reads hp hf ho with ho | ⟨-, ho⟩
    · exact ho.withField.left
    · exact ho.withField.right
  exact .rule (.anyOf (Reads.ofRule (n := Nonterminal.binaryExpression)
    ((hl.withField.seq ho).seq hr.withField) rfl) (by simp))

/-- What extends an operand reads a simple expression, since a binary expression is one. -/
theorem extend_reads {left : RawNode} (hl : Reads (.rule .simpleExpression) [left] s s₁)
    (h : operators.extend below.unary left s₁ = .ok (node, s')) :
    Reads (.rule .simpleExpression) [node] s s' :=
  Operators.extendBy_ok
    (L := fun node s s' => Reads (.rule .simpleExpression) [node] s s')
    (R := fun node s s' => Reads (.rule .simpleExpression) [node] s s')
    hb.unary binary_reads binary_reads hl h

/-- A simple expression is read from its first operand on. -/
theorem simpleExpression_reads (h : simpleExpression below s = .ok (node, s')) :
    Reads (.rule .simpleExpression) [node] s s' :=
  Operators.expression_ok hb.unary (extend_reads hb) h

/-- A tuple is read from its bracket on, with expressions one level down. -/
theorem tupleLiteral_reads (hp : s.peek = some .openBracket)
    (h : tupleLiteral below s = .ok (node, s')) : Reads (.rule .tupleLiteral) [node] s s' := by
  obtain ⟨opening, s₁, hopening, h⟩ := Rule.bind_eq_ok.1 h
  obtain ⟨first, s₂, hfirst, h⟩ := Rule.bind_eq_ok.1 h
  obtain ⟨more, s₃, hmore, h⟩ := Rule.bind_eq_ok.1 h
  obtain ⟨closing, s₄, hclosing, h⟩ := Rule.bind_eq_ok.1 h
  obtain ⟨rfl, rfl⟩ := Rule.pure_eq_ok.1 h
  have hvalues : Reads (.separated (.rule .expression) .comma) (first :: more) s₁ s₃ :=
    (hb.expression hfirst).seq (.repeatWhile (marked_reads rfl hb.expression) hmore)
  exact .ofRule (((Builds.leaf hopening hp rfl).seq hvalues).seq (.expect hclosing rfl)) rfl

/-- Between parentheses an expression is read, at the level below. -/
theorem parenthisizedExpression_reads (hp : s.peek = some .openParen)
    (h : parenthisizedExpression below s = .ok (node, s')) :
    Reads (.rule .parenthisizedExpression) [node] s s' := by
  obtain ⟨opening, s₁, hopening, h⟩ := Rule.bind_eq_ok.1 h
  obtain ⟨expression, s₂, hexpression, h⟩ := Rule.bind_eq_ok.1 h
  obtain ⟨closing, s₃, hclosing, h⟩ := Rule.bind_eq_ok.1 h
  obtain ⟨rfl, rfl⟩ := Rule.pure_eq_ok.1 h
  exact .ofRule (((Builds.leaf hopening hp rfl).seq (hb.expression hexpression)).seq
    (.expect hclosing rfl)) rfl

/-- Between braces an expression is read, at the level below. -/
theorem lambdaExpression_reads (hp : s.peek = some .openBrace)
    (h : lambdaExpression below s = .ok (node, s')) :
    Reads (.rule .lambdaExpression) [node] s s' := by
  obtain ⟨opening, s₁, hopening, h⟩ := Rule.bind_eq_ok.1 h
  obtain ⟨expression, s₂, hexpression, h⟩ := Rule.bind_eq_ok.1 h
  obtain ⟨closing, s₃, hclosing, h⟩ := Rule.bind_eq_ok.1 h
  obtain ⟨rfl, rfl⟩ := Rule.pure_eq_ok.1 h
  exact .ofRule (((Builds.leaf hopening hp rfl).seq (hb.expression hexpression)).seq
    (.expect hclosing rfl)) rfl

omit hb in
/-- A truth value is read as one of the two keywords. -/
theorem boolLiteral_reads {t : Token} {kind : Kind} (hp : s.peek = some t)
    (ht : t ∈ [Token.trueKeyword, .falseKeyword]) (hk : kind.id.isPlain Kind.comment)
    (h : boolLiteral kind s = .ok (node, s')) : Reads (.rule .boolLiteral) [node] s s' := by
  obtain ⟨token, s₁, htoken, h⟩ := Rule.bind_eq_ok.1 h
  obtain ⟨rfl, rfl⟩ := Rule.pure_eq_ok.1 h
  exact .ofRule (Builds.oneOf htoken hp ht hk) rfl

/-- A type is read, and if it may not stand alone, a suffix comes next. -/
theorem typeOperand_reads {bareType : Bool} (h : typeOperand below bareType s = .ok (node, s')) :
    ReadsType node s s' ∧ (bareType = false → (suffix? s').isSome) := by
  obtain ⟨type, s₁, htype, h⟩ := Rule.bind_eq_ok.1 h
  obtain ⟨hp, h⟩ | ⟨-, h⟩ := Rule.ite_eq_ok.1 h
  · obtain ⟨rfl, rfl⟩ := Rule.pure_eq_ok.1 h
    refine ⟨⟨nominalType_reads hb htype, nominalType_appliedType hb htype⟩, fun hbare => ?_⟩
    simp only [hbare, Bool.false_or, Bool.or_eq_true] at hp
    rcases hp with hp | hp <;> simp [suffix?, TokenStream.peek_of_isAt hp]
  · cases h

/-- An operand, or a type that must be called or accessed unless it may stand alone. -/
theorem primary_reads {bareType : Bool} (h : primary below bareType s = .ok (node, s')) :
    Reads (.rule .simpleExpression) [node] s s' ∨
      (ReadsType node s s' ∧ (bareType = false → (suffix? s').isSome)) := by
  obtain ⟨r, hr, h⟩ := Rule.peek_bind_eq_ok.1 h
  split at hr <;> subst hr
  case h_1 hp => exact .inl (.rule (.anyOf (.leaf h hp rfl) (by simp)))
  case h_2 hp => exact .inl (.rule (.anyOf (.leaf h hp rfl) (by simp)))
  case h_3 hp => exact .inl (.rule (.anyOf (.numeral h hp rfl rfl) (by simp)))
  case h_4 hp => exact .inl (.rule (.anyOf (.leaf h hp rfl) (by simp)))
  case h_5 hp =>
    exact .inl (.rule (.anyOf (boolLiteral_reads hp (by decide) rfl h) (by simp)))
  case h_6 hp =>
    exact .inl (.rule (.anyOf (boolLiteral_reads hp (by decide) rfl h) (by simp)))
  case h_7 hp =>
    have hname : Reads anyArgumentName [node] s s' := .oneOf h hp (by decide) rfl
    exact .inl (.rule (.anyOf hname (by simp)))
  case h_8 hp =>
    have hname : Reads anyArgumentName [node] s s' := .oneOf h hp (by decide) rfl
    exact .inl (.rule (.anyOf hname (by simp)))
  case h_9 hp => exact .inl (.rule (.anyOf (tupleLiteral_reads hb hp h) (by simp)))
  case h_10 hp => exact .inl (.rule (.anyOf (parenthisizedExpression_reads hb hp h) (by simp)))
  case h_11 hp => exact .inl (.rule (.anyOf (lambdaExpression_reads hb hp h) (by simp)))
  case h_12 => exact .inr (typeOperand_reads hb h)
  case h_13 => cases h

/-- An argument is read as its production says, with the comma behind it if there is one. -/
theorem callParam_reads (h : callParam below s = .ok (node, s')) :
    Reads (.rule .callParam) [node] s s' := by
  obtain ⟨name, s₁, hname, h⟩ := Rule.bind_eq_ok.1 h
  obtain ⟨colon, s₂, hcolon, h⟩ := Rule.bind_eq_ok.1 h
  obtain ⟨value, s₃, hvalue, h⟩ := Rule.bind_eq_ok.1 h
  obtain ⟨comma, s₄, hcomma, h⟩ := Rule.bind_eq_ok.1 h
  obtain ⟨rfl, rfl⟩ := Rule.pure_eq_ok.1 h
  exact .ofRule ((((argumentName_reads hname).withField.seq (.expect hcolon rfl)).seq
    (simpleExpression_reads hb hvalue).withField).seq (optionalComma_reads hcomma)) rfl

/-- Arguments are read if there are any, and the production leaves them out otherwise. -/
theorem callParams_reads (h : callParams below s = .ok (nodes, s')) :
    Reads (.opt (.rule .callParamList)) nodes s s' := by
  obtain ⟨hp, h⟩ | ⟨-, h⟩ := Rule.ite_eq_ok.1 h
  · obtain ⟨params, s₁, hparams, h⟩ := Rule.bind_eq_ok.1 h
    obtain ⟨rfl, rfl⟩ := Rule.pure_eq_ok.1 h
    obtain ⟨t, ht⟩ := exists_peek_of_atNamedParam hp
    have hplus : Reads (.plus (.rule .callParam)) params s s₁ :=
      .repeatWhile_plus (fun _ => .each (callParam_reads hb)) ht hp hparams
    exact .some (.withField (Reads.ofRule hplus rfl))
  · obtain ⟨rfl, rfl⟩ := Rule.pure_eq_ok.1 h
    exact .none

/-- A call or an access is read, where a type may be called or accessed as an operand may. -/
theorem withSuffix_reads {suffix : Suffix} {operand : RawNode}
    (hl : Reads (.rule .simpleExpression ||| .rule .nominalType) [operand] s s₁)
    (hs : suffix? s₁ = some suffix) (h : withSuffix below suffix operand s₁ = .ok (node, s')) :
    Reads (.rule .simpleExpression) [node] s s' := by
  cases suffix with
  | call =>
    have hp : s₁.peek = some .openParen := by
      unfold suffix? at hs
      split at hs <;> simp_all
    obtain ⟨opening, s₂, hopening, h⟩ := Rule.bind_eq_ok.1 h
    obtain ⟨params, s₃, hparams, h⟩ := Rule.bind_eq_ok.1 h
    obtain ⟨closing, s₄, hclosing, h⟩ := Rule.bind_eq_ok.1 h
    obtain ⟨rfl, rfl⟩ := Rule.pure_eq_ok.1 h
    exact .rule (.anyOf (Reads.ofRule (n := Nonterminal.callExpression) (((hl.withField.seq
      (.leaf hopening hp rfl)).seq (callParams_reads hb hparams)).seq
        (.expect hclosing rfl)) rfl) (by simp))
  | access =>
    have hp : s₁.peek = some .dot := by
      unfold suffix? at hs
      split at hs <;> simp_all
    obtain ⟨dot, s₂, hdot, h⟩ := Rule.bind_eq_ok.1 h
    obtain ⟨name, s₃, hname, h⟩ := Rule.bind_eq_ok.1 h
    obtain ⟨rfl, rfl⟩ := Rule.pure_eq_ok.1 h
    exact .rule (.anyOf (Reads.ofRule (n := Nonterminal.accessExpression) ((hl.seq
      (.leaf hdot hp rfl)).seq (argumentName_reads hname)) rfl) (by simp))

/-- With all its suffixes an operand is still read as a simple expression. -/
theorem withSuffixes_reads {operand : RawNode}
    (hl : Reads (.rule .simpleExpression) [operand] s s₁)
    (h : withSuffixes below operand s₁ = .ok (node, s')) :
    Reads (.rule .simpleExpression) [node] s s' :=
  Rule.iterate_ok (I := fun node s' => Reads (.rule .simpleExpression) [node] s s')
    (fun _ _ _ _ _ hs hl hround => withSuffix_reads hb hl.left hs hround) hl h

/-- A type with a suffix is an operand. -/
theorem withSuffixes_reads_of_type {type : RawNode} (hl : ReadsType type s s₁)
    (hs : (suffix? s₁).isSome) (h : withSuffixes below type s₁ = .ok (node, s')) :
    Reads (.rule .simpleExpression) [node] s s' := by
  obtain ⟨suffix, hs⟩ := Option.isSome_iff_exists.1 hs
  obtain ⟨t, hp⟩ : ∃ t, s₁.peek = some t := by
    unfold suffix? at hs
    split at hs <;> simp_all
  obtain ⟨_, operand, s₂, hround, h⟩ := Rule.exists_round_of_iterate_ok hp hs h
  exact Rule.iterateFrom_ok (I := fun node s' => Reads (.rule .simpleExpression) [node] s s')
    (fun _ _ _ _ _ hs hl hround => withSuffix_reads hb hl.left hs hround)
    (withSuffix_reads hb hl.1.right hs hround) h

/-- An operand with its suffixes, where a type must have one. -/
theorem suffixed_reads (h : suffixed below false s = .ok (node, s')) :
    Reads (.rule .simpleExpression) [node] s s' := by
  obtain ⟨operand, s₁, hoperand, h⟩ := Rule.bind_eq_ok.1 h
  rcases primary_reads hb hoperand with hoperand | ⟨htype, hs⟩
  · exact withSuffixes_reads hb hoperand h
  · exact withSuffixes_reads_of_type hb htype (hs rfl) h

/-- A sign and an operand are read as a unary expression, which is a simple one. -/
theorem signed_reads (h : signed below s = .ok (node, s')) :
    Reads (.rule .simpleExpression) [node] s s' :=
  .signed signForm?_isPlain (suffixed_reads hb) hb.unary
    (fun hunary => .rule (.anyOf (Reads.ofRule (n := .unaryExpression) hunary rfl) (by simp))) h

/-! ## Expressions -/

/-- What stands first in a capture, by what it ends in. -/
inductive ReadsCapture : RawNode → TokenStream Token → TokenStream Token → Prop
  | operand {node : RawNode} {s s' : TokenStream Token} :
      Reads (.rule .simpleExpression) [node] s s' → ReadsCapture node s s'
  | type {node : RawNode} {s s' : TokenStream Token} : ReadsType node s s' → ReadsCapture node s s'
  | compared {node : RawNode} {s s₁ s' : TokenStream Token} :
      Spells Kind.comment [node] s s' → Between productions comparedType s s₁ →
        Between productions (.rule .simpleExpression) s₁ s' → ReadsCapture node s s'

omit hb in
/-- Each of the readings of a capture is one of the production. -/
theorem ReadsCapture.reads (h : ReadsCapture node s s') : Reads capture [node] s s' := by
  cases h with
  | operand h => exact .anyOf h (by simp)
  | type h => exact .anyOf h.1 (by simp)
  | compared hs hl hr => exact ⟨hs, (hl.seq hr).anyOf (by simp)⟩

omit hb in
/-- Behind a capture, an operator and an operand make a capture again. -/
theorem ReadsCapture.binary {t : Token} {form : OperatorForm} {left operator right : RawNode}
    {s₁ s₂ : TokenStream Token} (hl : ReadsCapture left s s₁) (hp : s₁.peek = some t)
    (hf : operatorForm? t = some form) (ho : form.node s₁ = .ok (operator, s₂))
    (hr : Reads (.rule .simpleExpression) [right] s₂ s') :
    ReadsCapture (operators.node left operator right) s s' := by
  have ho' := operator_reads hp hf ho
  have hspells : Spells Kind.comment [left] s s₁ →
      Spells Kind.comment [operators.node left operator right] s s' := fun hl => by
    have ho : Spells Kind.comment [operator] s₁ s₂ := by
      rcases ho' with ho' | ⟨-, ho'⟩ <;> exact ho'.1
    exact .branch (by simp) rfl
      ((hl.withField.append ho.withField).append hr.1.withField) .nil
  cases hl with
  | operand hl => exact .operand (binary_reads hl hp hf ho hr)
  | type hl =>
    have hm : Between productions comparedType s s₂ := by
      rcases ho' with ho' | ⟨rfl, ho'⟩
      · exact .left (hl.1.2.seq ho'.2)
      · exact .right ((hl.2 hp).seq ho'.2)
    exact .compared (hspells hl.1.1) hm hr.2
  | compared hs hl hm =>
    refine .compared (hspells hs) hl (.rule (.anyOf (q := .rule .binaryExpression) (.rule ?_)
      (by simp)))
    rcases ho' with ho' | ⟨-, ho'⟩
    · exact (hm.seq ho'.2.left).seq hr.2
    · exact (hm.seq ho'.2.right).seq hr.2

/-- An operand with its suffixes may be a type by itself if it stands first in a capture. -/
theorem suffixed_readsCapture (h : suffixed below true s = .ok (node, s')) :
    ReadsCapture node s s' := by
  obtain ⟨operand, s₁, hoperand, h⟩ := Rule.bind_eq_ok.1 h
  have hfirst : ReadsCapture operand s s₁ ∧
      Reads (.rule .simpleExpression ||| .rule .nominalType) [operand] s s₁ := by
    rcases primary_reads hb hoperand with hoperand | ⟨htype, -⟩
    · exact ⟨.operand hoperand, hoperand.left⟩
    · exact ⟨.type htype, htype.1.right⟩
  refine (Rule.iterate_ok (I := fun node s' => ReadsCapture node s s' ∧
      Reads (.rule .simpleExpression ||| .rule .nominalType) [node] s s')
    (fun _ _ _ _ _ hs hl hround => ?_) hfirst h).1
  have hsuffix := withSuffix_reads hb hl.2 hs hround
  exact ⟨.operand hsuffix, hsuffix.left⟩

/-- A first capture is read as a type, as a simple expression, or as operators behind a type. -/
theorem firstCapture_reads (h : firstCapture below s = .ok (node, s')) :
    Reads capture [node] s s' := by
  obtain ⟨-, h⟩ | ⟨-, h⟩ := Rule.ite_eq_ok.1 h
  · obtain ⟨operand, s₁, hoperand, h⟩ := Rule.bind_eq_ok.1 h
    have hleft := suffixed_readsCapture hb hoperand
    exact (Operators.extendBy_ok (L := ReadsCapture)
      (R := fun node s s' => Reads (.rule .simpleExpression) [node] s s')
      hb.unary binary_reads ReadsCapture.binary hleft h).reads
  · exact .anyOf (simpleExpression_reads hb h) (by simp)

/-- Captures are read with commas between, of which only the first may be a type. -/
theorem captureGroup_reads (h : captureGroup below s = .ok (node, s')) :
    Reads (.rule .captureGroup) [node] s s' := by
  obtain ⟨first, s₁, hfirst, h⟩ := Rule.bind_eq_ok.1 h
  obtain ⟨more, s₂, hmore, h⟩ := Rule.bind_eq_ok.1 h
  obtain ⟨rfl, rfl⟩ := Rule.pure_eq_ok.1 h
  exact .ofRule ((firstCapture_reads hb hfirst).seq
    (.repeatWhile (marked_reads rfl (simpleExpression_reads hb)) hmore)) rfl

/-- Parentheses that begin the body of a branch are read as a loop or as an operand. -/
theorem afterParens_reads {parens : RawNode}
    (hl : Reads (.rule .parenthisizedExpression) [parens] s s₁)
    (h : afterParens below parens s₁ = .ok (node, s')) :
    Reads (.rule .simpleExpression ||| .rule .loopedExpression) [node] s s' := by
  obtain ⟨hp, h⟩ | ⟨-, h⟩ := Rule.ite_eq_ok.1 h
  · obtain ⟨caret, s₂, hcaret, h⟩ := Rule.bind_eq_ok.1 h
    obtain ⟨rfl, rfl⟩ := Rule.pure_eq_ok.1 h
    exact .right (Reads.ofRule (hl.seq (.leaf hcaret (TokenStream.peek_of_isAt hp) rfl)) rfl)
  · obtain ⟨operand, s₂, hoperand, h⟩ := Rule.bind_eq_ok.1 h
    exact .left (extend_reads hb (withSuffixes_reads hb (.rule (.anyOf hl (by simp))) hoperand) h)

/-- The body of a branch is read as one of two productions, as the next tokens decide. -/
theorem branchBody_reads (h : branchBody below s = .ok (node, s')) :
    Reads (.rule .simpleExpression ||| .rule .loopedExpression) [node] s s' := by
  obtain ⟨hp, h⟩ | ⟨-, h⟩ := Rule.ite_eq_ok.1 h
  · obtain ⟨parens, s₁, hparens, h⟩ := Rule.bind_eq_ok.1 h
    have hp := TokenStream.peek_of_isAt hp
    exact afterParens_reads hb (parenthisizedExpression_reads hb hp hparens) h
  · exact (simpleExpression_reads hb h).left

/-- A branch is read from its bar on. -/
theorem branchExpression_reads (hp : s.peek = some .pipe)
    (h : branchExpression below s = .ok (node, s')) :
    Reads (.rule .branchExpression) [node] s s' := by
  obtain ⟨opening, s₁, hopening, h⟩ := Rule.bind_eq_ok.1 h
  obtain ⟨captures, s₂, hcaptures, h⟩ := Rule.bind_eq_ok.1 h
  obtain ⟨closing, s₃, hclosing, h⟩ := Rule.bind_eq_ok.1 h
  obtain ⟨body, s₄, hbody, h⟩ := Rule.bind_eq_ok.1 h
  obtain ⟨rfl, rfl⟩ := Rule.pure_eq_ok.1 h
  exact .ofRule ((((Builds.leaf hopening hp rfl).seq
    (captureGroup_reads hb hcaptures).withField).seq (.expect hclosing rfl)).seq
      (branchBody_reads hb hbody).withField) rfl

/-- A default is read behind its comma. -/
theorem branchDefault_reads (h : branchDefault below s = .ok (nodes, s')) :
    Reads (.opt (.token .comma ++ .rule .simpleExpression)) nodes s s' := by
  obtain ⟨hp, h⟩ | ⟨-, h⟩ := Rule.ite_eq_ok.1 h
  · exact .some (marked_reads rfl (simpleExpression_reads hb) hp h)
  · obtain ⟨rfl, rfl⟩ := Rule.pure_eq_ok.1 h
    exact .none

/-- Branches are read with commas between and perhaps a default. -/
theorem branchedExpression_reads (hp : s.peek = some .pipe)
    (h : branchedExpression below s = .ok (node, s')) :
    Reads (.rule .branchedExpression) [node] s s' := by
  obtain ⟨first, s₁, hfirst, h⟩ := Rule.bind_eq_ok.1 h
  obtain ⟨more, s₂, hmore, h⟩ := Rule.bind_eq_ok.1 h
  obtain ⟨default, s₃, hdefault, h⟩ := Rule.bind_eq_ok.1 h
  obtain ⟨rfl, rfl⟩ := Rule.pure_eq_ok.1 h
  have hmany : Reads (.many (.token .comma ++ .rule .branchExpression)) more s₁ s₂ := by
    refine .repeatWhile (fun {nodes s s'} hc h => ?_) hmore
    simp only [atNextBranch, Bool.and_eq_true, beq_iff_eq] at hc
    obtain ⟨comma, s₄, hcomma, h⟩ := Rule.bind_eq_ok.1 h
    obtain ⟨branch, s₅, hbranch, h⟩ := Rule.bind_eq_ok.1 h
    obtain ⟨rfl, rfl⟩ := Rule.pure_eq_ok.1 h
    have hpeek := TokenStream.peek_of_isAt hc.1
    refine (Builds.leaf hcomma hpeek rfl).seq (branchExpression_reads hb ?_ hbranch)
    rw [← (Rule.leaf_eq_ok.1 hcomma).2, TokenStream.peek, TokenStream.peekNth_advance hpeek]
    exact hc.2
  exact .ofRule (((branchExpression_reads hb hp hfirst).seq hmany).seq
    (branchDefault_reads hb hdefault)) rfl

/-- A step of an expression is an expression. -/
theorem pipeOperand_reads (h : pipeOperand below s = .ok (node, s')) :
    Reads (.rule .expression) [node] s s' := by
  obtain ⟨hp, h⟩ | ⟨-, h⟩ := Rule.ite_eq_ok.1 h
  · exact .rule (.anyOf (branchedExpression_reads hb (TokenStream.peek_of_isAt hp) h) (by simp))
  · exact .rule (.anyOf (simpleExpression_reads hb h) (by simp))

omit hb in
/-- The token between two steps is read as the operator that joins them. -/
theorem pipeOperator_reads {kind : Kind} {token : RawNode} (hs : pipeKind? s = some kind)
    (h : Rule.leaf kind s = .ok (token, s')) :
    Reads (.oneOf .question [.semicolon]) [.branch Kind.pipeOperator [token]] s s' := by
  unfold pipeKind? at hs
  split at hs
  case h_1 hp =>
    obtain rfl : Kind.question = kind := by simpa using hs
    exact (Builds.oneOf h hp (by decide) rfl).branch rfl (by simp)
  case h_2 hp =>
    obtain rfl : Kind.semicolon = kind := by simpa using hs
    exact (Builds.oneOf h hp (by decide) rfl).branch rfl (by simp)
  case h_3 => cases hs

/-- Steps in a chain are read as piped expressions, grouped to the left. -/
theorem pipeChain_reads (h : pipeChain below s = .ok (node, s')) :
    Reads (.rule .expression) [node] s s' := by
  obtain ⟨first, s₁, hfirst, h⟩ := Rule.bind_eq_ok.1 h
  refine Rule.iterate_ok (I := fun node s' => Reads (.rule .expression) [node] s s')
    (fun _ left s₁ node s' hs hl hround => ?_) (pipeOperand_reads hb hfirst) h
  obtain ⟨token, s₂, htoken, hround⟩ := Rule.bind_eq_ok.1 hround
  obtain ⟨right, s₃, hright, hround⟩ := Rule.bind_eq_ok.1 hround
  obtain ⟨rfl, rfl⟩ := Rule.pure_eq_ok.1 hround
  exact .rule (.anyOf (Reads.ofRule (n := Nonterminal.pipedExpression) ((hl.withField.seq
    (pipeOperator_reads hs htoken).withField).seq (pipeOperand_reads hb hright).withField) rfl)
      (by simp))

end Rules

/-- The rules of every level read what the productions derive. -/
theorem level_reads (n : Nat) : (level n).Reads :=
  Nested.level_forall ⟨nofun, nofun, nofun⟩
    (fun _ hb => ⟨pipeChain_reads hb, typeReference_reads hb, signed_reads hb⟩) n

theorem top_reads : top.Reads := level_reads _

/-! ## Statements -/

/-- A default value is read between its parentheses, or left out. -/
theorem defaultValue_reads (h : defaultValue s = .ok (nodes, s')) :
    Reads (.opt (.token .openParen ++ .rule .simpleExpression ++ .token .closeParen))
      nodes s s' := by
  obtain ⟨hp, h⟩ | ⟨-, h⟩ := Rule.ite_eq_ok.1 h
  · obtain ⟨opening, s₁, hopening, h⟩ := Rule.bind_eq_ok.1 h
    obtain ⟨value, s₂, hvalue, h⟩ := Rule.bind_eq_ok.1 h
    obtain ⟨closing, s₃, hclosing, h⟩ := Rule.bind_eq_ok.1 h
    obtain ⟨rfl, rfl⟩ := Rule.pure_eq_ok.1 h
    exact .some (((Builds.leaf hopening (TokenStream.peek_of_isAt hp) rfl).seq
      (simpleExpression_reads top_reads hvalue).withField).seq (.expect hclosing rfl))
  · obtain ⟨rfl, rfl⟩ := Rule.pure_eq_ok.1 h
    exact .none

/-- A parameter is read as its production says. -/
theorem paramDefinition_reads (h : paramDefinition s = .ok (node, s')) :
    Reads (.rule .paramDefinition) [node] s s' := by
  obtain ⟨name, s₁, hname, h⟩ := Rule.bind_eq_ok.1 h
  obtain ⟨colon, s₂, hcolon, h⟩ := Rule.bind_eq_ok.1 h
  obtain ⟨type, s₃, htype, h⟩ := Rule.bind_eq_ok.1 h
  obtain ⟨value, s₄, hvalue, h⟩ := Rule.bind_eq_ok.1 h
  obtain ⟨comma, s₅, hcomma, h⟩ := Rule.bind_eq_ok.1 h
  obtain ⟨rfl, rfl⟩ := Rule.pure_eq_ok.1 h
  exact .ofRule (((((argumentName_reads hname).withField.seq (.expect hcolon rfl)).seq
    (top_reads.typeIdentifier htype).withField).seq (defaultValue_reads hvalue)).seq
      (optionalComma_reads hcomma)) rfl

/-- Parameters are read if there are any, of one at least. -/
theorem paramList_reads (h : paramList s = .ok (nodes, s')) :
    Reads (.opt (.rule .paramList)) nodes s s' := by
  obtain ⟨hp, h⟩ | ⟨-, h⟩ := Rule.ite_eq_ok.1 h
  · obtain ⟨params, s₁, hparams, h⟩ := Rule.bind_eq_ok.1 h
    obtain ⟨rfl, rfl⟩ := Rule.pure_eq_ok.1 h
    obtain ⟨t, ht⟩ := exists_peek_of_atNamedParam hp
    have hplus : Reads (.plus (.rule .paramDefinition)) params s s₁ :=
      .repeatWhile_plus (fun _ => .each paramDefinition_reads) ht hp hparams
    exact .some (.withField (Reads.ofRule hplus rfl))
  · obtain ⟨rfl, rfl⟩ := Rule.pure_eq_ok.1 h
    exact .none

/-- Behind its name, a type with parameters is read. -/
theorem simpleTypeDefinition_reads {name : RawNode} (hn : Reads (.rule .nominalType) [name] s s₁)
    (h : simpleTypeDefinition name s₁ = .ok (node, s')) :
    Reads (.rule .simpleTypeDefinition) [node] s s' := by
  obtain ⟨params, s₂, hparams, h⟩ := Rule.bind_eq_ok.1 h
  obtain ⟨rfl, rfl⟩ := Rule.pure_eq_ok.1 h
  exact .ofRule (hn.withField.seq (paramList_reads hparams)) rfl

/-- Behind its name, a type with cases is read where the name of a case comes next. -/
theorem enumTypeDefinition_reads {name : RawNode} (hn : Reads (.rule .nominalType) [name] s s₁)
    (hp : s₁.isAt .typeName = true) (h : enumTypeDefinition name s₁ = .ok (node, s')) :
    Reads (.rule .enumTypeDefinition) [node] s s' := by
  obtain ⟨cases, s₂, hcases, h⟩ := Rule.bind_eq_ok.1 h
  obtain ⟨rfl, rfl⟩ := Rule.pure_eq_ok.1 h
  have hplus : Reads (.plus (.rule .simpleTypeDefinition)) cases s₁ s₂ := by
    refine .repeatWhile_plus (fun _ h => ?_) (TokenStream.peek_of_isAt hp) hp hcases
    obtain ⟨caseName, s₃, hname, h⟩ := Rule.bind_eq_ok.1 h
    obtain ⟨case, s₄, hcase, h⟩ := Rule.bind_eq_ok.1 h
    obtain ⟨rfl, rfl⟩ := Rule.pure_eq_ok.1 h
    exact (simpleTypeDefinition_reads (nominalType_reads top_reads hname) hcase).withField
  exact .ofRule (hn.withField.seq hplus) rfl

/-- Both forms of a type definition are read behind the keyword. -/
theorem typeDefinition_reads (hp : s.peek = some .typeKeyword)
    (h : typeDefinition s = .ok (node, s')) : Reads (.rule .typeDefinition) [node] s s' := by
  obtain ⟨keyword, s₁, hkeyword, h⟩ := Rule.bind_eq_ok.1 h
  obtain ⟨name, s₂, hname, h⟩ := Rule.bind_eq_ok.1 h
  have hname := nominalType_reads top_reads hname
  have hkeyword : Reads (.token .typeKeyword) [keyword] s s₁ := .leaf hkeyword hp rfl
  obtain ⟨hp, h⟩ | ⟨-, h⟩ := Rule.ite_eq_ok.1 h
  all_goals
    obtain ⟨definition, s₃, hdefinition, h⟩ := Rule.bind_eq_ok.1 h
    obtain ⟨rfl, rfl⟩ := Rule.pure_eq_ok.1 h
  · exact .ofRule (hkeyword.seq (enumTypeDefinition_reads hname hp hdefinition).left) rfl
  · exact .ofRule (hkeyword.seq (simpleTypeDefinition_reads hname hdefinition).right) rfl

/-- The first module is read if there is one. -/
theorem firstModule_reads (h : firstModule s = .ok (nodes, s')) :
    Reads (.opt (.rule .nominalType)) nodes s s' := by
  obtain ⟨-, h⟩ | ⟨-, h⟩ := Rule.ite_eq_ok.1 h
  · exact .some (.each (nominalType_reads top_reads) h)
  · obtain ⟨rfl, rfl⟩ := Rule.pure_eq_ok.1 h
    exact .none

/-- A namespace is read from its keyword on. -/
theorem namespaceState_reads (hp : s.peek = some .namespaceKeyword)
    (h : namespaceState s = .ok (node, s')) : Reads (.rule .namespaceState) [node] s s' := by
  obtain ⟨keyword, s₁, hkeyword, h⟩ := Rule.bind_eq_ok.1 h
  obtain ⟨opening, s₂, hopening, h⟩ := Rule.bind_eq_ok.1 h
  obtain ⟨first, s₃, hfirst, h⟩ := Rule.bind_eq_ok.1 h
  obtain ⟨more, s₄, hmore, h⟩ := Rule.bind_eq_ok.1 h
  obtain ⟨closing, s₅, hclosing, h⟩ := Rule.bind_eq_ok.1 h
  obtain ⟨rfl, rfl⟩ := Rule.pure_eq_ok.1 h
  have hmany : Reads (.many (.token .comma ++ .rule .nominalType)) more s₃ s₄ :=
    .repeatWhile (marked_reads rfl (nominalType_reads top_reads)) hmore
  exact .ofRule (.of_eq (((((Builds.leaf hkeyword hp rfl).seq (.expect hopening rfl)).seq
    (firstModule_reads hfirst)).seq hmany).seq (.expect hclosing rfl)) (by simp)) rfl

/-- A named value is read behind its scope, which may be empty. -/
theorem constantsStatement_reads {scope : List RawNode}
    (hs : Reads (.opt (.rule .nominalType ++ .token .dot)) scope s s₁)
    (h : constantsStatement scope s₁ = .ok (node, s')) :
    Reads (.rule .constantsStatement) [node] s s' := by
  obtain ⟨name, s₂, hname, h⟩ := Rule.bind_eq_ok.1 h
  obtain ⟨equals, s₃, hequals, h⟩ := Rule.bind_eq_ok.1 h
  obtain ⟨value, s₄, hvalue, h⟩ := Rule.bind_eq_ok.1 h
  obtain ⟨rfl, rfl⟩ := Rule.pure_eq_ok.1 h
  exact .ofRule (.of_eq (((hs.seq (argumentName_reads hname)).seq (.expect hequals rfl)).seq
    (simpleExpression_reads top_reads hvalue)) (by simp)) rfl

/-- The type of the input is read between its parentheses, or left out. -/
theorem inputType_reads (h : inputType s = .ok (nodes, s')) :
    Reads (.opt (.token .openParen ++ .rule .typeIdentifier ++ .token .closeParen))
      nodes s s' := by
  obtain ⟨hp, h⟩ | ⟨-, h⟩ := Rule.ite_eq_ok.1 h
  · obtain ⟨opening, s₁, hopening, h⟩ := Rule.bind_eq_ok.1 h
    obtain ⟨type, s₂, htype, h⟩ := Rule.bind_eq_ok.1 h
    obtain ⟨closing, s₃, hclosing, h⟩ := Rule.bind_eq_ok.1 h
    obtain ⟨rfl, rfl⟩ := Rule.pure_eq_ok.1 h
    exact .some (((Builds.leaf hopening (TokenStream.peek_of_isAt hp) rfl).seq
      (top_reads.typeIdentifier htype).withField).seq (.expect hclosing rfl))
  · obtain ⟨rfl, rfl⟩ := Rule.pure_eq_ok.1 h
    exact .none

/-- The type that a function belongs to is read with its dot, or both are left out. -/
theorem functionScope_reads (h : functionScope s = .ok (nodes, s')) :
    Reads (.opt (.rule .nominalType ++ .token .dot)) nodes s s' := by
  obtain ⟨-, h⟩ | ⟨-, h⟩ := Rule.ite_eq_ok.1 h
  · obtain ⟨type, s₁, htype, h⟩ := Rule.bind_eq_ok.1 h
    obtain ⟨dot, s₂, hdot, h⟩ := Rule.bind_eq_ok.1 h
    obtain ⟨rfl, rfl⟩ := Rule.pure_eq_ok.1 h
    exact .some ((nominalType_reads top_reads htype).withField.seq
      (Builds.expect hdot rfl).withField)
  · obtain ⟨rfl, rfl⟩ := Rule.pure_eq_ok.1 h
    exact .none

/-- A function is read with all its parts in the order of its production. -/
theorem functionDefinition_reads (hp : s.peek = some .funcKeyword)
    (h : functionDefinition s = .ok (node, s')) :
    Reads (.rule .functionDefinition) [node] s s' := by
  obtain ⟨keyword, s₁, hkeyword, h⟩ := Rule.bind_eq_ok.1 h
  obtain ⟨input, s₂, hinput, h⟩ := Rule.bind_eq_ok.1 h
  obtain ⟨scope, s₃, hscope, h⟩ := Rule.bind_eq_ok.1 h
  obtain ⟨name, s₄, hname, h⟩ := Rule.bind_eq_ok.1 h
  obtain ⟨opening, s₅, hopening, h⟩ := Rule.bind_eq_ok.1 h
  obtain ⟨params, s₆, hparams, h⟩ := Rule.bind_eq_ok.1 h
  obtain ⟨closing, s₇, hclosing, h⟩ := Rule.bind_eq_ok.1 h
  obtain ⟨arrow, s₈, harrow, h⟩ := Rule.bind_eq_ok.1 h
  obtain ⟨output, s₉, houtput, h⟩ := Rule.bind_eq_ok.1 h
  obtain ⟨body, s₁₀, hbody, h⟩ := Rule.bind_eq_ok.1 h
  obtain ⟨rfl, rfl⟩ := Rule.pure_eq_ok.1 h
  have hname : Reads anyArgumentName [name.withField Field.name] s₃ s₄ :=
    (argumentName_reads hname).withField
  have hparams : Reads (.token .openParen ++ .opt (.rule .paramList) ++ .token .closeParen)
      ([opening.withField Field.params] ++ params ++ [closing.withField Field.params]) s₄ s₇ :=
    ((Builds.expect hopening rfl).withField.seq (paramList_reads hparams)).seq
      (Builds.expect hclosing rfl).withField
  have houtput : Reads (.rule .typeIdentifier) [output.withField Field.outputType] s₈ s₉ :=
    (top_reads.typeIdentifier houtput).withField
  have hbody : Reads (.rule .expression) [body.withField Field.body] s₉ s₁₀ :=
    (top_reads.expression hbody).withField
  exact .ofRule (.of_eq ((((((((Builds.leaf hkeyword hp rfl).seq (inputType_reads hinput)).seq
    (functionScope_reads hscope)).seq hname).seq hparams).seq (.expect harrow rfl)).seq houtput).seq
      hbody) (by simp)) rfl

/-- What begins with a type is read as one of two statements, as the token behind it decides. -/
theorem scopedStatement_reads (h : scopedStatement s = .ok (node, s')) :
    Reads (.rule .implementationStatement) [node] s s' ∨
      Reads (.rule .constantsStatement) [node] s s' := by
  obtain ⟨type, s₁, htype, h⟩ := Rule.bind_eq_ok.1 h
  have htype := nominalType_reads top_reads htype
  obtain ⟨r, hr, h⟩ := Rule.peek_bind_eq_ok.1 h
  split at hr <;> subst hr
  case h_1 hp =>
    obtain ⟨equals, s₂, hequals, h⟩ := Rule.bind_eq_ok.1 h
    obtain ⟨implementation, s₃, himplementation, h⟩ := Rule.bind_eq_ok.1 h
    obtain ⟨rfl, rfl⟩ := Rule.pure_eq_ok.1 h
    exact .inl (.ofRule ((htype.seq (.leaf hequals hp rfl)).seq
      (nominalType_reads top_reads himplementation)) rfl)
  case h_2 hp =>
    obtain ⟨dot, s₂, hdot, h⟩ := Rule.bind_eq_ok.1 h
    exact .inr (constantsStatement_reads (htype.seq (.leaf hdot hp rfl)).some h)
  case h_3 => cases h

/-- A statement without its end is read as the rule that its first token picks. -/
theorem openStatement_reads (h : openStatement s = .ok (node, s')) :
    Reads (.rule .statement) [node] s s' := by
  obtain ⟨r, hr, h⟩ := Rule.peek_bind_eq_ok.1 h
  split at hr <;> subst hr
  case h_1 hp => exact .rule (.anyOf (namespaceState_reads hp h) (by simp))
  case h_2 hp => exact .rule (.anyOf (typeDefinition_reads hp h) (by simp))
  case h_3 hp => exact .rule (.anyOf (functionDefinition_reads hp h) (by simp))
  case h_4 =>
    rcases scopedStatement_reads h with hn | hn <;> exact .rule (.anyOf hn (by simp))
  case h_5 => exact .rule (.anyOf (constantsStatement_reads .none h) (by simp))
  case h_6 => exact .rule (.anyOf (constantsStatement_reads .none h) (by simp))
  case h_7 => cases h

/-- What a statement reads is derived from the rule for statements and its two dots. -/
theorem statement_reads (h : statement s = .ok (nodes, s')) :
    Reads (.rule .statement ++ .token .dotDot) nodes s s' := by
  obtain ⟨node, s₁, hnode, h⟩ := Rule.bind_eq_ok.1 h
  obtain ⟨ending, s₂, hending, h⟩ := Rule.bind_eq_ok.1 h
  obtain ⟨rfl, rfl⟩ := Rule.pure_eq_ok.1 h
  exact (openStatement_reads hnode).seq (.expect hending rfl)

end GrammarTools.Peopl
