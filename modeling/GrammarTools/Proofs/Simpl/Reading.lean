import GrammarTools.Proofs.Reading
import GrammarTools.Proofs.Simpl.Productions
import GrammarTools.Simpl.Rules

/-!
# What the rules of Simpl read

Every rule of Simpl that succeeds has read tokens derived from the production
of its name, and has built nodes that spell them (`Reads`). Each rule is
followed through once; the rules that stand inside themselves are followed by
induction on their level (`level_reads`).

The productions offer more ways than the rules take. Where a type stands, or a
field with a named argument behind it, the rules read a call; parentheses at the
beginning of a step are read before it is known if they are looped or an operand
(`afterParens_reads`). Each of these ways is one that the productions offer.
-/

namespace GrammarTools.Simpl

/-- What a rule builds. -/
abbrev Reads (p : Pattern Nonterminal Token) (nodes : List RawNode)
    (s s' : TokenStream Token) : Prop :=
  Builds Kind.comment productions p nodes s s'

/-- Inner rules that read what they should. -/
structure Below.Reads (below : Below) : Prop where
  expression : ∀ {s node s'}, below.expression s = .ok (node, s') →
    Simpl.Reads (.rule .expression) [node] s s'
  typeIdentifier : ∀ {s node s'}, below.typeIdentifier s = .ok (node, s') →
    Simpl.Reads (.rule .typeIdentifier) [node] s s'
  unary : ∀ {s node s'}, below.unary s = .ok (node, s') →
    Simpl.Reads (.rule .simpleExpression) [node] s s'

variable {below : Below} {s s₁ s' : TokenStream Token} {node : RawNode} {nodes : List RawNode}

/-- The node of a rule, which is never empty. -/
theorem Reads.ofRule {n : Nonterminal} {kind : KindId} (h : Reads (productions n) nodes s s')
    (hk : kind.isPlain Kind.comment) : Reads (.rule n) [.branch kind nodes] s s' :=
  Builds.ofRule productions_isSolid h hk

theorem peek_of_atNamedParam (h : atNamedParam s = true) : s.peek = some .fieldName := by
  simp only [atNamedParam, TokenStream.isAt, Bool.and_eq_true, beq_iff_eq] at h
  exact h.1

/-! ## Operators -/

/-- No operator shows as a comment or as an error. -/
theorem operatorForm?_isPlain (t : Token) :
    ∀ form ∈ operatorForm? t, form.IsPlain Kind.comment := by
  cases t <;> decide

/-- The tokens in front of operands, as the productions list them. -/
theorem signForm?_isPlain (t : Token) : ∀ form ∈ signForm? t,
    form.IsPlain Kind.comment ∧ t ∈ [Token.plus, .minus, .notKeyword] := by
  cases t <;> decide

/-- An operator that comes next is read as one of the operators of the productions. -/
theorem operator_reads {t : Token} {form : OperatorForm} (hp : s.peek = some t)
    (hf : operatorForm? t = some form) (h : form.node s = .ok (node, s')) :
    Reads binaryOperator [node] s s' := by
  have ht : t ∈ [Token.star, .slash, .percent, .plus, .minus, .equals, .notEquals, .greater,
      .greaterEquals, .less, .lessEquals, .andKeyword, .orKeyword] := by
    cases t <;> simp_all [operatorForm?]
  exact .operator_oneOf h hp (operatorForm?_isPlain t form hf) ht

section Rules

variable (hb : below.Reads)
include hb

/-! ## Types -/

/-- A parameter is read as its production says. -/
theorem paramDeclaration_reads (h : paramDeclaration below s = .ok (node, s')) :
    Reads (.rule .paramDeclaration) [node] s s' := by
  obtain ⟨name, s₁, hname, h⟩ := Rule.bind_eq_ok.1 h
  obtain ⟨colon, s₂, hcolon, h⟩ := Rule.bind_eq_ok.1 h
  obtain ⟨type, s₃, htype, h⟩ := Rule.bind_eq_ok.1 h
  obtain ⟨rfl, rfl⟩ := Rule.pure_eq_ok.1 h
  exact .ofRule (((Builds.expect hname rfl).withField.seq (.expect hcolon rfl)).seq
    (hb.typeIdentifier htype).withField) rfl

/-- Where a parameter begins, a row of them is read, of one at least. -/
theorem paramList_reads (hp : atNamedParam s = true) (h : paramList below s = .ok (node, s')) :
    Reads (.rule .paramList) [node] s s' := by
  obtain ⟨params, s₁, hparams, h⟩ := Rule.bind_eq_ok.1 h
  obtain ⟨rfl, rfl⟩ := Rule.pure_eq_ok.1 h
  have hplus : Reads (.plus (.rule .paramDeclaration)) params s s₁ :=
    .repeatWhile_plus (fun _ => .each (paramDeclaration_reads hb)) (peek_of_atNamedParam hp) hp
      hparams
  exact .ofRule hplus rfl

/-- An inline function is read from its opening brace on. -/
theorem inlineFunctionDeclaration_reads (hp : s.peek = some .openBrace)
    (h : inlineFunctionDeclaration below s = .ok (node, s')) :
    Reads (.rule .inlineFunctionDeclaration) [node] s s' := by
  obtain ⟨opening, s₁, hopening, h⟩ := Rule.bind_eq_ok.1 h
  obtain ⟨params, s₂, hparams, h⟩ := Rule.bind_eq_ok.1 h
  obtain ⟨closing, s₃, hclosing, h⟩ := Rule.bind_eq_ok.1 h
  obtain ⟨result, s₄, hresult, h⟩ := Rule.bind_eq_ok.1 h
  obtain ⟨rfl, rfl⟩ := Rule.pure_eq_ok.1 h
  have hmany : Reads (.many (.rule .paramDeclaration)) params s₁ s₂ :=
    .repeatWhile (fun _ => .each (paramDeclaration_reads hb)) hparams
  exact .ofRule (.of_eq ((((Builds.leaf hopening hp rfl).seq hmany).seq
    (.expect hclosing rfl)).seq (hb.typeIdentifier hresult)) (by simp)) rfl

/-- A type is read by one of its two alternatives, as the next token decides. -/
theorem typeReference_reads (h : typeReference below s = .ok (node, s')) :
    Reads (.rule .typeIdentifier) [node] s s' := by
  obtain ⟨r, hr, h⟩ := Rule.peek_bind_eq_ok.1 h
  split at hr <;> subst hr
  case h_1 hp => exact .rule (.left (.leaf h hp rfl))
  case h_2 hp =>
    obtain ⟨inline, s₁, hinline, h⟩ := Rule.bind_eq_ok.1 h
    obtain ⟨rfl, rfl⟩ := Rule.pure_eq_ok.1 h
    exact .rule (.right ((inlineFunctionDeclaration_reads hb hp hinline).branch rfl (by simp)))
  case h_3 => cases h

/-! ## Operands -/

/-- What extends an operand reads a simple expression, since a binary expression is one. -/
theorem extend_reads {left : RawNode} (hl : Reads (.rule .simpleExpression) [left] s s₁)
    (h : operators.extend below.unary left s₁ = .ok (node, s')) :
    Reads (.rule .simpleExpression) [node] s s' := by
  have hbinary : ∀ {t form left operator right s s₁ s₂ s'},
      Reads (.rule .simpleExpression) [left] s s₁ → s₁.peek = some t →
      operatorForm? t = some form → form.node s₁ = .ok (operator, s₂) →
      Reads (.rule .simpleExpression) [right] s₂ s' →
        Reads (.rule .simpleExpression) [operators.node left operator right] s s' :=
    fun hl hp hf ho hr => .rule (.anyOf (Reads.ofRule (n := Nonterminal.binaryExpression)
      ((hl.withField.seq (operator_reads hp hf ho).withField).seq hr.withField) rfl) (by simp))
  exact Operators.extendBy_ok
    (L := fun node s s' => Reads (.rule .simpleExpression) [node] s s')
    (R := fun node s s' => Reads (.rule .simpleExpression) [node] s s')
    hb.unary hbinary hbinary hl h

theorem simpleExpression_reads (h : simpleExpression below s = .ok (node, s')) :
    Reads (.rule .simpleExpression) [node] s s' :=
  Operators.expression_ok hb.unary (extend_reads hb) h

/-- The values of an array are read as simple expressions. -/
theorem arrayLiteral_reads (hp : s.peek = some .openBracket)
    (h : arrayLiteral below s = .ok (node, s')) : Reads (.rule .arrayLiteral) [node] s s' := by
  obtain ⟨opening, s₁, hopening, h⟩ := Rule.bind_eq_ok.1 h
  obtain ⟨values, s₂, hvalues, h⟩ := Rule.bind_eq_ok.1 h
  obtain ⟨closing, s₃, hclosing, h⟩ := Rule.bind_eq_ok.1 h
  obtain ⟨rfl, rfl⟩ := Rule.pure_eq_ok.1 h
  have hmany : Reads (.many (.rule .simpleExpression)) values s₁ s₂ :=
    .repeatWhile (fun _ => .each (simpleExpression_reads hb)) hvalues
  exact .ofRule (((Builds.leaf hopening hp rfl).seq hmany).seq (.expect hclosing rfl)) rfl

/-- Between parentheses an expression is read, at the level below. -/
theorem parenthisedExpression_reads (hp : s.peek = some .openParen)
    (h : parenthisedExpression below s = .ok (node, s')) :
    Reads (.rule .parenthisedExpression) [node] s s' := by
  obtain ⟨opening, s₁, hopening, h⟩ := Rule.bind_eq_ok.1 h
  obtain ⟨expression, s₂, hexpression, h⟩ := Rule.bind_eq_ok.1 h
  obtain ⟨closing, s₃, hclosing, h⟩ := Rule.bind_eq_ok.1 h
  obtain ⟨rfl, rfl⟩ := Rule.pure_eq_ok.1 h
  exact .ofRule (((Builds.leaf hopening hp rfl).seq (hb.expression hexpression)).seq
    (.expect hclosing rfl)) rfl

omit hb in
/-- Operands that stand for themselves. -/
theorem Reads.single (h : Reads (productions .singleExpression) [node] s s') :
    Reads (.rule .simpleExpression) [node] s s' :=
  .rule (.anyOf (.rule h) (by simp))

/-- Each operand is a single expression, and so a simple one. -/
theorem primary_reads (h : primary below s = .ok (node, s')) :
    Reads (.rule .simpleExpression) [node] s s' := by
  obtain ⟨r, hr, h⟩ := Rule.peek_bind_eq_ok.1 h
  split at hr <;> subst hr
  case h_1 hp => exact .single (.anyOf (.numeral h hp rfl rfl) (by simp))
  case h_2 hp => exact .single (.anyOf (.leaf h hp rfl) (by simp))
  case h_3 hp => exact .single (.anyOf (.leaf h hp rfl) (by simp))
  case h_4 hp => exact .single (.anyOf (.leaf h hp rfl) (by simp))
  case h_5 hp => exact .single (.anyOf (.leaf h hp rfl) (by simp))
  case h_6 hp => exact .single (.anyOf (arrayLiteral_reads hb hp h) (by simp))
  case h_7 hp => exact .rule (.anyOf (parenthisedExpression_reads hb hp h) (by simp))
  case h_8 => cases h

/-- A sign and an operand are read as a unary expression, which is a simple one. -/
theorem signed_reads (h : signed below s = .ok (node, s')) :
    Reads (.rule .simpleExpression) [node] s s' :=
  .signed signForm?_isPlain (primary_reads hb) hb.unary
    (fun hunary => .rule (.anyOf (Reads.ofRule (n := .unaryExpression) hunary rfl) (by simp))) h

/-! ## Expressions -/

/-- An argument is read as its production says. -/
theorem paramDefinition_reads (h : paramDefinition below s = .ok (node, s')) :
    Reads (.rule .paramDefinition) [node] s s' := by
  obtain ⟨name, s₁, hname, h⟩ := Rule.bind_eq_ok.1 h
  obtain ⟨colon, s₂, hcolon, h⟩ := Rule.bind_eq_ok.1 h
  obtain ⟨value, s₃, hvalue, h⟩ := Rule.bind_eq_ok.1 h
  obtain ⟨rfl, rfl⟩ := Rule.pure_eq_ok.1 h
  exact .ofRule (((Builds.expect hname rfl).withField.seq (.expect hcolon rfl)).seq
    (simpleExpression_reads hb hvalue).withField) rfl

/-- Arguments are read if there are any, and the production leaves them out otherwise. -/
theorem callParams_reads (h : callParams below s = .ok (nodes, s')) :
    Reads (.opt (.rule .paramListCall)) nodes s s' := by
  obtain ⟨hp, h⟩ | ⟨-, h⟩ := Rule.ite_eq_ok.1 h
  · obtain ⟨params, s₁, hparams, h⟩ := Rule.bind_eq_ok.1 h
    obtain ⟨rfl, rfl⟩ := Rule.pure_eq_ok.1 h
    have hplus : Reads (.plus (.rule .paramDefinition)) params s s₁ :=
      .repeatWhile_plus (fun _ => .each (paramDefinition_reads hb)) (peek_of_atNamedParam hp) hp
        hparams
    exact .some (.withField (Reads.ofRule hplus rfl))
  · obtain ⟨rfl, rfl⟩ := Rule.pure_eq_ok.1 h
    exact .none

/-- A field or a type is called; both alternatives of the callee occur. -/
theorem callExpression_reads (h : callExpression below s = .ok (node, s')) :
    Reads (.rule .callExpression) [node] s s' := by
  obtain ⟨hp, h⟩ | ⟨-, h⟩ := Rule.ite_eq_ok.1 h
  all_goals
    obtain ⟨callee, s₁, hcallee, h⟩ := Rule.bind_eq_ok.1 h
    obtain ⟨params, s₂, hparams, h⟩ := Rule.bind_eq_ok.1 h
    obtain ⟨rfl, rfl⟩ := Rule.pure_eq_ok.1 h
  · have hc : Reads (.token .fieldName) [callee] s s₁ :=
      .leaf hcallee (TokenStream.peek_of_isAt hp) rfl
    exact .ofRule (hc.left.withField.seq (callParams_reads hb hparams)) rfl
  · have hc := hb.typeIdentifier hcallee
    exact .ofRule (hc.right.withField.seq (callParams_reads hb hparams)) rfl

/-- A step that is no subpipe. -/
def ReadsBody (node : RawNode) (s s' : TokenStream Token) : Prop :=
  Reads (.rule .simpleExpression) [node] s s' ∨ Reads (.rule .callExpression) [node] s s' ∨
    Reads (.rule .loopedExpression) [node] s s'

/-- Parentheses that begin the body of a branch are read as a loop or as an operand. -/
theorem afterParens_reads {parens : RawNode}
    (hl : Reads (.rule .parenthisedExpression) [parens] s s₁)
    (h : afterParens below parens s₁ = .ok (node, s')) : ReadsBody node s s' := by
  obtain ⟨hp, h⟩ | ⟨-, h⟩ := Rule.ite_eq_ok.1 h
  · obtain ⟨caret, s₂, hcaret, h⟩ := Rule.bind_eq_ok.1 h
    obtain ⟨rfl, rfl⟩ := Rule.pure_eq_ok.1 h
    exact .inr (.inr (Reads.ofRule (hl.seq (.leaf hcaret (TokenStream.peek_of_isAt hp) rfl)) rfl))
  · exact .inl (extend_reads hb (.rule (.anyOf hl (by simp))) h)

/-- The body of a branch is read as one of three productions, as the next tokens decide. -/
theorem branchBody_reads (h : branchBody below s = .ok (node, s')) : ReadsBody node s s' := by
  obtain ⟨-, h⟩ | ⟨-, h⟩ := Rule.ite_eq_ok.1 h
  · exact .inr (.inl (callExpression_reads hb h))
  · obtain ⟨hp, h⟩ | ⟨-, h⟩ := Rule.ite_eq_ok.1 h
    · obtain ⟨parens, s₁, hparens, h⟩ := Rule.bind_eq_ok.1 h
      have hp := TokenStream.peek_of_isAt hp
      exact afterParens_reads hb (parenthisedExpression_reads hb hp hparens) h
    · exact .inl (simpleExpression_reads hb h)

/-- A branch is read with its capture, which is an expression. -/
theorem subpipeBranch_reads (hp : s.peek = some .pipe)
    (h : subpipeBranch below s = .ok (node, s')) :
    Reads (.rule .subpipeBranchExpression) [node] s s' := by
  obtain ⟨opening, s₁, hopening, h⟩ := Rule.bind_eq_ok.1 h
  obtain ⟨capture, s₂, hcapture, h⟩ := Rule.bind_eq_ok.1 h
  obtain ⟨closing, s₃, hclosing, h⟩ := Rule.bind_eq_ok.1 h
  obtain ⟨body, s₄, hbody, h⟩ := Rule.bind_eq_ok.1 h
  obtain ⟨rfl, rfl⟩ := Rule.pure_eq_ok.1 h
  have hbody : Reads (.anyOf (.rule .simpleExpression) [.rule .callExpression,
      .rule .loopedExpression]) [body] s₃ s₄ := by
    rcases branchBody_reads hb hbody with hbody | hbody | hbody <;> exact .anyOf hbody (by simp)
  exact .ofRule ((((Builds.leaf hopening hp rfl).seq (hb.expression hcapture).withField).seq
    (.expect hclosing rfl)).seq hbody.withField) rfl

/-- A default is read behind its comma, as a call or a simple expression. -/
theorem subpipeDefault_reads (h : subpipeDefault below s = .ok (nodes, s')) :
    Reads (.opt (.token .comma ++ (.rule .callExpression ||| .rule .simpleExpression)))
      nodes s s' := by
  obtain ⟨hp, h⟩ | ⟨-, h⟩ := Rule.ite_eq_ok.1 h
  · obtain ⟨comma, s₁, hcomma, h⟩ := Rule.bind_eq_ok.1 h
    have hcomma : Reads (.token .comma) [comma] s s₁ :=
      .leaf hcomma (TokenStream.peek_of_isAt hp) rfl
    obtain ⟨-, h⟩ | ⟨-, h⟩ := Rule.ite_eq_ok.1 h
    all_goals
      obtain ⟨default, s₂, hdefault, h⟩ := Rule.bind_eq_ok.1 h
      obtain ⟨rfl, rfl⟩ := Rule.pure_eq_ok.1 h
    · exact .some (hcomma.seq (callExpression_reads hb hdefault).left)
    · exact .some (hcomma.seq (simpleExpression_reads hb hdefault).right)
  · obtain ⟨rfl, rfl⟩ := Rule.pure_eq_ok.1 h
    exact .none

/-- Branches are read with commas between and perhaps a default. -/
theorem subpipeExpression_reads (hp : s.peek = some .pipe)
    (h : subpipeExpression below s = .ok (node, s')) :
    Reads (.rule .subpipeExpression) [node] s s' := by
  obtain ⟨first, s₁, hfirst, h⟩ := Rule.bind_eq_ok.1 h
  obtain ⟨more, s₂, hmore, h⟩ := Rule.bind_eq_ok.1 h
  obtain ⟨default, s₃, hdefault, h⟩ := Rule.bind_eq_ok.1 h
  obtain ⟨rfl, rfl⟩ := Rule.pure_eq_ok.1 h
  have hmany : Reads (.many (.token .comma ++ .rule .subpipeBranchExpression)) more s₁ s₂ := by
    refine .repeatWhile (fun {nodes s s'} hc h => ?_) hmore
    simp only [atNextBranch, Bool.and_eq_true, beq_iff_eq] at hc
    obtain ⟨comma, s₄, hcomma, h⟩ := Rule.bind_eq_ok.1 h
    obtain ⟨branch, s₅, hbranch, h⟩ := Rule.bind_eq_ok.1 h
    obtain ⟨rfl, rfl⟩ := Rule.pure_eq_ok.1 h
    have hpeek := TokenStream.peek_of_isAt hc.1
    refine (Builds.leaf hcomma hpeek rfl).seq (subpipeBranch_reads hb ?_ hbranch)
    rw [← (Rule.leaf_eq_ok.1 hcomma).2, TokenStream.peek, TokenStream.peekNth_advance hpeek]
    exact hc.2
  exact .ofRule (((subpipeBranch_reads hb hp hfirst).seq hmany).seq
    (subpipeDefault_reads hb hdefault)) rfl

/-- A step of an expression. -/
theorem pipeOperand_reads (h : pipeOperand below s = .ok (node, s')) :
    ReadsBody node s s' ∨ Reads (.rule .subpipeExpression) [node] s s' := by
  obtain ⟨hp, h⟩ | ⟨-, h⟩ := Rule.ite_eq_ok.1 h
  · exact .inr (subpipeExpression_reads hb (TokenStream.peek_of_isAt hp) h)
  · exact .inl (branchBody_reads hb h)

/-- Steps in a chain are read as pipe expressions, grouped to the left. -/
theorem pipeChain_reads (h : pipeChain below s = .ok (node, s')) :
    Reads (.rule .expression) [node] s s' := by
  obtain ⟨first, s₁, hfirst, h⟩ := Rule.bind_eq_ok.1 h
  refine Rule.iterate_ok (I := fun node s' => Reads (.rule .expression) [node] s s')
    (fun _ left s₁ node s' hs hl hround => ?_) ?_ h
  · obtain ⟨semicolon, s₂, hsemicolon, hround⟩ := Rule.bind_eq_ok.1 hround
    obtain ⟨right, s₃, hright, hround⟩ := Rule.bind_eq_ok.1 hround
    obtain ⟨rfl, rfl⟩ := Rule.pure_eq_ok.1 hround
    have hp : s₁.isAt .semicolon = true := by simpa using hs
    have hr : Reads (.anyOf (.rule .simpleExpression) [.rule .callExpression,
        .rule .subpipeExpression, .rule .loopedExpression]) [right] s₂ s₃ := by
      rcases pipeOperand_reads hb hright with (hr | hr | hr) | hr <;> exact .anyOf hr (by simp)
    exact .rule (.anyOf (Reads.ofRule (n := Nonterminal.pipeExpression) ((hl.withField.seq
      (.leaf hsemicolon (TokenStream.peek_of_isAt hp) rfl)).seq hr.withField) rfl) (by simp))
  · rcases pipeOperand_reads hb hfirst with (hf | hf | hf) | hf <;>
      exact .rule (.anyOf hf (by simp))

end Rules

/-- The rules of every level read what the productions derive. -/
theorem level_reads (n : Nat) : (level n).Reads :=
  Nested.level_forall ⟨nofun, nofun, nofun⟩
    (fun _ hb => ⟨pipeChain_reads hb, typeReference_reads hb, signed_reads hb⟩) n

theorem top_reads : top.Reads := level_reads _

/-! ## Statements -/

/-- A dot is read as the end of a declaration only where its line ends. -/
theorem declarationEnd_reads (h : declarationEnd s = .ok (node, s')) :
    Reads (.lineEnd .dot) [node] s s' := by
  obtain ⟨hp, h⟩ | ⟨-, h⟩ := Rule.ite_eq_ok.1 h
  · rw [Bool.and_eq_true] at hp
    have hp' := TokenStream.peek_of_isAt hp.1
    have hn : Reads (.token .dot) [node] s s' := .leaf h hp' rfl
    obtain ⟨-, rfl⟩ := Rule.leaf_eq_ok.1 h
    exact ⟨hn.1, .lineEnd hp' hp.2⟩
  · cases h

/-- The parameters of a declaration are read if there are any. -/
theorem declaredParams_reads (h : declaredParams s = .ok (nodes, s')) :
    Reads (.opt (.rule .paramList)) nodes s s' := by
  obtain ⟨hp, h⟩ | ⟨-, h⟩ := Rule.ite_eq_ok.1 h
  · obtain ⟨params, s₁, hparams, h⟩ := Rule.bind_eq_ok.1 h
    obtain ⟨rfl, rfl⟩ := Rule.pure_eq_ok.1 h
    exact .some (paramList_reads top_reads hp hparams).withField
  · obtain ⟨rfl, rfl⟩ := Rule.pure_eq_ok.1 h
    exact .none

/-- Declarations of types and of contracts are read alike, but for their keywords. -/
theorem declaration_reads {kind keyword : Kind} {t : Token} (hp : s.peek = some t)
    (hkind : kind.id.isPlain Kind.comment) (hkeyword : keyword.id.isPlain Kind.comment)
    (h : declaration kind keyword s = .ok (node, s')) :
    Reads (.token t ++ .rule .typeIdentifier ++ .opt (.rule .paramList)) [node] s s' := by
  obtain ⟨keyword, s₁, hk, h⟩ := Rule.bind_eq_ok.1 h
  obtain ⟨name, s₂, hname, h⟩ := Rule.bind_eq_ok.1 h
  obtain ⟨params, s₃, hparams, h⟩ := Rule.bind_eq_ok.1 h
  obtain ⟨rfl, rfl⟩ := Rule.pure_eq_ok.1 h
  exact (((Builds.leaf hk hp hkeyword).seq (top_reads.typeIdentifier hname).withField).seq
    (declaredParams_reads hparams)).branch hkind (by simp)

/-- The type in front of a function name is read if there is one. -/
theorem onType_reads (h : onType s = .ok (nodes, s')) :
    Reads (.opt (.rule .typeIdentifier)) nodes s s' := by
  obtain ⟨-, h⟩ | ⟨-, h⟩ := Rule.ite_eq_ok.1 h
  · obtain ⟨type, s₁, htype, h⟩ := Rule.bind_eq_ok.1 h
    obtain ⟨rfl, rfl⟩ := Rule.pure_eq_ok.1 h
    exact .some (top_reads.typeIdentifier htype).withField
  · obtain ⟨rfl, rfl⟩ := Rule.pure_eq_ok.1 h
    exact .none

/-- A function is read with all its parts in the order of its production. -/
theorem functionDeclaration_reads (hp : s.peek = some .funcKeyword)
    (h : functionDeclaration s = .ok (node, s')) :
    Reads (.rule .functionDeclaration) [node] s s' := by
  obtain ⟨keyword, s₁, hkeyword, h⟩ := Rule.bind_eq_ok.1 h
  obtain ⟨onType, s₂, honType, h⟩ := Rule.bind_eq_ok.1 h
  obtain ⟨name, s₃, hname, h⟩ := Rule.bind_eq_ok.1 h
  obtain ⟨params, s₄, hparams, h⟩ := Rule.bind_eq_ok.1 h
  obtain ⟨result, s₅, hresult, h⟩ := Rule.bind_eq_ok.1 h
  obtain ⟨body, s₆, hbody, h⟩ := Rule.bind_eq_ok.1 h
  obtain ⟨rfl, rfl⟩ := Rule.pure_eq_ok.1 h
  have hname : Reads (.token .fieldName) [name.withField Field.name] s₂ s₃ :=
    (Builds.expect hname rfl).withField
  exact .ofRule (.of_eq ((((((Builds.leaf hkeyword hp rfl).seq (onType_reads honType)).seq
    hname).seq (declaredParams_reads hparams)).seq
      (top_reads.typeIdentifier hresult).withField).seq
        (top_reads.expression hbody).withField) (by simp; exact ⟨rfl, rfl⟩)) rfl

/-- A declaration with its dot is read as a statement. -/
theorem ended_reads {r : Rule Token RawNode}
    (hr : ∀ {node s'}, r s = .ok (node, s') →
      Reads (.anyOf (.rule .typeDeclaration) [.rule .contractDeclaration,
        .rule .functionDeclaration]) [node] s s') (h : ended r s = .ok (nodes, s')) :
    Reads (.rule .statement) nodes s s' := by
  obtain ⟨node, s₁, hnode, h⟩ := Rule.bind_eq_ok.1 h
  obtain ⟨ending, s₂, hending, h⟩ := Rule.bind_eq_ok.1 h
  obtain ⟨rfl, rfl⟩ := Rule.pure_eq_ok.1 h
  exact .rule (.left (.rule ((hr hnode).seq (declarationEnd_reads hending))))

/-- What a statement reads is derived from the rule for statements. -/
theorem statement_reads (h : statement s = .ok (nodes, s')) :
    Reads (.rule .statement) nodes s s' := by
  obtain ⟨r, hr, h⟩ := Rule.peek_bind_eq_ok.1 h
  split at hr <;> subst hr
  case h_1 hp =>
    exact ended_reads (fun h => .anyOf (.rule (n := Nonterminal.typeDeclaration)
      (declaration_reads hp rfl rfl h)) (by simp)) h
  case h_2 hp =>
    exact ended_reads (fun h => .anyOf (.rule (n := Nonterminal.contractDeclaration)
      (declaration_reads hp rfl rfl h)) (by simp)) h
  case h_3 hp => exact ended_reads (fun h => .anyOf (functionDeclaration_reads hp h) (by simp)) h
  case h_4 => exact .rule (.right (.each top_reads.expression h))

end GrammarTools.Simpl
