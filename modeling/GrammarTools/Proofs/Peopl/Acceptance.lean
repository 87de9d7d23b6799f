import GrammarTools.Proofs.Peopl.Reading
import GrammarTools.Proofs.Peopl.Steps
import GrammarTools.Proofs.Run
import Mathlib

/-!
# What the parser of PeoPl accepts

The parser of PeoPl finds no error exactly in what the grammar derives, as long
as nothing is nested too deeply. That it finds none only there is what its
rules read (`statement_reads`). Conversely every rule of the grammar has a
meaning in the terms of steps and chains (`Meaning`), which each production
keeps (`meaning_of_production`).

Two dots end every statement, so statements stand apart. What has to be put in
order are the expressions of a tuple, as a comma behind branches leads to a
default or to more branches (`Chain.row`).
-/

namespace GrammarTools.Peopl

open Relation

variable {s s₁ s' : TokenStream Token} {bare c : Bool}

/-! ## The meaning of the rules -/

/-- A name with its value, and perhaps a comma. -/
def Argument (s s' : TokenStream Token) : Prop :=
  atNamedParam s ∧ s'.IsAhead s ∧
    (Closes s' → s'.peek ≠ some .comma → ∀ n, Accepts (callParam (level n)) s s')

/-- What follows goes on with no parameter. -/
structure ParamEnds (s : TokenStream Token) : Prop extends TypeEnds s where
  paren : s.peek ≠ some .openParen
  comma : s.peek ≠ some .comma

/-- A name with its type, perhaps with a default value and a comma. -/
def Param (s s' : TokenStream Token) : Prop :=
  atNamedParam s ∧ s'.IsAhead s ∧ (ParamEnds s' → Accepts paramDefinition s s')

/-- Parameters in a row. -/
def Params (s s' : TokenStream Token) : Prop := ∃ s₁, Param s s₁ ∧ ReflTransGen Param s₁ s'

/-- A type with its parameters, if there are any. -/
def CaseType (s s' : TokenStream Token) : Prop :=
  ∃ s₁, Nominal true s s₁ ∧ (s' = s₁ ∨ Params s₁ s')

/-- A statement, if its end follows. -/
def Stated (s s' : TokenStream Token) : Prop :=
  s'.peek = some .dotDot → Accepts openStatement s s'

/-- What the parser makes of the places that a rule of the grammar relates. -/
def Meaning : Nonterminal → TokenStream Token → TokenStream Token → Prop
  | .statement | .namespaceState | .implementationStatement | .constantsStatement
  | .typeDefinition | .functionDefinition => Stated
  | .enumTypeDefinition => fun s s' => ∃ s₁ s₂, Nominal true s s₁ ∧ CaseType s₁ s₂ ∧
    ReflTransGen (fun a b => b.IsAhead a ∧ CaseType a b) s₂ s'
  | .simpleTypeDefinition => CaseType
  | .paramList => Params
  | .paramDefinition => Param
  | .typeIdentifier => TypeAt
  | .nominalType => Nominal true
  | .flatNominalType => Name true
  | .typeArguments => fun s s' =>
    s.peek = some .less ∧ ∀ n, Accepts (typeArguments (level n)) s s'
  | .tupleStructuralType => fun s s' =>
    s.peek = some .openBracket ∧ ∀ n, Accepts (tupleStructuralType (level n)) s s'
  | .lambdaStructuralType => fun s s' =>
    s.peek = some .openBrace ∧ (TypeEnds s' → ∀ n, Accepts (lambdaStructuralType (level n)) s s')
  | .expression | .pipedExpression => fun s s' => ∃ c, Chain c s s'
  | .simpleExpression | .unaryExpression | .binaryExpression | .callExpression
  | .accessExpression => Simple
  | .boolLiteral | .tupleLiteral | .lambdaExpression => Stem
  | .parenthisizedExpression => Parens
  | .callParamList => fun s s' => ∃ s₁, Argument s s₁ ∧ ReflTransGen Argument s₁ s'
  | .callParam => Argument
  | .branchedExpression => fun s s' => ∃ c, Step c s s'
  | .branchExpression => Branch
  | .captureGroup => fun s s' =>
    s'.peek = some .pipe → ∀ n, Accepts (captureGroup (level n)) s s'
  | .loopedExpression => Body

/-- What the parser makes of the places that a pattern relates. -/
abbrev Means (p : Pattern Nonterminal Token) (s s' : TokenStream Token) : Prop :=
  p.Rel (fun n s s' => s'.IsAhead s ∧ Meaning n s s') s s'

/-- What the production calls a name is one token that the rule takes. -/
theorem argumentName_means (h : Means anyArgumentName s s') :
    atArgumentName s = true ∧ s' = s.advance ∧ Accepts argumentName s s' := by
  obtain ⟨rfl, t, ht, hp⟩ := Pattern.rel_oneOf h
  have hname : atArgumentName s = true := by
    have hnames : ∀ t ∈ [Token.argumentName, .underscore], isArgumentName t = true := by decide
    simp [atArgumentName, hp, hnames t ht]
  exact ⟨hname, rfl, .ite_pos hname .leaf⟩

/-! ### Types -/

/-- Types with commas between are a row of types. -/
theorem types_mean (h : Means (.separated (.rule .typeIdentifier) .comma) s s') :
    Types s s' := by
  obtain ⟨a, ha, hrow⟩ := h
  exact ⟨a, ha.2, Pattern.rel_marked hrow fun h => h⟩

/-- What a production derives as type arguments is accepted from its bracket on. -/
theorem typeArguments_mean (h : Means (productions .typeArguments) s s') :
    s.peek = some .less ∧ ∀ n, Accepts (typeArguments (level n)) s s' := by
  obtain ⟨b, ⟨a, ⟨hp, rfl⟩, htypes⟩, ⟨hclose, rfl⟩⟩ := h
  have htypes := (types_mean htypes).accepts (.of_peek hclose (by decide))
    (by simp [hclose])
  refine ⟨hp, fun n => ?_⟩
  refine .bind .leaf fun _ => ?_
  refine .bind (htypes n) fun _ => ?_
  exact .bind (.expect hclose) fun _ => .pure

/-- What is derived as a tuple type is accepted, since its bracket keeps off what could follow. -/
theorem tupleStructuralType_means (h : Means (productions .tupleStructuralType) s s') :
    s.peek = some .openBracket ∧ ∀ n, Accepts (tupleStructuralType (level n)) s s' := by
  obtain ⟨b, ⟨a, ⟨hp, rfl⟩, htypes⟩, ⟨hclose, rfl⟩⟩ := h
  have htypes := (types_mean htypes).accepts (.of_peek hclose (by decide))
    (by simp [hclose])
  refine ⟨hp, fun n => ?_⟩
  refine .bind .leaf fun _ => ?_
  refine .bind (htypes n) fun _ => ?_
  exact .bind (.expect hclose) fun _ => .pure

/-- The types of the inputs are accepted in front of the brace that ends them. -/
theorem inputTypes_accepts (h : Means (.opt (.separated (.rule .typeIdentifier) .comma)) s s')
    (hp : s'.peek = some .closeBrace) (n : Nat) : Accepts (inputTypes (level n)) s s' := by
  rcases h with rfl | h
  · exact .ite_pos (TokenStream.isAt_of_peek hp) .pure
  · have htypes := types_mean h
    have hno : ∀ t ∈ typeStarts, t ≠ .closeBrace := by decide
    obtain ⟨a, ⟨⟨t, ht, hp'⟩, -⟩, -⟩ := id htypes
    have haccepts := htypes.accepts (.of_peek hp (by decide)) (by simp [hp]) n
    exact .ite_neg (by simp [TokenStream.isAt, hp', hno t ht]) (.bind haccepts fun _ => .pure)

/-- A function type ends in a type, so what may follow it is what may follow that. -/
theorem lambdaStructuralType_means (h : Means (productions .lambdaStructuralType) s s') :
    s.peek = some .openBrace ∧
      (TypeEnds s' → ∀ n, Accepts (lambdaStructuralType (level n)) s s') := by
  obtain ⟨d, ⟨c, ⟨b, ⟨a, ⟨hp, rfl⟩, hinputs⟩, ⟨hclose, rfl⟩⟩, ⟨harrow, rfl⟩⟩, -, hresult⟩ := h
  refine ⟨hp, fun hends n => ?_⟩
  refine .bind .leaf fun _ => ?_
  refine .bind (inputTypes_accepts hinputs hclose n) fun _ => ?_
  refine .bind (.expect hclose) fun _ => ?_
  refine .bind (.expect harrow) fun _ => ?_
  exact .bind (hresult.2.2 hends n) fun _ => .pure

/-- A name with arguments is not bare. -/
theorem appliedName_means (ha : s'.IsAhead s)
    (h : Means (.token .typeName ++ .rule .typeArguments) s s') : Name false s s' := by
  obtain ⟨a, ⟨hp, rfl⟩, -, hless, hargs⟩ := h
  refine ⟨hp, ha, fun _ n => ?_⟩
  refine .bind (.expect hp) fun _ => ?_
  refine .ite_pos (TokenStream.isAt_of_peek hless) ?_
  exact .bind (hargs n) fun _ => .pure

/-- The name of a type is bare if it has no arguments; then an angle bracket may not follow. -/
theorem flatNominalType_means (ha : s'.IsAhead s)
    (h : Means (productions .flatNominalType) s s') : Name true s s' := by
  obtain ⟨a, ⟨hp, rfl⟩, rfl | hargs⟩ := h
  · refine ⟨hp, ha, fun hless n => .bind (.expect hp) fun _ => .ite_neg ?_ .pure⟩
    simpa [TokenStream.isAt] using hless rfl
  · have h := appliedName_means ha ⟨_, ⟨hp, rfl⟩, hargs⟩
    exact ⟨hp, ha, fun _ => h.2.2 (by simp)⟩

/-- Names in a row, the last of which is at hand. -/
theorem Name.row_of_tail
    (h : ReflTransGen (Means (.rule .flatNominalType ++ .token .colonColon)) s s₁)
    (h' : Name bare s₁ s') :
    Row (fun s => s.peek = some Token.colonColon) Name bare s s' := by
  induction h generalizing bare s' with
  | refl => exact .first h'
  | tail _ hab ih =>
    obtain ⟨a, ⟨-, ha⟩, ⟨hp, rfl⟩⟩ := hab
    exact .more (ih ha) hp h'

/-- A type whose last name has arguments is not bare, so that it may stand in front of an angle
    bracket. -/
theorem appliedType_means (h : Means appliedType s s') : Nominal false s s' := by
  obtain ⟨a, hnames, hlast⟩ := h
  have ha : s'.IsAhead a := by
    obtain ⟨b, ⟨hp, rfl⟩, hb, -⟩ := id hlast
    exact (TokenStream.isAhead_advance hp).trans hb
  exact Name.row (Name.row_of_tail hnames (appliedName_means ha hlast))

/-- A nominal type is a row of names, where the last one tells if it is bare. -/
theorem nominalType_means (h : Means (productions .nominalType) s s') : Nominal true s s' := by
  obtain ⟨a, ⟨-, hfirst⟩, hrow⟩ := h
  refine Name.row ?_
  induction hrow with
  | refl => exact .first hfirst
  | tail _ hab ih =>
    obtain ⟨b, ⟨hp, rfl⟩, -, hname⟩ := hab
    exact .more ih hp hname

/-- Each alternative of a type is accepted, if nothing follows that would go on with it. -/
theorem typeIdentifier_means (ha : s'.IsAhead s) (h : Means (productions .typeIdentifier) s s') :
    TypeAt s s' := by
  have hlevel : ∀ {t : Token}, s.peek = some t → t ∈ typeStarts →
      (TypeEnds s' → ∀ n, Accepts (typeReference (level n)) s s') → TypeAt s s' :=
    fun hp ht h => ⟨⟨_, ht, hp⟩, ha, fun hends n =>
      match n with
      | 0 => .tooDeep
      | n + 1 => h hends n⟩
  rcases h with ⟨hp, rfl⟩ | ⟨hp, rfl⟩ | ⟨-, h⟩ | ⟨-, hp, h⟩ | ⟨-, hp, h⟩
  · exact hlevel hp (by decide) fun _ _ => .peek hp (.bind .leaf fun _ => .pure)
  · exact hlevel hp (by decide) fun _ _ => .peek hp (.bind .leaf fun _ => .pure)
  · exact hlevel h.1 (by decide) fun hends n =>
      .peek h.1 (.bind (h.2.2 (fun _ => hends.less) hends.colons n) fun _ => .pure)
  · exact hlevel hp (by decide) fun hends n => .peek hp (.bind (h hends n) fun _ => .pure)
  · exact hlevel hp (by decide) fun _ n => .peek hp (.bind (h n) fun _ => .pure)

/-! ### Operands -/

/-- What can begin an access is an operand and a simple expression. -/
theorem Stem.simple (h : Stem s s') : Simple s s' := ⟨s', .atom (.stem h .refl), .refl⟩

/-- A truth value is accepted whatever follows. -/
theorem boolLiteral_means (ha : s'.IsAhead s) (h : Means (productions .boolLiteral) s s') :
    Stem s s' := by
  rcases h with ⟨hp, rfl⟩ | ⟨hp, rfl⟩
  · exact ⟨ha, by simp [hp], fun _ _ => .peek hp (.bind .leaf fun _ => .pure)⟩
  · exact ⟨ha, by simp [hp], fun _ _ => .peek hp (.bind .leaf fun _ => .pure)⟩

/-- A tuple is accepted whatever follows, as the bracket ends it. -/
theorem tupleLiteral_means (ha : s'.IsAhead s) (h : Means (productions .tupleLiteral) s s') :
    Stem s s' := by
  obtain ⟨b, ⟨a, ⟨hp, rfl⟩, ⟨e, ⟨-, c, hfirst⟩, hmore⟩⟩, ⟨hclose, rfl⟩⟩ := h
  have hmore : ReflTransGen Chain.Next e b := Pattern.rel_marked hmore And.right
  obtain ⟨c', e, hfirst, hends, hmore⟩ := Chain.row hfirst hmore (by simp [hclose])
  -- A chain ends in front of a comma or of the bracket.
  have hstep : ∀ {c x}, (c = true → x.peek ≠ some .comma) →
      (x.peek = some .comma ∨ x.peek = some .closeBracket) → StepEnds c x ∧ pipeKind? x = none := by
    rintro c x hcomma (hx | hx)
    · exact ⟨⟨.of_peek hx (by decide), hcomma⟩, by simp [pipeKind?, hx]⟩
    · exact ⟨⟨.of_peek hx (by decide), hcomma⟩, by simp [pipeKind?, hx]⟩
  obtain ⟨hmore, he⟩ := exists_followed
    (Q := fun x => x.peek = some Token.comma ∨ x.peek = some Token.closeBracket) hmore
    (fun h => .inl h.1) (.inr hclose)
  obtain ⟨hfirstEnds, hfirstPipe⟩ := hstep hends he
  have hend : b.isAt .comma = false := by simp [TokenStream.isAt, hclose]
  refine ⟨ha, by simp [hp], fun n _ => .peek hp ?_⟩
  refine .bind .leaf fun _ => ?_
  refine .bind (hfirst.accepts hfirstEnds hfirstPipe n) fun _ => ?_
  refine .bind (.repeatWhile_marked (fun x y hxy => ?_) hmore hend) fun _ => ?_
  · obtain ⟨⟨hcomma, c, hchain, hends⟩, hy⟩ := hxy
    obtain ⟨hchainEnds, hchainPipe⟩ := hstep hends hy
    exact ⟨⟨_, hcomma⟩, TokenStream.isAt_of_peek hcomma, hchain.isAhead,
      hchain.accepts hchainEnds hchainPipe n⟩
  · exact .bind (.expect hclose) fun _ => .pure

/-- An expression is accepted in front of some tokens. -/
theorem Chain.accepts_of_peek {t : Token} (h : Chain c s s') (hp : s'.peek = some t)
    (ht : t ∈ [Token.closeParen, .closeBrace, .dotDot]) (n : Nat) :
    Accepts (level n).expression s s' := by
  have hends : ∀ t ∈ [Token.closeParen, .closeBrace, .dotDot], (operatorForm? t = none ∧
      t ≠ .openParen ∧ t ≠ .dot ∧ t ≠ .caret) ∧ t ≠ .comma ∧ t ≠ .question ∧ t ≠ .semicolon := by
    decide
  obtain ⟨hbody, hcomma, hquestion, hsemicolon⟩ := hends t ht
  refine h.accepts ⟨.of_peek hp hbody, fun _ => by simpa [hp] using hcomma⟩ ?_ n
  unfold pipeKind?
  split <;> simp_all

/-- Parentheses are accepted whatever follows, as the last of them ends them. -/
theorem parenthisizedExpression_means (ha : s'.IsAhead s)
    (h : Means (productions .parenthisizedExpression) s s') : Parens s s' := by
  obtain ⟨b, ⟨a, ⟨hp, rfl⟩, ⟨-, c, hchain⟩⟩, ⟨hclose, rfl⟩⟩ := h
  refine ⟨hp, ha, fun n => ?_⟩
  refine .bind .leaf fun _ => ?_
  refine .bind (hchain.accepts_of_peek hclose (by decide) n) fun _ => ?_
  exact .bind (.expect hclose) fun _ => .pure

/-- An expression in braces is accepted as one in parentheses is. -/
theorem lambdaExpression_means (ha : s'.IsAhead s)
    (h : Means (productions .lambdaExpression) s s') : Stem s s' := by
  obtain ⟨b, ⟨a, ⟨hp, rfl⟩, ⟨-, c, hchain⟩⟩, ⟨hclose, rfl⟩⟩ := h
  refine ⟨ha, by simp [hp], fun n _ => ?_⟩
  refine .peek hp ?_
  refine .bind .leaf fun _ => ?_
  refine .bind (hchain.accepts_of_peek hclose (by decide) n) fun _ => ?_
  exact .bind (.expect hclose) fun _ => .pure

/-- Where signs stand in front of a simple expression, they belong to its first operand. -/
theorem unaryExpression_means (h : Means (productions .unaryExpression) s s') : Simple s s' := by
  obtain ⟨a, hsign, -, h⟩ := h
  exact .of_oneOf (by decide) hsign h

/-- Any operator but the one that also begins type arguments takes one token. -/
theorem operatorButLess_means (h : Means operatorButLess s s') :
    s' = s.advance ∧ (operators.upcoming? s).isSome ∧ s.peek ≠ some .less := by
  obtain ⟨rfl, t, ht, hp⟩ := Pattern.rel_oneOf h
  have hops : ∀ t ∈ [Token.star, .slash, .percent, .plus, .minus, .equals, .notEquals, .greater,
      .greaterEquals, .lessEquals, .andKeyword, .orKeyword],
      (operatorForm? t).isSome ∧ t ≠ .less := by decide
  refine ⟨rfl, ?_, by simpa [hp] using (hops t ht).2⟩
  rw [Operators.upcoming?, hp]
  exact (hops t ht).1

/-- However a binary expression is grouped, it is one row of operands with operators between. -/
theorem binaryExpression_means (h : Means (productions .binaryExpression) s s') : Simple s s' := by
  obtain ⟨b, ⟨a, ⟨-, hleft⟩, hop⟩, -, hright⟩ := h
  rcases hop with hop | ⟨hp, rfl⟩
  · obtain ⟨rfl, ho, -⟩ := operatorButLess_means hop
    exact hleft.binary ho hright
  · exact hleft.binary (by rw [Operators.upcoming?, hp]; rfl) hright

/-- A suffix behind a simple expression or a type. -/
theorem suffixed_means (h : Means (.rule .simpleExpression ||| .rule .nominalType) s s₁)
    (h' : Suffixed s₁ s') : Simple s s' := by
  rcases h with ⟨-, h⟩ | ⟨-, h⟩
  · exact h.suffixed h'
  · exact ⟨s', .atom (.type h h' .refl), .refl⟩

/-- What may follow an argument in front of another one. -/
theorem Argument.closes (h : Argument s s') : Closes s ∧ s.peek ≠ some .comma := by
  have hends : ∀ t ∈ [Token.argumentName, .underscore], (operatorForm? t = none ∧
      t ≠ .openParen ∧ t ≠ .dot) ∧ t ≠ .comma := by decide
  obtain ⟨t, ht, hp⟩ := peek_of_atArgumentName (atNamedParam_iff.1 h.1).1
  exact ⟨.of_peek hp (hends t ht).1, by simpa [hp] using (hends t ht).2⟩

/-- Arguments are accepted in front of the parenthesis that ends them. -/
theorem callParams_accepts (h : Means (.opt (.rule .callParamList)) s s')
    (hp : s'.peek = some .closeParen) (n : Nat) : Accepts (callParams (level n)) s s' := by
  have hs' : atNamedParam s' = false := atNamedParam_eq_false hp rfl
  rcases h with rfl | ⟨-, a, hfirst, hrow⟩
  · exact .ite_neg hs' .pure
  · obtain ⟨hrow, -⟩ := exists_followed (ReflTransGen.head hfirst hrow) Argument.closes
      ⟨.of_peek hp (by decide), by simp [hp]⟩
    refine .ite_pos hfirst.1 (.bind (.repeatWhile (fun a b hab => ?_) hrow hs') fun _ => .pure)
    obtain ⟨⟨hname, hahead, haccepts⟩, hcloses, hcomma⟩ := hab
    exact ⟨hahead, hname, .bind (haccepts hcloses hcomma n) fun _ => .pure⟩

/-- In a derivation operators may stand in what is called; the rules read the call as one of the
    last operand. -/
theorem callExpression_means (h : Means (productions .callExpression) s s') : Simple s s' := by
  obtain ⟨b, ⟨a, ⟨e, hleft, ⟨hp, rfl⟩⟩, hparams⟩, ⟨hclose, rfl⟩⟩ := h
  have hb : b.advance.IsAhead e := by
    have hstart := TokenStream.isAhead_advance hp
    rcases hparams with rfl | ⟨hparams, -⟩
    · exact hstart.trans (TokenStream.isAhead_advance hclose)
    · exact (hstart.trans hparams).trans (TokenStream.isAhead_advance hclose)
  refine suffixed_means hleft ⟨hb, .call, by simp [suffix?, hp], fun n _ => ?_⟩
  refine .bind .leaf fun _ => ?_
  refine .bind (callParams_accepts hparams hclose n) fun _ => ?_
  exact .bind (.expect hclose) fun _ => .pure

/-- What is accessed is treated as what is called. -/
theorem accessExpression_means (h : Means (productions .accessExpression) s s') :
    Simple s s' := by
  obtain ⟨a, ⟨e, hleft, ⟨hp, rfl⟩⟩, hname⟩ := h
  obtain ⟨hat, rfl, hname⟩ := argumentName_means hname
  obtain ⟨t, -, hp'⟩ := peek_of_atArgumentName hat
  have hahead := (TokenStream.isAhead_advance hp).trans (TokenStream.isAhead_advance hp')
  exact suffixed_means hleft ⟨hahead, .access, by simp [suffix?, hp], fun _ _ =>
    .bind .leaf fun _ => .bind hname fun _ => .pure⟩

/-- Every alternative of a simple expression is one as the rules see it. -/
theorem simpleExpression_means (ha : s'.IsAhead s)
    (h : Means (productions .simpleExpression) s s') : Simple s s' := by
  rcases h with ⟨hp, rfl⟩ | ⟨hp, rfl⟩ | ⟨hp, rfl⟩ | ⟨hp, rfl⟩ | ⟨-, h⟩ | ⟨-, h⟩ | ⟨-, h⟩ | ⟨-, h⟩ |
    ⟨-, h⟩ | ⟨-, h⟩ | (⟨hp, rfl⟩ | ⟨hp, rfl⟩) | ⟨-, h⟩ | ⟨-, h⟩
  · exact Stem.simple ⟨ha, by simp [hp], fun _ _ => .peek hp .leaf⟩
  · exact Stem.simple ⟨ha, by simp [hp], fun _ _ => .peek hp .leaf⟩
  · exact Stem.simple ⟨ha, by simp [hp], fun _ _ => .peek hp .numeral⟩
  · exact Stem.simple ⟨ha, by simp [hp], fun _ _ => .peek hp .leaf⟩
  · exact h.simple
  · exact h
  · exact h
  · exact h.simple
  · exact h.stem.simple
  · exact h.simple
  · exact Stem.simple ⟨ha, by simp [hp], fun _ _ => .peek hp .leaf⟩
  · exact Stem.simple ⟨ha, by simp [hp], fun _ _ => .peek hp .leaf⟩
  · exact h
  · exact h

/-- A comma that is left out is accepted in front of anything but a comma. -/
theorem optionalComma_accepts (h : Means (.opt (.token .comma)) s s')
    (hs' : s'.peek ≠ some .comma) : Accepts optionalComma s s' := by
  rcases h with rfl | ⟨hp, rfl⟩
  · exact .ite_neg (by simpa [TokenStream.isAt] using hs') .pure
  · exact .ite_pos (TokenStream.isAt_of_peek hp) (.bind .leaf fun _ => .pure)

/-- An argument is accepted, if what follows does not go on with its value. -/
theorem callParam_means (ha : s'.IsAhead s) (h : Means (productions .callParam) s s') :
    Argument s s' := by
  obtain ⟨e, ⟨b, ⟨a, hname, ⟨hcolon, rfl⟩⟩, -, hvalue⟩, hcomma⟩ := h
  obtain ⟨hat, rfl, hname⟩ := argumentName_means hname
  refine ⟨atNamedParam_iff.2 ⟨hat, hcolon⟩, ha, fun hcloses hno n => ?_⟩
  -- Behind the value stands a comma or what closes the arguments.
  have he : Closes e := by
    rcases hcomma with rfl | ⟨hp, -⟩
    · exact hcloses
    · exact .of_peek hp (by decide)
  refine .bind hname fun _ => ?_
  refine .bind (.expect hcolon) fun _ => ?_
  refine .bind (hvalue.accepts he n) fun _ => ?_
  exact .bind (optionalComma_accepts hcomma hno) fun _ => .pure

/-! ### Steps -/

/-- Behind a type that is not bare, an angle bracket compares. -/
theorem Nominal.compared {s₂ : TokenStream Token} (h : Nominal bare s s₁)
    (hless : bare = true → s₁.peek ≠ some .less) (ho : (operators.upcoming? s₁).isSome)
    (h' : Simple s₁.advance s₂) (hs₂ : Closes s₂) (n : Nat) :
    Accepts (firstCapture (level n)) s s₂ := by
  obtain ⟨a, ha, hj⟩ := h'
  have hcolons : s₁.peek ≠ some .colonColon := fun hp => by
    rw [Operators.upcoming?_eq_none hp rfl] at ho
    cases ho
  exact h.firstCapture_accepts hless hcolons (.head ⟨ho, ha⟩ hj) hs₂ n

/-- Every alternative of a capture is accepted by the rule for the first capture. -/
theorem capture_means (h : Means capture s s') (hcloses : Closes s') (hends : TypeEnds s')
    (n : Nat) : Accepts (firstCapture (level n)) s s' := by
  rcases h with ⟨-, h⟩ | ⟨-, h⟩ | ⟨a, ⟨b, ⟨-, htype⟩, hop⟩ | ⟨b, htype, ⟨hless, rfl⟩⟩, -, h⟩
  · exact h.firstCapture_accepts hcloses n
  · exact h.firstCapture_accepts (fun _ => hends.less) hends.colons .refl hcloses n
  · obtain ⟨rfl, ho, hless⟩ := operatorButLess_means hop
    exact htype.compared (fun _ => hless) ho h hcloses n
  · exact (appliedType_means htype).compared (by simp)
      (by rw [Operators.upcoming?, hless]; rfl) h hcloses n

/-- Captures are accepted in front of the bar that ends them. -/
theorem captureGroup_means (h : Means (productions .captureGroup) s s')
    (hp : s'.peek = some .pipe) (n : Nat) : Accepts (captureGroup (level n)) s s' := by
  obtain ⟨a, hfirst, hrow⟩ := h
  have hrow : ReflTransGen (fun a b => a.peek = some .comma ∧ Simple a.advance b) a s' :=
    Pattern.rel_marked hrow And.right
  obtain ⟨hrow, hcloses, hends⟩ := exists_followed (Q := fun x => Closes x ∧ TypeEnds x) hrow
    (fun h => ⟨.of_peek h.1 (by decide), .of_peek h.1 (by decide)⟩)
    ⟨.of_peek hp (by decide), .of_peek hp (by decide)⟩
  have hend : s'.isAt .comma = false := by simp [TokenStream.isAt, hp]
  refine .bind (capture_means hfirst hcloses hends n) fun _ => ?_
  refine .bind (.repeatWhile_marked (fun x y hxy => ?_) hrow hend) fun _ => .pure
  obtain ⟨⟨hcomma, h⟩, hcloses, -⟩ := hxy
  exact ⟨⟨_, hcomma⟩, TokenStream.isAt_of_peek hcomma, h.isAhead, h.accepts hcloses n⟩

/-- A branch is accepted, if nothing follows that would go on with its body. -/
theorem branchExpression_means (ha : s'.IsAhead s)
    (h : Means (productions .branchExpression) s s') : Branch s s' := by
  obtain ⟨d, ⟨b, ⟨a, ⟨hp, rfl⟩, -, hcaptures⟩, ⟨hclose, rfl⟩⟩, hbody⟩ := h
  have hbody : Body b.advance s' := by
    rcases hbody with ⟨-, h⟩ | ⟨-, h⟩
    · exact .simple h
    · exact h
  refine ⟨hp, ha, fun hends n => ?_⟩
  refine .bind .leaf fun _ => ?_
  refine .bind (hcaptures hclose n) fun _ => ?_
  refine .bind (.expect hclose) fun _ => ?_
  exact .bind (hbody.accepts hends n) fun _ => .pure

/-- Branches are a step; a flag tells if they have a default. -/
theorem branchedExpression_means (h : Means (productions .branchedExpression) s s') :
    ∃ c, Step c s s' := by
  obtain ⟨b, ⟨a, ⟨-, hfirst⟩, hmore⟩, hdefault⟩ := h
  have hbranches : Branches s b := ⟨a, hfirst, Pattern.rel_marked hmore And.right⟩
  rcases hdefault with rfl | ⟨d, ⟨hcomma, rfl⟩, -, h⟩
  · exact ⟨true, .branches hbranches⟩
  · exact ⟨false, .default hbranches hcomma h⟩

/-- Chains are grouped in many ways by the productions; each of them is a row of steps. -/
theorem pipedExpression_means (h : Means (productions .pipedExpression) s s') :
    ∃ c, Chain c s s' := by
  obtain ⟨b, ⟨a, ⟨-, c, hleft⟩, hop⟩, -, c', hright⟩ := h
  obtain ⟨rfl, t, ht, hp⟩ := Pattern.rel_oneOf hop
  have hmark : (pipeKind? a).isSome = true := by
    simp only [List.mem_cons, List.not_mem_nil, or_false] at ht
    rcases ht with rfl | rfl <;> simp [pipeKind?, hp]
  exact ⟨c', hleft.append hmark hright⟩

/-- A single step is a chain as well. -/
theorem expression_means (h : Means (productions .expression) s s') : ∃ c, Chain c s s' := by
  rcases h with ⟨-, h⟩ | ⟨-, c, h⟩ | ⟨-, h⟩
  · exact ⟨false, .first (.simple h)⟩
  · exact ⟨c, .first h⟩
  · exact h

/-! ### Statements -/

/-- A default value is accepted if it is left out only where no parenthesis follows. -/
theorem defaultValue_accepts
    (h : Means (.opt (.token .openParen ++ .rule .simpleExpression ++ .token .closeParen)) s s')
    (hs' : s' = s → s'.peek ≠ some .openParen) : Accepts defaultValue s s' := by
  rcases h with rfl | ⟨b, ⟨a, ⟨hp, rfl⟩, -, hvalue⟩, ⟨hclose, rfl⟩⟩
  · exact .ite_neg (by simpa [TokenStream.isAt] using hs' rfl) .pure
  · have hends : Closes b := .of_peek hclose (by decide)
    refine .ite_pos (TokenStream.isAt_of_peek hp) ?_
    refine .bind .leaf fun _ => ?_
    refine .bind (hvalue.accepts hends _) fun _ => ?_
    exact .bind (.expect hclose) fun _ => .pure

/-- A parameter is accepted, if what follows does not go on with its type. -/
theorem paramDefinition_means (ha : s'.IsAhead s) (h : Means (productions .paramDefinition) s s') :
    Param s s' := by
  obtain ⟨e, ⟨d, ⟨b, ⟨a, hname, ⟨hcolon, rfl⟩⟩, -, htype⟩, hvalue⟩, hcomma⟩ := h
  obtain ⟨hat, rfl, hname⟩ := argumentName_means hname
  refine ⟨atNamedParam_iff.2 ⟨hat, hcolon⟩, ha, fun hends => ?_⟩
  -- Behind the default value stands a comma or the end.
  have he : TypeEnds e ∧ e.peek ≠ some .openParen := by
    rcases hcomma with rfl | ⟨hp, -⟩
    · exact ⟨hends.toTypeEnds, hends.paren⟩
    · exact ⟨.of_peek hp (by decide), by simp [hp]⟩
  have hd : TypeEnds d := by
    rcases hvalue with rfl | ⟨_, ⟨_, ⟨hp, -⟩, -⟩, -⟩
    · exact he.1
    · exact .of_peek hp (by decide)
  refine .bind hname fun _ => ?_
  refine .bind (.expect hcolon) fun _ => ?_
  refine .bind (htype.2.2 hd _) fun _ => ?_
  refine .bind (defaultValue_accepts hvalue fun _ => he.2) fun _ => ?_
  exact .bind (optionalComma_accepts hcomma hends.comma) fun _ => .pure

theorem ParamEnds.of_peek {t : Token} (hp : s.peek = some t)
    (ht : (t ≠ .less ∧ t ≠ .colonColon) ∧ t ≠ .openParen ∧ t ≠ .comma) : ParamEnds s := by
  obtain ⟨htype, hparen, hcomma⟩ := ht
  exact ⟨.of_peek hp htype, by simpa [hp] using hparen, by simpa [hp] using hcomma⟩

/-- Another parameter may follow a parameter, as it begins with a name. -/
theorem Param.paramEnds (h : Param s s') : ParamEnds s := by
  have hends : ∀ t ∈ [Token.argumentName, .underscore],
      (t ≠ .less ∧ t ≠ .colonColon) ∧ t ≠ .openParen ∧ t ≠ .comma := by decide
  obtain ⟨t, ht, hp⟩ := peek_of_atArgumentName (atNamedParam_iff.1 h.1).1
  exact .of_peek hp (hends t ht)

/-- Parameters are accepted up to where no further one begins. -/
theorem paramList_accepts (h : s' = s ∨ Params s s') (hends : ParamEnds s')
    (hnamed : atNamedParam s' = false) : Accepts paramList s s' := by
  rcases h with rfl | ⟨a, hfirst, hrow⟩
  · exact .ite_neg hnamed .pure
  · obtain ⟨hrow, -⟩ := exists_followed (ReflTransGen.head hfirst hrow) Param.paramEnds hends
    refine .ite_pos hfirst.1 (.bind (.repeatWhile (fun a b hab => ?_) hrow hnamed) fun _ => .pure)
    obtain ⟨⟨hname, hahead, haccepts⟩, hends⟩ := hab
    exact ⟨hahead, hname, .bind (haccepts hends) fun _ => .pure⟩

/-- The production for parameters derives a row of them. -/
theorem Params.of_means (h : Means (.opt (.rule .paramList)) s s') : s' = s ∨ Params s s' := by
  rcases h with rfl | ⟨-, h⟩
  · exact .inl rfl
  · exact .inr h

/-- A type with parameters is accepted, if what follows does not go on with the last of them. -/
theorem simpleTypeDefinition_means (h : Means (productions .simpleTypeDefinition) s s') :
    CaseType s s' := by
  obtain ⟨a, ⟨-, hname⟩, hparams⟩ := h
  exact ⟨a, hname, Params.of_means hparams⟩

/-- A type is accepted in front of its parameters, and they in front of what may follow. -/
theorem CaseType.accepts (h : CaseType s s') (hends : ParamEnds s')
    (hnamed : atNamedParam s' = false) :
    ∃ s₁, Accepts (nominalType top) s s₁ ∧ (s₁.peek = some .typeName → s₁ = s') ∧
      ∀ name, Accepts (simpleTypeDefinition name) s₁ s' := by
  obtain ⟨a, hname, hparams⟩ := h
  have ha : ParamEnds a ∧ (a.peek = some .typeName → a = s') := by
    rcases hparams with rfl | ⟨b, hfirst, -⟩
    · exact ⟨hends, fun _ => rfl⟩
    · refine ⟨hfirst.paramEnds, fun hat => ?_⟩
      have hnamed := hfirst.1
      rw [atNamedParam_eq_false hat rfl] at hnamed
      cases hnamed
  exact ⟨a, hname.accepts_top ha.1.toTypeEnds, ha.2, fun _ =>
    .bind (paramList_accepts hparams hends hnamed) fun _ => .pure⟩

/-- A type with parameters is at least a name. -/
theorem CaseType.isAhead (h : CaseType s s') : s'.IsAhead s := by
  obtain ⟨a, hname, rfl | ⟨b, hfirst, hrow⟩⟩ := h
  · exact hname.2.1
  · have hb := hname.2.1.trans hfirst.2.1
    induction hrow with
    | refl => exact hb
    | tail _ hab ih => exact ih.trans hab.2.1

/-- Cases are settled from the last one to the first, as each of them begins with a type name. -/
theorem enumTypeDefinition_means (h : Means (productions .enumTypeDefinition) s s') :
    Meaning .enumTypeDefinition s s' := by
  obtain ⟨a, ⟨-, hname⟩, b, ⟨-, hfirst⟩, hrow⟩ := h
  exact ⟨a, b, hname, hfirst, hrow⟩

/-- The cases of a type are accepted in front of the end of a statement. -/
theorem CaseType.accepts_row (h : ReflTransGen CaseType s s') (hend : s'.peek = some .dotDot) :
    Accepts (Rule.repeatWhile (·.isAt .typeName) do
      let case ← simpleTypeDefinition (← nominalType top)
      return [case.withField Field.caseType]) s s' := by
  obtain ⟨hrow, -⟩ := exists_followed (Q := fun x => ParamEnds x ∧ atNamedParam x = false) h
    (fun ⟨_, hname, _⟩ => ⟨.of_peek hname.1 (by decide), atNamedParam_eq_false hname.1 rfl⟩)
    ⟨.of_peek hend (by decide), atNamedParam_eq_false hend rfl⟩
  refine .repeatWhile (fun a b hab => ?_) hrow (by simp [TokenStream.isAt, hend])
  obtain ⟨hcase, hends, hnamed⟩ := hab
  obtain ⟨c, hname, -, hparams⟩ := hcase.accepts hends hnamed
  obtain ⟨_, hstart, -⟩ := id hcase
  exact ⟨hcase.isAhead, TokenStream.isAt_of_peek hstart.1,
    .bind hname fun name => .bind (hparams name) fun _ => .pure⟩

/-- The definition of a type is a statement, in either of its forms. -/
theorem typeDefinition_means (h : Means (productions .typeDefinition) s s') : Stated s s' := by
  obtain ⟨a, ⟨hkeyword, rfl⟩, h⟩ := h
  intro hend
  refine .peek hkeyword (.bind .leaf fun _ => ?_)
  rcases h with ⟨-, a, b, hname, hfirst, hrow⟩ | ⟨-, h⟩
  · have hrow : ReflTransGen CaseType a s' :=
      .head hfirst (ReflTransGen.mono (fun _ _ h => h.2) _ _ hrow)
    have hat : a.peek = some .typeName := by
      obtain ⟨b, hname, -⟩ := hfirst
      exact hname.1
    have hcases : ∀ name, Accepts (enumTypeDefinition name) a s' := fun _ =>
      .bind (CaseType.accepts_row hrow hend) fun _ => .pure
    refine .bind (hname.accepts_top (.of_peek hat (by decide))) fun name => ?_
    exact .ite_pos (TokenStream.isAt_of_peek hat) (.bind (hcases name) fun _ => .pure)
  · obtain ⟨b, hname, hat, hparams⟩ :=
      h.accepts (.of_peek hend (by decide)) (atNamedParam_eq_false hend rfl)
    have hat : b.isAt .typeName = false := by
      by_contra hp
      have hp := TokenStream.peek_of_isAt (by simpa using hp)
      rw [hat hp, hend] at hp
      cases hp
    refine .bind hname fun name => ?_
    exact .ite_neg hat (.bind (hparams name) fun _ => .pure)

/-- A namespace is a statement, whether it has modules or not. -/
theorem namespaceState_means (h : Means (productions .namespaceState) s s') : Stated s s' := by
  obtain ⟨d, ⟨c, ⟨b, ⟨a, ⟨hkeyword, rfl⟩, ⟨hopen, rfl⟩⟩, hfirst⟩, hmore⟩, ⟨hclose, rfl⟩⟩ := h
  have hmore : ReflTransGen (fun a b => a.peek = some .comma ∧ b.IsAhead a.advance ∧
      Nominal true a.advance b) c d := Pattern.rel_marked hmore fun h => h
  obtain ⟨hmore, hends, hc⟩ := exists_followed
    (Q := fun x => TypeEnds x ∧ x.isAt .typeName = false) hmore
    (fun h => ⟨.of_peek h.1 (by decide), by simp [TokenStream.isAt, h.1]⟩)
    ⟨.of_peek hclose (by decide), by simp [TokenStream.isAt, hclose]⟩
  have hfirst : Accepts firstModule s.advance.advance c := by
    rcases hfirst with rfl | ⟨-, hname⟩
    · exact .ite_neg hc .pure
    · exact .ite_pos (TokenStream.isAt_of_peek hname.1)
        (.bind (hname.accepts_top hends) fun _ => .pure)
  have hend : d.isAt .comma = false := by simp [TokenStream.isAt, hclose]
  intro _
  refine .peek hkeyword ?_
  refine .bind .leaf fun _ => ?_
  refine .bind (.expect hopen) fun _ => ?_
  refine .bind hfirst fun _ => ?_
  refine .bind (.repeatWhile_marked (fun x y hxy => ?_) hmore hend) fun _ => ?_
  · obtain ⟨⟨hcomma, hahead, hname⟩, hends, -⟩ := hxy
    exact ⟨⟨_, hcomma⟩, TokenStream.isAt_of_peek hcomma, hahead, hname.accepts_top hends⟩
  · exact .bind (.expect hclose) fun _ => .pure

/-- An implementation is told from a named value by its equals sign. -/
theorem implementationStatement_means
    (h : Means (productions .implementationStatement) s s') : Stated s s' := by
  obtain ⟨b, ⟨a, ⟨-, hname⟩, ⟨hequals, rfl⟩⟩, -, hvalue⟩ := h
  intro hend
  refine .peek hname.1 ?_
  refine .bind (hname.accepts_top (.of_peek hequals (by decide))) fun _ => ?_
  refine .peek hequals ?_
  refine .bind .leaf fun _ => ?_
  exact .bind (hvalue.accepts_top (.of_peek hend (by decide))) fun _ => .pure

/-- A named value is a statement, with or without a scope. -/
theorem constantsStatement_means (h : Means (productions .constantsStatement) s s') :
    Stated s s' := by
  obtain ⟨d, ⟨b, ⟨a, hscope, hname⟩, ⟨hequals, rfl⟩⟩, -, hvalue⟩ := h
  obtain ⟨hat, rfl, hname⟩ := argumentName_means hname
  intro hend
  have hvalue := hvalue.accepts (.of_peek hend (by decide)) maxNesting
  have hconstant : ∀ scope, Accepts (constantsStatement scope) a s' := by
    intro scope
    refine .bind hname fun _ => ?_
    refine .bind (.expect hequals) fun _ => ?_
    exact .bind hvalue fun _ => .pure
  rcases hscope with rfl | ⟨e, ⟨-, htype⟩, ⟨hdot, rfl⟩⟩
  · obtain ⟨t, ht, hp⟩ := peek_of_atArgumentName hat
    simp only [List.mem_cons, List.not_mem_nil, or_false] at ht
    rcases ht with rfl | rfl <;> exact .peek hp (hconstant [])
  · refine .peek htype.1 ?_
    refine .bind (htype.accepts_top (.of_peek hdot (by decide))) fun _ => ?_
    exact .peek hdot (.bind .leaf fun _ => hconstant _)

/-- The type of the input is accepted if it is left out only where no parenthesis follows. -/
theorem inputType_accepts
    (h : Means (.opt (.token .openParen ++ .rule .typeIdentifier ++ .token .closeParen)) s s')
    (hs' : s' = s → s'.peek ≠ some .openParen) : Accepts inputType s s' := by
  rcases h with rfl | ⟨b, ⟨a, ⟨hp, rfl⟩, -, htype⟩, ⟨hclose, rfl⟩⟩
  · exact .ite_neg (by simpa [TokenStream.isAt] using hs' rfl) .pure
  · refine .ite_pos (TokenStream.isAt_of_peek hp) ?_
    refine .bind .leaf fun _ => ?_
    refine .bind (htype.2.2 (.of_peek hclose (by decide)) _) fun _ => ?_
    exact .bind (.expect hclose) fun _ => .pure

/-- A function is a statement: each of its parts is accepted in front of the next one. -/
theorem functionDefinition_means (h : Means (productions .functionDefinition) s s') :
    Stated s s' := by
  obtain ⟨n, ⟨m, ⟨l, ⟨k, ⟨d, ⟨b, ⟨a, ⟨hkeyword, rfl⟩, hinput⟩, hscope⟩, hname⟩,
    ⟨f, ⟨e, ⟨hopen, rfl⟩, hparams⟩, ⟨hclose, rfl⟩⟩⟩, ⟨harrow, rfl⟩⟩, -, houtput⟩, -, c, hbody⟩ := h
  obtain ⟨hat, rfl, hname⟩ := argumentName_means hname
  intro hend
  have hstart : ∀ t ∈ Step.starts, t ≠ .less ∧ t ≠ .colonColon := by decide
  obtain ⟨t, ht, hp⟩ := hbody.start
  have houtput := houtput.2.2 (.of_peek hp (hstart t ht)) maxNesting
  have hparams := paramList_accepts (Params.of_means hparams) (.of_peek hclose (by decide))
    (atNamedParam_eq_false hclose rfl)
  have hscope : Accepts functionScope b d ∧ b.peek ≠ some .openParen := by
    rcases hscope with rfl | ⟨e, ⟨-, htype⟩, ⟨hdot, rfl⟩⟩
    · have hno : ∀ t ∈ [Token.argumentName, .underscore], t ≠ .typeName ∧ t ≠ .openParen := by
        decide
      obtain ⟨t, ht, hp⟩ := peek_of_atArgumentName hat
      obtain ⟨htype, hparen⟩ := hno t ht
      exact ⟨.ite_neg (by simp [TokenStream.isAt, hp, htype]) .pure, by simpa [hp] using hparen⟩
    · have htypeName := htype.accepts_top (.of_peek hdot (by decide))
      refine ⟨.ite_pos (TokenStream.isAt_of_peek htype.1) ?_, by simp [htype.1]⟩
      exact .bind htypeName fun _ => .bind (.expect hdot) fun _ => .pure
  refine .peek hkeyword ?_
  refine .bind .leaf fun _ => ?_
  refine .bind (inputType_accepts hinput fun _ => hscope.2) fun _ => ?_
  refine .bind hscope.1 fun _ => ?_
  refine .bind hname fun _ => ?_
  refine .bind (.expect hopen) fun _ => ?_
  refine .bind hparams fun _ => ?_
  refine .bind (.expect hclose) fun _ => ?_
  refine .bind (.expect harrow) fun _ => ?_
  refine .bind houtput fun _ => ?_
  exact .bind (hbody.accepts_of_peek hend (by decide) _) fun _ => .pure

/-- Each production keeps the meaning of the rules. -/
theorem meaning_of_production (n : Nonterminal) (s s' : TokenStream Token) (ha : s'.IsAhead s)
    (h : Means (productions n) s s') : Meaning n s s' := by
  cases n with
  | statement =>
    rcases h with ⟨-, h⟩ | ⟨-, h⟩ | ⟨-, h⟩ | ⟨-, h⟩ | ⟨-, h⟩ <;> exact h
  | namespaceState => exact namespaceState_means h
  | implementationStatement => exact implementationStatement_means h
  | constantsStatement => exact constantsStatement_means h
  | typeDefinition => exact typeDefinition_means h
  | enumTypeDefinition => exact enumTypeDefinition_means h
  | simpleTypeDefinition => exact simpleTypeDefinition_means h
  | paramList =>
    obtain ⟨a, ⟨-, hfirst⟩, hrow⟩ := h
    exact ⟨a, hfirst, ReflTransGen.mono (fun _ _ h => h.2) _ _ hrow⟩
  | paramDefinition => exact paramDefinition_means ha h
  | typeIdentifier => exact typeIdentifier_means ha h
  | nominalType => exact nominalType_means h
  | flatNominalType => exact flatNominalType_means ha h
  | typeArguments => exact typeArguments_mean h
  | tupleStructuralType => exact tupleStructuralType_means h
  | lambdaStructuralType => exact lambdaStructuralType_means h
  | functionDefinition => exact functionDefinition_means h
  | expression => exact expression_means h
  | simpleExpression => exact simpleExpression_means ha h
  | boolLiteral => exact boolLiteral_means ha h
  | tupleLiteral => exact tupleLiteral_means ha h
  | unaryExpression => exact unaryExpression_means h
  | binaryExpression => exact binaryExpression_means h
  | parenthisizedExpression => exact parenthisizedExpression_means ha h
  | callExpression => exact callExpression_means h
  | callParamList =>
    obtain ⟨a, ⟨-, hfirst⟩, hrow⟩ := h
    exact ⟨a, hfirst, ReflTransGen.mono (fun _ _ h => h.2) _ _ hrow⟩
  | callParam => exact callParam_means ha h
  | pipedExpression => exact pipedExpression_means h
  | branchedExpression => exact branchedExpression_means h
  | branchExpression => exact branchExpression_means ha h
  | captureGroup => exact captureGroup_means h
  | loopedExpression =>
    obtain ⟨a, ⟨-, h⟩, ⟨hp, rfl⟩⟩ := h
    exact .looped h hp
  | lambdaExpression => exact lambdaExpression_means ha h
  | accessExpression => exact accessExpression_means h

/-! ## The language of the parser -/

/-- What a rule of the grammar reads is at least one token. -/
theorem grammar_isProgressive : grammar.IsProgressive where
  statement h := (statement_reads h).between.isAhead productions_isSolid rfl
  recover hs := by
    have ha := TokenStream.isAhead_skipUntil
      (fun _ (s : TokenStream Token) => s.atEnd || s.isAt .dotDot) hs
    simp only [grammar, recover]
    split
    · exact ha.trans (TokenStream.isAhead_advance (TokenStream.peek_of_isAt ‹_›))
    · exact ha

/-- A run finds no error exactly in a row of statements, unless rules are nested too deeply. -/
theorem errors_eq_nil_iff {nodes : List RawNode} {errors : List SyntaxError}
    (hrun : grammar.Run s nodes errors) (he : ∀ e ∈ errors, ¬ e.IsNesting) :
    errors = [] ↔ Derives productions sourceFile (Word.ofLexemes s.upcoming) := by
  rw [derives_ofLexemes_iff]
  constructor
  · rintro rfl
    exact hrun.exists_between fun h => (statement_reads h).between
  · rintro ⟨s', h, hend⟩
    refine hrun.errors_eq_nil (ReflTransGen.mono (fun a b hab => ?_) _ _
      (h.rel productions_isSolid meaning_of_production)) hend he
    obtain ⟨d, ⟨hahead, h⟩, ⟨hdot, rfl⟩⟩ := hab
    exact ⟨hahead.trans (TokenStream.isAhead_advance hdot),
      .bind (h hdot) fun _ => .bind (.expect hdot) fun _ => .pure⟩

/-- The parser of PeoPl accepts the language of its grammar: unless rules are nested too
    deeply, it finds no error in a source exactly if the grammar derives its words. -/
theorem peopl_parse_accepts_iff (source : String)
    (h : ∀ e ∈ (grammar.parse source).errors, e.expected ≠ [SyntaxError.nestingLimit]) :
    (grammar.parse source).errors = [] ↔ Derives productions sourceFile
      (Word.ofSource source.toList (lexicon.lex source).lexemes) :=
  grammar.parse_errors_eq_nil_iff grammar_isProgressive errors_eq_nil_iff source h

/-- A branch with a default inside a tuple, whose capture compares a type with arguments. -/
theorem peopl_parse_accepts_default :
    (∀ e ∈ (grammar.parse "func f() => Int [|Foo<A> < x, y| 1, 2, 3]..").errors,
      e.expected ≠ [SyntaxError.nestingLimit]) ∧
    Derives productions sourceFile
      (Word.ofSource "func f() => Int [|Foo<A> < x, y| 1, 2, 3]..".toList
        (lexicon.lex "func f() => Int [|Foo<A> < x, y| 1, 2, 3]..").lexemes) := by
  have herrors : (grammar.parse "func f() => Int [|Foo<A> < x, y| 1, 2, 3]..").errors = [] := by
    cbv
  have hlimit : ∀ e ∈ (grammar.parse "func f() => Int [|Foo<A> < x, y| 1, 2, 3]..").errors,
      e.expected ≠ [SyntaxError.nestingLimit] := by simp [herrors]
  exact ⟨hlimit, (peopl_parse_accepts_iff _ hlimit).1 herrors⟩

/-- Were any type to be compared in a capture, the grammar would derive a source in which
    the parser reads the sign behind a type as the start of type arguments. -/
theorem looseCapture_rejects_comparison :
    (∀ e ∈ (grammar.parse "a = (|Foo < x| 1)..").errors,
      e.expected ≠ [SyntaxError.nestingLimit]) ∧
    ¬ ((grammar.parse "a = (|Foo < x| 1)..").errors = [] ↔
      Derives (productionsWith looseCapture) sourceFile
        (Word.ofSource "a = (|Foo < x| 1)..".toList
          (lexicon.lex "a = (|Foo < x| 1)..").lexemes)) := by
  have herrors : (grammar.parse "a = (|Foo < x| 1)..").errors =
      [⟨⟨12, 13⟩, ["type"], some "x"⟩] := by cbv
  have hwords : Word.ofSource "a = (|Foo < x| 1)..".toList
      (lexicon.lex "a = (|Foo < x| 1)..").lexemes =
        [⟨.argumentName, false⟩, ⟨.equals, false⟩, ⟨.openParen, false⟩, ⟨.pipe, false⟩,
          ⟨.typeName, false⟩, ⟨.less, false⟩, ⟨.argumentName, false⟩, ⟨.pipe, false⟩,
          ⟨.number, false⟩, ⟨.closeParen, false⟩, ⟨.dotDot, true⟩] := by conv_lhs => cbv
  have hoperand : Derives (productionsWith looseCapture) (.rule .simpleExpression)
      [⟨.argumentName, false⟩] :=
    .rule <| .right <| .right <| .right <| .right <| .right <| .right <| .right <| .right <|
      .right <| .right <| .left <| .left .token
  have hnumber : Derives (productionsWith looseCapture) (.rule .simpleExpression)
      [⟨.number, false⟩] := .rule <| .right <| .right <| .left .token
  have htype : Derives (productionsWith looseCapture) (.rule .nominalType)
      [⟨.typeName, false⟩] := .rule (.split 1 (.rule (.split 1 .token .none)) .nil)
  have hcapture : Derives (productionsWith looseCapture) (.rule .captureGroup)
      [⟨.typeName, false⟩, ⟨.less, false⟩, ⟨.argumentName, false⟩] :=
    .rule (.split 3 (.right (.split 1 htype (.some (.split 1 (.right .token) hoperand)))) .nil)
  have hbranch : Derives (productionsWith looseCapture) (.rule .branchExpression)
      [⟨.pipe, false⟩, ⟨.typeName, false⟩, ⟨.less, false⟩, ⟨.argumentName, false⟩,
        ⟨.pipe, false⟩, ⟨.number, false⟩] :=
    .rule (.split 5 (.split 4 (.split 1 .token hcapture) .token) (.left hnumber))
  have hvalue : Derives (productionsWith looseCapture) (.rule .parenthisizedExpression)
      [⟨.openParen, false⟩, ⟨.pipe, false⟩, ⟨.typeName, false⟩, ⟨.less, false⟩,
        ⟨.argumentName, false⟩, ⟨.pipe, false⟩, ⟨.number, false⟩, ⟨.closeParen, false⟩] :=
    .rule <| .split 7 (.split 1 .token (.rule <| .right <| .left <| .rule <|
      .split 6 (.split 6 hbranch .nil) .none)) .token
  have hstatement : Derives (productionsWith looseCapture) (.rule .constantsStatement)
      [⟨.argumentName, false⟩, ⟨.equals, false⟩, ⟨.openParen, false⟩, ⟨.pipe, false⟩,
        ⟨.typeName, false⟩, ⟨.less, false⟩, ⟨.argumentName, false⟩, ⟨.pipe, false⟩,
        ⟨.number, false⟩, ⟨.closeParen, false⟩] :=
    .rule <| .split 2 (.split 1 (.split 0 .none (.left .token)) .token) <| .rule <| .right <|
      .right <| .right <| .right <| .right <| .right <| .right <| .right <| .left hvalue
  have hderives : Derives (productionsWith looseCapture) sourceFile (Word.ofSource
      "a = (|Foo < x| 1)..".toList (lexicon.lex "a = (|Foo < x| 1)..").lexemes) := by
    rw [hwords]
    exact .snoc .nil (.split 10 (.rule <| .right <| .right <| .left hstatement) .token)
  refine ⟨?_, fun h => ?_⟩
  · simp only [herrors, List.mem_singleton, forall_eq]
    decide
  · simpa [herrors] using h.2 hderives

end GrammarTools.Peopl
