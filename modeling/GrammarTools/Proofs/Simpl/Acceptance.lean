import GrammarTools.Proofs.Run
import GrammarTools.Proofs.Simpl.Reading
import GrammarTools.Proofs.Simpl.Steps
import Mathlib

/-!
# What the parser of Simpl accepts

The parser of Simpl finds no error exactly in what the grammar derives, as long
as nothing is nested too deeply. That it finds none only there is what its
rules read (`statement_reads`). Conversely every rule of the grammar has a
meaning in the terms of steps and chains (`Meaning`), which each production
keeps (`meaning_of_production`).

Statements need care. The grammar lets a statement end in front of a sign with
which the next statement begins, where the parser takes the sign for an
operator. So a row of statements is put in order first: chains that go on with
one another are merged (`InOrder.ofChain`).
-/

namespace GrammarTools.Simpl

open Relation

variable {s s₁ s' : TokenStream Token} {o : Bool}

/-! ## The meaning of the rules -/

/-- A name with its type. -/
def Param (s s' : TokenStream Token) : Prop :=
  atNamedParam s ∧ s'.IsAhead s ∧ ∀ n, Accepts (paramDeclaration (level n)) s s'

/-- A declaration, if its end follows. -/
def Declares (s s' : TokenStream Token) : Prop :=
  atDeclaration s ∧ (s'.peek = some .dot → s'.advance.atLineStart → Accepts statement s s'.advance)

/-- What the parser makes of the places that a rule of the grammar relates. -/
def Meaning : Nonterminal → TokenStream Token → TokenStream Token → Prop
  | .statement => fun s s' => (atDeclaration s ∧ Accepts statement s s') ∨ ∃ o, Chain o s s'
  | .declaration => fun s s' => atDeclaration s ∧ Accepts statement s s'
  | .typeDeclaration | .contractDeclaration | .functionDeclaration => Declares
  | .paramList => fun s s' => ∃ s₁, Param s s₁ ∧ ReflTransGen Param s₁ s'
  | .paramDeclaration => Param
  | .typeIdentifier => TypeAt
  | .inlineFunctionDeclaration => fun s s' =>
    s.peek = some .openBrace ∧ ∀ n, Accepts (inlineFunctionDeclaration (level n)) s s'
  | .expression | .pipeExpression => fun s s' => ∃ o, Chain o s s'
  | .singleExpression | .arrayLiteral => Atom
  | .loopedExpression => Body false
  | .parenthisedExpression => Parens
  | .subpipeBranchExpression => fun s s' => ∃ o, Branch o s s'
  | .subpipeExpression => fun s s' => ∃ o, Step o s s'
  | .callExpression => fun s s' => ∃ o, Item o s s'
  | .paramListCall => fun s s' => ∃ s₁, Argument s s₁ ∧ ReflTransGen Argument s₁ s'
  | .paramDefinition => Argument
  | .simpleExpression | .unaryExpression | .binaryExpression => Simple

/-- What the parser makes of the places that a pattern relates. -/
abbrev Means (p : Pattern Nonterminal Token) (s s' : TokenStream Token) : Prop :=
  p.Rel (fun n s s' => s'.IsAhead s ∧ Meaning n s s') s s'

/-! ### Types -/

/-- A parameter is accepted whatever follows, as its type is. -/
theorem paramDeclaration_means (ha : s'.IsAhead s)
    (h : Means (productions .paramDeclaration) s s') : Param s s' := by
  obtain ⟨b, ⟨a, ⟨hname, rfl⟩, ⟨hcolon, rfl⟩⟩, -, htype⟩ := h
  refine ⟨atNamedParam_iff.2 ⟨hname, hcolon⟩, ha, fun n => ?_⟩
  refine .bind (.expect hname) fun _ => ?_
  refine .bind (.expect hcolon) fun _ => ?_
  exact .bind (htype.2.2 n) fun _ => .pure

/-- What the production derives as parameters is a row of them. -/
theorem Param.row (h : Means (.many (.rule .paramDeclaration)) s s') : ReflTransGen Param s s' :=
  ReflTransGen.mono (fun _ _ h => h.2) _ _ h

/-- A row of parameters is accepted up to where no further one begins. -/
theorem Param.accepts_row {condition : TokenStream Token → Bool}
    (h : ReflTransGen Param s s') (hc : ∀ {s}, s.peek = some .fieldName →
      s.advance.peek = some .colon → condition s = true) (hs' : condition s' = false) (n : Nat) :
    Accepts (Rule.repeatWhile condition do return [← paramDeclaration (level n)]) s s' := by
  refine .repeatWhile (fun a b hab => ?_) h hs'
  obtain ⟨hname, hcolon⟩ := atNamedParam_iff.1 hab.1
  exact ⟨hab.2.1, hc hname hcolon, .bind (hab.2.2 n) fun _ => .pure⟩

/-- An inline function is accepted from its brace on. -/
theorem inlineFunctionDeclaration_means
    (h : Means (productions .inlineFunctionDeclaration) s s') :
    s.peek = some .openBrace ∧ ∀ n, Accepts (inlineFunctionDeclaration (level n)) s s' := by
  obtain ⟨c, ⟨b, ⟨a, ⟨hopen, rfl⟩, hrow⟩, ⟨hclose, rfl⟩⟩, -, htype⟩ := h
  have hend : b.isAt .fieldName = false := by simp [TokenStream.isAt, hclose]
  have hparams := Param.accepts_row (Param.row hrow) (fun hp _ => TokenStream.isAt_of_peek hp) hend
  refine ⟨hopen, fun n => ?_⟩
  refine .bind .leaf fun _ => ?_
  refine .bind (hparams n) fun _ => ?_
  refine .bind (.expect hclose) fun _ => ?_
  exact .bind (htype.2.2 n) fun _ => .pure

/-- Both alternatives of a type are accepted whatever follows. -/
theorem typeIdentifier_means (ha : s'.IsAhead s) (h : Means (productions .typeIdentifier) s s') :
    TypeAt s s' := by
  rcases h with ⟨hp, rfl⟩ | ⟨-, hp, h⟩
  · refine ⟨by simp [atType, TokenStream.isAt, hp], ha, fun n => ?_⟩
    cases n with
    | zero => exact .tooDeep
    | succ n => exact .peek hp .leaf
  · refine ⟨by simp [atType, TokenStream.isAt, hp], ha, fun n => ?_⟩
    cases n with
    | zero => exact .tooDeep
    | succ n => exact .peek hp (.bind (h n) fun _ => .pure)

/-! ### Operands -/

/-- An array is accepted whatever follows, as the bracket ends it. -/
theorem arrayLiteral_means (ha : s'.IsAhead s) (h : Means (productions .arrayLiteral) s s') :
    Atom s s' := by
  obtain ⟨b, ⟨a, ⟨hopen, rfl⟩, hrow⟩, ⟨hclose, rfl⟩⟩ := h
  have hrow := Simple.row (ReflTransGen.mono (fun _ _ h => h.2) _ _ hrow)
    (Operators.upcoming?_eq_none hclose rfl)
  have hend : (!b.isAt .closeBracket && !b.atEnd) = false := by simp [TokenStream.isAt, hclose]
  refine ⟨ha, fun n => .peek hopen ?_⟩
  refine .bind .leaf fun _ => ?_
  refine .bind (.repeatWhile (fun a b hab => ?_) hrow hend) fun _ => ?_
  · have hno : ∀ t ∈ itemStarts, t ≠ .closeBracket := by decide
    obtain ⟨t, ht, hp⟩ := hab.1.start
    have hatEnd : a.atEnd = false := by
      rw [Bool.eq_false_iff, Ne, ← TokenStream.peek_eq_none, hp]
      exact Option.some_ne_none t
    refine ⟨hab.1.isAhead, ?_, .bind (hab.1.accepts hab.2 n) fun _ => .pure⟩
    simp [TokenStream.isAt, hp, hno t ht, hatEnd]
  · exact .bind (.expect hclose) fun _ => .pure

/-- Each alternative of a single expression is an atom. -/
theorem singleExpression_means (ha : s'.IsAhead s)
    (h : Means (productions .singleExpression) s s') : Atom s s' := by
  rcases h with ⟨hp, rfl⟩ | ⟨hp, rfl⟩ | h | ⟨hp, rfl⟩ | ⟨hp, rfl⟩ | ⟨hp, rfl⟩
  · exact ⟨ha, fun n => .peek hp .numeral⟩
  · exact ⟨ha, fun n => .peek hp .leaf⟩
  · exact h.2
  · exact ⟨ha, fun n => .peek hp .leaf⟩
  · exact ⟨ha, fun n => .peek hp .leaf⟩
  · exact ⟨ha, fun n => .peek hp .leaf⟩

/-- Parentheses are accepted whatever follows, as the last of them ends them. -/
theorem parenthisedExpression_means (ha : s'.IsAhead s)
    (h : Means (productions .parenthisedExpression) s s') : Parens s s' := by
  obtain ⟨b, ⟨a, ⟨hopen, rfl⟩, ⟨-, o, hchain⟩⟩, ⟨hclose, rfl⟩⟩ := h
  have haccepts := hchain.accepts (.of_peek hclose (by decide)) (by simp [hclose])
    (by simp [hclose])
  refine ⟨hopen, ha, fun n => ?_⟩
  refine .bind .leaf fun _ => ?_
  refine .bind (haccepts n) fun _ => ?_
  exact .bind (.expect hclose) fun _ => .pure

/-- Each alternative of a simple expression is a row of operands. -/
theorem simpleExpression_means (h : Means (productions .simpleExpression) s s') : Simple s s' := by
  rcases h with h | h | h | h
  · exact ⟨s', .atom h.2, .refl⟩
  · exact h.2
  · exact h.2
  · exact ⟨s', .atom h.2.atom, .refl⟩

/-- Signs in front of a simple expression belong to its first operand. -/
theorem unaryExpression_means (h : Means (productions .unaryExpression) s s') : Simple s s' := by
  obtain ⟨a, hsign, -, h⟩ := h
  exact .of_oneOf (by decide) hsign h

/-- However a binary expression is grouped, it is one row of operands with operators between. -/
theorem binaryExpression_means (h : Means (productions .binaryExpression) s s') : Simple s s' := by
  obtain ⟨b, ⟨a, ⟨-, hleft⟩, hop⟩, -, hright⟩ := h
  obtain ⟨rfl, t, ht, hp⟩ := Pattern.rel_oneOf hop
  have hops : ∀ t ∈ [Token.star, .slash, .percent, .plus, .minus, .equals, .notEquals, .greater,
    .greaterEquals, .less, .lessEquals, .andKeyword, .orKeyword], (operatorForm? t).isSome := by
    decide
  exact hleft.binary (by rw [Operators.upcoming?, hp]; exact hops t ht) hright

/-! ### Steps -/

/-- An argument is accepted, if no operator goes on with its value. -/
theorem paramDefinition_means (ha : s'.IsAhead s) (h : Means (productions .paramDefinition) s s') :
    Argument s s' := by
  obtain ⟨b, ⟨a, ⟨hname, rfl⟩, ⟨hcolon, rfl⟩⟩, -, hvalue⟩ := h
  exact ⟨atNamedParam_iff.2 ⟨hname, hcolon⟩, ha, hvalue⟩

/-- A call is an item; it is open if its last argument is. -/
theorem callExpression_means (h : Means (productions .callExpression) s s') :
    ∃ o, Item o s s' := by
  obtain ⟨a, hcallee, hparams⟩ := h
  rcases hparams with rfl | ⟨-, b, hfirst, hrow⟩
  · rcases hcallee with ⟨hp, rfl⟩ | ⟨-, h⟩
    · exact ⟨true, .simple ⟨_, .atom ⟨TokenStream.isAhead_advance hp, fun n => .peek hp .leaf⟩,
        .refl⟩⟩
    · exact ⟨false, .type h⟩
  · have hcallee : Callee s a := by
      rcases hcallee with ⟨hp, rfl⟩ | ⟨-, h⟩
      · exact .inr ⟨hp, rfl⟩
      · exact .inl h
    rcases hrow.cases_tail with rfl | ⟨c, hinit, hlast⟩
    · exact ⟨true, .call hcallee .refl hfirst⟩
    · exact ⟨true, .call hcallee (.head hfirst hinit) hlast⟩

/-- A loop is a body to which no operator can be added. -/
theorem loopedExpression_means (h : Means (productions .loopedExpression) s s') :
    Body false s s' := by
  obtain ⟨a, ⟨-, h⟩, ⟨hp, rfl⟩⟩ := h
  exact .looped h hp

/-- What a production derives as the body of a branch. -/
theorem body_means (h : Means (.anyOf (.rule .simpleExpression) [.rule .callExpression,
    .rule .loopedExpression]) s s') : ∃ o, Body o s s' := by
  rcases h with ⟨-, h⟩ | ⟨-, o, h⟩ | ⟨-, h⟩
  · exact ⟨true, .item (.simple h)⟩
  · exact ⟨o, .item h⟩
  · exact ⟨false, h⟩

/-- A branch is open if its body is. -/
theorem subpipeBranchExpression_means
    (h : Means (productions .subpipeBranchExpression) s s') : ∃ o, Branch o s s' := by
  obtain ⟨c, ⟨b, ⟨a, ⟨hopen, rfl⟩, ⟨hahead, o, hcapture⟩⟩, ⟨hclose, rfl⟩⟩, hbody⟩ := h
  obtain ⟨o', hbody⟩ := body_means hbody
  exact ⟨o', hopen, b, hahead, fun n => hcapture.accepts (.of_peek hclose (by decide))
    (by simp [hclose]) (by simp [hclose]) n, hclose, hbody⟩

/-- Branches are collected from the first one on, the last of them telling if they are open. -/
theorem branches_mean (hfirst : Branch o s s₁)
    (hmore : Means (.many (.token .comma ++ .rule .subpipeBranchExpression)) s₁ s') :
    ∃ o, Branches o s s' := by
  induction hmore with
  | refl => exact ⟨o, .first hfirst⟩
  | tail _ hnext ih =>
    obtain ⟨o, hbranches⟩ := ih
    obtain ⟨c, ⟨hcomma, rfl⟩, -, o', hbranch⟩ := hnext
    exact ⟨o', .more hbranches hcomma hbranch⟩

/-- Branches are a step, with or without a default. -/
theorem subpipeExpression_means (h : Means (productions .subpipeExpression) s s') :
    ∃ o, Step o s s' := by
  obtain ⟨b, ⟨a, ⟨-, o, hfirst⟩, hmore⟩, hdefault⟩ := h
  obtain ⟨o, hbranches⟩ := branches_mean hfirst hmore
  rcases hdefault with rfl | ⟨c, ⟨hcomma, rfl⟩, ⟨-, o', h⟩ | ⟨-, h⟩⟩
  · exact ⟨o, .branches hbranches⟩
  · exact ⟨o', .default hbranches hcomma h⟩
  · exact ⟨true, .default hbranches hcomma (.simple h)⟩

/-- Chains are grouped in many ways by the productions; each of them is a row of steps. -/
theorem pipeExpression_means (h : Means (productions .pipeExpression) s s') :
    ∃ o, Chain o s s' := by
  obtain ⟨b, ⟨a, ⟨-, o, hchain⟩, ⟨hsemicolon, rfl⟩⟩, h⟩ := h
  obtain ⟨o', hstep⟩ : ∃ o, Step o a.advance s' := by
    rcases h with ⟨-, h⟩ | ⟨-, o, h⟩ | ⟨-, h⟩ | ⟨-, h⟩
    · exact ⟨true, .body (.item (.simple h))⟩
    · exact ⟨o, .body (.item h)⟩
    · exact h
    · exact ⟨false, .body h⟩
  exact ⟨o', .more hchain hsemicolon hstep⟩

/-- A single step is a chain as well. -/
theorem expression_means (h : Means (productions .expression) s s') : ∃ o, Chain o s s' := by
  rcases h with ⟨-, h⟩ | ⟨-, o, h⟩ | ⟨-, h⟩ | ⟨-, o, h⟩ | ⟨-, h⟩
  · exact ⟨true, .first (.body (.item (.simple h)))⟩
  · exact ⟨o, .first h⟩
  · exact h
  · exact ⟨o, .first (.body (.item h))⟩
  · exact ⟨false, .first (.body h)⟩

/-! ### Declarations -/

/-- The parameters of a declaration are accepted up to where no further one begins. -/
theorem declaredParams_accepts (h : Means (.opt (.rule .paramList)) s s')
    (hs' : atNamedParam s' = false) : Accepts declaredParams s s' := by
  rcases h with rfl | ⟨-, a, hfirst, hrow⟩
  · exact .ite_neg hs' .pure
  · have hrow := Param.accepts_row (.head hfirst hrow)
      (fun hname hcolon => atNamedParam_iff.2 ⟨hname, hcolon⟩) hs' maxNesting
    have hparams : Accepts (paramList top) s s' := .bind hrow fun _ => .pure
    exact .ite_pos hfirst.1 (.bind hparams fun _ => .pure)

/-- A dot in front of a new line ends a declaration. -/
theorem declarationEnd_accepts (hp : s.peek = some .dot) (hs : s.advance.atLineStart) :
    Accepts declarationEnd s s.advance :=
  .ite_pos (by simp [TokenStream.isAt, hp, hs]) .leaf

/-- A declaration, and behind it a dot that ends its line. -/
theorem ended_accepts {r : Rule Token RawNode} (h : Accepts r s s') (hdot : s'.peek = some .dot)
    (hline : s'.advance.atLineStart) : Accepts (ended r) s s'.advance :=
  .bind h fun _ => .bind (declarationEnd_accepts hdot hline) fun _ => .pure

/-- A declaration of a type or a contract. -/
theorem declares_of_keyword {kind keyword : Kind} {t : Token} (hp : s.peek = some t)
    (ht : t = .typeKeyword ∨ t = .contractKeyword)
    (hstatement : Accepts (ended (declaration kind keyword)) s s'.advance →
      Accepts statement s s'.advance)
    (h : Means (.rule .typeIdentifier ++ .opt (.rule .paramList)) s.advance s') :
    Declares s s' := by
  obtain ⟨a, ⟨-, htype⟩, hparams⟩ := h
  refine ⟨?_, fun hdot hline => hstatement ?_⟩
  · rcases ht with rfl | rfl <;> simp [atDeclaration, hp]
  · have hparams := declaredParams_accepts hparams (by simp [atNamedParam, TokenStream.isAt, hdot])
    have hdeclaration : Accepts (declaration kind keyword) s s' := by
      refine .bind .leaf fun _ => ?_
      refine .bind (htype.2.2 _) fun _ => ?_
      exact .bind hparams fun _ => .pure
    exact ended_accepts hdeclaration hdot hline

/-- The declaration of a type is accepted, if its dot follows. -/
theorem typeDeclaration_means (h : Means (productions .typeDeclaration) s s') :
    Declares s s' := by
  obtain ⟨b, ⟨a, ⟨hp, rfl⟩, htype⟩, hparams⟩ := h
  exact declares_of_keyword hp (.inl rfl) (fun h => .peek hp h) ⟨b, htype, hparams⟩

/-- So is the declaration of a contract. -/
theorem contractDeclaration_means (h : Means (productions .contractDeclaration) s s') :
    Declares s s' := by
  obtain ⟨b, ⟨a, ⟨hp, rfl⟩, htype⟩, hparams⟩ := h
  exact declares_of_keyword hp (.inr rfl) (fun h => .peek hp h) ⟨b, htype, hparams⟩

/-- The type that a function belongs to is left out only where the name of the function follows. -/
theorem onType_accepts (h : Means (.opt (.rule .typeIdentifier)) s s')
    (hs' : s'.peek = some .fieldName) : Accepts onType s s' := by
  rcases h with rfl | ⟨-, htype⟩
  · exact .ite_neg (by simp [atType, TokenStream.isAt, hs']) .pure
  · exact .ite_pos htype.1 (.bind (htype.2.2 _) fun _ => .pure)

/-- A function is accepted: each of its parts is accepted in front of the next one. -/
theorem functionDeclaration_means (h : Means (productions .functionDeclaration) s s') :
    Declares s s' := by
  obtain ⟨e, ⟨d, ⟨c, ⟨b, ⟨a, ⟨hp, rfl⟩, hon⟩, ⟨hname, rfl⟩⟩, hparams⟩, -, hresult⟩, -, o, hbody⟩ :=
    h
  refine ⟨by simp [atDeclaration, hp], fun hdot hline => ?_⟩
  have hparams := declaredParams_accepts hparams (by
    simp [atNamedParam, hresult.not_fieldName])
  have hbody := hbody.accepts (.of_peek hdot (by decide)) (by simp [hdot]) (by simp [hdot])
  have hdeclaration : Accepts functionDeclaration s s' := by
    refine .bind .leaf fun _ => ?_
    refine .bind (onType_accepts hon hname) fun _ => ?_
    refine .bind (.expect hname) fun _ => ?_
    refine .bind hparams fun _ => ?_
    refine .bind (hresult.2.2 _) fun _ => ?_
    exact .bind (hbody _) fun _ => .pure
  exact .peek hp (ended_accepts hdeclaration hdot hline)

/-- A declaration with its dot is accepted as a statement. -/
theorem declaration_means (h : Means (productions .declaration) s s') :
    atDeclaration s ∧ Accepts statement s s' := by
  obtain ⟨a, h, ⟨hdot, hline, rfl⟩⟩ := h
  have h : Declares s a := by
    rcases h with ⟨-, h⟩ | ⟨-, h⟩ | ⟨-, h⟩ <;> exact h
  exact ⟨h.1, h.2 hdot hline⟩

/-- A statement is a declaration or a chain of steps. -/
theorem statement_means (h : Means (productions .statement) s s') :
    Meaning .statement s s' := by
  rcases h with ⟨-, h⟩ | ⟨-, h⟩
  · exact .inl h
  · exact .inr h

/-- Each production keeps the meaning of the rules. -/
theorem meaning_of_production (n : Nonterminal) (s s' : TokenStream Token) (ha : s'.IsAhead s)
    (h : Means (productions n) s s') : Meaning n s s' := by
  cases n with
  | statement => exact statement_means h
  | declaration => exact declaration_means h
  | typeDeclaration => exact typeDeclaration_means h
  | contractDeclaration => exact contractDeclaration_means h
  | functionDeclaration => exact functionDeclaration_means h
  | paramList =>
    obtain ⟨a, ⟨-, hfirst⟩, hrow⟩ := h
    exact ⟨a, hfirst, Param.row hrow⟩
  | paramDeclaration => exact paramDeclaration_means ha h
  | typeIdentifier => exact typeIdentifier_means ha h
  | inlineFunctionDeclaration => exact inlineFunctionDeclaration_means h
  | expression => exact expression_means h
  | singleExpression => exact singleExpression_means ha h
  | loopedExpression => exact loopedExpression_means h
  | parenthisedExpression => exact parenthisedExpression_means ha h
  | pipeExpression => exact pipeExpression_means h
  | subpipeBranchExpression => exact subpipeBranchExpression_means h
  | subpipeExpression => exact subpipeExpression_means h
  | callExpression => exact callExpression_means h
  | paramListCall =>
    obtain ⟨a, ⟨-, hfirst⟩, hrow⟩ := h
    exact ⟨a, hfirst, ReflTransGen.mono (fun _ _ h => h.2) _ _ hrow⟩
  | paramDefinition => exact paramDefinition_means ha h
  | simpleExpression => exact simpleExpression_means h
  | unaryExpression => exact unaryExpression_means h
  | binaryExpression => exact binaryExpression_means h
  | arrayLiteral => exact arrayLiteral_means ha h

/-! ## Statements in order -/

/-- What follows goes on with no chain, and could begin a statement. -/
structure Ends (o : Bool) (s : TokenStream Token) : Prop extends Follows o s where
  comma : s.peek ≠ some .comma
  semicolon : s.peek ≠ some .semicolon
  colon : s.peek ≠ some .colon

/-- A statement as the parser reads it. -/
def Ordered (s s' : TokenStream Token) : Prop :=
  s'.IsAhead s ∧ ((atDeclaration s ∧ Accepts statement s s') ∨ ∃ o, Chain o s s' ∧ Ends o s')

/-- The tokens that a statement may begin with. -/
def statementStarts : List Token :=
  [.typeKeyword, .contractKeyword, .funcKeyword, .pipe] ++ itemStarts

/-- A declaration begins with one of three keywords. -/
theorem peek_of_atDeclaration (h : atDeclaration s = true) :
    ∃ t ∈ [Token.typeKeyword, .contractKeyword, .funcKeyword], s.peek = some t := by
  unfold atDeclaration at h
  split at h
  · exact ⟨.typeKeyword, by decide, ‹_›⟩
  · exact ⟨.contractKeyword, by decide, ‹_›⟩
  · exact ⟨.funcKeyword, by decide, ‹_›⟩
  · cases h

/-- A statement begins with a keyword, with a bar, or as an item does. -/
theorem Ordered.start (h : Ordered s s') : ∃ t ∈ statementStarts, s.peek = some t := by
  rcases h with ⟨-, ⟨hs, -⟩ | ⟨o, h, -⟩⟩
  · obtain ⟨t, ht, hp⟩ := peek_of_atDeclaration hs
    exact ⟨t, List.mem_append_left (Token.pipe :: itemStarts) ht, hp⟩
  · obtain ⟨t, ht, hp⟩ := h.start
    exact ⟨t, List.mem_append_right [Token.typeKeyword, .contractKeyword, .funcKeyword] ht, hp⟩

/-- No statement in the order of the rules begins as an argument does. -/
theorem Ordered.not_named (h : Ordered s s') : atNamedParam s = false := by
  rcases h with ⟨-, ⟨hs, -⟩ | ⟨o, h, hend⟩⟩
  · have hno : ∀ t ∈ [Token.typeKeyword, .contractKeyword, .funcKeyword], t ≠ .fieldName := by
      decide
    obtain ⟨t, ht, hp⟩ := peek_of_atDeclaration hs
    exact not_named_of_peek hp (hno t ht)
  · exact h.not_named hend.colon

/-- A statement is accepted, since nothing behind it goes on with it. -/
theorem Ordered.accepts (h : Ordered s s') : Accepts statement s s' := by
  rcases h with ⟨-, ⟨-, h⟩ | ⟨o, h, hend⟩⟩
  · exact h
  · have hchain := h.accepts hend.toFollows hend.comma hend.semicolon maxNesting
    have hno : ∀ t ∈ Token.pipe :: itemStarts,
        t ≠ .typeKeyword ∧ t ≠ .contractKeyword ∧ t ≠ .funcKeyword := by decide
    obtain ⟨t, ht, hp⟩ := h.start
    obtain ⟨htype, hcontract, hfunc⟩ := hno t ht
    refine Accepts.peek_iff.2 ⟨_, rfl, ?_⟩
    rw [hp]
    split
    · simp_all
    · simp_all
    · simp_all
    · exact .bind hchain fun _ => .pure

/-- Where statements in order begin, or none is left, an expression ends. -/
theorem Ends.of_ordered (h : ReflTransGen Ordered s s') (hend : s'.atEnd)
    (ho : o = true → operators.upcoming? s = none) : Ends o s := by
  rcases h.cases_head with rfl | ⟨a, h, -⟩
  · have hp := TokenStream.peek_eq_none.2 hend
    exact ⟨⟨ho, by simp [atNamedParam, TokenStream.isAt, hp], by simp [hp]⟩, by simp [hp],
      by simp [hp], by simp [hp]⟩
  · have hno : ∀ t ∈ statementStarts,
        t ≠ .caret ∧ t ≠ .comma ∧ t ≠ .semicolon ∧ t ≠ .colon := by decide
    obtain ⟨t, ht, hp⟩ := h.start
    obtain ⟨hcaret, hcomma, hsemicolon, hcolon⟩ := hno t ht
    exact ⟨⟨ho, h.not_named, by simpa [hp] using hcaret⟩, by simpa [hp] using hcomma,
      by simpa [hp] using hsemicolon, by simpa [hp] using hcolon⟩

/-- A chain in front of statements in order goes on with the first of them or ends. -/
theorem Ordered.head_of_chain (hchain : Chain o s s₁) (h : ReflTransGen Ordered s₁ s')
    (hend : s'.atEnd) : ReflTransGen Ordered s s' := by
  by_cases ho : o = true ∧ (operators.upcoming? s₁).isSome
  · obtain ⟨rfl, ho⟩ := ho
    rcases h.cases_head with rfl | ⟨a, ⟨-, ⟨hs, -⟩ | ⟨o', h', hends⟩⟩, h⟩
    · rw [Operators.upcoming?, TokenStream.peek_eq_none.2 hend] at ho
      cases ho
    · have hno : ∀ t ∈ [Token.typeKeyword, .contractKeyword, .funcKeyword],
          operatorForm? t = none := by decide
      obtain ⟨t, ht, hp⟩ := peek_of_atDeclaration hs
      rw [Operators.upcoming?_eq_none hp (hno t ht)] at ho
      cases ho
    · have hmerged := hchain.merge ho h'
      exact .head ⟨hmerged.isAhead, .inr ⟨o', hmerged, hends⟩⟩ h
  · have hends : Ends o s₁ := Ends.of_ordered h hend fun hopen => by
      simpa [hopen] using ho
    exact .head ⟨hchain.isAhead, .inr ⟨o, hchain, hends⟩⟩ h

/-- Statements can be put in order. -/
theorem Ordered.row (h : Means (.many (.rule .statement)) s s') (hend : s'.atEnd) :
    ReflTransGen Ordered s s' := by
  induction h using ReflTransGen.head_induction_on with
  | refl => exact .refl
  | head hab _ ih =>
    obtain ⟨ha, h | ⟨o, h⟩⟩ := hab
    · exact .head ⟨ha, .inl h⟩ ih
    · exact Ordered.head_of_chain h ih hend

/-! ## The language of the parser -/

/-- What a rule of the grammar reads is at least one token. -/
theorem grammar_isProgressive : grammar.IsProgressive where
  statement h := (statement_reads h).between.isAhead productions_isSolid rfl
  recover hs := TokenStream.isAhead_skipUntil _ hs

/-- A run finds no error exactly in a row of statements, unless rules are nested too deeply. -/
theorem errors_eq_nil_iff {nodes : List RawNode} {errors : List SyntaxError}
    (hrun : grammar.Run s nodes errors) (he : ∀ e ∈ errors, ¬ e.IsNesting) :
    errors = [] ↔ Derives productions sourceFile (Word.ofLexemes s.upcoming) := by
  rw [derives_ofLexemes_iff]
  constructor
  · rintro rfl
    exact hrun.exists_between fun h => (statement_reads h).between
  · rintro ⟨s', h, hend⟩
    have hrow := Ordered.row (h.rel productions_isSolid meaning_of_production) hend
    exact hrun.errors_eq_nil (ReflTransGen.mono (fun _ _ h => ⟨h.1, h.accepts⟩) _ _ hrow) hend he

/-- The parser of Simpl accepts the language of its grammar: unless rules are nested too
    deeply, it finds no error in a source exactly if the grammar derives its words. -/
theorem simpl_parse_accepts_iff (source : String)
    (h : ∀ e ∈ (grammar.parse source).errors, e.expected ≠ [SyntaxError.nestingLimit]) :
    (grammar.parse source).errors = [] ↔ Derives productions sourceFile
      (Word.ofSource source.toList (lexicon.lex source).lexemes) :=
  grammar.parse_errors_eq_nil_iff grammar_isProgressive errors_eq_nil_iff source h

/-- A call whose sign could also begin a statement, behind branches with a default. -/
theorem simpl_parse_accepts_branches :
    (∀ e ∈ (grammar.parse "|x| (y)^, Foo a: 1 -2").errors,
      e.expected ≠ [SyntaxError.nestingLimit]) ∧
    Derives productions sourceFile (Word.ofSource "|x| (y)^, Foo a: 1 -2".toList
      (lexicon.lex "|x| (y)^, Foo a: 1 -2").lexemes) := by
  have herrors : (grammar.parse "|x| (y)^, Foo a: 1 -2").errors = [] := by cbv
  have hlimit : ∀ e ∈ (grammar.parse "|x| (y)^, Foo a: 1 -2").errors,
      e.expected ≠ [SyntaxError.nestingLimit] := by simp [herrors]
  exact ⟨hlimit, (simpl_parse_accepts_iff _ hlimit).1 herrors⟩

end GrammarTools.Simpl
