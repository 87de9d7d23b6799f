import GrammarTools.Proofs.Acceptance
import GrammarTools.Simpl.Rules

/-!
# The steps of an expression in Simpl

What the grammar of Simpl derives in many ways, the rules read in one way. An
expression is seen here as they see it:

* an *operand* is an atom with signs in front;
* a *simple* expression is a row of operands with operators between;
* an *item* is a simple expression or a call, and a *body* is an item or a loop;
* a *step* is a body, or branches that may have a default;
* a *chain* has steps with semicolons between.

From items up, a flag says whether the expression is *open*: whether a simple
expression stands last in it, so that an operator behind it goes on with it
(`Chain.extend`). An expression is accepted if nothing follows that would go on
with it (`Follows`).
-/

namespace GrammarTools.Simpl

open Relation

variable {s s₁ s' : TokenStream Token} {o : Bool}

/-! ## Operands -/

/-- A type. -/
def TypeAt (s s' : TokenStream Token) : Prop :=
  atType s ∧ s'.IsAhead s ∧ ∀ n, Accepts (level n).typeIdentifier s s'

/-- An operand without signs. -/
def Atom (s s' : TokenStream Token) : Prop :=
  s'.IsAhead s ∧ ∀ n, Accepts (primary (level n)) s s'

/-- An expression in parentheses. -/
def Parens (s s' : TokenStream Token) : Prop :=
  s.peek = some .openParen ∧ s'.IsAhead s ∧ ∀ n, Accepts (parenthisedExpression (level n)) s s'

/-- An operand with any number of signs. -/
abbrev Operand := Signed signForm? Atom

/-- Operands with operators between. -/
abbrev Simple := operators.Compound Operand

/-- The tokens that an atom may begin with. -/
def atomStarts : List Token :=
  [.number, .string, .trueKeyword, .falseKeyword, .fieldName, .openBracket, .openParen]

/-- An atom begins with one of a few tokens. -/
theorem Atom.start (h : Atom s s') : ∃ t ∈ atomStarts, s.peek = some t := by
  obtain ⟨r, hr, h⟩ := Accepts.peek_iff.1 (h.2 0)
  split at hr <;> subst hr
  case h_8 => exact absurd h (Accepts.not_fail (by decide))
  all_goals
    refine ⟨_, ?_, ‹_›⟩
    decide

/-- What begins an atom is no sign. -/
theorem Atom.not_sign (h : Atom s s') : s.peek.bind signForm? = none := by
  have hnone : ∀ t ∈ atomStarts, signForm? t = none := by decide
  obtain ⟨t, ht, hp⟩ := h.start
  rw [hp, Option.bind_some, hnone t ht]

/-- A field stands for itself alone, so the atom that begins with it ends behind it. -/
theorem Atom.eq_advance (h : Atom s s') (hp : s.peek = some .fieldName) : s' = s.advance := by
  obtain ⟨r, hr, h⟩ := Accepts.peek_iff.1 (h.2 0)
  rw [hp] at hr
  subst hr
  exact h.eq_advance_of_leaf

theorem Parens.atom (h : Parens s s') : Atom s s' :=
  ⟨h.2.1, fun n => .peek h.1 (h.2.2 n)⟩

/-- An atom that begins with a parenthesis is in parentheses. -/
theorem Atom.parens (h : Atom s s') (hp : s.peek = some .openParen) : Parens s s' := by
  refine ⟨hp, h.1, fun n => ?_⟩
  obtain ⟨r, hr, h⟩ := Accepts.peek_iff.1 (h.2 n)
  rw [hp] at hr
  subst hr
  exact h

namespace Operand

theorem isAhead (h : Operand s s') : s'.IsAhead s := Signed.isAhead And.left h

/-- An operand is accepted whatever follows: its end depends on nothing behind it. -/
theorem accepts (h : Operand s s') (n : Nat) : Accepts (level n).unary s s' := by
  induction h generalizing n with
  | atom h =>
    cases n with
    | zero => exact .tooDeep
    | succ n => exact .signed_none h.not_sign (h.2 n)
  | signed hs _ ih =>
    cases n with
    | zero => exact .tooDeep
    | succ n => exact .signed_some hs (ih n)

end Operand

namespace Simple

theorem isAhead (h : Simple s s') : s'.IsAhead s := Operators.Compound.isAhead Operand.isAhead h

/-- Operands joined by operators are accepted, if no operator follows. -/
theorem extend_accepts (h : ReflTransGen (operators.Joined Operand) s s')
    (hs' : operators.upcoming? s' = none) (n : Nat) (left : RawNode) :
    Accepts (operators.extend (level n).unary left) s s' :=
  .extend (fun h => ⟨Operand.isAhead h, Operand.accepts h n⟩) h hs' left

/-- A simple expression is accepted if no operator follows it. -/
theorem accepts (h : Simple s s') (hs' : operators.upcoming? s' = none) (n : Nat) :
    Accepts (simpleExpression (level n)) s s' := by
  obtain ⟨a, ha, hj⟩ := h
  exact .bind (Operand.accepts ha n) fun left => extend_accepts hj hs' n left

end Simple

/-- The tokens that an item may begin with. -/
def itemStarts : List Token :=
  [.plus, .minus, .notKeyword, .typeName, .openBrace] ++ atomStarts

/-- A simple expression that begins with an operator has it for a sign; without it, it is still a
    simple expression. -/
theorem Simple.of_operator (h : Simple s s') (ho : (operators.upcoming? s).isSome) :
    Simple s.advance s' := by
  obtain ⟨a, ha, hj⟩ := h
  rcases ha.start with ha | ⟨form, -, ha⟩
  · have hnone : ∀ t ∈ atomStarts, operatorForm? t = none := by decide
    obtain ⟨t, ht, hp⟩ := ha.start
    rw [Operators.upcoming?_eq_none hp (hnone t ht)] at ho
    cases ho
  · exact ⟨a, ha, hj⟩

/-- A simple expression begins with a sign or as an atom does. -/
theorem Simple.start (h : Simple s s') : ∃ t ∈ itemStarts, s.peek = some t := by
  obtain ⟨a, ha, -⟩ := h
  rcases ha.start with ha | ⟨form, hform, -⟩
  · obtain ⟨t, ht, hp⟩ := ha.start
    exact ⟨t, List.mem_append_right _ ht, hp⟩
  · obtain ⟨t, hp, ht⟩ := Option.bind_eq_some_iff.1 hform
    refine ⟨t, ?_, hp⟩
    cases t <;> simp_all [signForm?, itemStarts]

/-- Simple expressions in a row, where those that go on with one another are made one. -/
theorem Simple.row (h : ReflTransGen Simple s s') (hs' : operators.upcoming? s' = none) :
    ReflTransGen (fun a b => Simple a b ∧ operators.upcoming? b = none) s s' := by
  induction h using ReflTransGen.head_induction_on with
  | refl => exact .refl
  | @head a b hab _ ih =>
    cases hb : operators.upcoming? b with
    | none => exact .head ⟨hab, hb⟩ ih
    | some form =>
      have ho : (operators.upcoming? b).isSome := by simp [hb]
      rcases ih.cases_head with rfl | ⟨c, ⟨hbc, hc⟩, ih⟩
      · rw [hs'] at hb
        cases hb
      · exact .head ⟨hab.binary ho (hbc.of_operator ho), hc⟩ ih

/-! ## Items -/

theorem atNamedParam_iff :
    atNamedParam s = true ↔ s.peek = some .fieldName ∧ s.advance.peek = some .colon :=
  TokenStream.isAt_and_peekNth_iff

/-- A name with its value. -/
def Argument (s s' : TokenStream Token) : Prop :=
  atNamedParam s ∧ s'.IsAhead s ∧ Simple s.advance.advance s'

/-- What can be called. -/
def Callee (s s' : TokenStream Token) : Prop :=
  TypeAt s s' ∨ (s.peek = some .fieldName ∧ s' = s.advance)

/-- A simple expression or a call. -/
inductive Item : Bool → TokenStream Token → TokenStream Token → Prop
  | simple {s s' : TokenStream Token} : Simple s s' → Item true s s'
  | type {s s' : TokenStream Token} : TypeAt s s' → Item false s s'
  | call {s s₁ s₂ s' : TokenStream Token} :
      Callee s s₁ → ReflTransGen Argument s₁ s₂ → Argument s₂ s' → Item true s s'

/-- What follows goes on with no step, but for a comma. -/
structure Follows (o : Bool) (s : TokenStream Token) : Prop where
  operator : o = true → operators.upcoming? s = none
  argument : atNamedParam s = false
  caret : s.peek ≠ some .caret

namespace Argument

theorem not_operator (h : Argument s s') : operators.upcoming? s = none :=
  Operators.upcoming?_eq_none (atNamedParam_iff.1 h.1).1 rfl

/-- An argument is accepted if no operator goes on with its value. -/
theorem accepts (h : Argument s s') (hs' : operators.upcoming? s' = none) (n : Nat) :
    Accepts (paramDefinition (level n)) s s' := by
  obtain ⟨hname, hcolon⟩ := atNamedParam_iff.1 h.1
  refine .bind (.expect hname) fun _ => ?_
  refine .bind (.expect hcolon) fun _ => ?_
  exact .bind (h.2.2.accepts hs' n) fun _ => .pure

/-- A row of arguments begins with a name and a colon. -/
theorem row_start (h : ReflTransGen Argument s s₁) (h' : Argument s₁ s') :
    atNamedParam s := by
  rcases h.cases_head with rfl | ⟨a, ha, -⟩
  · exact h'.1
  · exact ha.1

theorem row_isAhead (h : ReflTransGen Argument s s₁) (h' : Argument s₁ s') : s'.IsAhead s := by
  induction h generalizing s' with
  | refl => exact h'.2.1
  | tail _ hab ih => exact (ih hab).trans h'.2.1

/-- Arguments are accepted if neither an operator nor another argument follows. -/
theorem row_accepts (h : ReflTransGen Argument s s₁) (h' : Argument s₁ s')
    (hs' : Follows true s') (n : Nat) : Accepts (callParams (level n)) s s' := by
  obtain ⟨hrow, -⟩ := exists_followed (h.tail h') not_operator (hs'.operator rfl)
  refine .ite_pos (row_start h h') (.bind (.repeatWhile (fun a b hab => ?_) hrow hs'.argument)
    fun _ => .pure)
  obtain ⟨hargument, hends⟩ := hab
  exact ⟨hargument.2.1, hargument.1, .bind (hargument.accepts hends n) fun _ => .pure⟩

end Argument

namespace Callee

theorem isAhead (h : Callee s s') : s'.IsAhead s := by
  rcases h with h | ⟨hp, rfl⟩
  · exact h.2.1
  · exact TokenStream.isAhead_advance hp

end Callee

theorem TypeAt.cases_peek (h : TypeAt s s') :
    s.peek = some .typeName ∨ s.peek = some .openBrace := by
  simpa [atType, TokenStream.isAt] using h.1

/-- A type begins with one of the tokens that begin items. -/
theorem TypeAt.start (h : TypeAt s s') : ∃ t ∈ itemStarts, s.peek = some t := by
  rcases h.cases_peek with hp | hp
  · exact ⟨_, by decide, hp⟩
  · exact ⟨_, by decide, hp⟩

theorem TypeAt.not_fieldName (h : TypeAt s s') : s.isAt .fieldName = false := by
  rcases h.cases_peek with hp | hp <;> simp [TokenStream.isAt, hp]

theorem TypeAt.not_operator (h : TypeAt s s') : operators.upcoming? s = none := by
  rcases h.cases_peek with hp | hp <;> exact Operators.upcoming?_eq_none hp rfl

/-- What is called is accepted, once its arguments are. -/
theorem Callee.accepts (h : Callee s s₁) {n : Nat}
    (hparams : Accepts (callParams (level n)) s₁ s') : Accepts (callExpression (level n)) s s' := by
  rcases h with h | ⟨hp, rfl⟩
  · refine .ite_neg h.not_fieldName ?_
    refine .bind (h.2.2 n) fun _ => ?_
    exact .bind hparams fun _ => .pure
  · refine .ite_pos (TokenStream.isAt_of_peek hp) ?_
    refine .bind .leaf fun _ => ?_
    exact .bind hparams fun _ => .pure

theorem not_named_of_peek {t : Token} (hp : s.peek = some t) (ht : t ≠ .fieldName) :
    atNamedParam s = false := by
  simp [atNamedParam, TokenStream.isAt, hp, ht]

/-- A simple expression is no argument, unless a colon makes its only field the name of one. -/
theorem Simple.not_named (h : Simple s s') (hs' : s'.peek ≠ some .colon) :
    atNamedParam s = false := by
  by_contra hnamed
  obtain ⟨hname, hcolon⟩ := atNamedParam_iff.1 (by simpa using hnamed)
  obtain ⟨a, ha, hj⟩ := h
  rcases ha.start with ha | ⟨form, hform, -⟩
  · obtain rfl := ha.eq_advance hname
    obtain rfl := Operators.eq_of_joined hj (Operators.upcoming?_eq_none hcolon rfl)
    exact hs' hcolon
  · rw [hname] at hform
    cases hform

/-- A simple expression is not mistaken for a call. -/
theorem Simple.not_call (h : Simple s s') (hs' : atNamedParam s' = false) : atCall s = false := by
  rw [atCall, Bool.or_eq_false_iff]
  obtain ⟨a, ha, hj⟩ := h
  rcases ha.start with ha | ⟨form, hform, -⟩
  · have hstart : ∀ t ∈ atomStarts, t ≠ .typeName ∧ t ≠ .openBrace := by decide
    obtain ⟨t, ht, hp⟩ := ha.start
    refine ⟨by simp [atType, TokenStream.isAt, hp, hstart t ht], ?_⟩
    by_contra hcall
    simp only [Bool.not_eq_false, Bool.and_eq_true, TokenStream.isAt, beq_iff_eq] at hcall
    obtain ⟨⟨hp, hname⟩, hcolon⟩ := hcall
    obtain rfl := ha.eq_advance hp
    rw [← TokenStream.peekNth_advance hp] at hname hcolon
    -- A second name cannot be an operator, so the expression ends in front of it.
    obtain rfl := Operators.eq_of_joined hj (Operators.upcoming?_eq_none hname rfl)
    simp [atNamedParam, TokenStream.isAt, TokenStream.peek, hname, hcolon] at hs'
  · obtain ⟨t, hp, ht⟩ := Option.bind_eq_some_iff.1 hform
    cases t <;> simp [signForm?] at ht <;> simp [atType, TokenStream.isAt, hp]

/-- Calls are told from simple expressions by what comes next. -/
theorem Item.cases_call (h : Item o s s') (hs' : Follows o s') :
    (atCall s = true ∧ ∀ n, Accepts (callExpression (level n)) s s') ∨
      (atCall s = false ∧ Simple s s' ∧ operators.upcoming? s' = none) := by
  cases h with
  | simple h => exact .inr ⟨h.not_call hs'.argument, h, hs'.operator rfl⟩
  | type h =>
    refine .inl ⟨by simp [atCall, h.1], fun n => Callee.accepts (.inl h) ?_⟩
    exact .ite_neg hs'.argument .pure
  | call hc hrow h =>
    refine .inl ⟨?_, fun n => hc.accepts (Argument.row_accepts hrow h hs' n)⟩
    rcases hc with hc | ⟨hp, rfl⟩
    · simp [atCall, hc.1]
    · have hname := Argument.row_start hrow h
      rw [atNamedParam, Bool.and_eq_true, TokenStream.isAt, TokenStream.peek,
        TokenStream.peekNth_advance hp, TokenStream.peekNth_advance hp] at hname
      simp only [atCall, TokenStream.isAt, hp, hname.1, hname.2, BEq.rfl, Bool.and_true,
        Bool.or_true]

/-- An open item goes on with an operator: its last operand is one of a row. -/
theorem Item.extend (h : Item true s s₁) (ho : (operators.upcoming? s₁).isSome)
    (h' : Simple s₁.advance s') : Item true s s' := by
  cases h with
  | simple h => exact .simple (h.binary ho h')
  | call hc hrow h =>
    have hs' : s'.IsAhead s₁ := (Operators.isAhead_advance ho).trans h'.isAhead
    exact .call hc hrow ⟨h.1, h.2.1.trans hs', h.2.2.binary ho h'⟩

theorem Item.isAhead (h : Item o s s') : s'.IsAhead s := by
  cases h with
  | simple h => exact h.isAhead
  | type h => exact h.2.1
  | call hc hrow h => exact hc.isAhead.trans (Argument.row_isAhead hrow h)

/-- An item begins as a simple expression, a call or a type does. -/
theorem Item.start (h : Item o s s') : ∃ t ∈ itemStarts, s.peek = some t := by
  cases h with
  | simple h => exact h.start
  | type h => exact h.start
  | call hc _ _ =>
    rcases hc with hc | ⟨hp, -⟩
    · exact hc.start
    · exact ⟨_, by decide, hp⟩

/-- An item is no argument, unless a colon makes its only field the name of one. -/
theorem Item.not_named (h : Item o s s') (hs' : s'.peek ≠ some .colon) :
    atNamedParam s = false := by
  cases h with
  | simple h => exact h.not_named hs'
  | type h => rcases h.cases_peek with hp | hp <;> exact not_named_of_peek hp (by decide)
  | call hc hrow h =>
    rcases hc with hc | ⟨hp, rfl⟩
    · rcases hc.cases_peek with hp | hp <;> exact not_named_of_peek hp (by decide)
    · have hname := (atNamedParam_iff.1 (Argument.row_start hrow h)).1
      rw [Bool.eq_false_iff, Ne, atNamedParam_iff, hname]
      simp

/-- What begins with an operator is a simple expression with that operator as a sign. -/
theorem Item.of_operator (h : Item o s s') (ho : (operators.upcoming? s).isSome) :
    o = true ∧ Simple s.advance s' := by
  cases h with
  | simple h => exact ⟨rfl, h.of_operator ho⟩
  | type h =>
    rw [h.not_operator] at ho
    cases ho
  | call hc _ _ =>
    rcases hc with hc | ⟨hp, -⟩
    · rw [hc.not_operator] at ho
      cases ho
    · rw [Operators.upcoming?_eq_none hp rfl] at ho
      cases ho

/-! ## Bodies -/

/-- An item, or a parenthesised expression that is looped. -/
inductive Body : Bool → TokenStream Token → TokenStream Token → Prop
  | item {o : Bool} {s s' : TokenStream Token} : Item o s s' → Body o s s'
  | looped {s s' : TokenStream Token} : Parens s s' → s'.peek = some .caret →
      Body false s s'.advance

namespace Body

theorem isAhead (h : Body o s s') : s'.IsAhead s := by
  cases h with
  | item h => exact h.isAhead
  | looped h hp => exact h.2.1.trans (TokenStream.isAhead_advance hp)

theorem start (h : Body o s s') : ∃ t ∈ itemStarts, s.peek = some t := by
  cases h with
  | item h => exact h.start
  | looped h _ => exact ⟨_, by decide, h.1⟩

/-- An open body goes on with an operator, as the item in it does. -/
theorem extend (h : Body true s s₁) (ho : (operators.upcoming? s₁).isSome)
    (h' : Simple s₁.advance s') : Body true s s' := by
  cases h with
  | item h => exact .item (h.extend ho h')

/-- A body is accepted if nothing follows that goes on with it: an operator, an argument or a caret.
    -/
theorem accepts (h : Body o s s') (hs' : Follows o s') (n : Nat) :
    Accepts (branchBody (level n)) s s' := by
  cases h with
  | item h =>
    rcases h.cases_call hs' with ⟨hcall, h⟩ | ⟨hcall, h, hend⟩
    · exact .ite_pos hcall (h n)
    · refine .ite_neg hcall ?_
      -- Parentheses are read before it is clear whether they are looped or an operand.
      by_cases hp : s.isAt .openParen
      · obtain ⟨a, ha, hj⟩ := h
        have hparens : Parens s a := by
          have hp := TokenStream.peek_of_isAt hp
          rcases ha.start with ha | ⟨form, hform, -⟩
          · exact ha.parens hp
          · rw [hp] at hform
            cases hform
        have hcaret : a.isAt .caret = false := by
          by_contra hp
          have hp := TokenStream.peek_of_isAt (by simpa using hp)
          obtain rfl := Operators.eq_of_joined hj (Operators.upcoming?_eq_none hp rfl)
          exact hs'.caret hp
        refine .ite_pos hp ?_
        refine .bind (hparens.2.2 n) fun _ => ?_
        exact .ite_neg hcaret (Simple.extend_accepts hj hend n _)
      · exact .ite_neg (by simpa using hp) (h.accepts hend n)
  | looped h hp =>
    have hcall : atCall s = false := by simp [atCall, atType, TokenStream.isAt, h.1]
    refine .ite_neg hcall ?_
    refine .ite_pos (TokenStream.isAt_of_peek h.1) ?_
    refine .bind (h.2.2 n) fun _ => ?_
    refine .ite_pos (TokenStream.isAt_of_peek hp) ?_
    exact .bind .leaf fun _ => .pure

end Body

/-! ## Steps -/

/-- A capture between bars, and a body. -/
def Branch (o : Bool) (s s' : TokenStream Token) : Prop :=
  s.peek = some .pipe ∧ ∃ s₁, s₁.IsAhead s.advance ∧
    (∀ n, Accepts (level n).expression s.advance s₁) ∧ s₁.peek = some .pipe ∧ Body o s₁.advance s'

/-- Branches with commas between. -/
abbrev Branches := Row (fun s => s.peek = some Token.comma) Branch

/-- A body, or branches that may have a default. -/
inductive Step : Bool → TokenStream Token → TokenStream Token → Prop
  | body {o : Bool} {s s' : TokenStream Token} : Body o s s' → Step o s s'
  | branches {o : Bool} {s s' : TokenStream Token} : Branches o s s' → Step o s s'
  | default {o o' : Bool} {s s₁ s' : TokenStream Token} : Branches o s s₁ →
      s₁.peek = some .comma → Item o' s₁.advance s' → Step o' s s'

/-- Steps with semicolons between. -/
abbrev Chain := Row (fun s => s.peek = some Token.semicolon) Step

theorem Follows.of_peek {t : Token} (hp : s.peek = some t)
    (ht : operatorForm? t = none ∧ t ≠ .fieldName ∧ t ≠ .caret) : Follows o s := by
  obtain ⟨hop, hname, hcaret⟩ := ht
  refine ⟨fun _ => Operators.upcoming?_eq_none hp hop, ?_, ?_⟩
  · simp [atNamedParam, TokenStream.isAt, hp, hname]
  · simpa [hp] using hcaret

namespace Branch

/-- An open branch goes on with an operator, as its body does. -/
theorem extend (h : Branch true s s₁) (ho : (operators.upcoming? s₁).isSome)
    (h' : Simple s₁.advance s') : Branch true s s' :=
  let ⟨hp, a, ha, hc, hp', hb⟩ := h
  ⟨hp, a, ha, hc, hp', hb.extend ho h'⟩

theorem isAhead (h : Branch o s s') : s'.IsAhead s :=
  let ⟨hp, _, ha, _, hp', hb⟩ := h
  (((TokenStream.isAhead_advance hp).trans ha).trans (TokenStream.isAhead_advance hp')).trans
    hb.isAhead

/-- A branch is accepted if nothing follows that goes on with its body. -/
theorem accepts (h : Branch o s s') (hs' : Follows o s') (n : Nat) :
    Accepts (subpipeBranch (level n)) s s' := by
  obtain ⟨-, _, -, hc, hp', hb⟩ := h
  refine .bind .leaf fun _ => ?_
  refine .bind (hc n) fun _ => ?_
  refine .bind (.expect hp') fun _ => ?_
  exact .bind (hb.accepts hs' n) fun _ => .pure

end Branch

/-- Branches begin with the bar of the first of them. -/
theorem Branches.start (h : Branches o s s') : s.peek = some .pipe := by
  induction h with
  | first h => exact h.1
  | more _ _ _ ih => exact ih

theorem Branches.isAhead (h : Branches o s s') : s'.IsAhead s :=
  Row.isAhead Branch.isAhead (fun hp => ⟨_, hp⟩) h

theorem atNextBranch_iff :
    atNextBranch s = true ↔ s.peek = some .comma ∧ s.advance.peek = some .pipe :=
  TokenStream.isAt_and_peekNth_iff

/-- Branches are read up to where neither a branch nor a default follows any more, and then
    the default is. -/
theorem Branches.accepts {s₂ : TokenStream Token} (h : Branches o s s₁) (hs₁ : Follows o s₁)
    (hnext : atNextBranch s₁ = false) {n : Nat}
    (hdefault : Accepts (subpipeDefault (level n)) s₁ s₂) :
    Accepts (subpipeExpression (level n)) s s₂ := by
  obtain ⟨o₁, a, hfirst, ha, hrounds⟩ := Row.exists_rounds h hs₁ fun hp =>
    Follows.of_peek hp (by decide)
  refine .bind (hfirst.accepts ha n) fun _ => ?_
  refine .bind (.repeatWhile_marked (fun a b hab => ?_) hrounds hnext) fun _ => ?_
  · obtain ⟨hp, o, hbranch, hfollows⟩ := hab
    exact ⟨⟨_, hp⟩, atNextBranch_iff.2 ⟨hp, hbranch.1⟩, hbranch.isAhead, hbranch.accepts hfollows n⟩
  · exact .bind hdefault fun _ => .pure

/-- Open branches go on with an operator, as the last of them does. -/
theorem Branches.extend (h : Branches true s s₁) (ho : (operators.upcoming? s₁).isSome)
    (h' : Simple s₁.advance s') : Branches true s s' :=
  h.replace_last fun h => h.extend ho h'

namespace Step

theorem isAhead (h : Step o s s') : s'.IsAhead s := by
  cases h with
  | body h => exact h.isAhead
  | branches h => exact Branches.isAhead h
  | default h hp h' =>
    exact ((Branches.isAhead h).trans (TokenStream.isAhead_advance hp)).trans h'.isAhead

/-- An open step goes on with an operator, be it in a body, in the last branch or in a default. -/
theorem extend (h : Step true s s₁) (ho : (operators.upcoming? s₁).isSome)
    (h' : Simple s₁.advance s') : Step true s s' := by
  cases h with
  | body h => exact .body (h.extend ho h')
  | branches h => exact .branches (Branches.extend h ho h')
  | default h hp hi => exact .default h hp (hi.extend ho h')

theorem start (h : Step o s s') : ∃ t ∈ Token.pipe :: itemStarts, s.peek = some t := by
  cases h with
  | body h =>
    obtain ⟨t, ht, hp⟩ := h.start
    exact ⟨t, List.mem_cons_of_mem _ ht, hp⟩
  | branches h => exact ⟨_, List.mem_cons_self, Branches.start h⟩
  | default h _ _ => exact ⟨_, List.mem_cons_self, Branches.start h⟩

/-- A step is no argument, unless a colon makes its only field the name of one. -/
theorem not_named (h : Step o s s') (hs' : s'.peek ≠ some .colon) : atNamedParam s = false := by
  cases h with
  | body h =>
    cases h with
    | item h => exact h.not_named hs'
    | looped h _ => exact not_named_of_peek h.1 (by decide)
  | branches h => exact not_named_of_peek (Branches.start h) (by decide)
  | default h _ _ => exact not_named_of_peek (Branches.start h) (by decide)

/-- A step that begins with an operator is a simple expression with that operator as a sign. -/
theorem of_operator (h : Step o s s') (ho : (operators.upcoming? s).isSome) :
    o = true ∧ Simple s.advance s' := by
  cases h with
  | body h =>
    cases h with
    | item h => exact h.of_operator ho
    | looped h _ =>
      rw [Operators.upcoming?_eq_none h.1 rfl] at ho
      cases ho
  | branches h =>
    rw [Operators.upcoming?_eq_none (Branches.start h) rfl] at ho
    cases ho
  | default h _ _ =>
    rw [Operators.upcoming?_eq_none (Branches.start h) rfl] at ho
    cases ho

/-- A step is accepted if nothing follows that goes on with it. A comma would begin a default. -/
theorem accepts (h : Step o s s') (hs' : Follows o s') (hcomma : s'.peek ≠ some .comma) (n : Nat) :
    Accepts (pipeOperand (level n)) s s' := by
  cases h with
  | body h =>
    have hpipe : ∀ t ∈ itemStarts, t ≠ .pipe := by decide
    obtain ⟨t, ht, hp⟩ := h.start
    exact .ite_neg (by simp [TokenStream.isAt, hp, hpipe t ht]) (h.accepts hs' n)
  | branches h =>
    have hat : s'.isAt .comma = false := by simpa [TokenStream.isAt] using hcomma
    exact .ite_pos (TokenStream.isAt_of_peek (Branches.start h))
      (Branches.accepts h hs' (by simp [atNextBranch, hat]) (.ite_neg hat .pure))
  | @default _ _ _ s₁ _ h hp hi =>
    have hpipe : ∀ t ∈ itemStarts, t ≠ .pipe := by decide
    have hnext : atNextBranch s₁ = false := by
      obtain ⟨t, ht, hp'⟩ := hi.start
      rw [Bool.eq_false_iff, Ne, atNextBranch_iff, hp']
      simpa [hp] using hpipe t ht
    refine .ite_pos (TokenStream.isAt_of_peek (Branches.start h)) ?_
    refine Branches.accepts h (.of_peek hp (by decide)) hnext
      (.ite_pos (TokenStream.isAt_of_peek hp) (.bind .leaf fun _ => ?_))
    rcases hi.cases_call hs' with ⟨hcall, hi⟩ | ⟨hcall, hi, hend⟩
    · exact .ite_pos hcall (.bind (hi n) fun _ => .pure)
    · exact .ite_neg hcall (.bind (hi.accepts hend n) fun _ => .pure)

end Step

/-! ## Chains -/

theorem Chain.isAhead (h : Chain o s s') : s'.IsAhead s :=
  Row.isAhead Step.isAhead (fun hp => ⟨_, hp⟩) h

theorem Chain.start (h : Chain o s s') : ∃ t ∈ Token.pipe :: itemStarts, s.peek = some t := by
  induction h with
  | first h => exact h.start
  | more _ _ _ ih => exact ih

/-- A chain is no argument, unless a colon makes its only field the name of one. -/
theorem Chain.not_named (h : Chain o s s') (hs' : s'.peek ≠ some .colon) :
    atNamedParam s = false := by
  induction h with
  | first h => exact h.not_named hs'
  | more _ hm _ ih => exact ih (by simp [hm])

/-- A chain is accepted if nothing follows that goes on with its last step, nor another step. -/
theorem Chain.accepts (h : Chain o s s') (hs' : Follows o s') (hcomma : s'.peek ≠ some .comma)
    (hsemicolon : s'.peek ≠ some .semicolon) (n : Nat) : Accepts (level n).expression s s' := by
  cases n with
  | zero => exact .tooDeep
  | succ n =>
    obtain ⟨o₁, a, hfirst, ha, hrounds⟩ := Row.exists_rounds
      (F := fun o s => Follows o s ∧ s.peek ≠ some .comma) h ⟨hs', hcomma⟩
      fun hp => ⟨Follows.of_peek hp (by decide), by simp [hp]⟩
    have hend : s'.isAt .semicolon = false := by simpa [TokenStream.isAt] using hsemicolon
    refine .bind (hfirst.accepts ha.1 ha.2 n) fun _ => ?_
    refine .iterate (fun a b hab => ?_) hrounds (by simp [hend]) _
    obtain ⟨hp, o, hstep, hfollows, hcomma⟩ := hab
    refine ⟨(TokenStream.isAhead_advance hp).trans hstep.isAhead, (), ?_, fun _ => ?_⟩
    · simp [TokenStream.isAt, hp]
    · refine .bind .leaf fun _ => ?_
      exact .bind (hstep.accepts hfollows hcomma n) fun _ => .pure

/-- An operator and an operand behind an open chain go on with it. -/
theorem Chain.extend (h : Chain true s s₁) (ho : (operators.upcoming? s₁).isSome)
    (h' : Simple s₁.advance s') : Chain true s s' :=
  h.replace_last fun h => h.extend ho h'

/-- A sign that begins an expression is an operator if an open chain stands in front. -/
theorem Chain.merge (h : Chain true s s₁) (ho : (operators.upcoming? s₁).isSome)
    (h' : Chain o s₁ s') : Chain o s s' := by
  induction h' with
  | first h' =>
    obtain ⟨rfl, hsimple⟩ := h'.of_operator ho
    exact h.extend ho hsimple
  | more _ hm h' ih => exact .more (ih h ho) hm h'

end GrammarTools.Simpl
