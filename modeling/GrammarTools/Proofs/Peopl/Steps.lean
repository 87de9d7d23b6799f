import GrammarTools.Peopl.Rules
import GrammarTools.Proofs.Acceptance

/-!
# The steps of an expression in PeoPl

What the grammar of PeoPl derives in many ways, the rules read in one way. An
expression is seen here as they see it:

* a *stem* is an operand without what follows it, and an *atom* is a stem or a
  type with suffixes: calls and accesses;
* an *operand* is an atom with signs in front, and a *simple* expression is a
  row of operands with operators between;
* a *step* is a simple expression, or branches that may have a default;
* a *chain* has steps with semicolons and question marks between.

A rule accepts one of these if nothing follows that would go on with it: no
operator and no suffix behind a simple expression (`Closes`), no arguments and
no further name behind a type (`TypeEnds`). Branches without a default go on
with a comma. So a step says by a flag whether it ends in such branches, and in
a tuple the chains that go on with one another are merged (`Chain.row`).
-/

namespace GrammarTools.Peopl

open Relation

variable {s s₁ s' : TokenStream Token} {bare c c' : Bool}

/-- An argument or a parameter shows by a name and a colon. -/
theorem atNamedParam_iff :
    atNamedParam s = true ↔ atArgumentName s = true ∧ s.advance.peek = some .colon := by
  simp only [atNamedParam, Bool.and_eq_true, beq_iff_eq]
  refine and_congr_right fun hname => ?_
  obtain ⟨t, hp, -⟩ := (Option.any_eq_true _ _).1 hname
  rw [TokenStream.peek, TokenStream.peekNth_advance hp]

theorem atNamedParam_eq_false {t : Token} (hp : s.peek = some t) (ht : isArgumentName t = false) :
    atNamedParam s = false := by
  simp [atNamedParam, atArgumentName, hp, ht]

/-! ## Types -/

/-- What follows goes on with no type. -/
structure TypeEnds (s : TokenStream Token) : Prop where
  less : s.peek ≠ some .less
  colons : s.peek ≠ some .colonColon

theorem TypeEnds.of_peek {t : Token} (hp : s.peek = some t) (ht : t ≠ .less ∧ t ≠ .colonColon) :
    TypeEnds s :=
  ⟨by simpa [hp] using ht.1, by simpa [hp] using ht.2⟩

/-- The name of a type. A bare one has no arguments. -/
def Name (bare : Bool) (s s' : TokenStream Token) : Prop :=
  s.peek = some .typeName ∧ s'.IsAhead s ∧
    ((bare = true → s'.peek ≠ some .less) → ∀ n, Accepts (flatNominalType (level n)) s s')

/-- A type whose last name may be bare. -/
def Nominal (bare : Bool) (s s' : TokenStream Token) : Prop :=
  s.peek = some .typeName ∧ s'.IsAhead s ∧
    ((bare = true → s'.peek ≠ some .less) → s'.peek ≠ some .colonColon →
      ∀ n, Accepts (nominalType (level n)) s s')

/-- The tokens that a type may begin with. -/
def typeStarts : List Token :=
  [.nothingKeyword, .neverKeyword, .typeName, .openBrace, .openBracket]

/-- A type in its place. -/
def TypeAt (s s' : TokenStream Token) : Prop :=
  (∃ t ∈ typeStarts, s.peek = some t) ∧ s'.IsAhead s ∧
    (TypeEnds s' → ∀ n, Accepts (level n).typeIdentifier s s')

/-- A comma and a type. -/
def NextType (s s' : TokenStream Token) : Prop :=
  s.peek = some .comma ∧ s'.IsAhead s.advance ∧ TypeAt s.advance s'

/-- Types with commas between. -/
def Types (s s' : TokenStream Token) : Prop := ∃ s₁, TypeAt s s₁ ∧ ReflTransGen NextType s₁ s'

/-- At the top, too, a type is accepted if nothing goes on with it. -/
theorem Nominal.accepts_top (h : Nominal true s s') (hs' : TypeEnds s') :
    Accepts (nominalType top) s s' := h.2.2 (fun _ => hs'.less) hs'.colons _

/-- Names with double colons between make a nominal type, which is bare if the last name is. -/
theorem Name.row (h : Row (fun s => s.peek = some Token.colonColon) Name bare s s') :
    Nominal bare s s' := by
  refine ⟨?_, Row.isAhead (fun h => h.2.1) (fun hp => ⟨_, hp⟩) h, fun hless hcolons n => ?_⟩
  · induction h with
    | first h => exact h.1
    | more _ _ _ ih => exact ih
  · obtain ⟨bare, a, hfirst, hless, hrounds⟩ := Row.exists_rounds
      (F := fun bare s => bare = true → s.peek ≠ some Token.less) h hless
      (fun hp _ => by simp [hp])
    have hend : s'.isAt .colonColon = false := by simpa [TokenStream.isAt] using hcolons
    refine .bind (hfirst.2.2 hless n) fun _ => ?_
    refine .bind (.repeatWhile_marked (fun a b hab => ?_) hrounds hend) fun _ => .pure
    obtain ⟨hp, bare, hname, hless⟩ := hab
    exact ⟨⟨_, hp⟩, TokenStream.isAt_of_peek hp, hname.2.1, hname.2.2 hless n⟩

/-- Types are accepted if neither a comma nor anything that goes on with the last of them follows.
    -/
theorem Types.accepts (h : Types s s') (hs' : TypeEnds s') (hcomma : s'.peek ≠ some .comma)
    (n : Nat) : Accepts (typeIdentifiers (level n)) s s' := by
  obtain ⟨a, ha, hrow⟩ := h
  obtain ⟨hrow, haends⟩ := exists_followed hrow
    (fun h => TypeEnds.of_peek h.1 (by decide)) hs'
  have hend : s'.isAt .comma = false := by simpa [TokenStream.isAt] using hcomma
  refine .bind (ha.2.2 haends n) fun _ => ?_
  refine .bind (.repeatWhile_marked (fun a b hab => ?_) hrow hend) fun _ => .pure
  obtain ⟨⟨hp, hahead, htype⟩, hends⟩ := hab
  exact ⟨⟨_, hp⟩, TokenStream.isAt_of_peek hp, hahead, htype.2.2 hends n⟩

/-! ## Operands -/

/-- What follows goes on with no simple expression. -/
structure Closes (s : TokenStream Token) : Prop where
  operator : operators.upcoming? s = none
  suffix : suffix? s = none

theorem suffix?_eq_none {t : Token} (hp : s.peek = some t) (hparen : t ≠ .openParen)
    (hdot : t ≠ .dot) : suffix? s = none := by
  unfold suffix?
  split <;> simp_all

/-- An operator is no suffix. -/
theorem suffix?_of_operator (ho : (operators.upcoming? s).isSome) : suffix? s = none := by
  obtain ⟨form, hform⟩ := Option.isSome_iff_exists.1 ho
  obtain ⟨t, hp, ht⟩ := Option.bind_eq_some_iff.1 hform
  refine suffix?_eq_none hp ?_ ?_ <;> rintro rfl <;> cases ht

/-- An operand without what follows it, and no type. -/
def Stem (s s' : TokenStream Token) : Prop :=
  s'.IsAhead s ∧ s.peek ≠ some .typeName ∧ ∀ n bareType, Accepts (primary (level n) bareType) s s'

/-- A call or an access. -/
def Suffixed (s s' : TokenStream Token) : Prop :=
  s'.IsAhead s ∧ ∃ suffix, suffix? s = some suffix ∧
    ∀ n left, Accepts (withSuffix (level n) suffix left) s s'

/-- A stem or a type with suffixes. A type has at least one. -/
inductive Atom : TokenStream Token → TokenStream Token → Prop
  | stem {s s₁ s' : TokenStream Token} : Stem s s₁ → ReflTransGen Suffixed s₁ s' → Atom s s'
  | type {s s₁ s₂ s' : TokenStream Token} : Nominal true s s₁ → Suffixed s₁ s₂ →
      ReflTransGen Suffixed s₂ s' → Atom s s'

/-- An expression in parentheses. -/
def Parens (s s' : TokenStream Token) : Prop :=
  s.peek = some .openParen ∧ s'.IsAhead s ∧
    ∀ n, Accepts (parenthisizedExpression (level n)) s s'

/-- An operand with any number of signs. -/
abbrev Operand := Signed signForm? Atom

/-- An operator and the operand behind it. -/
abbrev Joined := operators.Joined Operand

/-- Operands with operators between. -/
abbrev Simple := operators.Compound Operand

/-- The tokens that a stem may begin with. -/
def stemStarts : List Token :=
  [.nothingKeyword, .neverKeyword, .number, .string, .trueKeyword, .falseKeyword, .argumentName,
    .underscore, .openBracket, .openParen, .openBrace]

/-- What can begin an access starts with one of a few tokens. -/
theorem Stem.start (h : Stem s s') : ∃ t ∈ stemStarts, s.peek = some t := by
  obtain ⟨r, hr, hacc⟩ := Accepts.peek_iff.1 (h.2.2 0 false)
  split at hr <;> subst hr
  case h_12 hp => exact absurd hp h.2.1
  case h_13 => exact absurd hacc (Accepts.not_fail (by decide))
  all_goals
    refine ⟨_, ?_, ‹_›⟩
    decide

/-- A stem that begins with a parenthesis is in parentheses. -/
theorem Stem.parens (h : Stem s s') (hp : s.peek = some .openParen) : Parens s s' := by
  refine ⟨hp, h.1, fun n => ?_⟩
  obtain ⟨r, hr, hacc⟩ := Accepts.peek_iff.1 (h.2.2 n false)
  rw [hp] at hr
  subst hr
  exact hacc

theorem Parens.stem (h : Parens s s') : Stem s s' :=
  ⟨h.2.1, by simp [h.1], fun n _ => .peek h.1 (h.2.2 n)⟩

namespace Suffixed

/-- A suffix keeps off a type in front of it from going on. -/
theorem typeEnds (h : Suffixed s s') : TypeEnds s := by
  obtain ⟨-, suffix, hs, -⟩ := h
  unfold suffix? at hs
  split at hs
  · exact .of_peek ‹_› (by decide)
  · exact .of_peek ‹_› (by decide)
  · cases hs

/-- Suffixes are read on, if there are any. -/
theorem isAhead_row (h : ReflTransGen Suffixed s s') : s' = s ∨ s'.IsAhead s := by
  induction h with
  | refl => exact .inl rfl
  | tail _ hab ih =>
    rcases ih with rfl | ih
    · exact .inr hab.1
    · exact .inr (ih.trans hab.1)

/-- Suffixes are accepted one after the other, if no further one follows. -/
theorem accepts_row (h : ReflTransGen Suffixed s s') (hs' : suffix? s' = none) (n : Nat)
    (left : RawNode) : Accepts (withSuffixes (level n) left) s s' :=
  .iterate (fun _ _ ⟨ha, suffix, hs, haccepts⟩ => ⟨ha, suffix, hs, haccepts n⟩) h hs' left

end Suffixed

/-- A type is accepted as an operand where it may stand alone or a suffix follows. -/
theorem typeOperand_accepts {bareType : Bool} {n : Nat}
    (h : Accepts (nominalType (level n)) s s')
    (hs' : (bareType || s'.isAt .openParen || s'.isAt .dot) = true) :
    Accepts (typeOperand (level n) bareType) s s' :=
  .bind h fun _ => .ite_pos hs' .pure

/-- In front of a suffix a type is an operand. -/
theorem Suffixed.typeOperand_accepts {s₂ : TokenStream Token} (h : Suffixed s₁ s₂)
    (ht : Nominal true s s₁) (n : Nat) (bareType : Bool) :
    Accepts (primary (level n) bareType) s s₁ := by
  have hends := h.typeEnds
  refine .peek ht.1 (Peopl.typeOperand_accepts (ht.2.2 (fun _ => hends.less) hends.colons n) ?_)
  obtain ⟨-, suffix, hs, -⟩ := h
  unfold suffix? at hs
  split at hs
  · simp [TokenStream.isAt, *]
  · simp [TokenStream.isAt, *]
  · cases hs

namespace Atom

theorem isAhead (h : Atom s s') : s'.IsAhead s := by
  cases h with
  | stem h hrow =>
    rcases Suffixed.isAhead_row hrow with rfl | hrow
    · exact h.1
    · exact h.1.trans hrow
  | type ht h hrow =>
    have ha := ht.2.1.trans h.1
    rcases Suffixed.isAhead_row hrow with rfl | hrow
    · exact ha
    · exact ha.trans hrow

/-- An atom with one more suffix is an atom. -/
theorem suffixed (h : Atom s s₁) (h' : Suffixed s₁ s') : Atom s s' := by
  cases h with
  | stem h hrow => exact .stem h (hrow.tail h')
  | type ht h hrow => exact .type ht h (hrow.tail h')

/-- The operand that an atom begins with, and the suffixes behind it. -/
theorem exists_primary (h : Atom s s') :
    ∃ s₁, (∀ n bareType, Accepts (primary (level n) bareType) s s₁) ∧
      ReflTransGen Suffixed s₁ s' := by
  cases h with
  | stem h hrow => exact ⟨_, h.2.2, hrow⟩
  | type ht h hrow => exact ⟨_, h.typeOperand_accepts ht, .head h hrow⟩

/-- The tokens that an atom may begin with. -/
def starts : List Token := .typeName :: stemStarts

theorem start (h : Atom s s') : ∃ t ∈ starts, s.peek = some t := by
  cases h with
  | stem h _ =>
    obtain ⟨t, ht, hp⟩ := h.start
    exact ⟨t, List.mem_cons_of_mem _ ht, hp⟩
  | type ht _ _ => exact ⟨_, List.mem_cons_self, ht.1⟩

/-- What begins an atom is no sign. -/
theorem not_sign (h : Atom s s') : s.peek.bind signForm? = none := by
  have hnone : ∀ t ∈ starts, signForm? t = none := by decide
  obtain ⟨t, ht, hp⟩ := h.start
  rw [hp, Option.bind_some, hnone t ht]

end Atom

namespace Operand

theorem isAhead (h : Operand s s') : s'.IsAhead s := Signed.isAhead Atom.isAhead h

/-- With signs in front, an operand may have one more suffix. -/
theorem suffixed (h : Operand s s₁) (h' : Suffixed s₁ s') : Operand s s' :=
  h.replace_atom fun h => h.suffixed h'

/-- An operand is accepted if no suffix follows. -/
theorem accepts (h : Operand s s') (hs' : suffix? s' = none) (n : Nat) :
    Accepts (level n).unary s s' := by
  induction h generalizing n with
  | atom h =>
    cases n with
    | zero => exact .tooDeep
    | succ n =>
      obtain ⟨a, ha, hrow⟩ := h.exists_primary
      have hsuffixed : Accepts (Peopl.suffixed (level n) false) _ _ :=
        .bind (ha n false) fun left => Suffixed.accepts_row hrow hs' n left
      exact .signed_none h.not_sign hsuffixed
  | signed hs _ ih =>
    cases n with
    | zero => exact .tooDeep
    | succ n => exact .signed_some hs (ih hs' n)

end Operand

namespace Joined

/-- Operands joined by operators are accepted, if neither an operator nor a suffix follows. -/
theorem accepts_row (h : ReflTransGen Joined s s') (hs' : Closes s') (n : Nat) (left : RawNode) :
    Accepts (operators.extend (level n).unary left) s s' := by
  obtain ⟨hrow, -⟩ := exists_followed h (fun h => suffix?_of_operator h.1) hs'.suffix
  refine .extend (R := fun a b => Operand a b ∧ suffix? b = none)
    (fun h => ⟨Operand.isAhead h.1, Operand.accepts h.1 h.2 n⟩) ?_ hs'.operator left
  exact ReflTransGen.mono (fun _ _ hab => ⟨hab.1.1, hab.1.2, hab.2⟩) _ _ hrow

/-- No suffix stands in front of a row of operators. -/
theorem not_suffix (h : ReflTransGen Joined s s') (hs' : Closes s') : suffix? s = none :=
  (exists_followed h (fun h => suffix?_of_operator h.1) hs'.suffix).2

end Joined

namespace Simple

/-- A suffix belongs to the last operand. -/
theorem suffixed (h : Simple s s₁) (h' : Suffixed s₁ s') : Simple s s' := by
  obtain ⟨a, ha, hj⟩ := h
  rcases hj.cases_tail with rfl | ⟨b, hj, ho, hlast⟩
  · exact ⟨s', Operand.suffixed ha h', .refl⟩
  · exact ⟨a, ha, hj.tail ⟨ho, Operand.suffixed hlast h'⟩⟩

theorem isAhead (h : Simple s s') : s'.IsAhead s := Operators.Compound.isAhead Operand.isAhead h

/-- A simple expression is accepted if neither an operator nor a suffix follows it. -/
theorem accepts (h : Simple s s') (hs' : Closes s') (n : Nat) :
    Accepts (simpleExpression (level n)) s s' := by
  obtain ⟨a, ha, hj⟩ := h
  exact .bind (Operand.accepts ha (Joined.not_suffix hj hs') n) fun left =>
    Joined.accepts_row hj hs' n left

/-- The tokens that a simple expression may begin with. -/
def starts : List Token := [.plus, .minus, .notKeyword] ++ Atom.starts

/-- A simple expression begins with a sign or as an atom does. -/
theorem start (h : Simple s s') : ∃ t ∈ starts, s.peek = some t := by
  obtain ⟨a, ha, -⟩ := h
  rcases ha.start with ha | ⟨form, hform, -⟩
  · obtain ⟨t, ht, hp⟩ := ha.start
    exact ⟨t, List.mem_append_right _ ht, hp⟩
  · obtain ⟨t, hp, ht⟩ := Option.bind_eq_some_iff.1 hform
    refine ⟨t, ?_, hp⟩
    cases t <;> simp_all [signForm?, starts]

end Simple

/-! ## Steps -/

/-- Tokens that neither go on with a simple expression nor loop one. -/
structure BodyEnds (s : TokenStream Token) : Prop extends Closes s where
  caret : s.peek ≠ some .caret

theorem Closes.of_peek {t : Token} (hp : s.peek = some t)
    (ht : operatorForm? t = none ∧ t ≠ .openParen ∧ t ≠ .dot) : Closes s :=
  ⟨Operators.upcoming?_eq_none hp ht.1, suffix?_eq_none hp ht.2.1 ht.2.2⟩

theorem BodyEnds.of_peek {t : Token} (hp : s.peek = some t)
    (ht : operatorForm? t = none ∧ t ≠ .openParen ∧ t ≠ .dot ∧ t ≠ .caret) : BodyEnds s := by
  obtain ⟨hop, hparen, hdot, hcaret⟩ := ht
  exact ⟨.of_peek hp ⟨hop, hparen, hdot⟩, by simpa [hp] using hcaret⟩

/-- A simple expression, or a parenthesised expression that is looped. -/
inductive Body : TokenStream Token → TokenStream Token → Prop
  | simple {s s' : TokenStream Token} : Simple s s' → Body s s'
  | looped {s s' : TokenStream Token} : Parens s s' → s'.peek = some .caret → Body s s'.advance

namespace Body

/-- A simple expression that begins with a parenthesis is read as one that may be looped. -/
theorem afterParens_accepts (h : Simple s s') (hp : s.peek = some .openParen) (hs' : BodyEnds s')
    (n : Nat) : ∃ s₁, Parens s s₁ ∧ ∀ parens, Accepts (afterParens (level n) parens) s₁ s' := by
  obtain ⟨a, ha, hj⟩ := h
  rcases ha.start with ha | ⟨form, hform, -⟩
  · cases ha with
    | @stem b _ hstem hrow =>
      -- Neither a suffix nor an operator is a caret, and what ends the body is none either.
      have hcaret : b.isAt .caret = false := by
        by_contra hcaret
        have hcaret := TokenStream.peek_of_isAt (by simpa using hcaret)
        rcases hrow.cases_head with rfl | ⟨c, ⟨-, suffix, hs, -⟩, -⟩
        · obtain rfl := Operators.eq_of_joined hj (Operators.upcoming?_eq_none hcaret rfl)
          exact hs'.caret hcaret
        · rw [suffix?_eq_none hcaret (by decide) (by decide)] at hs
          cases hs
      refine ⟨b, hstem.parens hp, fun parens => ?_⟩
      refine .ite_neg hcaret ?_
      refine .bind (Suffixed.accepts_row hrow (Joined.not_suffix hj hs'.toCloses) n parens) fun left
        => ?_
      exact Joined.accepts_row hj hs'.toCloses n left
    | type ht _ _ =>
      rw [ht.1] at hp
      cases hp
  · rw [hp] at hform
    cases hform

/-- A body is accepted in front of what ends it. -/
theorem accepts (h : Body s s') (hs' : BodyEnds s') (n : Nat) :
    Accepts (branchBody (level n)) s s' := by
  cases h with
  | simple h =>
    by_cases hp : s.isAt .openParen
    · obtain ⟨a, hparens, hafter⟩ := afterParens_accepts h (TokenStream.peek_of_isAt hp) hs' n
      exact .ite_pos hp (.bind (hparens.2.2 n) hafter)
    · exact .ite_neg (by simpa using hp) (h.accepts hs'.toCloses n)
  | looped h hp =>
    refine .ite_pos (TokenStream.isAt_of_peek h.1) ?_
    refine .bind (h.2.2 n) fun _ => ?_
    refine .ite_pos (TokenStream.isAt_of_peek hp) ?_
    exact .bind .leaf fun _ => .pure

end Body

/-- Captures between bars, and a body. -/
def Branch (s s' : TokenStream Token) : Prop :=
  s.peek = some .pipe ∧ s'.IsAhead s ∧
    (BodyEnds s' → ∀ n, Accepts (branchExpression (level n)) s s')

/-- A comma and a branch. -/
def NextBranch (s s' : TokenStream Token) : Prop := s.peek = some .comma ∧ Branch s.advance s'

/-- Branches with commas between. -/
def Branches (s s' : TokenStream Token) : Prop := ∃ s₁, Branch s s₁ ∧ ReflTransGen NextBranch s₁ s'

/-- A simple expression, or branches that may have a default. The flag says whether they
    could have one but do not. -/
inductive Step : Bool → TokenStream Token → TokenStream Token → Prop
  | simple {s s' : TokenStream Token} : Simple s s' → Step false s s'
  | branches {s s' : TokenStream Token} : Branches s s' → Step true s s'
  | default {s s₁ s' : TokenStream Token} : Branches s s₁ → s₁.peek = some .comma →
      Simple s₁.advance s' → Step false s s'

/-- Steps with semicolons and question marks between. -/
abbrev Chain := Row (fun s => (pipeKind? s).isSome = true) Step

/-- What follows goes on with no step. -/
structure StepEnds (c : Bool) (s : TokenStream Token) : Prop extends BodyEnds s where
  comma : c = true → s.peek ≠ some .comma

theorem atNextBranch_iff :
    atNextBranch s = true ↔ s.peek = some .comma ∧ s.advance.peek = some .pipe :=
  TokenStream.isAt_and_peekNth_iff

namespace Branches

theorem isAhead (h : Branches s s') : s'.IsAhead s := by
  obtain ⟨a, ha, hrow⟩ := h
  induction hrow with
  | refl => exact ha.2.1
  | tail _ hab ih => exact (ih.trans (TokenStream.isAhead_advance hab.1)).trans hab.2.2.1

/-- Branches with a comma between are branches again. -/
theorem append (h : Branches s s₁) (hp : s₁.peek = some .comma) (h' : Branches s₁.advance s') :
    Branches s s' :=
  let ⟨a, ha, hrow⟩ := h
  let ⟨_, hb, hrow'⟩ := h'
  ⟨a, ha, hrow.trans (.head ⟨hp, hb⟩ hrow')⟩

/-- Branches are read up to where neither a branch nor a default follows any more, and then
    the default is. -/
theorem accepts {s₂ : TokenStream Token} (h : Branches s s₁) (hs₁ : BodyEnds s₁)
    (hnext : atNextBranch s₁ = false) {n : Nat}
    (hdefault : Accepts (branchDefault (level n)) s₁ s₂) :
    Accepts (branchedExpression (level n)) s s₂ := by
  obtain ⟨a, ha, hrow⟩ := h
  obtain ⟨hrow, haends⟩ := exists_followed hrow (fun h => BodyEnds.of_peek h.1 (by decide)) hs₁
  refine .bind (ha.2.2 haends n) fun _ => ?_
  refine .bind (.repeatWhile_marked (fun a b hab => ?_) hrow hnext) fun _ => ?_
  · obtain ⟨⟨hp, hbranch⟩, hends⟩ := hab
    exact ⟨⟨_, hp⟩, atNextBranch_iff.2 ⟨hp, hbranch.1⟩, hbranch.2.1, hbranch.2.2 hends n⟩
  · exact .bind hdefault fun _ => .pure

end Branches

namespace Step

theorem isAhead (h : Step c s s') : s'.IsAhead s := by
  cases h with
  | simple h => exact h.isAhead
  | branches h => exact h.isAhead
  | default h hp h' => exact (h.isAhead.trans (TokenStream.isAhead_advance hp)).trans h'.isAhead

/-- The tokens that a step may begin with. -/
def starts : List Token := .pipe :: Simple.starts

theorem start (h : Step c s s') : ∃ t ∈ starts, s.peek = some t := by
  cases h with
  | simple h =>
    obtain ⟨t, ht, hp⟩ := h.start
    exact ⟨t, List.mem_cons_of_mem _ ht, hp⟩
  | branches h =>
    obtain ⟨a, ha, -⟩ := h
    exact ⟨_, List.mem_cons_self, ha.1⟩
  | default h _ _ =>
    obtain ⟨a, ha, -⟩ := h
    exact ⟨_, List.mem_cons_self, ha.1⟩

/-- A step is accepted in front of what ends it; without a default, that is no comma. -/
theorem accepts (h : Step c s s') (hs' : StepEnds c s') (n : Nat) :
    Accepts (pipeOperand (level n)) s s' := by
  have hpipe : ∀ t ∈ Simple.starts, t ≠ .pipe := by decide
  cases h with
  | simple h =>
    obtain ⟨t, ht, hp⟩ := h.start
    exact .ite_neg (by simp [TokenStream.isAt, hp, hpipe t ht]) (h.accepts hs'.toCloses n)
  | branches h =>
    have hat : s'.isAt .comma = false := by simpa [TokenStream.isAt] using hs'.comma rfl
    obtain ⟨a, ha, -⟩ := id h
    exact .ite_pos (TokenStream.isAt_of_peek ha.1)
      (h.accepts hs'.toBodyEnds (by simp [atNextBranch, hat]) (.ite_neg hat .pure))
  | @default _ s₁ _ h hp hdefault =>
    obtain ⟨a, ha, -⟩ := id h
    have hnext : atNextBranch s₁ = false := by
      obtain ⟨t, ht, hp'⟩ := hdefault.start
      rw [Bool.eq_false_iff, Ne, atNextBranch_iff, hp']
      simpa [hp] using hpipe t ht
    have hmore : Accepts (branchDefault (level n)) s₁ s' := by
      refine .ite_pos (TokenStream.isAt_of_peek hp) ?_
      refine .bind .leaf fun _ => ?_
      exact .bind (hdefault.accepts hs'.toCloses n) fun _ => .pure
    exact .ite_pos (TokenStream.isAt_of_peek ha.1) (h.accepts (.of_peek hp (by decide)) hnext hmore)

/-- A comma behind branches goes on with them, whatever follows. -/
theorem merge (h : Step true s s₁) (hp : s₁.peek = some .comma) (h' : Step c s₁.advance s') :
    Step c s s' := by
  cases h with
  | branches h =>
    cases h' with
    | simple h' => exact .default h hp h'
    | branches h' => exact .branches (h.append hp h')
    | default h' hp' hdefault => exact .default (h.append hp h') hp' hdefault

end Step

/-! ## Chains -/

namespace Chain

/-- What joins two steps shows by one of two tokens. -/
theorem exists_peek_of_mark {a : TokenStream Token} (h : (pipeKind? a).isSome = true) :
    ∃ t ∈ [Token.question, .semicolon], a.peek = some t := by
  unfold pipeKind? at h
  split at h
  · exact ⟨.question, by decide, ‹_›⟩
  · exact ⟨.semicolon, by decide, ‹_›⟩
  · cases h

theorem isAhead (h : Chain c s s') : s'.IsAhead s :=
  Row.isAhead Step.isAhead
    (fun hm => let ⟨t, _, hp⟩ := exists_peek_of_mark hm; ⟨t, hp⟩) h

theorem start (h : Chain c s s') : ∃ t ∈ Step.starts, s.peek = some t := by
  induction h with
  | first h => exact h.start
  | more _ _ _ ih => exact ih

/-- What joins two steps ends the step in front. -/
theorem stepEnds_of_mark {a : TokenStream Token} (h : (pipeKind? a).isSome = true) :
    StepEnds c a := by
  obtain ⟨t, ht, hp⟩ := exists_peek_of_mark h
  simp only [List.mem_cons, List.not_mem_nil, or_false] at ht
  rcases ht with rfl | rfl
  · exact ⟨.of_peek hp (by decide), by simp [hp]⟩
  · exact ⟨.of_peek hp (by decide), by simp [hp]⟩

/-- A chain is accepted in front of what ends its last step, if no other step follows. -/
theorem accepts (h : Chain c s s') (hs' : StepEnds c s') (hpipe : pipeKind? s' = none) (n : Nat) :
    Accepts (level n).expression s s' := by
  cases n with
  | zero => exact .tooDeep
  | succ n =>
    obtain ⟨c, a, hfirst, ha, hrounds⟩ := Row.exists_rounds (F := StepEnds) h hs' stepEnds_of_mark
    refine .bind (hfirst.accepts ha n) fun _ => ?_
    refine .iterate (fun a b hab => ?_) hrounds hpipe _
    obtain ⟨hm, c, hstep, hends⟩ := hab
    obtain ⟨t, -, hp⟩ := exists_peek_of_mark hm
    obtain ⟨kind, hkind⟩ := Option.isSome_iff_exists.1 hm
    refine ⟨(TokenStream.isAhead_advance hp).trans hstep.isAhead, kind, hkind, fun _ => ?_⟩
    refine .bind .leaf fun _ => ?_
    exact .bind (hstep.accepts hends n) fun _ => .pure

/-- A comma behind a chain that ends in branches goes on with it, whatever follows. -/
theorem merge (h : Chain true s s₁) (hp : s₁.peek = some .comma) (h' : Chain c s₁.advance s') :
    Chain c s s' := by
  generalize ha : s₁.advance = a at h'
  induction h' with
  | first h' => exact h.replace_last fun h => h.merge hp (ha ▸ h')
  | more _ hm h' ih => exact .more (ih ha) hm h'

/-- A comma and a chain. -/
def Next (s s' : TokenStream Token) : Prop := s.peek = some .comma ∧ ∃ c, Chain c s.advance s'

/-- A comma and a chain that does not go on behind it. -/
def NextEnded (s s' : TokenStream Token) : Prop :=
  s.peek = some .comma ∧ ∃ c, Chain c s.advance s' ∧ (c = true → s'.peek ≠ some .comma)

/-- Chains with commas between, where those that go on with one another are made one. -/
theorem row (h : Chain c s s₁) (hrow : ReflTransGen Next s₁ s') (hs' : s'.peek ≠ some .comma) :
    ∃ c' s₂, Chain c' s s₂ ∧ (c' = true → s₂.peek ≠ some .comma) ∧
      ReflTransGen NextEnded s₂ s' := by
  induction hrow using ReflTransGen.head_induction_on generalizing s c with
  | refl => exact ⟨c, s', h, fun _ => hs', .refl⟩
  | @head a b hab _ ih =>
    obtain ⟨hp, c₂, h₂⟩ := hab
    cases c with
    | true => exact ih (h.merge hp h₂)
    | false =>
      obtain ⟨c', d, hd, hends, hrow⟩ := ih h₂
      exact ⟨false, a, h, by simp, .head ⟨hp, c', hd, hends⟩ hrow⟩

end Chain

/-! ## First captures -/

/-- A type at the start of a capture, with the suffixes, operators and operands behind it. -/
theorem firstCapture_accepts {s₂ : TokenStream Token} (hp : s.peek = some .typeName)
    (htype : ∀ n, Accepts (primary (level n) true) s s₁) (hrow : ReflTransGen Suffixed s₁ s₂)
    (hj : ReflTransGen Joined s₂ s') (hs' : Closes s') (n : Nat) :
    Accepts (firstCapture (level n)) s s' :=
  have hsuffixed : Accepts (suffixed (level n) true) s s₂ :=
    .bind (htype n) fun left => Suffixed.accepts_row hrow (Joined.not_suffix hj hs') n left
  .ite_pos (TokenStream.isAt_of_peek hp)
    (.bind hsuffixed fun left => Joined.accepts_row hj hs' n left)

/-- A simple expression is accepted as the first capture, even if it begins with a type. -/
theorem Simple.firstCapture_accepts (h : Simple s s') (hs' : Closes s') (n : Nat) :
    Accepts (firstCapture (level n)) s s' := by
  by_cases hp : s.isAt .typeName
  · obtain ⟨a, ha, hj⟩ := h
    rcases ha.start with ha | ⟨form, hform, -⟩
    · obtain ⟨b, hb, hrow⟩ := ha.exists_primary
      exact Peopl.firstCapture_accepts (TokenStream.peek_of_isAt hp) (fun n => hb n true) hrow hj
        hs' n
    · rw [TokenStream.peek_of_isAt hp] at hform
      cases hform
  · exact .ite_neg (by simpa using hp) (h.accepts hs' n)

/-- A type may stand first in a capture, bare or in front of an operator. -/
theorem Nominal.firstCapture_accepts (h : Nominal bare s s₁)
    (hless : bare = true → s₁.peek ≠ some .less) (hcolons : s₁.peek ≠ some .colonColon)
    (hj : ReflTransGen Joined s₁ s') (hs' : Closes s') (n : Nat) :
    Accepts (firstCapture (level n)) s s' :=
  Peopl.firstCapture_accepts h.1
    (fun n => .peek h.1 (typeOperand_accepts (h.2.2 hless hcolons n) (by simp))) .refl hj hs' n

end GrammarTools.Peopl
