import GrammarTools.Operators
import GrammarTools.Proofs.Derivation

/-!
# What rules accept

A rule *accepts* what lies between two places of a stream if, started at the
first place, it stops at the second one, unless rules are nested too deeply on
the way (`Accepts`).

Rules that decide by what comes next accept something only if the right thing
follows it. What may follow differs from rule to rule; for the steps of a
repetition it is settled from the last step to the first, as each step is
followed by the next one (`exists_followed`).

Operators are read class by class, though a derivation joins operands in a
row. The row is cut into what the tighter classes join between two operators
of the loosest class (`Operators.exists_rounds`).
-/

namespace GrammarTools

open Relation

variable {τ : Type} {α β σ : Type} {s s₁ s' : TokenStream τ}

/-- Whether an error is that of rules nested too deeply. -/
def SyntaxError.IsNesting (e : SyntaxError) : Prop := e.expected = [nestingLimit]

instance (e : SyntaxError) : Decidable e.IsNesting := inferInstanceAs (Decidable (_ = _))

/-- A rule reads what lies between two places, unless rules are nested too deeply. -/
def Accepts (r : Rule τ α) (s s' : TokenStream τ) : Prop :=
  (∃ a, r s = .ok (a, s')) ∨ ∃ e, r s = .error e ∧ e.IsNesting

namespace Accepts

variable {r r' : Rule τ α}

theorem pure {a : α} : Accepts (Pure.pure a : Rule τ α) s s := .inl ⟨a, rfl⟩

/-- One rule accepts up to where the next one begins; an error of nesting may come from either. -/
theorem bind {f : α → Rule τ β} (hr : Accepts r s s₁) (hf : ∀ a, Accepts (f a) s₁ s') :
    Accepts (r >>= f) s s' := by
  rcases hr with ⟨a, hr⟩ | ⟨e, hr, he⟩
  · have heq : (r >>= f) s = f a s₁ := by simp [Bind.bind, StateT.bind, Except.bind, hr]
    unfold Accepts
    rw [heq]
    exact hf a
  · exact .inr ⟨e, by simp [Bind.bind, StateT.bind, Except.bind, hr], he⟩

/-- A rule that fails for being nested too deeply accepts anything. -/
theorem tooDeep : Accepts (Rule.tooDeep : Rule τ α) s s' := .inr ⟨_, rfl, rfl⟩

theorem leaf {kind : KindId} : Accepts (Rule.leaf kind) s s.advance := .inl ⟨_, rfl⟩

theorem expect [DecidableEq τ] {t : τ} {kind : KindId} {description : String}
    (hp : s.peek = some t) : Accepts (Rule.expect t kind description) s s.advance :=
  .inl ⟨.leaf kind s.span, by simp [Rule.expect, TokenStream.isAt_of_peek hp, Rule.leaf]⟩

/-- A rule that looks at the next token accepts what its branch for that token does. -/
theorem peek_iff {f : Option τ → Rule τ α} :
    Accepts (Rule.peek >>= f) s s' ↔ ∃ r, f s.peek = r ∧ Accepts r s s' :=
  ⟨fun h => ⟨_, rfl, h⟩, by rintro ⟨_, rfl, h⟩; exact h⟩

theorem peek {f : Option τ → Rule τ α} {t : Option τ} (hp : s.peek = t)
    (h : Accepts (f t) s s') : Accepts (Rule.peek >>= f) s s' := by
  subst hp
  exact h

theorem ask {question : TokenStream τ → β} {f : β → Rule τ α}
    (h : Accepts (f (question s)) s s') : Accepts (Rule.ask question >>= f) s s' := h

theorem numeral {float int : KindId} : Accepts (Rule.numeral float int) s s.advance := by
  refine ask ?_
  split
  · exact leaf
  · exact leaf

theorem ite_pos {question : TokenStream τ → Bool} (hq : question s = true)
    (h : Accepts r s s') :
    Accepts (Rule.ask question >>= fun answer => if answer = true then r else r') s s' := by
  have heq : (Rule.ask question >>= fun answer => if answer = true then r else r') s = r s := by
    simp [Rule.ask, Bind.bind, StateT.bind, Except.bind, hq]
  unfold Accepts
  rwa [heq]

theorem ite_neg {question : TokenStream τ → Bool} (hq : question s = false)
    (h : Accepts r' s s') :
    Accepts (Rule.ask question >>= fun answer => if answer = true then r else r') s s' := by
  have heq : (Rule.ask question >>= fun answer => if answer = true then r else r') s = r' s := by
    simp [Rule.ask, Bind.bind, StateT.bind, Except.bind, hq]
  unfold Accepts
  rwa [heq]

/-- A rule that fails for want of something accepts nothing. -/
theorem not_fail {expected : String} (he : expected.toList.head? ≠ some 'a') :
    ¬ Accepts (Rule.fail [expected] : Rule τ α) s s' := by
  rintro (⟨a, h⟩ | ⟨e, h, hn⟩)
  · cases h
  · cases h
    rw [SyntaxError.IsNesting, List.singleton_inj] at hn
    exact he (hn ▸ rfl)

theorem eq_advance_of_leaf {kind : KindId} (h : Accepts (Rule.leaf kind) s s') :
    s' = s.advance := by
  rcases h with ⟨a, h⟩ | ⟨e, h, -⟩ <;> cases h
  rfl

end Accepts

/-! ## Repetitions -/

/-- What stands at the end of a row of steps, and wherever a step starts, stands behind each
    step and at the start of the row. -/
theorem exists_followed {R : TokenStream τ → TokenStream τ → Prop} {Q : TokenStream τ → Prop}
    (h : ReflTransGen R s s') (hR : ∀ {a b}, R a b → Q a) (hs' : Q s') :
    ReflTransGen (fun a b => R a b ∧ Q b) s s' ∧ Q s := by
  induction h using ReflTransGen.head_induction_on with
  | refl => exact ⟨.refl, hs'⟩
  | head hab _ ih => exact ⟨.head ⟨hab, ih.2⟩ ih.1, hR hab⟩

/-- Each step of a row may begin with a mark. -/
theorem Pattern.rel_marked [DecidableEq τ] {ν : Type}
    {P : ν → TokenStream τ → TokenStream τ → Prop} {p : Pattern ν τ} {t : τ}
    {R : TokenStream τ → TokenStream τ → Prop} (h : (many (.token t ++ p)).Rel P s s')
    (hR : ∀ {a b}, p.Rel P a b → R a b) :
    ReflTransGen (fun a b => a.peek = some t ∧ R a.advance b) s s' := by
  refine ReflTransGen.mono (fun a b hab => ?_) _ _ h
  obtain ⟨_, ⟨hp, rfl⟩, hb⟩ := hab
  exact ⟨hp, hR hb⟩

namespace Accepts

section iterate

variable {R : TokenStream τ → TokenStream τ → Prop} {sign : TokenStream τ → Option α}
  {round : α → σ → Rule τ σ} (hR : ∀ a b, R a b → b.IsAhead a ∧
    ∃ more, sign a = some more ∧ ∀ x, Accepts (round more x) a b)
include hR

/-- Rounds are accepted one after the other, with the stream as a bound, if the sign for another one
    is gone at last. -/
theorem iterateFrom {measure : List (Lexeme τ)} (hm : s.upcoming.length ≤ measure.length)
    (h : ReflTransGen R s s') (hs' : sign s' = none) (x : σ) :
    Accepts (Rule.iterateFrom sign round measure x) s s' := by
  -- The measure bounds what is left to read, and each round reads something.
  induction measure generalizing s x with
  | nil =>
    rcases h.cases_head with rfl | ⟨b, hab, -⟩
    · exact pure
    · exact absurd (Nat.lt_of_lt_of_le (hR s b hab).1 hm) (Nat.not_lt_zero _)
  | cons l measure ih =>
    rcases h.cases_head with rfl | ⟨b, hab, h⟩
    · exact .inl ⟨x, by simp [Rule.iterateFrom, hs']⟩
    · obtain ⟨hb, more, hmore, hround⟩ := hR s b hab
      rcases hround x with ⟨y, hy⟩ | ⟨e, hy, he⟩
      · have hb : b.upcoming.length ≤ measure.length :=
          Nat.le_of_lt_succ (Nat.lt_of_lt_of_le hb hm)
        have heq : Rule.iterateFrom sign round (l :: measure) x s =
            Rule.iterateFrom sign round measure y b := by simp [Rule.iterateFrom, hmore, hy]
        unfold Accepts
        rw [heq]
        exact ih hb h y
      · exact .inr ⟨e, by simp [Rule.iterateFrom, hmore, hy], he⟩

/-- So they are without a bound, since each round takes a token. -/
theorem iterate (h : ReflTransGen R s s') (hs' : sign s' = none) (x : σ) :
    Accepts (Rule.iterate sign round x) s s' :=
  iterateFrom hR (Nat.le_refl _) h hs' x

end iterate

/-- Where rounds are repeated as long as a condition holds, the condition holds in front of each of
    them and fails behind the last. -/
theorem repeatWhile {R : TokenStream τ → TokenStream τ → Prop}
    {condition : TokenStream τ → Bool} {items : Rule τ (List RawNode)}
    (hR : ∀ a b, R a b → b.IsAhead a ∧ condition a = true ∧ Accepts items a b)
    (h : ReflTransGen R s s') (hs' : condition s' = false) :
    Accepts (Rule.repeatWhile condition items) s s' := by
  refine .bind (iterate (fun a b hab => ?_) h (by simp [hs']) []) fun _ => .pure
  obtain ⟨hahead, hcondition, hitems⟩ := hR a b hab
  exact ⟨hahead, (), if_pos hcondition, fun _ => .bind hitems fun _ => .pure⟩

/-- A repetition in which each item stands behind a mark. -/
theorem repeatWhile_marked {R : TokenStream τ → TokenStream τ → Prop} {kind : KindId}
    {condition : TokenStream τ → Bool} {item : Rule τ RawNode}
    (hR : ∀ a b, R a b → (∃ t, a.peek = some t) ∧ condition a = true ∧ b.IsAhead a.advance ∧
      Accepts item a.advance b)
    (h : ReflTransGen R s s') (hs' : condition s' = false) :
    Accepts (Rule.repeatWhile condition do
      let mark ← Rule.leaf kind
      return [mark, ← item]) s s' := by
  refine repeatWhile (fun a b hab => ?_) h hs'
  obtain ⟨⟨t, hp⟩, hcondition, hahead, hitem⟩ := hR a b hab
  refine ⟨(TokenStream.isAhead_advance hp).trans hahead, hcondition, ?_⟩
  exact .bind .leaf fun _ => .bind hitem fun _ => .pure

end Accepts

/-! ## Rows -/

/-- Things of a kind in a row, with a mark between any two. A flag says what the last one
    leaves open. -/
inductive Row (mark : TokenStream τ → Prop)
    (R : Bool → TokenStream τ → TokenStream τ → Prop) :
    Bool → TokenStream τ → TokenStream τ → Prop
  | first {o : Bool} {s s' : TokenStream τ} : R o s s' → Row mark R o s s'
  | more {o o' : Bool} {s s₁ s' : TokenStream τ} : Row mark R o s s₁ → mark s₁ →
      R o' s₁.advance s' → Row mark R o' s s'

namespace Row

variable {mark : TokenStream τ → Prop} {R : Bool → TokenStream τ → TokenStream τ → Prop}
  {o o' : Bool}

theorem append (h : Row mark R o s s₁) (hm : mark s₁) (h' : Row mark R o' s₁.advance s') :
    Row mark R o' s s' := by
  generalize ha : s₁.advance = a at h'
  induction h' with
  | first h' => exact .more h hm (ha ▸ h')
  | more _ hm' h' ih => exact .more (ih ha) hm' h'

/-- The last one may be put in place of another one. -/
theorem replace_last (h : Row mark R o s s₁) (hlast : ∀ {a}, R o a s₁ → R o' a s') :
    Row mark R o' s s' := by
  cases h with
  | first h => exact .first (hlast h)
  | more h hm h' => exact .more h hm (hlast h')

/-- A row reaches further than it begins, as its steps and its marks do. -/
theorem isAhead (hR : ∀ {o a b}, R o a b → b.IsAhead a)
    (hmark : ∀ {a}, mark a → ∃ t, a.peek = some t) (h : Row mark R o s s') : s'.IsAhead s := by
  induction h with
  | first h => exact hR h
  | more _ hm h ih =>
    obtain ⟨t, hp⟩ := hmark hm
    exact (ih.trans (TokenStream.isAhead_advance hp)).trans (hR h)

/-- The first one of a row, and the rounds that read the rest, where each mark may follow
    what stands in front of it. -/
theorem exists_rounds {F : Bool → TokenStream τ → Prop} (h : Row mark R o s s') (hs' : F o s')
    (hmark : ∀ {o a}, mark a → F o a) :
    ∃ o₁ s₁, R o₁ s s₁ ∧ F o₁ s₁ ∧
      ReflTransGen (fun a b => mark a ∧ ∃ o, R o a.advance b ∧ F o b) s₁ s' := by
  induction h with
  | first h => exact ⟨_, _, h, hs', .refl⟩
  | more _ hm h ih =>
    obtain ⟨o₁, s₁, hfirst, hs₁, hrounds⟩ := ih (hmark hm)
    exact ⟨o₁, s₁, hfirst, hs₁, hrounds.tail ⟨hm, _, h, hs'⟩⟩

end Row

/-! ## Operators -/

/-- An operand with any number of signs in front. -/
inductive Signed (sign? : τ → Option OperatorForm)
    (R : TokenStream τ → TokenStream τ → Prop) : TokenStream τ → TokenStream τ → Prop
  | atom {s s' : TokenStream τ} : R s s' → Signed sign? R s s'
  | signed {s s' : TokenStream τ} {form : OperatorForm} :
      s.peek.bind sign? = some form → Signed sign? R s.advance s' → Signed sign? R s s'

namespace Signed

variable {sign? : τ → Option OperatorForm} {R : TokenStream τ → TokenStream τ → Prop}

/-- An operand begins with a sign or is an atom. -/
theorem start (h : Signed sign? R s s') :
    R s s' ∨ ∃ form, s.peek.bind sign? = some form ∧ Signed sign? R s.advance s' := by
  cases h with
  | atom h => exact .inl h
  | signed hs h => exact .inr ⟨_, hs, h⟩

/-- Signs take tokens, so with them an operand reaches further still. -/
theorem isAhead (hR : ∀ {a b}, R a b → b.IsAhead a) (h : Signed sign? R s s') :
    s'.IsAhead s := by
  induction h with
  | atom h => exact hR h
  | signed hs _ ih =>
    obtain ⟨t, hp, -⟩ := Option.bind_eq_some_iff.1 hs
    exact (TokenStream.isAhead_advance hp).trans ih

/-- The signs do not see where the atom behind them ends. -/
theorem replace_atom (h : Signed sign? R s s₁) (hatom : ∀ {a}, R a s₁ → R a s') :
    Signed sign? R s s' := by
  induction h with
  | atom h => exact .atom (hatom h)
  | signed hs _ ih => exact .signed hs (ih hatom)

end Signed

namespace Accepts

variable {signs : Signs τ} {plain operand : Rule τ RawNode}

/-- Without a sign, what accepts the plain operand suffices. -/
theorem signed_none (hs : s.peek.bind signs.form? = none) (h : Accepts plain s s') :
    Accepts (signs.signed plain operand) s s' := by
  refine .peek rfl ?_
  rw [hs]
  exact h

/-- Behind a sign, an operand is needed again. -/
theorem signed_some {form : OperatorForm} (hs : s.peek.bind signs.form? = some form)
    (h : Accepts operand s.advance s') : Accepts (signs.signed plain operand) s s' := by
  have hsign : Accepts form.node s s.advance := .bind .leaf fun _ => .pure
  refine .peek rfl ?_
  rw [hs]
  exact .bind hsign fun _ => .bind h fun _ => .pure

end Accepts

namespace Operators

variable {ops : Operators τ} {classes tighter : List OperatorClass} {level : OperatorClass}
  {R : TokenStream τ → TokenStream τ → Prop}

/-- The operator that comes next, whatever its class. -/
def upcoming? (ops : Operators τ) (s : TokenStream τ) : Option OperatorForm :=
  s.peek.bind ops.form?

/-- An operator and the operand behind it. -/
def Joined (ops : Operators τ) (R : TokenStream τ → TokenStream τ → Prop)
    (s s' : TokenStream τ) : Prop :=
  (ops.upcoming? s).isSome ∧ R s.advance s'

/-- Operands with operators between. -/
def Compound (ops : Operators τ) (R : TokenStream τ → TokenStream τ → Prop)
    (s s' : TokenStream τ) : Prop :=
  ∃ s₁, R s s₁ ∧ ReflTransGen (ops.Joined R) s₁ s'

/-- An operator of one of some classes, and an operand behind it. -/
def JoinedBy (ops : Operators τ) (R : TokenStream τ → TokenStream τ → Prop)
    (classes : List OperatorClass) (s s' : TokenStream τ) : Prop :=
  ∃ form, ops.upcoming? s = some form ∧ form.level ∈ classes ∧ R s.advance s'

/-- No operator of any of some classes comes next. -/
def Stops (ops : Operators τ) (classes : List OperatorClass) (s : TokenStream τ) : Prop :=
  ∀ form, ops.upcoming? s = some form → form.level ∉ classes

/-- An operator of a class, an operand, and what the tighter classes join to it. -/
def Round (ops : Operators τ) (R : TokenStream τ → TokenStream τ → Prop) (level : OperatorClass)
    (tighter : List OperatorClass) (s s' : TokenStream τ) : Prop :=
  ∃ form s₁, ops.upcoming? s = some form ∧ form.level = level ∧ R s.advance s₁ ∧
    ReflTransGen (ops.JoinedBy R tighter) s₁ s' ∧ ops.Stops tighter s'

/-- A token that is no operator is none for the classes either. -/
theorem upcoming?_eq_none {t : τ} (hp : s.peek = some t) (ht : ops.form? t = none) :
    ops.upcoming? s = none := by
  rw [upcoming?, hp]
  exact ht

/-- An operator that comes next is a token that comes next. -/
theorem isAhead_advance (ho : (ops.upcoming? s).isSome) : s.advance.IsAhead s := by
  obtain ⟨form, hform⟩ := Option.isSome_iff_exists.1 ho
  obtain ⟨t, hp, -⟩ := Option.bind_eq_some_iff.1 hform
  exact TokenStream.isAhead_advance hp

/-- Where no operator comes next, a row of operators with operands is over. -/
theorem eq_of_joined (h : ReflTransGen (ops.Joined R) s s') (hs : ops.upcoming? s = none) :
    s' = s := by
  rcases h.cases_head with rfl | ⟨a, hab, -⟩
  · rfl
  · have ho := hab.1
    rw [hs] at ho
    cases ho

namespace Compound

/-- Two compounds with an operator between are one, whatever the classes of their operators. -/
theorem binary (h : ops.Compound R s s₁) (ho : (ops.upcoming? s₁).isSome)
    (h' : ops.Compound R s₁.advance s') : ops.Compound R s s' := by
  obtain ⟨a, ha, hj⟩ := h
  obtain ⟨b, hb, hj'⟩ := h'
  exact ⟨a, ha, hj.trans (.head ⟨ho, hb⟩ hj')⟩

/-- A sign in front of a compound belongs to the first operand. -/
theorem signed {sign? : τ → Option OperatorForm} {form : OperatorForm}
    (hs : s.peek.bind sign? = some form) (h : ops.Compound (Signed sign? R) s.advance s') :
    ops.Compound (Signed sign? R) s s' := by
  obtain ⟨a, ha, hj⟩ := h
  exact ⟨a, .signed hs ha, hj⟩

/-- One of some tokens in front of operands is a sign if they all can be. -/
theorem of_oneOf [DecidableEq τ] {sign? : τ → Option OperatorForm} {t : τ} {ts : List τ} {ν : Type}
    {P : ν → TokenStream τ → TokenStream τ → Prop} (hts : ∀ u ∈ t :: ts, (sign? u).isSome)
    (hsign : (Pattern.oneOf t ts : Pattern ν τ).Rel P s s₁)
    (h : ops.Compound (Signed sign? R) s₁ s') : ops.Compound (Signed sign? R) s s' := by
  obtain ⟨rfl, u, hu, hp⟩ := Pattern.rel_oneOf hsign
  obtain ⟨form, hform⟩ := Option.isSome_iff_exists.1 (hts u hu)
  exact signed (by rw [hp]; exact hform) h

/-- A compound reaches further than it begins, as its operands do. -/
theorem isAhead (hR : ∀ {a b}, R a b → b.IsAhead a) (h : ops.Compound R s s') :
    s'.IsAhead s := by
  obtain ⟨a, ha, hj⟩ := h
  induction hj with
  | refl => exact hR ha
  | tail _ hab ih => exact (ih.trans (isAhead_advance hab.1)).trans (hR hab.2)

end Compound

theorem next?_eq_some_iff {form : OperatorForm} :
    ops.next? level s = some form ↔ ops.upcoming? s = some form ∧ form.level = level := by
  simp [next?, upcoming?, Option.filter_eq_some_iff]

/-- Joined operands are cut at the operators of the loosest class. -/
theorem exists_rounds (h : ReflTransGen (ops.JoinedBy R (level :: tighter)) s s')
    (hs' : ops.Stops tighter s') :
    ∃ s₁, ReflTransGen (ops.JoinedBy R tighter) s s₁ ∧ ops.Stops tighter s₁ ∧
      ReflTransGen (ops.Round R level tighter) s₁ s' := by
  induction h using ReflTransGen.head_induction_on with
  | refl => exact ⟨s', .refl, hs', .refl⟩
  | @head a b hab _ ih =>
    obtain ⟨form, hform, hlevel, hr⟩ := hab
    obtain ⟨m, hjoins, hstops, hrounds⟩ := ih
    by_cases ht : form.level ∈ tighter
    · exact ⟨m, .head ⟨form, hform, ht, hr⟩ hjoins, hstops, hrounds⟩
    · have hlevel : form.level = level := (List.mem_cons.1 hlevel).resolve_right ht
      refine ⟨a, .refl, fun form' hform' => ?_, .head ?_ hrounds⟩
      · rw [hform, Option.some.injEq] at hform'
        exact hform' ▸ ht
      · exact ⟨form, b, hform, hlevel, hr, hjoins, hstops⟩

end Operators

namespace Accepts

variable {ops : Operators τ} {operand : Rule τ RawNode}
  {R : TokenStream τ → TokenStream τ → Prop}

theorem operator {form : OperatorForm} : Accepts form.node s s.advance :=
  .bind .leaf fun _ => .pure

section extend

variable (hR : ∀ {a b}, R a b → b.IsAhead a ∧ Accepts operand a b)
include hR

/-- What is joined to an operand is read on, if there is anything. -/
theorem isAhead_of_joins {classes : List OperatorClass}
    (h : ReflTransGen (ops.JoinedBy R classes) s s') : s' = s ∨ s'.IsAhead s := by
  induction h with
  | refl => exact .inl rfl
  | @tail a b _ hab ih =>
    obtain ⟨form, hform, -, hr⟩ := hab
    have hb := (Operators.isAhead_advance (Option.isSome_of_eq_some hform)).trans (hR hr).1
    rcases ih with rfl | ih
    · exact .inr hb
    · exact .inr (ih.trans hb)

/-- Operands joined by operators of some classes are accepted, if no operator of these classes is
    left. -/
theorem extendBy {classes : List OperatorClass} (h : ReflTransGen (ops.JoinedBy R classes) s s')
    (hs' : ops.Stops classes s') (left : RawNode) :
    Accepts (ops.extendBy operand classes left) s s' := by
  induction classes generalizing s s' left with
  | nil =>
    rcases h.cases_head with rfl | ⟨b, ⟨form, -, hlevel, -⟩, -⟩
    · exact pure
    · cases hlevel
  | cons level tighter ih =>
    have htighter : ops.Stops tighter s' := fun form hform ht =>
      hs' form hform (List.mem_cons_of_mem _ ht)
    -- What the tighter classes join comes first; each round takes an operator of this class and
    -- what the tighter classes join behind it.
    obtain ⟨s₁, hjoins, hstops, hrounds⟩ := Operators.exists_rounds h htighter
    refine .bind (ih hjoins hstops left) (iterate (fun a b hab => ?_) hrounds ?_)
    · obtain ⟨form, c, hform, hlevel, hr, hjoins, hstops⟩ := hab
      have hc := (Operators.isAhead_advance (Option.isSome_of_eq_some hform)).trans (hR hr).1
      have hb : b.IsAhead a := by
        rcases isAhead_of_joins hR hjoins with rfl | hb
        · exact hc
        · exact hc.trans hb
      refine ⟨hb, form, Operators.next?_eq_some_iff.2 ⟨hform, hlevel⟩, fun left => ?_⟩
      refine .bind operator fun _ => ?_
      refine .bind (hR hr).2 fun right => ?_
      exact .bind (ih hjoins hstops right) fun _ => .pure
    · rw [Option.eq_none_iff_forall_ne_some]
      intro form hform
      obtain ⟨hform, hlevel⟩ := Operators.next?_eq_some_iff.1 hform
      exact hs' form hform (by simp [hlevel])

/-- A row of operators, each with an operand behind it, extends an operand, if no more
    operators follow. -/
theorem extend (h : ReflTransGen (ops.Joined R) s s')
    (hs' : ops.upcoming? s' = none) (left : RawNode) :
    Accepts (ops.extend operand left) s s' := by
  refine extendBy hR (ReflTransGen.mono (fun a b hab => ?_) _ _ h) ?_ left
  · obtain ⟨form, hform⟩ := Option.isSome_iff_exists.1 hab.1
    exact ⟨form, hform, by cases form.level <;> decide, hab.2⟩
  · simp [Operators.Stops, hs']

end extend

end Accepts

end GrammarTools
