import GrammarTools.Proofs.OperatorTree
import GrammarTools.Proofs.Writing

/-!
# Room for nested rules

How many levels a rule needs depends on what it reads. `Needs r k s s'` says that the
rules `r n`, for each number `n` of levels, read what lies between two places if there
are `k` levels, and otherwise fail because rules are nested too deeply. A rule that
gives another one a level less needs a level more (`Needs.succ`); what is read in front
and behind adds nothing if it needs no room (`ReadsIf.bind`, `ReadsIf.behind`).

A grammar limits the nesting of some sources, one for each number, if those up to the
limit have no errors, and each of the others has one error, that of rules nested too
deeply, and one error node (`Grammar.LimitsNesting`).
-/

namespace GrammarTools

variable {τ α β σ : Type} {s s₁ s' : TokenStream τ} {room : Prop}

/-! ## Tokens to come -/

namespace TokenStream

/-- The tokens to come. -/
def toCome (s : TokenStream τ) : List τ := s.upcoming.map Lexeme.token

/-- Looking ahead is looking into the tokens to come. -/
theorem peekNth_eq (s : TokenStream τ) (n : Nat) : s.peekNth n = s.toCome[n]? :=
  List.getElem?_map.symm

theorem peek_eq_head? (s : TokenStream τ) : s.peek = s.toCome.head? := by
  rw [peek, peekNth_eq, List.head?_eq_getElem?]

variable {t : τ} {rest : List τ}

theorem peek_of_toCome (h : s.toCome = t :: rest) : s.peek = some t := by
  rw [peek_eq_head?, h]
  rfl

theorem toCome_advance (h : s.toCome = t :: rest) : s.advance.toCome = rest := by
  obtain ⟨l, ls, hu, -, ha⟩ := exists_upcoming (peek_of_toCome h)
  rw [toCome, hu, List.map_cons] at h
  rw [ha]
  exact (List.cons_eq_cons.1 h).2

theorem atEnd_of_toCome (h : s.toCome = []) : s.atEnd = true := by
  rw [atEnd, List.isEmpty_iff]
  exact List.map_eq_nil_iff.1 h

end TokenStream

/-- Where no operator comes next, an operand is not extended. -/
theorem Operators.extend_none {ops : Operators τ} (operand : Rule τ RawNode) (left : RawNode)
    (h : ops.upcoming? s = none) : ops.extend operand left s = .ok (left, s) := by
  have hnext : ∀ level, ops.next? level s = none := fun level =>
    Option.eq_none_iff_forall_ne_some.2 fun form hform => by
      rw [(Operators.next?_eq_some_iff.1 hform).1] at h
      cases h
  rw [extend]
  generalize OperatorClass.all = classes
  induction classes generalizing left with
  | nil => rfl
  | cons level tighter ih =>
    exact (Rule.bind_of_ok (ih left)).trans (Rule.iterate_of_rounds .refl (hnext level))

/-! ## Rules with enough room -/

/-- A rule reads what lies between two places if it has room, and otherwise rules are nested too
    deeply. -/
structure ReadsIf (room : Prop) (r : Rule τ α) (s s' : TokenStream τ) : Prop where
  reads : room → ∃ a, r s = .ok (a, s')
  fails : ¬ room → ∃ e, r s = .error e ∧ e.IsNesting

namespace ReadsIf

variable {r r' : Rule τ α}

theorem of_ok {a : α} (h : r s = .ok (a, s')) : ReadsIf True r s s' :=
  ⟨fun _ => ⟨a, h⟩, fun h => absurd trivial h⟩

/-- How much room is enough may be said in another way. -/
theorem congr {room' : Prop} (h : ReadsIf room r s s') (hiff : room ↔ room') :
    ReadsIf room' r s s' :=
  ⟨fun h' => h.reads (hiff.2 h'), fun h' => h.fails fun hroom => h' (hiff.1 hroom)⟩

/-- A rule that needs room, and one behind it that needs none. -/
theorem bind {f : α → Rule τ β} (h : ReadsIf room r s s₁) (hf : ∀ a, ReadsIf True (f a) s₁ s') :
    ReadsIf room (r >>= f) s s' := by
  refine ⟨fun hroom => ?_, fun hroom => ?_⟩
  · obtain ⟨a, ha⟩ := h.reads hroom
    obtain ⟨b, hb⟩ := (hf a).reads trivial
    exact ⟨b, (Rule.bind_of_ok ha).trans hb⟩
  · obtain ⟨e, he, hn⟩ := h.fails hroom
    exact ⟨e, Rule.bind_of_error he, hn⟩

/-- A rule that needs no room, and one behind it that needs room. -/
theorem behind {f : α → Rule τ β} (h : ReadsIf True r s s₁)
    (hf : ∀ a, ReadsIf room (f a) s₁ s') : ReadsIf room (r >>= f) s s' := by
  obtain ⟨a, ha⟩ := h.reads trivial
  refine ⟨fun hroom => ?_, fun hroom => ?_⟩
  · obtain ⟨b, hb⟩ := (hf a).reads hroom
    exact ⟨b, (Rule.bind_of_ok ha).trans hb⟩
  · obtain ⟨e, he, hn⟩ := (hf a).fails hroom
    exact ⟨e, (Rule.bind_of_ok ha).trans he, hn⟩

theorem pure {a : α} : ReadsIf True (Pure.pure a : Rule τ α) s s := of_ok rfl

theorem leaf {kind : KindId} : ReadsIf True (Rule.leaf kind) s s.advance := of_ok rfl

theorem operator {form : OperatorForm} : ReadsIf True form.node s s.advance :=
  leaf.bind fun _ => pure

theorem expect [DecidableEq τ] {t : τ} {kind : KindId} {description : String}
    (hp : s.peek = some t) : ReadsIf True (Rule.expect t kind description) s s.advance :=
  of_ok (Rule.expect_eq_ok.2 ⟨hp, rfl, rfl⟩)

/-- A rule that looks at the next token needs as much room as the branch for it. -/
theorem peek {f : Option τ → Rule τ α} {t : Option τ} (hp : s.peek = t)
    (h : ReadsIf room (f t) s s') : ReadsIf room (Rule.peek >>= f) s s' := by
  subst hp
  exact ⟨h.reads, h.fails⟩

/-- A rule that asks needs as much room as the branch for the answer. -/
theorem ask {question : TokenStream τ → β} {f : β → Rule τ α} {answer : β}
    (hq : question s = answer) (h : ReadsIf room (f answer) s s') :
    ReadsIf room (Rule.ask question >>= f) s s' := by
  subst hq
  exact ⟨h.reads, h.fails⟩

theorem iterate_none {sign : TokenStream τ → Option β} {round : β → σ → Rule τ σ} {x : σ}
    (h : sign s = none) : ReadsIf True (Rule.iterate sign round x) s s :=
  of_ok (Rule.iterate_of_rounds .refl h)

section repeatWhile

variable {condition : TokenStream τ → Bool} {items : Rule τ (List RawNode)}

theorem repeatWhile_none (h : condition s = false) :
    ReadsIf True (Rule.repeatWhile condition items) s s :=
  (iterate_none (by simp [h])).bind fun _ => pure

/-- A repetition of one round. -/
theorem repeatWhile_once {t : τ} (hp : s.peek = some t) (hs : condition s = true)
    (h : ReadsIf room items s s') (hs' : condition s' = false) :
    ReadsIf room (Rule.repeatWhile condition items) s s' := by
  obtain ⟨l, rest, hu, -, -⟩ := TokenStream.exists_upcoming hp
  have hround : ReadsIf room (do return (← items).reverse ++ []) s s' := h.bind fun _ => pure
  refine bind (r := Rule.iterate _ _ []) ⟨fun hroom => ?_, fun hroom => ?_⟩ fun _ => pure
  · obtain ⟨found, hfound⟩ := hround.reads hroom
    refine ⟨found, ?_⟩
    rw [Rule.iterate, hu, Rule.iterateFrom, if_pos hs]
    dsimp only
    rw [hfound]
    cases rest <;> simp [Rule.iterateFrom, hs']
  · obtain ⟨e, he, hn⟩ := hround.fails hroom
    refine ⟨e, ?_, hn⟩
    rw [Rule.iterate, hu, Rule.iterateFrom, if_pos hs]
    dsimp only
    rw [he]

end repeatWhile

theorem extend_none {ops : Operators τ} (operand : Rule τ RawNode) (left : RawNode)
    (h : ops.upcoming? s = none) : ReadsIf True (ops.extend operand left) s s :=
  of_ok (Operators.extend_none operand left h)

theorem numeral {float int : KindId} : ReadsIf True (Rule.numeral float int) s s.advance := by
  refine ask rfl ?_
  split
  · exact leaf
  · exact leaf

/-- An operand that no operator follows. -/
theorem expression {ops : Operators τ} {operand : Rule τ RawNode} (h : ReadsIf room operand s s')
    (hs' : ops.upcoming? s' = none) : ReadsIf room (ops.expression operand) s s' :=
  h.bind fun left => extend_none operand left hs'

section signed

variable {signs : Signs τ} {plain operand : Rule τ RawNode}

/-- Without a sign, an operand needs the room of the plain one. -/
theorem signed_none (hs : s.peek.bind signs.form? = none) (h : ReadsIf room plain s s') :
    ReadsIf room (signs.signed plain operand) s s' := by
  refine peek rfl ?_
  rw [hs]
  exact h

/-- Behind a sign, an operand needs the room of the next one. -/
theorem signed_some {form : OperatorForm} (hs : s.peek.bind signs.form? = some form)
    (h : ReadsIf room operand s.advance s') : ReadsIf room (signs.signed plain operand) s s' := by
  refine peek rfl ?_
  rw [hs]
  exact behind operator fun _ => h.bind fun _ => pure

end signed

end ReadsIf

/-! ## Levels -/

/-- The number of levels that it takes to read what lies between two places. -/
def Needs (r : Nat → Rule τ α) (k : Nat) (s s' : TokenStream τ) : Prop :=
  ∀ n, ReadsIf (k ≤ n) (r n) s s'

/-- A rule that is nested too deeply without a level, and has a level less inside. -/
theorem Needs.succ {r : Nat → Rule τ α} {k : Nat} (hzero : r 0 = Rule.tooDeep)
    (h : ∀ n, ReadsIf (k ≤ n) (r (n + 1)) s s') : Needs r (k + 1) s s' := by
  intro n
  cases n with
  | zero =>
    rw [hzero]
    exact ⟨fun h => absurd h (Nat.not_succ_le_zero k), fun _ => ⟨_, rfl, rfl⟩⟩
  | succ n => exact (h n).congr Nat.succ_le_succ_iff.symm

/-- A rule that needs no room, save that it is nested too deeply without a level. -/
theorem Needs.one {r : Nat → Rule τ α} (hzero : r 0 = Rule.tooDeep)
    (h : ∀ n, ReadsIf True (r (n + 1)) s s') : Needs r 1 s s' :=
  .succ (k := 0) hzero fun n => (h n).congr (iff_of_true trivial (Nat.zero_le n))

/-- An operand with signs needs a level more than without them for each sign. -/
theorem Needs.signs {deeper : Nested τ → Nested τ} {signs : Signs τ}
    {plain : Nested τ → Rule τ RawNode} {sign : τ} {form : OperatorForm} {rest : List τ}
    {k : Nat} (front : List τ)
    (hunary : ∀ below, (deeper below).unary = signs.signed (plain below) below.unary)
    (hsign : signs.form? sign = some form)
    (hoperand : ∀ {s : TokenStream τ}, s.toCome = front ++ rest →
      ∃ s', s'.toCome = rest ∧ Needs (fun n => (Nested.level deeper n).unary) k s s')
    (n : Nat) (h : s.toCome = List.replicate n sign ++ (front ++ rest)) :
    ∃ s', s'.toCome = rest ∧ Needs (fun n => (Nested.level deeper n).unary) (k + n) s s' := by
  induction n generalizing s with
  | zero => exact hoperand h
  | succ n ih =>
    obtain ⟨s', hs', hneeds⟩ := ih (TokenStream.toCome_advance h)
    have hform : s.peek.bind signs.form? = some form := by
      rw [TokenStream.peek_of_toCome h]
      exact hsign
    refine ⟨s', hs', .succ rfl fun n => ?_⟩
    show ReadsIf _ (deeper (Nested.level deeper n)).unary s s'
    rw [hunary]
    exact .signed_some hform (hneeds n)

/-! ## Limits -/

namespace Grammar

variable (g : Grammar τ) {source : Nat → String} {terminator : KindId} {limit : Nat}

/-- Sources, one for each number, of which those up to a limit have no errors. Each of the others
    has the error of rules nested too deeply and no other one, and its root has an error node and
    no other child but for terminators. -/
structure LimitsNesting (terminator : KindId) (source : Nat → String) (limit : Nat) : Prop where
  accepts_iff : ∀ n, (g.parse (source n)).errors = [] ↔ n ≤ limit
  broken : ∀ n, limit < n → ∃ e node, (g.parse (source n)).errors = [e] ∧ e.IsNesting ∧
    node.isError = true ∧ (g.parse (source n)).root.children.filter (·.kind != terminator) = [node]

/-- A source of one statement that is read if there is room for it, and is skipped as a whole if
    there is not. -/
structure IsLimited (terminator : KindId) (source : String) (room : Prop) : Prop where
  comments : (g.lexicon.lex source).comments = []
  reads : ∃ s', s'.atEnd = true ∧ ReadsIf room g.statement
    (.ofLexemes (g.lexicon.lex source).lexemes (Text.byteLength source.toList)) s'
  recovers : ∃ span more s', s'.atEnd = true ∧ (∀ n ∈ more, n.kind = terminator) ∧
    g.recover (.ofLexemes (g.lexicon.lex source).lexemes (Text.byteLength source.toList)) =
      (.error span [] :: more, s')
  ne_nil : (g.lexicon.lex source).lexemes ≠ []

variable {g}

/-- The family of sources is limited at one depth, if each of its sources has its error exactly
    beyond that depth. -/
theorem LimitsNesting.of_isLimited (hterminator : terminator ≠ .error)
    (h : ∀ n, g.IsLimited terminator (source n) (n ≤ limit)) :
    g.LimitsNesting terminator source limit := by
  have hlex : ∀ n, g.lexicon.lex (source n) = ⟨(g.lexicon.lex (source n)).lexemes, []⟩ := fun n =>
    (h n).comments ▸ rfl
  have hstart : ∀ n, (TokenStream.ofLexemes (g.lexicon.lex (source n)).lexemes
      (Text.byteLength (source n).toList)).atEnd = false := fun n =>
    List.isEmpty_eq_false_iff.2 (h n).ne_nil
  have hbroken : ∀ n, limit < n → ∃ e node, (g.parse (source n)).errors = [e] ∧ e.IsNesting ∧
      node.isError = true ∧
        (g.parse (source n)).root.children.filter (·.kind != terminator) = [node] := by
    intro n hn
    obtain ⟨s', -, hreads⟩ := (h n).reads
    obtain ⟨e, he, hnesting⟩ := hreads.fails (Nat.not_le.2 hn)
    -- What is skipped goes up to the end, so there is no statement with another error behind it.
    obtain ⟨span, more, t, hend, hmore, hrecover⟩ := (h n).recovers
    have hparse := parse_of_statements (hlex n) (statements_of_error (hstart n) he hrecover hend)
    have hnone : more.filter (·.kind != terminator) = [] :=
      List.filter_eq_nil_iff.2 fun node hnode => by simp [hmore node hnode]
    have hfilter : (RawNode.error span [] :: more).filter (·.kind != terminator) =
        [.error span []] := by
      have hkind : (KindId.error != terminator) = true := bne_iff_ne.2 hterminator.symm
      simp [RawNode.error, RawNode.branchAt, hkind, hnone]
    refine ⟨e, .error span [], ?_, hnesting, rfl, ?_⟩
    · rw [hparse, ParseOutput.ofRoot, List.mergeSort_singleton]
    · rw [hparse]
      exact hfilter
  refine ⟨fun n => ⟨fun herrors => ?_, fun hn => ?_⟩, hbroken⟩
  · by_contra hn
    obtain ⟨e, -, he, -⟩ := hbroken n (Nat.not_le.1 hn)
    rw [herrors] at he
    cases he
  · obtain ⟨s', hend, hreads⟩ := (h n).reads
    obtain ⟨nodes, hok⟩ := hreads.reads hn
    rw [parse_of_statements (hlex n) (statements_of_ok (hstart n) hok hend)]
    simp [ParseOutput.ofRoot]

end Grammar

end GrammarTools
