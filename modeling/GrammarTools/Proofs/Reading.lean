import GrammarTools.Operators
import GrammarTools.Proofs.Derivation

/-!
# What rules read

A rule that succeeds has moved from one place of the stream to another, and has
built nodes for the tokens in between. `Builds` says how well: the nodes
*spell* the tokens, so that each token shows as exactly one leaf and every
other node encloses the nodes below it (`Spells`), and the tokens are derived
from a pattern (`Between`).

A rule is opened by the inversion lemmas of its parts (`Rule.bind_eq_ok` and
its like). Repetitions keep what each of their rounds keeps
(`Rule.iterate_ok`), so they build rows of what a round builds
(`Builds.repeatWhile`), and operators build operands of what they join
(`Operators.extend_ok`).
-/

namespace GrammarTools

variable {τ : Type} {α β σ : Type} {s s₁ s' : TokenStream τ}

/-! ## Successful rules -/

namespace Rule

/-- What is read in two steps is read up to a place between them. -/
theorem bind_eq_ok {r : Rule τ α} {f : α → Rule τ β} {b : β} :
    (r >>= f) s = .ok (b, s') ↔ ∃ a s₁, r s = .ok (a, s₁) ∧ f a s₁ = .ok (b, s') := by
  constructor
  · intro h
    cases hr : r s with
    | error e => simp [bind, StateT.bind, Except.bind, hr] at h
    | ok x => exact ⟨x.1, x.2, rfl, by simpa [bind, StateT.bind, Except.bind, hr] using h⟩
  · rintro ⟨a, s₁, hr, hf⟩
    simpa [bind, StateT.bind, Except.bind, hr] using hf

theorem pure_eq_ok {a b : α} : (pure a : Rule τ α) s = .ok (b, s') ↔ a = b ∧ s = s' := by
  show Except.ok (a, s) = .ok (b, s') ↔ a = b ∧ s = s'
  rw [Except.ok.injEq, Prod.mk.injEq]

theorem leaf_eq_ok {kind : KindId} {node : RawNode} :
    leaf kind s = .ok (node, s') ↔ .leaf kind s.span = node ∧ s.advance = s' := by
  simp [leaf]

theorem ask_bind {question : TokenStream τ → β} {f : β → Rule τ α} :
    (ask question >>= f) s = f (question s) s := rfl

theorem peek_bind {f : Option τ → Rule τ α} : (peek >>= f) s = f s.peek s := rfl

/-- A rule that looks ahead goes on by what it sees. -/
theorem peek_bind_eq_ok {f : Option τ → Rule τ α} {a : α} :
    (peek >>= f) s = .ok (a, s') ↔ ∃ r, f s.peek = r ∧ r s = .ok (a, s') :=
  ⟨fun h => ⟨_, rfl, h⟩, by rintro ⟨_, rfl, h⟩; exact h⟩

/-- The two ways in which a rule that asks a question succeeds. -/
theorem ite_eq_ok {question : TokenStream τ → Bool} {r r' : Rule τ α} {a : α} :
    (ask question >>= fun answer => if answer = true then r else r') s = .ok (a, s') ↔
      (question s = true ∧ r s = .ok (a, s')) ∨ (question s = false ∧ r' s = .ok (a, s')) := by
  rw [ask_bind]
  cases question s <;> simp

/-- What is expected was there, if it was read. -/
theorem expect_eq_ok [DecidableEq τ] {t : τ} {kind : KindId} {description : String}
    {node : RawNode} : expect t kind description s = .ok (node, s') ↔
      s.peek = some t ∧ .leaf kind s.span = node ∧ s.advance = s' := by
  unfold expect TokenStream.isAt
  split
  · simp_all [leaf]
  · simp_all [fail]

/-- A repetition keeps what each round keeps. -/
theorem iterateFrom_ok {sign : TokenStream τ → Option α} {round : α → σ → Rule τ σ}
    {I : σ → TokenStream τ → Prop}
    (hI : ∀ more x s x' s', sign s = some more → I x s → round more x s = .ok (x', s') → I x' s')
    {measure : List (Lexeme τ)} {x x' : σ} (hx : I x s)
    (h : iterateFrom sign round measure x s = .ok (x', s')) : I x' s' := by
  induction measure generalizing x s with
  | nil =>
    cases h
    exact hx
  | cons l measure ih =>
    unfold iterateFrom at h
    split at h
    · cases h
      exact hx
    · split at h
      · cases h
      · exact ih (hI _ _ _ _ _ ‹_› hx ‹_›) h

/-- The first round of a repetition that has one. -/
theorem exists_round_of_iterate_ok {sign : TokenStream τ → Option α} {round : α → σ → Rule τ σ}
    {t : τ} {more : α} {x x' : σ} (hp : s.peek = some t) (hs : sign s = some more)
    (h : iterate sign round x s = .ok (x', s')) : ∃ measure x₁ s₁,
      round more x s = .ok (x₁, s₁) ∧ iterateFrom sign round measure x₁ s₁ = .ok (x', s') := by
  obtain ⟨l, rest, hu, -, -⟩ := TokenStream.exists_upcoming hp
  unfold iterate at h
  rw [hu, iterateFrom, hs] at h
  cases hr : round more x s with
  | error e => simp [hr] at h
  | ok y => exact ⟨rest, y.1, y.2, rfl, by simpa [hr] using h⟩

/-- What every round preserves holds after all of them. -/
theorem iterate_ok {sign : TokenStream τ → Option α} {round : α → σ → Rule τ σ}
    {I : σ → TokenStream τ → Prop}
    (hI : ∀ more x s x' s', sign s = some more → I x s → round more x s = .ok (x', s') → I x' s')
    {x x' : σ} (hx : I x s) (h : iterate sign round x s = .ok (x', s')) : I x' s' :=
  iterateFrom_ok hI hx h

/-- What each round keeps of a place, a repetition keeps. -/
theorem repeatWhile_ok {condition : TokenStream τ → Bool} {items : Rule τ (List RawNode)}
    {I : TokenStream τ → Prop} {nodes : List RawNode}
    (hI : ∀ {nodes s s'}, condition s = true → I s → items s = .ok (nodes, s') → I s') (hs : I s)
    (h : repeatWhile condition items s = .ok (nodes, s')) : I s' := by
  obtain ⟨found, s₁, hf, h⟩ := bind_eq_ok.1 h
  obtain ⟨rfl, rfl⟩ := pure_eq_ok.1 h
  refine iterate_ok (I := fun _ => I) (fun more x s x' s' hc hx hround => ?_) hs hf
  obtain ⟨nodes, s₃, hitem, hround⟩ := bind_eq_ok.1 hround
  obtain ⟨rfl, rfl⟩ := pure_eq_ok.1 hround
  exact hI (by simpa using hc) hx hitem

end Rule

/-! ## Spelled tokens -/

/-- Whether a kind is neither that of errors nor that of comments. -/
def KindId.isPlain (kind comment : KindId) : Bool := kind != .error && kind != comment

theorem KindId.ne_error_of_isPlain {kind comment : KindId} (h : kind.isPlain comment) :
    kind ≠ .error := by
  rw [isPlain, Bool.and_eq_true] at h
  exact bne_iff_ne.1 h.1

theorem KindId.ne_comment_of_isPlain {kind comment : KindId} (h : kind.isPlain comment) :
    kind ≠ comment := by
  rw [isPlain, Bool.and_eq_true] at h
  exact bne_iff_ne.1 h.2

/-- An operator shows by nodes that stand neither for errors nor for comments. -/
def OperatorForm.IsPlain (comment : KindId) (form : OperatorForm) : Prop :=
  form.kind.isPlain comment ∧ ∀ group ∈ form.group, group.isPlain comment

instance (comment : KindId) (form : OperatorForm) : Decidable (form.IsPlain comment) :=
  inferInstanceAs (Decidable (_ ∧ _))

/-- Nodes that stand for the tokens between two places: a leaf for each token, and inner
    nodes from their first child to their last. -/
inductive Spells (comment : KindId) : List RawNode → TokenStream τ → TokenStream τ → Prop
  | nil {s : TokenStream τ} : Spells comment [] s s
  | leaf {s s' : TokenStream τ} {t : τ} {kind : KindId} {field : Option FieldId}
      {nodes : List RawNode} : s.peek = some t → kind.isPlain comment →
        Spells comment nodes s.advance s' → Spells comment (⟨kind, field, s.span, []⟩ :: nodes) s s'
  | branch {s s₁ s' : TokenStream τ} {kind : KindId} {field : Option FieldId}
      {children nodes : List RawNode} : children ≠ [] → kind.isPlain comment →
        Spells comment children s s₁ → Spells comment nodes s₁ s' →
        Spells comment (⟨kind, field, RawNode.spanOf children, children⟩ :: nodes) s s'

namespace Spells

variable {comment : KindId} {nodes more : List RawNode} {node : RawNode}

/-- What is spelled in two parts is spelled as a whole. -/
theorem append (h : Spells comment nodes s s₁) (h' : Spells comment more s₁ s') :
    Spells comment (nodes ++ more) s s' := by
  induction h with
  | nil => exact h'
  | leaf hp hk _ ih => exact .leaf hp hk (ih h')
  | branch hc hk h₁ _ _ ih => exact .branch hc hk h₁ (ih h')

/-- Fields are not spelled, so a node may get one. -/
theorem withField {field : FieldId} (h : Spells comment (node :: nodes) s s') :
    Spells comment (node.withField field :: nodes) s s' := by
  cases h with
  | leaf hp hk h => exact .leaf hp hk h
  | branch hc hk h₁ h => exact .branch hc hk h₁ h

theorem map_withField {field : FieldId} (h : Spells comment nodes s s') :
    Spells comment (nodes.map (·.withField field)) s s' := by
  induction h with
  | nil => exact .nil
  | leaf hp hk _ ih => exact .leaf hp hk ih
  | branch hc hk h₁ _ _ ih => exact .branch hc hk h₁ ih

end Spells

/-- Nodes that spell the tokens between two places, which are derived from a pattern. -/
structure Builds {ν : Type} (comment : KindId) (g : Productions ν τ) (p : Pattern ν τ)
    (nodes : List RawNode) (s s' : TokenStream τ) : Prop where
  spells : Spells comment nodes s s'
  between : Between g p s s'

namespace Builds

variable {ν : Type} {comment : KindId} {g : Productions ν τ} {p q : Pattern ν τ}
  {nodes more : List RawNode} {node : RawNode}

theorem seq (h : Builds comment g p nodes s s₁) (h' : Builds comment g q more s₁ s') :
    Builds comment g (p ++ q) (nodes ++ more) s s' :=
  ⟨h.1.append h'.1, h.2.seq h'.2⟩

theorem left (h : Builds comment g p nodes s s') : Builds comment g (p ||| q) nodes s s' :=
  ⟨h.1, h.2.left⟩

theorem right (h : Builds comment g q nodes s s') : Builds comment g (p ||| q) nodes s s' :=
  ⟨h.1, h.2.right⟩

/-- A choice among many patterns builds what any of them does. -/
theorem anyOf {ps : List (Pattern ν τ)} (h : Builds comment g q nodes s s')
    (hq : q ∈ p :: ps) : Builds comment g (.anyOf p ps) nodes s s' :=
  ⟨h.1, h.2.anyOf hq⟩

theorem none : Builds comment g (.opt p) [] s s := ⟨.nil, .none⟩

theorem some (h : Builds comment g p nodes s s') : Builds comment g (.opt p) nodes s s' :=
  ⟨h.1, h.2.some⟩

theorem withField {field : FieldId} (h : Builds comment g p [node] s s') :
    Builds comment g p [node.withField field] s s' :=
  ⟨h.1.withField, h.2⟩

theorem of_eq (h : Builds comment g p nodes s s') (he : nodes = more) :
    Builds comment g p more s s' := he ▸ h

/-- Nodes put under a node of their own. -/
theorem branch {kind : KindId} (h : Builds comment g p nodes s s')
    (hk : kind.isPlain comment) (hn : nodes ≠ []) :
    Builds comment g p [.branch kind nodes] s s' :=
  ⟨.branch hn hk h.1 .nil, h.2⟩

theorem rule {n : ν} (h : Builds comment g (g n) nodes s s') :
    Builds comment g (.rule n) nodes s s' :=
  ⟨h.1, h.2.rule⟩

/-- A leaf builds its token, if its kind is neither an error nor a comment. -/
theorem leaf {t : τ} {kind : KindId} (h : Rule.leaf kind s = .ok (node, s'))
    (hp : s.peek = .some t) (hk : kind.isPlain comment) :
    Builds comment g (.token t) [node] s s' := by
  obtain ⟨rfl, rfl⟩ := Rule.leaf_eq_ok.1 h
  exact ⟨.leaf hp hk .nil, .token hp⟩

/-- A leaf builds a choice among tokens, if the next one is among them. -/
theorem oneOf {t u : τ} {ts : List τ} {kind : KindId} (h : Rule.leaf kind s = .ok (node, s'))
    (hp : s.peek = .some t) (ht : t ∈ u :: ts) (hk : kind.isPlain comment) :
    Builds comment g (.oneOf u ts) [node] s s' := by
  obtain ⟨rfl, rfl⟩ := Rule.leaf_eq_ok.1 h
  exact ⟨.leaf hp hk .nil, .oneOf hp ht⟩

theorem expect [DecidableEq τ] {t : τ} {kind : KindId} {description : String}
    (h : Rule.expect t kind description s = .ok (node, s'))
    (hk : kind.isPlain comment) : Builds comment g (.token t) [node] s s' := by
  obtain ⟨hp, h⟩ := Rule.expect_eq_ok.1 h
  exact leaf (Rule.leaf_eq_ok.2 h) hp hk

/-- Solid patterns build at least one node. -/
theorem ne_nil (h : Builds comment g p nodes s s') (hg : ∀ n, (g n).isSolid) (hp : p.isSolid) :
    nodes ≠ [] := by
  rintro rfl
  have ha := h.between.isAhead hg hp
  cases h.spells
  exact Nat.lt_irrefl _ ha

/-- A rule with one node, where a row of nodes is asked for. -/
theorem each {item : Rule τ RawNode}
    (hitem : ∀ {node}, item s = .ok (node, s') → Builds comment g p [node] s s')
    (h : (do return [← item] : Rule τ (List RawNode)) s = .ok (nodes, s')) :
    Builds comment g p nodes s s' := by
  obtain ⟨node, s₁, hnode, h⟩ := Rule.bind_eq_ok.1 h
  obtain ⟨rfl, rfl⟩ := Rule.pure_eq_ok.1 h
  exact hitem hnode

section repeatWhile

variable {condition : TokenStream τ → Bool} {items : Rule τ (List RawNode)}
  (hitems : ∀ {nodes s s'}, condition s = true → items s = .ok (nodes, s') →
    Builds comment g p nodes s s')
include hitems

/-- What the rounds of a repetition add to what has been built. -/
theorem iterateFrom {measure : List (Lexeme τ)} {found found' : List RawNode}
    (h : Rule.iterateFrom (fun s => if condition s then Option.some () else Option.none)
      (fun _ found => do return (← items).reverse ++ found) measure found s = .ok (found', s')) :
    ∃ nodes, found' = nodes.reverse ++ found ∧ Builds comment g (.many p) nodes s s' := by
  refine Rule.iterateFrom_ok
    (I := fun found' s' => ∃ nodes, found' = nodes.reverse ++ found ∧
      Builds comment g (.many p) nodes s s')
    (fun more x s₁ x' s₂ hc hI hround => ?_) ⟨[], rfl, .nil, .nil⟩ h
  obtain ⟨nodes, rfl, hn⟩ := hI
  obtain ⟨nodes', s₃, hitem, hround⟩ := Rule.bind_eq_ok.1 hround
  obtain ⟨rfl, rfl⟩ := Rule.pure_eq_ok.1 hround
  have hn' := hitems (by simpa using hc) hitem
  exact ⟨nodes ++ nodes', by simp, hn.1.append hn'.1, hn.2.snoc hn'.2⟩

/-- What is read round by round is built as a repetition. -/
theorem repeatWhile (h : Rule.repeatWhile condition items s = .ok (nodes, s')) :
    Builds comment g (.many p) nodes s s' := by
  obtain ⟨found, s₁, hf, h⟩ := Rule.bind_eq_ok.1 h
  obtain ⟨rfl, rfl⟩ := Rule.pure_eq_ok.1 h
  obtain ⟨nodes, rfl, hn⟩ := iterateFrom hitems hf
  simpa using hn

/-- A repetition with a first round. -/
theorem repeatWhile_plus {t : τ} (hp : s.peek = .some t) (hc : condition s = true)
    (h : Rule.repeatWhile condition items s = .ok (nodes, s')) :
    Builds comment g (.plus p) nodes s s' := by
  obtain ⟨found, s₁, hf, h⟩ := Rule.bind_eq_ok.1 h
  obtain ⟨rfl, rfl⟩ := Rule.pure_eq_ok.1 h
  obtain ⟨measure, x, s₂, hround, hf⟩ := Rule.exists_round_of_iterate_ok hp (if_pos hc) hf
  obtain ⟨nodes, s₃, hitem, hround⟩ := Rule.bind_eq_ok.1 hround
  obtain ⟨rfl, rfl⟩ := Rule.pure_eq_ok.1 hround
  obtain ⟨nodes', rfl, hn⟩ := iterateFrom hitems hf
  exact ((hitems hc hitem).seq hn).of_eq (by simp)

end repeatWhile

/-- A number builds its token, with or without a fraction. -/
theorem numeral {float int : KindId} {t : τ} (h : Rule.numeral float int s = .ok (node, s'))
    (hp : s.peek = .some t) (hfloat : float.isPlain comment) (hint : int.isPlain comment) :
    Builds comment g (.token t) [node] s s' := by
  rw [Rule.numeral, Rule.ask_bind] at h
  split at h
  · exact leaf h hp hfloat
  · exact leaf h hp hint

/-- The node of a rule, which is never empty. -/
theorem ofRule {n : ν} {kind : KindId} (hg : ∀ n, (g n).isSolid)
    (h : Builds comment g (g n) nodes s s') (hk : kind.isPlain comment) :
    Builds comment g (.rule n) [.branch kind nodes] s s' := by
  have hne : nodes ≠ [] := h.ne_nil hg (hg n)
  exact (h.branch hk hne).rule

/-- The node of an operator, with or without a group around it. -/
theorem operator {form : OperatorForm} {t : τ} (h : form.node s = .ok (node, s'))
    (hp : s.peek = .some t) (hf : form.IsPlain comment) :
    Builds comment g (.token t) [node] s s' := by
  obtain ⟨token, s₁, hl, h⟩ := Rule.bind_eq_ok.1 h
  obtain ⟨rfl, rfl⟩ := Rule.pure_eq_ok.1 h
  have ht : Builds comment g (.token t) [token] s s₁ := leaf hl hp hf.1
  cases hg : form.group with
  | none => exact ht
  | some group => exact ht.branch (hf.2 group hg) (by simp)

/-- The node of an operator that is one of some tokens. -/
theorem operator_oneOf {form : OperatorForm} {t u : τ} {ts : List τ}
    (h : form.node s = .ok (node, s')) (hp : s.peek = .some t) (hf : form.IsPlain comment)
    (ht : t ∈ u :: ts) : Builds comment g (.oneOf u ts) [node] s s' := by
  have hn : Builds comment g (.token t) [node] s s' := .operator h hp hf
  obtain ⟨_, _, hl, h⟩ := Rule.bind_eq_ok.1 h
  obtain ⟨rfl, rfl⟩ := Rule.leaf_eq_ok.1 hl
  obtain ⟨-, rfl⟩ := Rule.pure_eq_ok.1 h
  exact ⟨hn.spells, .oneOf hp ht⟩

/-- An operand that has a sign in front or not, where the signs are some tokens. -/
theorem signed {signs : Signs τ} {plain operand : Rule τ RawNode} {u : τ} {ts : List τ}
    (hform : ∀ t, ∀ form ∈ signs.form? t, form.IsPlain comment ∧ t ∈ u :: ts)
    (hplain : plain s = .ok (node, s') → Builds comment g p [node] s s')
    (hoperand : ∀ {node s s'}, operand s = .ok (node, s') → Builds comment g q [node] s s')
    (hunary : ∀ {nodes}, Builds comment g (.oneOf u ts ++ q) nodes s s' →
      Builds comment g p [.branch signs.unary nodes] s s')
    (h : signs.signed plain operand s = .ok (node, s')) : Builds comment g p [node] s s' := by
  obtain ⟨r, hr, h⟩ := Rule.peek_bind_eq_ok.1 h
  split at hr <;> subst hr
  case h_1 => exact hplain h
  case h_2 form hf =>
    obtain ⟨t, hp, hf⟩ := Option.bind_eq_some_iff.1 hf
    obtain ⟨operator, s₁, ho, h⟩ := Rule.bind_eq_ok.1 h
    obtain ⟨node', s₂, hn, h⟩ := Rule.bind_eq_ok.1 h
    obtain ⟨rfl, rfl⟩ := Rule.pure_eq_ok.1 h
    have ho : Builds comment g (.oneOf u ts) [operator] s s₁ :=
      .operator_oneOf ho hp (hform t form hf).1 (hform t form hf).2
    exact hunary (ho.withField.seq (hoperand hn).withField)

end Builds

/-! ## Operators -/

namespace Operators

variable {ops : Operators τ}

/-- The next operator of a level is told by the next token. -/
theorem next?_eq_some {level : OperatorClass} {form : OperatorForm}
    (h : ops.next? level s = some form) :
    ∃ t, s.peek = some t ∧ ops.form? t = some form ∧ form.level = level := by
  obtain ⟨hb, hl⟩ := Option.filter_eq_some_iff.1 h
  obtain ⟨t, ht, hf⟩ := Option.bind_eq_some_iff.1 hb
  exact ⟨t, ht, hf, by simpa using hl⟩

/-- What holds of operands and of operands joined (`R`) is joined to what holds of a first
    operand and of all that it is extended to (`L`). -/
theorem extendBy_ok {operand : Rule τ RawNode}
    {L R : RawNode → TokenStream τ → TokenStream τ → Prop}
    (hoperand : ∀ {node s s'}, operand s = .ok (node, s') → R node s s')
    (hR : ∀ {t form left operator right s s₁ s₂ s'}, R left s s₁ → s₁.peek = some t →
      ops.form? t = some form → form.node s₁ = .ok (operator, s₂) → R right s₂ s' →
        R (ops.node left operator right) s s')
    (hL : ∀ {t form left operator right s s₁ s₂ s'}, L left s s₁ → s₁.peek = some t →
      ops.form? t = some form → form.node s₁ = .ok (operator, s₂) → R right s₂ s' →
        L (ops.node left operator right) s s')
    {classes : List OperatorClass} {left node : RawNode} (hleft : L left s s₁)
    (h : ops.extendBy operand classes left s₁ = .ok (node, s')) : L node s s' := by
  induction classes generalizing L left s s₁ node s' with
  | nil =>
    obtain ⟨rfl, rfl⟩ := Rule.pure_eq_ok.1 h
    exact hleft
  | cons level tighter ih =>
    obtain ⟨first, s₂, hfirst, h⟩ := Rule.bind_eq_ok.1 h
    -- Each round keeps what holds on the left; on the right it holds of an operand and what the
    -- tighter classes add to it.
    refine Rule.iterate_ok (I := fun node s' => L node s s')
      (fun form left s₃ node s' hs hl hround => ?_) (ih hL hleft hfirst) h
    obtain ⟨t, ht, hf, -⟩ := next?_eq_some hs
    obtain ⟨operator, s₄, ho, hround⟩ := Rule.bind_eq_ok.1 hround
    obtain ⟨right, s₅, hr, hround⟩ := Rule.bind_eq_ok.1 hround
    obtain ⟨right', s₆, hr', hround⟩ := Rule.bind_eq_ok.1 hround
    obtain ⟨rfl, rfl⟩ := Rule.pure_eq_ok.1 hround
    exact hL hl ht hf ho (ih hR (hoperand hr) hr')

/-- What holds of an operand, and of all that extends it, holds of an expression. -/
theorem expression_ok {operand : Rule τ RawNode} {L R : RawNode → TokenStream τ → Prop}
    (hoperand : ∀ {node s'}, operand s = .ok (node, s') → L node s')
    (hextend : ∀ {left s₁ node s'}, L left s₁ → ops.extend operand left s₁ = .ok (node, s') →
      R node s')
    {node : RawNode} (h : ops.expression operand s = .ok (node, s')) : R node s' := by
  obtain ⟨left, s₁, hleft, h⟩ := Rule.bind_eq_ok.1 h
  exact hextend (hoperand hleft) h

end Operators

end GrammarTools
