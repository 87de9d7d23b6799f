import GrammarTools.Proofs.Acceptance
import GrammarTools.Proofs.Reading

/-!
# Trees of operators

Operands with operators between can be joined to a binary tree in many ways. A
tree is *ranked* if no operator is joined to the left of one that binds tighter,
and to the right of an operator only operators that bind tighter are joined.
Then the operator at the top is the last one of those that bind least, so
there is no more than one ranked tree for the same operands and operators
(`OperatorTree.IsRanked.eq`). There is one: it grows to the right, operator by
operator (`OperatorTree.ofRow`).

`Operators.extendBy` reads operators class by class. What it builds is ranked
(`Operators.exists_parses`), and every ranked tree is what it builds of its
operands and operators (`Operators.extendBy_of_parses`).
-/

namespace GrammarTools

open Relation

/-- An operator between two operands. -/
structure Joint where
  /-- Its class. -/
  level : OperatorClass
  /-- The node for it. -/
  node : RawNode

/-- How tightly an operator binds. -/
def Joint.rank (joint : Joint) : Nat := joint.level.precedence

/-- Operands joined by operators. -/
inductive OperatorTree where
  /-- An operand. -/
  | operand (node : RawNode)
  /-- Two trees and the operator between them. -/
  | join (left : OperatorTree) (joint : Joint) (right : OperatorTree)

namespace OperatorTree

variable {t t' left right : OperatorTree} {joint : Joint}

/-- The first operand. -/
def first : OperatorTree → RawNode
  | operand node => node
  | join left _ _ => left.first

/-- The operators from left to right, each with the operand behind it. -/
def rest : OperatorTree → List (Joint × RawNode)
  | operand _ => []
  | join left joint right => left.rest ++ (joint, right.first) :: right.rest

/-- The operator at the top. -/
def joint? : OperatorTree → Option Joint
  | operand _ => none
  | join _ joint _ => some joint

/-- Whether each operator has only operators to the left that bind at least as tightly, and only
    operators to the right that bind tighter. -/
def IsRanked : OperatorTree → Prop
  | operand _ => True
  | join left joint right =>
    left.IsRanked ∧ right.IsRanked ∧ (∀ above ∈ left.joint?, joint.rank ≤ above.rank) ∧
      ∀ above ∈ right.joint?, joint.rank < above.rank

/-- If the operator at the top binds tightly enough, all do. -/
theorem IsRanked.le_rank (h : t.IsRanked) {n : Nat} (htop : ∀ joint ∈ t.joint?, n ≤ joint.rank) :
    ∀ item ∈ t.rest, n ≤ item.1.rank := by
  induction t with
  | operand => simp [rest]
  | join left joint right ihl ihr =>
    have hn : n ≤ joint.rank := htop joint rfl
    intro item hitem
    rcases List.mem_append.1 hitem with hitem | hitem
    · exact ihl h.1 (fun above ha => Nat.le_trans hn (h.2.2.1 above ha)) item hitem
    · rcases List.mem_cons.1 hitem with rfl | hitem
      · exact hn
      · exact ihr h.2.1 (fun above ha => Nat.le_of_lt (Nat.lt_of_le_of_lt hn (h.2.2.2 above ha)))
          item hitem

/-- On the left side of a joint, operators bind at least as tightly. -/
theorem IsRanked.left_le (h : (join left joint right).IsRanked) :
    ∀ item ∈ left.rest, joint.rank ≤ item.1.rank :=
  h.1.le_rank h.2.2.1

/-- On its right side, they bind more tightly. -/
theorem IsRanked.right_lt (h : (join left joint right).IsRanked) :
    ∀ item ∈ right.rest, joint.rank < item.1.rank :=
  h.2.1.le_rank h.2.2.2

/-- An operator with only tighter ones behind it is not in front of one with none looser in
    front. -/
theorem length_le_of_append_eq {front back front' back' : List (Joint × RawNode)}
    {item item' : Joint × RawNode} (heq : front ++ item :: back = front' ++ item' :: back')
    (hback : ∀ other ∈ back, item.1.rank < other.1.rank)
    (hfront' : ∀ other ∈ front', item'.1.rank ≤ other.1.rank) :
    front'.length ≤ front.length := by
  by_contra hlt
  rw [Nat.not_le] at hlt
  rw [List.append_eq_append_iff] at heq
  rcases heq with ⟨middle, rfl, heq⟩ | ⟨middle, rfl, -⟩
  · cases middle with
    | nil => simp at hlt
    | cons other middle =>
      obtain ⟨rfl, rfl⟩ := List.cons_eq_cons.1 heq
      have hle := hfront' item (by simp)
      have hlt := hback item' (by simp)
      omega
  · simp only [List.length_append] at hlt
    omega

/-- There is no more than one ranked tree of the same operands and operators. -/
theorem IsRanked.eq (h : t.IsRanked) (h' : t'.IsRanked) (hfirst : t.first = t'.first)
    (hrest : t.rest = t'.rest) : t = t' := by
  induction t generalizing t' with
  | operand node =>
    cases t' with
    | operand node' => rw [show node = node' from hfirst]
    | join left' joint' right' => simp [rest] at hrest
  | join left joint right ihl ihr =>
    cases t' with
    | operand node' => simp [rest] at hrest
    | join left' joint' right' =>
      -- Both operators at the top are the last ones of those that bind least.
      have hlength : left.rest.length = left'.rest.length :=
        Nat.le_antisymm (length_le_of_append_eq hrest.symm h'.right_lt h.left_le)
          (length_le_of_append_eq hrest h.right_lt h'.left_le)
      obtain ⟨hleft, hright⟩ := List.append_inj hrest hlength
      obtain ⟨htop, hright⟩ := List.cons_eq_cons.1 hright
      obtain ⟨hjoint, hnext⟩ := Prod.mk.inj htop
      rw [ihl h.1 h'.1 hfirst hleft, hjoint, ihr h.2.1 h'.2.1 hnext hright]

/-- An operator and an operand joined to the right of a tree. -/
def snoc : OperatorTree → Joint × RawNode → OperatorTree
  | operand node, (joint, next) => join (operand node) joint (operand next)
  | join left top right, (joint, next) =>
    if top.rank < joint.rank then join left top (right.snoc (joint, next))
    else join (join left top right) joint (operand next)

/-- Operands and operators joined from left to right. -/
def ofRow (first : RawNode) (items : List (Joint × RawNode)) : OperatorTree :=
  items.foldl snoc (operand first)

/-- One more operand at the end leaves the first one. -/
theorem first_snoc (t : OperatorTree) (item : Joint × RawNode) :
    (t.snoc item).first = t.first := by
  cases t with
  | operand => rfl
  | join left top right =>
    unfold snoc
    split <;> rfl

/-- One more operand at the end is the last one. -/
theorem rest_snoc (t : OperatorTree) (item : Joint × RawNode) :
    (t.snoc item).rest = t.rest ++ [item] := by
  induction t with
  | operand => rfl
  | join left top right _ ihr =>
    unfold snoc
    split
    · rw [rest, ihr, first_snoc, rest, List.append_assoc, List.cons_append]
    · rfl

theorem joint?_snoc (t : OperatorTree) (item : Joint × RawNode) :
    (t.snoc item).joint? = some item.1 ∨ (t.snoc item).joint? = t.joint? := by
  cases t with
  | operand => exact .inl rfl
  | join left top right =>
    unfold snoc
    split
    · exact .inr rfl
    · exact .inl rfl

/-- An operand added at the end goes as far down as its operator binds. -/
theorem IsRanked.snoc (h : t.IsRanked) (item : Joint × RawNode) : (t.snoc item).IsRanked := by
  induction t with
  | operand => simp [OperatorTree.snoc, IsRanked, joint?]
  | join left top right _ ihr =>
    unfold OperatorTree.snoc
    split
    · refine ⟨h.1, ihr h.2.1, h.2.2.1, fun above ha => ?_⟩
      rcases joint?_snoc right item with heq | heq <;> rw [heq] at ha
      · obtain rfl := Option.some.inj ha
        assumption
      · exact h.2.2.2 above ha
    · refine ⟨h, trivial, fun above ha => ?_, fun above ha => nomatch ha⟩
      obtain rfl := Option.some.inj ha
      exact Nat.le_of_not_lt ‹_›

/-- The tree of a row has the operands and operators of the row, and is ranked. -/
theorem ofRow_spec (first : RawNode) (items : List (Joint × RawNode)) :
    (ofRow first items).first = first ∧ (ofRow first items).rest = items ∧
      (ofRow first items).IsRanked := by
  suffices hfold : ∀ t : OperatorTree, t.IsRanked → (items.foldl snoc t).first = t.first ∧
      (items.foldl snoc t).rest = t.rest ++ items ∧ (items.foldl snoc t).IsRanked from
    hfold (operand first) trivial
  induction items with
  | nil => exact fun t h => ⟨rfl, (List.append_nil _).symm, h⟩
  | cons item items ih =>
    intro t h
    obtain ⟨hfirst, hrest, hranked⟩ := ih (t.snoc item) (h.snoc item)
    rw [first_snoc] at hfirst
    rw [rest_snoc, List.append_assoc] at hrest
    exact ⟨hfirst, hrest, hranked⟩

/-- Operands and operators make up exactly one ranked tree. -/
theorem existsUnique_isRanked (first : RawNode) (items : List (Joint × RawNode)) :
    ∃! t : OperatorTree, t.first = first ∧ t.rest = items ∧ t.IsRanked := by
  obtain ⟨hfirst, hrest, hranked⟩ := ofRow_spec first items
  exact ⟨ofRow first items, ⟨hfirst, hrest, hranked⟩, fun t h =>
    h.2.2.eq hranked (h.1.trans hfirst.symm) (h.2.1.trans hrest.symm)⟩

end OperatorTree

/-! ## Repetitions -/

namespace Rule

variable {τ α σ : Type} {s s' : TokenStream τ}

/-- One round of a repetition, with its state and its place before and after. -/
def Round (sign : TokenStream τ → Option α) (round : α → σ → Rule τ σ)
    (a b : σ × TokenStream τ) : Prop :=
  b.2.IsAhead a.2 ∧ ∃ more, sign a.2 = some more ∧ round more a.1 a.2 = .ok b

/-- Rounds that are linked one by one are an iteration, if no sign is left. -/
theorem iterate_of_rounds {sign : TokenStream τ → Option α} {round : α → σ → Rule τ σ}
    {x x' : σ} (h : ReflTransGen (Round sign round) (x, s) (x', s')) (hs' : sign s' = none) :
    iterate sign round x s = .ok (x', s') := by
  suffices hfrom : ∀ (measure : List (Lexeme τ)) (a : σ × TokenStream τ),
      a.2.upcoming.length ≤ measure.length → ReflTransGen (Round sign round) a (x', s') →
        iterateFrom sign round measure a.1 a.2 = .ok (x', s') from
    hfrom s.upcoming (x, s) (Nat.le_refl _) h
  intro measure
  induction measure with
  | nil =>
    intro a hm h
    rcases h.cases_head with rfl | ⟨b, hab, -⟩
    · rfl
    · exact absurd (Nat.lt_of_lt_of_le hab.1 hm) (Nat.not_lt_zero _)
  | cons l measure ih =>
    intro a hm h
    rcases h.cases_head with rfl | ⟨b, ⟨hahead, more, hmore, hround⟩, h⟩
    · simp [iterateFrom, hs']
    · have hb : b.2.upcoming.length ≤ measure.length :=
        Nat.le_of_lt_succ (Nat.lt_of_lt_of_le hahead hm)
      simpa [iterateFrom, hmore, hround] using ih b hb h

end Rule

/-! ## Trees that are read -/

theorem OperatorClass.pairwise_all :
    OperatorClass.all.Pairwise fun a b => a.precedence < b.precedence := by decide

namespace Operators

variable {τ : Type} {ops : Operators τ} {operand : Rule τ RawNode} {s s₁ s' : TokenStream τ}
  {items more : List (Joint × RawNode)} {t : OperatorTree} {level : OperatorClass}
  {classes tighter : List OperatorClass}

/-- The node for joined operands. -/
def treeNode (ops : Operators τ) : OperatorTree → RawNode
  | .operand node => node
  | .join left joint right => ops.node (treeNode ops left) joint.node (treeNode ops right)

/-- The operators that are read between two places, each with the operand behind it. -/
inductive Chain (ops : Operators τ) (operand : Rule τ RawNode) :
    TokenStream τ → List (Joint × RawNode) → TokenStream τ → Prop
  | nil {s : TokenStream τ} : Chain ops operand s [] s
  | cons {s s₁ s₂ s' : TokenStream τ} {form : OperatorForm} {operator node : RawNode}
      {items : List (Joint × RawNode)} : ops.upcoming? s = some form →
        form.node s = .ok (operator, s₁) → operand s₁ = .ok (node, s₂) →
        Chain ops operand s₂ items s' →
          Chain ops operand s ((⟨form.level, operator⟩, node) :: items) s'

namespace Chain

/-- Chains in a row are a chain. -/
theorem append (h : ops.Chain operand s items s₁) (h' : ops.Chain operand s₁ more s') :
    ops.Chain operand s (items ++ more) s' := by
  induction h with
  | nil => exact h'
  | cons hform ho hnode _ ih => exact .cons hform ho hnode (ih h')

/-- A chain can be cut anywhere. -/
theorem split (h : ops.Chain operand s (items ++ more) s') :
    ∃ s₁, ops.Chain operand s items s₁ ∧ ops.Chain operand s₁ more s' := by
  induction items generalizing s with
  | nil => exact ⟨s, .nil, h⟩
  | cons item items ih =>
    cases h with
    | cons hform ho hnode h =>
      obtain ⟨s₁, hitems, hmore⟩ := ih h
      exact ⟨s₁, .cons hform ho hnode hitems, hmore⟩

end Chain

/-- A ranked tree whose operators, all of some classes, are read between two places with the
    operands behind them. -/
structure Parses (ops : Operators τ) (operand : Rule τ RawNode) (classes : List OperatorClass)
    (t : OperatorTree) (s s' : TokenStream τ) : Prop where
  chain : ops.Chain operand s t.rest s'
  ranked : t.IsRanked
  level_mem : ∀ item ∈ t.rest, item.1.level ∈ classes

theorem node_eq_ok {form : OperatorForm} {operator : RawNode} {s s' : TokenStream τ}
    (h : form.node s = .ok (operator, s')) : s.advance = s' := by
  obtain ⟨token, s₁, hleaf, h⟩ := Rule.bind_eq_ok.1 h
  obtain ⟨-, rfl⟩ := Rule.pure_eq_ok.1 h
  exact (Rule.leaf_eq_ok.1 hleaf).2

/-- A tree that is parsed has an operator of the given classes at its top. -/
theorem Parses.joint_mem (h : ops.Parses operand classes t s s') :
    ∀ joint ∈ t.joint?, joint.level ∈ classes := by
  intro joint hjoint
  cases t with
  | operand => cases hjoint
  | join left top right =>
    obtain rfl := Option.some.inj hjoint
    exact h.level_mem (top, right.first) (by simp [OperatorTree.rest])

section sorted

variable (hsorted : (level :: tighter).Pairwise fun a b => a.precedence < b.precedence)
include hsorted

theorem precedence_le {other : OperatorClass} (h : other ∈ level :: tighter) :
    level.precedence ≤ other.precedence := by
  rcases List.mem_cons.1 h with rfl | h
  · exact Nat.le_refl _
  · exact Nat.le_of_lt (List.rel_of_pairwise_cons hsorted h)

/-- A tree joined to an operator of the loosest class, and by it to one of tighter classes. -/
theorem Parses.join {left right : OperatorTree} {s₂ : TokenStream τ} {form : OperatorForm}
    {operator : RawNode} (hl : ops.Parses operand (level :: tighter) left s s₁)
    (hnext : ops.next? level s₁ = some form) (ho : form.node s₁ = .ok (operator, s₂))
    {s₃ : TokenStream τ} (hfirst : operand s₂ = .ok (right.first, s₃))
    (hr : ops.Parses operand tighter right s₃ s') :
    ops.Parses operand (level :: tighter) (.join left ⟨form.level, operator⟩ right) s s' := by
  obtain ⟨hform, rfl⟩ := next?_eq_some_iff.1 hnext
  refine ⟨hl.chain.append (.cons hform ho hfirst hr.chain), ⟨hl.ranked, hr.ranked, ?_, ?_⟩,
    fun item hitem => ?_⟩
  · exact fun above ha => precedence_le hsorted (hl.joint_mem above ha)
  · exact fun above ha => List.rel_of_pairwise_cons hsorted (hr.joint_mem above ha)
  · rcases List.mem_append.1 hitem with hitem | hitem
    · exact hl.level_mem item hitem
    · rcases List.mem_cons.1 hitem with rfl | hitem
      · exact List.mem_cons_self
      · exact List.mem_cons_of_mem _ (hr.level_mem item hitem)

end sorted

/-- What extends an operand makes a ranked tree of it. -/
theorem exists_parses (hsorted : classes.Pairwise fun a b => a.precedence < b.precedence)
    {left node : RawNode} (h : ops.extendBy operand classes left s = .ok (node, s')) :
    ∃ t : OperatorTree, t.first = left ∧ ops.Parses operand classes t s s' ∧
      ops.treeNode t = node := by
  induction classes generalizing left s node s' with
  | nil =>
    obtain ⟨rfl, rfl⟩ := Rule.pure_eq_ok.1 h
    exact ⟨.operand left, rfl, ⟨.nil, trivial, by simp [OperatorTree.rest]⟩, rfl⟩
  | cons level tighter ih =>
    obtain ⟨start, s₁, hstart, h⟩ := Rule.bind_eq_ok.1 h
    obtain ⟨t, hfirst, ht, hnode⟩ := ih hsorted.of_cons hstart
    -- Every round joins the tree so far to an operator of the loosest class and a tree of tighter
    -- ones.
    refine Rule.iterate_ok (I := fun node s' => ∃ t : OperatorTree, t.first = left ∧
        ops.Parses operand (level :: tighter) t s s' ∧ ops.treeNode t = node)
      (fun form left' a node b hs hl hround => ?_)
      ⟨t, hfirst, ⟨ht.chain, ht.ranked, fun item hitem =>
        List.mem_cons_of_mem _ (ht.level_mem item hitem)⟩, hnode⟩ h
    obtain ⟨tl, hfirst, hl, rfl⟩ := hl
    obtain ⟨operator, b₁, ho, hround⟩ := Rule.bind_eq_ok.1 hround
    obtain ⟨next, b₂, hnext, hround⟩ := Rule.bind_eq_ok.1 hround
    obtain ⟨right, b₃, hright, hround⟩ := Rule.bind_eq_ok.1 hround
    obtain ⟨rfl, rfl⟩ := Rule.pure_eq_ok.1 hround
    obtain ⟨tr, rfl, hr, rfl⟩ := ih hsorted.of_cons hright
    exact ⟨.join tl ⟨form.level, operator⟩ tr, hfirst, hl.join hsorted hs ho hnext hr, rfl⟩

section complete

variable (hahead : ∀ {s node s'}, operand s = .ok (node, s') → s'.IsAhead s)
include hahead

/-- A chain takes tokens or is empty. -/
theorem Chain.length_le (h : ops.Chain operand s items s') :
    s'.upcoming.length ≤ s.upcoming.length := by
  induction h with
  | nil => exact Nat.le_refl _
  | cons hform ho hnode _ ih =>
    have hadvance := isAhead_advance (Option.isSome_of_eq_some hform)
    rw [node_eq_ok ho] at hadvance
    exact Nat.le_trans ih (Nat.le_of_lt ((hadvance.trans (hahead hnode))))

/-- The rounds in which a ranked tree grows by the operators of the loosest class, from what the
    tighter classes join in front of the first of them. -/
theorem Parses.exists_rounds
    (hsorted : (level :: tighter).Pairwise fun a b => a.precedence < b.precedence)
    (hright : ∀ {t s s'}, ops.Parses operand tighter t s s' → ops.Stops tighter s' →
      ops.extendBy operand tighter t.first s = .ok (ops.treeNode t, s'))
    (h : ops.Parses operand (level :: tighter) t s s') (hs' : ops.Stops tighter s') :
    ∃ t₁ s₁, t₁.first = t.first ∧ ops.Parses operand tighter t₁ s s₁ ∧ ops.Stops tighter s₁ ∧
      ReflTransGen (Rule.Round (ops.next? level) fun form left => do
        let operator ← form.node
        let right ← operand
        let right ← ops.extendBy operand tighter right
        return ops.node left operator right) (ops.treeNode t₁, s₁) (ops.treeNode t, s') := by
  have hmem : ∀ {item : Joint × RawNode}, item.1.level ∈ level :: tighter →
      level.precedence < item.1.rank → item.1.level ∈ tighter := by
    intro item hitem hlt
    refine (List.mem_cons.1 hitem).resolve_left fun heq => ?_
    rw [Joint.rank, heq] at hlt
    exact Nat.lt_irrefl _ hlt
  -- The rounds run over the left operands, from the innermost one to the top.
  induction t generalizing s' with
  | operand node => exact ⟨.operand node, s', rfl, ⟨h.chain, trivial, by simp [OperatorTree.rest]⟩,
      hs', .refl⟩
  | join left joint right ihl _ =>
    have htop : joint.level ∈ level :: tighter := h.joint_mem joint rfl
    by_cases htight : joint.level ∈ tighter
    · -- No operator of the loosest class is left if the one at the top is tighter.
      refine ⟨.join left joint right, s', rfl, ⟨h.chain, h.ranked, fun item hitem => ?_⟩, hs',
        .refl⟩
      refine hmem (h.level_mem item hitem) (Nat.lt_of_lt_of_le
        (List.rel_of_pairwise_cons hsorted htight)
        (h.ranked.le_rank (fun above ha => ?_) item hitem))
      obtain rfl := Option.some.inj ha
      exact Nat.le_refl _
    · have hlevel : joint.level = level := (List.mem_cons.1 htop).resolve_right htight
      obtain ⟨a, hl, hchain⟩ := h.chain.split
      cases hchain with
      | @cons _ b c _ form operator _ _ hform ho hnext hr =>
        have hstops : ops.Stops tighter a := fun form' hform' => by
          rw [hform, Option.some.injEq] at hform'
          exact hform' ▸ htight
        -- The operator at the top makes the last round, behind those of its left operand.
        obtain ⟨t₁, s₁, hfirst, ht₁, hs₁, hrounds⟩ := ihl ⟨hl, h.ranked.1, fun item hitem =>
          h.level_mem item (List.mem_append_left _ hitem)⟩ hstops
        refine ⟨t₁, s₁, hfirst, ht₁, hs₁, hrounds.tail ⟨?_, form, ?_, ?_⟩⟩
        · have hadvance := isAhead_advance (Option.isSome_of_eq_some hform)
          rw [node_eq_ok ho] at hadvance
          exact Nat.lt_of_le_of_lt (hr.length_le hahead) (hadvance.trans (hahead hnext))
        · exact next?_eq_some_iff.2 ⟨hform, hlevel⟩
        · have hparses : ops.Parses operand tighter right c s' := by
            refine ⟨hr, h.ranked.2.1, fun item hitem => hmem (h.level_mem item ?_) ?_⟩
            · exact List.mem_append_right _ (List.mem_cons_of_mem _ hitem)
            · exact hlevel ▸ h.ranked.right_lt item hitem
          exact Rule.bind_eq_ok.2 ⟨operator, b, ho, Rule.bind_eq_ok.2 ⟨right.first, c, hnext,
            Rule.bind_eq_ok.2 ⟨_, s', hright hparses hs', rfl⟩⟩⟩

/-- A ranked tree is built of its first operand and what is read behind it. -/
theorem extendBy_of_parses (hsorted : classes.Pairwise fun a b => a.precedence < b.precedence)
    (h : ops.Parses operand classes t s s') (hs' : ops.Stops classes s') :
    ops.extendBy operand classes t.first s = .ok (ops.treeNode t, s') := by
  induction classes generalizing t s s' with
  | nil =>
    cases t with
    | operand node =>
      obtain ⟨hchain, -, -⟩ := h
      cases hchain
      rfl
    | join left joint right => exact absurd (h.joint_mem joint rfl) List.not_mem_nil
  | cons level tighter ih =>
    have htighter : ops.Stops tighter s' := fun form hform ht =>
      hs' form hform (List.mem_cons_of_mem _ ht)
    obtain ⟨t₁, s₁, hfirst, ht₁, hs₁, hrounds⟩ :=
      h.exists_rounds hahead hsorted (fun h => ih hsorted.of_cons h) htighter
    have hstart := ih hsorted.of_cons ht₁ hs₁
    rw [hfirst] at hstart
    refine Rule.bind_eq_ok.2 ⟨_, s₁, hstart, Rule.iterate_of_rounds hrounds ?_⟩
    rw [Option.eq_none_iff_forall_ne_some]
    intro form hform
    obtain ⟨hform, hlevel⟩ := next?_eq_some_iff.1 hform
    exact hs' form hform (by simp [hlevel])

/-- Operators of any class, up to where none comes next. -/
theorem extend_of_chain (hranked : t.IsRanked) (h : ops.Chain operand s t.rest s')
    (hs' : ops.upcoming? s' = none) :
    ops.extend operand t.first s = .ok (ops.treeNode t, s') :=
  extendBy_of_parses hahead OperatorClass.pairwise_all
    ⟨h, hranked, fun item _ => by cases item.1.level <;> decide⟩ (by simp [Stops, hs'])

end complete

end Operators

end GrammarTools
