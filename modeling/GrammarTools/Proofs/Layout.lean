import GrammarTools.Proofs.Commented
import GrammarTools.Proofs.OperatorTree

/-!
# Layouts of trees

A *schema* says of every kind of node how the nodes below it are laid out: of
which kinds they are, which parts they fill and in which order they come. A tree
conforms to it if every node is laid out as its kind says, and operators bind as
they should (`Schema.Allows`).

What a rule makes is followed through the rule (`Rule.Yields`): a row of nodes
fits a layout if its parts do, and nodes put under a node of their own conform
if they fit the layout of its kind (`Schema.Lays`). Operators make ranked trees,
so the nodes that they make are ranked (`Schema.Lays.extend`).
-/

namespace GrammarTools

variable {τ α β σ : Type}

/-! ## Yields -/

/-- Whatever a rule makes when it succeeds has a property. -/
def Rule.Yields (r : Rule τ α) (P : α → Prop) : Prop :=
  ∀ ⦃s a s'⦄, r s = .ok (a, s') → P a

namespace Rule.Yields

variable {r r' : Rule τ α} {P P' : α → Prop} {Q : β → Prop}

theorem imp (h : r.Yields P) (hP : ∀ a, P a → P' a) : r.Yields P' :=
  fun _ _ _ hr => hP _ (h hr)

theorem pure {a : α} (h : P a) : (Pure.pure a : Rule τ α).Yields P := fun _ _ _ hr => by
  obtain ⟨rfl, -⟩ := Rule.pure_eq_ok.1 hr
  exact h

/-- What one rule yields may be used for the next. -/
theorem bind {f : α → Rule τ β} (hr : r.Yields P) (hf : ∀ a, P a → (f a).Yields Q) :
    (r >>= f).Yields Q := fun _ _ _ h => by
  obtain ⟨a, s₁, ha, h⟩ := Rule.bind_eq_ok.1 h
  exact hf a (hr ha) h

theorem fail {expected : List String} : (Rule.fail expected : Rule τ α).Yields P :=
  fun _ _ _ h => nomatch h

theorem tooDeep : (Rule.tooDeep : Rule τ α).Yields P := fun _ _ _ h => nomatch h

theorem peek {f : Option τ → Rule τ α} (h : ∀ next, (f next).Yields P) :
    (Rule.peek >>= f).Yields P := fun s _ _ hr => h s.peek hr

theorem ask {question : TokenStream τ → β} {f : β → Rule τ α} (h : ∀ answer, (f answer).Yields P) :
    (Rule.ask question >>= f).Yields P := fun s _ _ hr => h (question s) hr

theorem ite {question : TokenStream τ → Bool} (h : r.Yields P) (h' : r'.Yields P) :
    (Rule.ask question >>= fun answer => if answer = true then r else r').Yields P :=
  ask fun answer => by
    split
    · exact h
    · exact h'

/-- What is grown keeps a property that the first node has and each round preserves. -/
theorem growWhile {sign : TokenStream τ → Option β} {grow : β → RawNode → Rule τ RawNode}
    {first : RawNode} {P : RawNode → Prop} (hfirst : P first)
    (hgrow : ∀ {s more left}, sign s = some more → P left → (grow more left).Yields P) :
    (Rule.growWhile sign grow first).Yields P := fun _ _ _ h =>
  iterate_ok (I := fun node _ => P node) (fun _ _ _ _ _ hs hl hround => hgrow hs hl hround) hfirst h

end Rule.Yields

/-! ## Operators in trees -/

/-- The nodes that operators make in a language. -/
structure OperatorNodes (τ : Type) extends Operators τ where
  /-- The kinds of the nodes for operators, with their classes. -/
  classes : List (KindId × OperatorClass)
  /-- The kind of a node with one operand. -/
  unary : KindId
  /-- The field of the operand, if there is one. -/
  operand : FieldId
  /-- The kind of a node for two joined steps. -/
  pipe : KindId

namespace OperatorNodes

variable (ops : OperatorNodes τ)

/-- The operand that a node begins with, if it joins operands, and else the node. -/
def firstOperand : RawNode → RawNode
  | ⟨kind, field, span, first :: more⟩ =>
    if kind = ops.binary then firstOperand first else ⟨kind, field, span, first :: more⟩
  | node => node

/-- A node that is no binary expression is its own first operand. -/
theorem firstOperand_of_ne {node : RawNode} (h : node.kind ≠ ops.binary) :
    ops.firstOperand node = node := by
  unfold firstOperand
  split
  · exact if_neg h
  · rfl

/-- The first operand of a binary expression is that of its left side. -/
theorem firstOperand_cons {node first : RawNode} {more : List RawNode}
    (h : node.kind = ops.binary) (hc : node.children = first :: more) :
    ops.firstOperand node = ops.firstOperand first := by
  obtain ⟨kind, field, span, children⟩ := node
  obtain rfl : children = first :: more := hc
  rw [firstOperand, if_pos h]

/-- A field in front of a node does not change its first operand. -/
theorem kind_firstOperand_withField (node : RawNode) (field : FieldId) :
    (ops.firstOperand (node.withField field)).kind = (ops.firstOperand node).kind := by
  obtain ⟨kind, own, span, children⟩ := node
  cases children with
  | nil => rfl
  | cons first more =>
    by_cases h : kind = ops.binary
    · have hboth : ∀ part, ops.firstOperand ⟨kind, part, span, first :: more⟩ =
          ops.firstOperand first := fun _ => ops.firstOperand_cons h rfl
      rw [RawNode.withField, hboth, hboth]
    · rw [ops.firstOperand_of_ne h, ops.firstOperand_of_ne h]
      rfl

/-- How tightly the operator binds that a node stands for. -/
def precedence? (node : RawNode) : Option Nat :=
  (ops.classes.lookup node.kind).map OperatorClass.precedence

/-- How tightly the operator between two operands binds. -/
def rank? (node : RawNode) : Option Nat := node.children[1]?.bind ops.precedence?

/-- Two operands and the operator between them. It binds no tighter than the operators joined to
    its left, and looser than those joined to its right. -/
def IsRanked (children : List RawNode) : Prop :=
  ∃ left operator right n, children = [left, operator, right] ∧
    left.field = some ops.left ∧ operator.field = some ops.operator ∧
    right.field = some ops.right ∧ ops.precedence? operator = some n ∧
    (left.kind = ops.binary → ∃ m, ops.rank? left = some m ∧ n ≤ m) ∧
    (right.kind = ops.binary → ∃ m, ops.rank? right = some m ∧ n < m)

/-- Ranked trees make ranked nodes, if the operands are no such nodes. -/
theorem isRanked_treeNode {left right : OperatorTree} {joint : Joint}
    (h : (OperatorTree.join left joint right).IsRanked)
    (hclass : ∀ item ∈ (OperatorTree.join left joint right).rest,
      ops.classes.lookup item.1.node.kind = some item.1.level)
    (hleft : left.first.kind ≠ ops.binary) (hright : right.first.kind ≠ ops.binary) :
    ops.IsRanked (ops.treeNode (.join left joint right)).children := by
  have hrank : ∀ {t : OperatorTree}, t.first.kind ≠ ops.binary →
      (∀ item ∈ t.rest, ops.classes.lookup item.1.node.kind = some item.1.level) →
      (ops.treeNode t).kind = ops.binary →
        ∃ above ∈ t.joint?, ops.rank? (ops.treeNode t) = some above.rank := by
    intro t hfirst hclass hkind
    cases t with
    | operand node => exact absurd hkind hfirst
    | join l above r =>
      have hlookup := hclass (above, r.first) (by simp [OperatorTree.rest])
      refine ⟨above, rfl, ?_⟩
      show (ops.classes.lookup above.node.kind).map OperatorClass.precedence = _
      rw [hlookup]
      rfl
  have hlookup := hclass (joint, right.first) (by simp [OperatorTree.rest])
  refine ⟨_, _, _, joint.rank, rfl, rfl, rfl, rfl, ?_, fun hkind => ?_, fun hkind => ?_⟩
  · show (ops.classes.lookup joint.node.kind).map OperatorClass.precedence = _
    rw [hlookup]
    rfl
  · obtain ⟨above, ha, heq⟩ := hrank hleft (fun item hitem => hclass item
      (List.mem_append_left _ hitem)) hkind
    exact ⟨above.rank, heq, h.2.2.1 above ha⟩
  · obtain ⟨above, ha, heq⟩ := hrank hright (fun item hitem => hclass item
      (List.mem_append_right _ (List.mem_cons_of_mem _ hitem))) hkind
    exact ⟨above.rank, heq, h.2.2.2 above ha⟩

end OperatorNodes

/-! ## Schemas -/

/-- The rows of nodes that may stand below a node, where `κ` has the kinds and `φ` the fields. -/
inductive Layout (κ φ : Type) where
  /-- No node. -/
  | nothing
  /-- One node of one of some kinds, which fills a part or none. -/
  | one (kinds : List κ) (field : Option φ)
  /-- One layout and then the other. -/
  | seq (p q : Layout κ φ)
  /-- The layout or nothing. -/
  | opt (p : Layout κ φ)
  /-- The layout any number of times. -/
  | many (p : Layout κ φ)
deriving DecidableEq

namespace Layout

variable {κ φ : Type}

instance : Append (Layout κ φ) := ⟨seq⟩

/-- The kinds of the first node, where there has to be one that fills no part. -/
def choices : Layout κ φ → List κ
  | one kinds none => kinds
  | _ => []

/-- One node that fills no part. -/
def only (kind : κ) : Layout κ φ := one [kind] none

/-- One node that fills a part. -/
def part (field : φ) (kinds : List κ) : Layout κ φ := one kinds (some field)

/-- The layout at least once, with another one between any two. -/
def separated (p q : Layout κ φ) : Layout κ φ := p ++ many (q ++ p)

/-- The layout with all nodes filling the same part. -/
def inField (field : φ) : Layout κ φ → Layout κ φ
  | nothing => nothing
  | one kinds _ => one kinds (some field)
  | seq p q => seq (p.inField field) (q.inField field)
  | opt p => opt (p.inField field)
  | many p => many (p.inField field)

/-- Whether a layout has no node. -/
def isNothing : Layout κ φ → Bool
  | nothing => true
  | _ => false

/-- Whether a token alone may be a node with the layout. -/
def isLeaf : Layout κ φ → Bool
  | nothing => true
  | opt _ => true
  | _ => false

/-- The single nodes that a layout has, with their kinds and parts. -/
def slots : Layout κ φ → List (List κ × Option φ)
  | nothing => []
  | one kinds field => [(kinds, field)]
  | seq p q => p.slots ++ q.slots
  | opt p => p.slots
  | many p => p.slots

/-- The single nodes that a layout has and that may stand behind other ones. -/
def laterSlots : Layout κ φ → List (List κ × Option φ)
  | nothing => []
  | one _ _ => []
  | seq p q => p.laterSlots ++ q.slots
  | opt p => p.laterSlots
  | many p => p.slots

end Layout

/-- The layouts of the trees of a language. -/
structure Schema (τ κ φ : Type) where
  /-- The number of a kind. -/
  kindId : κ → KindId
  /-- The number of a field. -/
  fieldId : φ → FieldId
  /-- How the nodes below a node of a kind are laid out. -/
  layout : κ → Layout κ φ
  /-- The nodes of operators. -/
  operators : OperatorNodes τ
  kindId_injective : ∀ {a b : κ}, kindId a = kindId b → a = b

namespace Schema

variable {κ φ : Type} (S : Schema τ κ φ)

/-- The rows of nodes that fit a layout. Joined operands fit where the first of them does. -/
inductive Fits : Layout κ φ → List RawNode → Prop
  | nothing : Fits .nothing []
  | one {kinds : List κ} {field : Option φ} {kind first : κ} {node : RawNode} : kind ∈ kinds →
      node.kind = S.kindId kind → node.field = field.map S.fieldId → first ∈ kinds →
        (S.operators.firstOperand node).kind = S.kindId first → Fits (.one kinds field) [node]
  | seq {p q : Layout κ φ} {nodes more : List RawNode} : Fits p nodes → Fits q more →
      Fits (.seq p q) (nodes ++ more)
  | none {p : Layout κ φ} : Fits (.opt p) []
  | some {p : Layout κ φ} {nodes : List RawNode} : Fits p nodes → Fits (.opt p) nodes
  | nil {p : Layout κ φ} : Fits (.many p) []
  | cons {p : Layout κ φ} {nodes more : List RawNode} : Fits p nodes → Fits (.many p) more →
      Fits (.many p) (nodes ++ more)

/-- A node that is laid out as its kind says, with operators that bind as they should. -/
def Allows (node : RawNode) : Prop :=
  (∃ kind, node.kind = S.kindId kind ∧ S.Fits (S.layout kind) node.children) ∧
    (node.kind = S.operators.binary → S.operators.IsRanked node.children)

/-- A node that has nodes below it, or none because it is a token, or covers nothing. -/
def EndsWell (node : RawNode) : Prop :=
  node.children = [] → node.span = .empty 0 ∨
    ∃ kind, node.kind = S.kindId kind ∧ (S.layout kind).isLeaf

/-- Nodes that fit a layout, and conform to the schema all the way down. -/
structure Lays (p : Layout κ φ) (nodes : List RawNode) : Prop where
  fits : S.Fits p nodes
  allows : ∀ n ∈ RawNode.preorderAll nodes, S.Allows n
  leaves : ∀ n ∈ RawNode.preorderAll nodes, S.EndsWell n

/-- One node of one of some kinds, which fills no part yet. -/
abbrev Makes (kinds : List κ) (node : RawNode) : Prop := S.Lays (.one kinds none) [node]

variable {S} {p q : Layout κ φ} {nodes more : List RawNode} {node : RawNode} {kind : κ}
  {kinds : List κ}

/-- A node of a kind is laid out as the kind says. -/
theorem Allows.fits (h : S.Allows node) (hk : node.kind = S.kindId kind) :
    S.Fits (S.layout kind) node.children := by
  obtain ⟨⟨other, hother, hfits⟩, -⟩ := h
  rwa [← S.kindId_injective (hother.symm.trans hk)]

/-- What fits a sequence is cut in two. -/
theorem Fits.exists_of_seq (h : S.Fits (p ++ q) nodes) :
    ∃ front back, nodes = front ++ back ∧ S.Fits p front ∧ S.Fits q back := by
  cases h with
  | seq h h' => exact ⟨_, _, rfl, h, h'⟩

/-- What fits one node is a single one. -/
theorem Fits.exists_of_one {field : Option φ} (h : S.Fits (.one kinds field) nodes) :
    ∃ node, nodes = [node] ∧ node.field = field.map S.fieldId ∧
      ∃ kind ∈ kinds, node.kind = S.kindId kind := by
  cases h with
  | one hkind hid hfield _ _ => exact ⟨_, rfl, hfield, _, hkind, hid⟩

/-- A node in a row of two parts stands in one of them. -/
theorem mem_part_of_append_eq {before after : List RawNode}
    (h : nodes ++ more = before ++ node :: after) :
    (∃ rest, nodes = before ++ node :: rest) ∨
      ∃ front, before = nodes ++ front ∧ more = front ++ node :: after := by
  rcases List.append_eq_append_iff.1 h with hback | ⟨mid, rfl, hmid⟩
  · exact .inr hback
  · cases mid with
    | nil => exact .inr ⟨[], by simp, hmid.symm⟩
    | cons first rest =>
      obtain ⟨rfl, -⟩ := List.cons.inj hmid
      exact .inl ⟨rest, rfl⟩

/-- A node in a row that fits a layout fits one of its slots, and a later one behind other nodes. -/
theorem Fits.exists_slot (h : S.Fits p nodes) {before after : List RawNode}
    (heq : nodes = before ++ node :: after) :
    ∃ slot ∈ p.slots, S.Fits (.one slot.1 slot.2) [node] ∧
      (before ≠ [] → slot ∈ p.laterSlots) := by
  induction h generalizing before after with
  | nothing | none | nil => simp at heq
  | @one kinds field _ _ only hkind hid hfield hfirst hfirstId =>
    obtain ⟨rfl, hsingle⟩ | ⟨-, hnil⟩ := List.append_eq_singleton_iff.1 heq.symm
    · obtain rfl : node = only := (List.cons.inj hsingle).1
      exact ⟨_, List.mem_singleton_self _, .one hkind hid hfield hfirst hfirstId, by simp⟩
    · cases hnil
  | some _ ih => exact ih heq
  | seq _ _ ih ih' =>
    rcases mem_part_of_append_eq heq with ⟨rest, hfront⟩ | ⟨front, -, hback⟩
    · obtain ⟨slot, hmem, hfits, hlater⟩ := ih hfront
      exact ⟨slot, List.mem_append_left _ hmem, hfits,
        fun hne => List.mem_append_left _ (hlater hne)⟩
    · obtain ⟨slot, hmem, hfits, -⟩ := ih' hback
      exact ⟨slot, List.mem_append_right _ hmem, hfits, fun _ => List.mem_append_right _ hmem⟩
  | cons _ _ ih ih' =>
    -- In a repeated layout every slot is a later one.
    rcases mem_part_of_append_eq heq with ⟨rest, hfront⟩ | ⟨front, -, hback⟩
    · obtain ⟨slot, hmem, hfits, -⟩ := ih hfront
      exact ⟨slot, hmem, hfits, fun _ => hmem⟩
    · obtain ⟨slot, hmem, hfits, -⟩ := ih' hback
      exact ⟨slot, hmem, hfits, fun _ => hmem⟩

theorem Fits.append (h : S.Fits (.many p) nodes) (h' : S.Fits (.many p) more) :
    S.Fits (.many p) (nodes ++ more) := by
  generalize hq : Layout.many p = q at h
  induction h with
  | nil =>
    cases hq
    exact h'
  | cons hn _ _ ih =>
    cases hq
    rw [List.append_assoc]
    exact .cons hn (ih rfl)
  | _ => cases hq

/-- Nodes put into a field fit the layout put into the field. -/
theorem Fits.map_withField (field : φ) (h : S.Fits p nodes) :
    S.Fits (p.inField field) (nodes.map (·.withField (S.fieldId field))) := by
  induction h with
  | nothing => exact .nothing
  | one hkind hid _ hfirst hfirstId =>
    exact .one hkind hid rfl hfirst ((S.operators.kind_firstOperand_withField _ _).trans hfirstId)
  | seq _ _ ih ih' =>
    rw [List.map_append]
    exact .seq ih ih'
  | none => exact .none
  | some _ ih => exact .some ih
  | nil => exact .nil
  | cons _ _ ih ih' =>
    rw [List.map_append]
    exact .cons ih ih'

/-- The parts of the top nodes do not matter to what holds of a node whatever part it fills. -/
theorem forall_map_withField {P : RawNode → Prop} {field : FieldId}
    (hP : ∀ n, P n → P (n.withField field)) (h : ∀ n ∈ RawNode.preorderAll nodes, P n) :
    ∀ n ∈ RawNode.preorderAll (nodes.map (·.withField field)), P n := by
  induction nodes with
  | nil => exact h
  | cons node nodes ih =>
    intro n hn
    rw [RawNode.preorderAll_cons, List.cons_append] at h
    rw [List.map_cons, RawNode.preorderAll_cons, List.cons_append] at hn
    rcases List.mem_cons.1 hn with rfl | hn
    · exact hP node (h node List.mem_cons_self)
    · rcases List.mem_append.1 hn with hn | hn
      · exact h n (List.mem_cons_of_mem _ (List.mem_append_left _ hn))
      · exact ih (fun m hm => h m (List.mem_cons_of_mem _ (List.mem_append_right _ hm))) n hn

namespace Lays

theorem seq (h : S.Lays p nodes) (h' : S.Lays q more) : S.Lays (p ++ q) (nodes ++ more) := by
  refine ⟨.seq h.fits h'.fits, fun n hn => ?_, fun n hn => ?_⟩
  all_goals rw [RawNode.preorderAll_append] at hn
  · exact (List.mem_append.1 hn).elim (h.allows n) (h'.allows n)
  · exact (List.mem_append.1 hn).elim (h.leaves n) (h'.leaves n)

theorem none : S.Lays (.opt p) [] := ⟨.none, nofun, nofun⟩

theorem some (h : S.Lays p nodes) : S.Lays (.opt p) nodes := ⟨.some h.fits, h.allows, h.leaves⟩

theorem of_eq (h : S.Lays p nodes) (heq : nodes = more) : S.Lays p more := heq ▸ h

theorem nothing : S.Lays .nothing [] := ⟨.nothing, nofun, nofun⟩

theorem nil : S.Lays (.many p) [] := ⟨.nil, nofun, nofun⟩

theorem append (h : S.Lays (.many p) nodes) (h' : S.Lays (.many p) more) :
    S.Lays (.many p) (nodes ++ more) :=
  ⟨h.fits.append h'.fits, (h.seq h').allows, (h.seq h').leaves⟩

theorem single (h : S.Lays p nodes) : S.Lays (.many p) nodes :=
  ⟨List.append_nil nodes ▸ .cons h.fits .nil, h.allows, h.leaves⟩

theorem map_withField (part : φ) (h : S.Lays p nodes) :
    S.Lays (p.inField part) (nodes.map (·.withField (S.fieldId part))) :=
  ⟨h.fits.map_withField part, forall_map_withField (fun _ h => h) h.allows,
    forall_map_withField (fun _ h => h) h.leaves⟩

/-- A node with a field is laid where the field is asked for. -/
theorem withField {field : Option φ} (part : φ) (h : S.Lays (.one kinds field) [node]) :
    S.Lays (.one kinds (.some part)) [node.withField (S.fieldId part)] :=
  h.map_withField part

/-- Where one of some kinds may stand, one of more kinds may. -/
theorem mono {field : Option φ} {wider : List κ} (h : S.Lays (.one kinds field) [node])
    (hk : kinds ⊆ wider) : S.Lays (.one wider field) [node] := by
  refine ⟨?_, h.allows, h.leaves⟩
  cases h.fits with
  | one hkind hid hfield hfirst hfirstId =>
    exact .one (hk hkind) hid hfield (hk hfirst) hfirstId

/-- Where only one kind may stand, the node has it. -/
theorem kind_eq {field : Option φ} (h : S.Lays (.one [kind] field) [node]) :
    node.kind = S.kindId kind := by
  cases h.fits with
  | one hkind hid _ _ _ => exact List.mem_singleton.1 hkind ▸ hid

/-- The first operand of what is laid has one of the kinds that may stand there. -/
theorem exists_first {field : Option φ} (h : S.Lays (.one kinds field) [node]) :
    ∃ first ∈ kinds, (S.operators.firstOperand node).kind = S.kindId first := by
  cases h.fits with
  | one _ _ _ hfirst hid => exact ⟨_, hfirst, hid⟩

/-- Joined operands of their own for nodes that fit the layout of their kind. -/
theorem join_of_allows (span : Span) (h : S.Lays (S.layout kind) nodes)
    (hleaf : S.EndsWell (.branchAt (S.kindId kind) span nodes))
    (hranked : S.kindId kind = S.operators.binary → S.operators.IsRanked nodes)
    (hk : kind ∈ kinds) {first : κ} (hfirst : first ∈ kinds)
    (hfirstId : (S.operators.firstOperand (.branchAt (S.kindId kind) span nodes)).kind =
      S.kindId first) :
    S.Makes kinds (.branchAt (S.kindId kind) span nodes) := by
  refine ⟨.one hk rfl rfl hfirst hfirstId, fun n hn => ?_, fun n hn => ?_⟩
  all_goals
    rw [RawNode.preorderAll_cons, RawNode.preorderAll, List.append_nil] at hn
    rcases List.mem_cons.1 hn with rfl | hn
  · exact ⟨⟨kind, rfl, h.fits⟩, hranked⟩
  · exact h.allows n hn
  · exact hleaf
  · exact h.leaves n hn

/-- A node of its own for nodes that fit the layout of its kind. -/
theorem node_of_allows (span : Span) (h : S.Lays (S.layout kind) nodes)
    (hleaf : S.EndsWell (.branchAt (S.kindId kind) span nodes))
    (hk : S.kindId kind ≠ S.operators.binary) :
    S.Makes [kind] (.branchAt (S.kindId kind) span nodes) :=
  join_of_allows span h hleaf (fun heq => absurd heq hk) List.mem_cons_self List.mem_cons_self
    (by rw [S.operators.firstOperand_of_ne hk]; rfl)

/-- A node of its own for nodes that fit the layout of its kind. -/
theorem branch (kind : κ) (h : S.Lays (S.layout kind) nodes)
    (hk : S.kindId kind ≠ S.operators.binary) :
    S.Makes [kind] (.branch (S.kindId kind) nodes) := by
  refine node_of_allows _ h (fun hnil => .inl ?_) hk
  obtain rfl : nodes = [] := hnil
  rfl

/-- A leaf is made where the layout of its kind has no parts. -/
theorem of_leaf (span : Span) (h : S.Lays (S.layout kind) []) (hleaf : (S.layout kind).isLeaf)
    (hk : S.kindId kind ≠ S.operators.binary) : S.Makes [kind] (.leaf (S.kindId kind) span) :=
  node_of_allows _ h (fun _ => .inr ⟨kind, rfl, hleaf⟩) hk

/-- A token of a kind with nothing below it. -/
theorem of_nothing (span : Span) (h : S.layout kind = .nothing)
    (hk : S.kindId kind ≠ S.operators.binary) : S.Makes [kind] (.leaf (S.kindId kind) span) :=
  of_leaf span (h ▸ .nothing) (by rw [h]; rfl) hk

end Lays

end Schema

/-! ## Rules -/

namespace Rule.Yields

variable {κ φ : Type} {S : Schema τ κ φ} {p : Layout κ φ} {kind : κ}

theorem leaf (h : S.Lays (S.layout kind) []) (hleaf : (S.layout kind).isLeaf)
    (hk : S.kindId kind ≠ S.operators.binary) :
    (Rule.leaf (S.kindId kind) : Rule τ RawNode).Yields (S.Makes [kind]) := fun s _ _ hr => by
  obtain ⟨rfl, -⟩ := Rule.leaf_eq_ok.1 hr
  exact .of_leaf s.span h hleaf hk

/-- Each round adds a part, so what is repeated is a repetition of the layout. -/
theorem repeatWhile {condition : TokenStream τ → Bool} {items : Rule τ (List RawNode)}
    (h : items.Yields (S.Lays p)) :
    (Rule.repeatWhile condition items).Yields (S.Lays (.many p)) := fun _ _ _ hr => by
  obtain ⟨found, s₁, hf, hr⟩ := Rule.bind_eq_ok.1 hr
  obtain ⟨rfl, rfl⟩ := Rule.pure_eq_ok.1 hr
  refine iterate_ok (I := fun found _ => S.Lays (.many p) found.reverse)
    (fun _ x _ _ _ _ hx hround => ?_) .nil hf
  obtain ⟨nodes, s₃, hitem, hround⟩ := Rule.bind_eq_ok.1 hround
  obtain ⟨rfl, rfl⟩ := Rule.pure_eq_ok.1 hround
  exact (hx.append (h hitem).single).of_eq (by simp)

/-- One node at a time, any number of times. -/
theorem each {condition : TokenStream τ → Bool} {item : Rule τ RawNode} {kinds : List κ}
    (hitem : item.Yields (S.Makes kinds)) :
    (Rule.repeatWhile condition do return [← item]).Yields (S.Lays (.many (.one kinds none))) :=
  .repeatWhile (.bind hitem fun _ hitem => .pure hitem)

end Rule.Yields

/-! ## Joined operands -/

/-- The kind of the node by which an operator shows. -/
def OperatorForm.outerKind (form : OperatorForm) : KindId := form.group.getD form.kind

namespace Schema

variable {κ φ : Type}

/-- An operator shows by a node of one of some kinds: by its token, or by a group that holds
    nothing else. -/
def Shows (S : Schema τ κ φ) (operators : List κ) (form : OperatorForm) : Prop :=
  ∃ outer ∈ operators, form.outerKind = S.kindId outer ∧
    ((form.group = none ∧ S.layout outer = .nothing) ∨
      (form.group ≠ none ∧ S.layout outer = .one (S.layout outer).choices none ∧
        ∃ kind ∈ (S.layout outer).choices, form.kind = S.kindId kind ∧ S.layout kind = .nothing))

instance [DecidableEq κ] [DecidableEq φ] (S : Schema τ κ φ) (operators : List κ)
    (form : OperatorForm) : Decidable (S.Shows operators form) :=
  inferInstanceAs (Decidable (∃ outer ∈ operators, _ ∧ (_ ∧ _ ∨ _ ∧ _)))

/-- Kinds that stand in a table at their numbers are told by their numbers. -/
theorem eq_of_getElem? {all : List κ} {id : κ → KindId}
    (hall : ∀ kind, all[(id kind).index.toNat]? = some kind) {kind other : κ}
    (h : id kind = id other) : kind = other := by
  have heq : some kind = some other := by rw [← hall kind, h, hall other]
  exact Option.some.inj heq

/-- How a schema lays out joined operands: by the kinds of what may stand to the left and to the
    right of an operator, and of the operator itself. None of them is the kind of joined
    operands. -/
structure Joins (S : Schema τ κ φ) (binary : κ) (lefts operands operators : List κ)
    (left operator right : φ) : Prop where
  layout : S.layout binary = .one (binary :: lefts) (some left) ++
    .one operators (some operator) ++ .one (binary :: operands) (some right)
  binary_id : S.kindId binary = S.operators.binary
  left_id : S.fieldId left = S.operators.left
  operator_id : S.fieldId operator = S.operators.operator
  right_id : S.fieldId right = S.operators.right
  subset : operands ⊆ lefts
  ne_binary : ∀ kind ∈ lefts, S.kindId kind ≠ S.operators.binary

namespace Joins

variable {S : Schema τ κ φ} {binary kind : κ} {lefts operands operators firsts : List κ}
  {left operator right : φ} (hj : S.Joins binary lefts operands operators left operator right)
include hj

/-- What may be the first operand of a binary expression is none itself. -/
theorem kind_ne_binary (hsub : firsts ⊆ lefts) {node : RawNode} (h : S.Makes firsts node) :
    node.kind ≠ S.operators.binary := by
  cases h.fits with
  | one hkind hid _ _ _ => exact hid ▸ hj.ne_binary _ (hsub hkind)

/-- Joined operands have nodes below them. -/
theorem ne_binary_of_nothing (h : S.layout kind = .nothing) :
    S.kindId kind ≠ S.operators.binary := by
  intro heq
  rw [S.kindId_injective (heq.trans hj.binary_id.symm), hj.layout] at h
  cases h

/-- A kind whose layout is empty makes leaves. -/
theorem leaf_makes (h : S.layout kind = .nothing) :
    (Rule.leaf (S.kindId kind) : Rule τ RawNode).Yields (S.Makes [kind]) := fun s _ _ hr => by
  obtain ⟨rfl, -⟩ := Rule.leaf_eq_ok.1 hr
  exact .of_nothing s.span h (hj.ne_binary_of_nothing h)

theorem expect_makes [DecidableEq τ] {t : τ} {description : String}
    (h : S.layout kind = .nothing) :
    (Rule.expect t (S.kindId kind) description).Yields (S.Makes [kind]) := fun s _ _ hr => by
  obtain ⟨-, rfl, -⟩ := Rule.expect_eq_ok.1 hr
  exact .of_nothing s.span h (hj.ne_binary_of_nothing h)

/-- A number makes a leaf of one of two kinds. -/
theorem numeral_makes {float int : κ} (hfloat : S.layout float = .nothing)
    (hint : S.layout int = .nothing) :
    (Rule.numeral (S.kindId float) (S.kindId int) : Rule τ RawNode).Yields
      (S.Makes [int, float]) := by
  refine .ask fun text => ?_
  split
  · exact (hj.leaf_makes hfloat).imp fun _ h => h.mono (List.subset_cons_self _ _)
  · exact (hj.leaf_makes hint).imp fun _ h => h.mono (by simp)

/-- Items with a mark in front of each. -/
theorem marked_lay {mark : κ} {kinds : List κ} {condition : TokenStream τ → Bool}
    {item : Rule τ RawNode} (hmark : S.layout mark = .nothing)
    (hitem : item.Yields (S.Makes kinds)) :
    (Rule.repeatWhile condition do
      let mark ← Rule.leaf (S.kindId mark)
      return [mark, ← item]).Yields (S.Lays (.many (.only mark ++ .one kinds none))) := by
  refine .repeatWhile ?_
  refine .bind (hj.leaf_makes hmark) fun _ hmark => ?_
  refine .bind hitem fun _ hitem => ?_
  exact .pure (hmark.seq hitem)

/-- The node of an operator that shows by nodes of some kinds, which is of the kind by which it
    shows. -/
theorem node_makes {form : OperatorForm} {kinds : List κ} (h : S.Shows kinds form) :
    (form.node : Rule τ RawNode).Yields fun node =>
      node.kind = form.outerKind ∧ S.Makes kinds node := by
  obtain ⟨outer, hmem, hkind, hshows⟩ := h
  have hsub : [outer] ⊆ kinds := List.cons_subset.2 ⟨hmem, List.nil_subset _⟩
  rw [OperatorForm.outerKind] at hkind ⊢
  -- An operator is a token by itself or has a node around its token.
  rcases hshows with ⟨hgroup, hnothing⟩ | ⟨hgroup, houter, kind, hmem, hid, hnothing⟩
  · rw [hgroup, Option.getD_none] at hkind ⊢
    rw [OperatorForm.node, hkind, hgroup]
    refine .bind (hj.leaf_makes hnothing) fun _ htoken => ?_
    exact .pure ⟨htoken.kind_eq, htoken.mono hsub⟩
  · obtain ⟨group, hgroup⟩ := Option.ne_none_iff_exists'.1 hgroup
    rw [hgroup, Option.getD_some] at hkind ⊢
    have hne : S.kindId outer ≠ S.operators.binary := by
      intro heq
      rw [S.kindId_injective (heq.trans hj.binary_id.symm), hj.layout] at houter
      cases houter
    rw [OperatorForm.node, hid, hgroup, hkind]
    refine .bind (hj.leaf_makes hnothing) fun _ htoken => ?_
    have htoken := htoken.mono (List.cons_subset.2 ⟨hmem, List.nil_subset _⟩)
    exact .pure ⟨rfl, (Lays.branch outer (houter ▸ htoken) hne).mono hsub⟩

/-- An operand with a sign in front or without. -/
theorem signed_makes {signs : Signs τ} {plain operand : Rule τ RawNode} {unary : κ}
    {kinds : List κ} {signField operandField : φ}
    (hform : ∀ t, ∀ form ∈ signs.form? t, S.Shows kinds form)
    (hunary : S.kindId unary = signs.unary) (hsign : S.fieldId signField = signs.operator)
    (hfield : S.fieldId operandField = signs.operand)
    (hlayout : S.layout unary = .one kinds (some signField) ++ .one operands (some operandField))
    (hmem : unary ∈ operands) (hplain : plain.Yields (S.Makes operands))
    (hoperand : operand.Yields (S.Makes operands)) :
    (signs.signed plain operand).Yields (S.Makes operands) := by
  refine .peek fun next => ?_
  split
  case h_1 => exact hplain
  case h_2 form hf =>
    obtain ⟨t, -, hf⟩ := Option.bind_eq_some_iff.1 hf
    refine .bind (hj.node_makes (hform t form hf)) fun _ ⟨_, hsigned⟩ => ?_
    refine .bind hoperand fun _ hoperand => .pure ?_
    have hrow := (hsigned.withField signField).seq (hoperand.withField operandField)
    rw [hsign, hfield, ← hlayout] at hrow
    have hne : S.kindId unary ≠ S.operators.binary := hj.ne_binary unary (hj.subset hmem)
    rw [Signs.node, ← hunary]
    exact (Lays.branch unary hrow hne).mono (List.cons_subset.2 ⟨hmem, List.nil_subset _⟩)

/-- A ranked tree makes a node that conforms, if its operands and operators do. -/
theorem treeNode {t : OperatorTree} (ht : t.IsRanked) (hsub : firsts ⊆ lefts)
    (hfirst : S.Makes firsts t.first)
    (hitems : ∀ item ∈ t.rest, S.operators.classes.lookup item.1.node.kind = some item.1.level ∧
      S.Makes operators item.1.node ∧ S.Makes operands item.2) :
    S.Makes (binary :: firsts) (S.operators.treeNode t) := by
  induction t generalizing firsts with
  | operand node => exact hfirst.mono (List.subset_cons_self _ _)
  | join l joint r ihl ihr =>
    obtain ⟨-, ho, hnext⟩ := hitems (joint, r.first) (by simp [OperatorTree.rest])
    have hl := ihl ht.1 hsub hfirst fun item hitem => hitems item (List.mem_append_left _ hitem)
    have hr := ihr ht.2.1 hj.subset hnext fun item hitem =>
      hitems item (List.mem_append_right _ (List.mem_cons_of_mem _ hitem))
    have hrow := (((hl.mono (List.cons_subset_cons _ hsub)).withField left).seq
      (ho.withField operator)).seq (hr.withField right)
    rw [hj.left_id, hj.operator_id, hj.right_id, ← hj.layout] at hrow
    -- The first operand is no binary expression, so the ranks are those of the tree alone.
    have hranked := S.operators.isRanked_treeNode ht (fun item hitem => (hitems item hitem).1)
      (hj.kind_ne_binary hsub hfirst) (hj.kind_ne_binary hj.subset hnext)
    obtain ⟨first, hmem, hid⟩ := hl.exists_first
    rw [Operators.treeNode, Operators.node, ← hj.binary_id]
    refine .join_of_allows _ hrow (fun hnil => absurd hnil (List.cons_ne_nil _ _))
      (fun _ => hranked) List.mem_cons_self hmem ?_
    rw [← S.operators.kind_firstOperand_withField _ S.operators.left] at hid
    rw [S.operators.firstOperand_cons hj.binary_id rfl, hid]

/-- What extends an operand makes a node that conforms. -/
theorem extend {operand : Rule τ RawNode} {first : RawNode}
    (hform : ∀ t, ∀ form ∈ S.operators.form? t, S.Shows operators form ∧
      S.operators.classes.lookup form.outerKind = some form.level)
    (hoperand : operand.Yields (S.Makes operands)) (hsub : firsts ⊆ lefts)
    (hfirst : S.Makes firsts first) :
    (S.operators.extend operand first).Yields (S.Makes (binary :: firsts)) := fun s _ s' h => by
  obtain ⟨t, rfl, ht, rfl⟩ := Operators.exists_parses OperatorClass.pairwise_all h
  refine hj.treeNode ht.ranked hsub hfirst ?_
  have hchain := ht.chain
  generalize t.rest = items at hchain
  clear ht h
  induction hchain with
  | nil => exact fun _ hitem => nomatch hitem
  | cons hup ho hnext _ ih =>
    intro item hitem
    rcases List.mem_cons.1 hitem with rfl | hitem
    · obtain ⟨x, -, hx⟩ := Option.bind_eq_some_iff.1 hup
      obtain ⟨hshows, hclass⟩ := hform x _ hx
      obtain ⟨hkind, hmakes⟩ := hj.node_makes hshows ho
      exact ⟨hkind ▸ hclass, hmakes, hoperand hnext⟩
    · exact ih item hitem

/-- Operators and operands make operands or binary expressions, if every form shows as an operator
    of its own level. -/
theorem expression {operand : Rule τ RawNode}
    (hform : ∀ t, ∀ form ∈ S.operators.form? t, S.Shows operators form ∧
      S.operators.classes.lookup form.outerKind = some form.level)
    (hoperand : operand.Yields (S.Makes operands)) :
    (S.operators.expression operand).Yields (S.Makes (binary :: operands)) :=
  .bind hoperand fun _ hfirst => hj.extend hform hoperand hj.subset hfirst

end Joins

end Schema

/-! ## Sources -/

namespace Grammar

variable {κ φ : Type} {g : Grammar τ} {S : Schema τ κ φ} {items : List κ} {root : κ}

/-- A grammar whose statements conform to a schema, and what stands for broken ones as well. -/
structure Conforms (g : Grammar τ) (S : Schema τ κ φ) (items : List κ) (root : κ) : Prop where
  statement : g.statement.Yields (S.Lays (.many (.one items none)))
  recover : ∀ s, S.Lays (.many (.one items none)) (g.recover s).1
  root_id : S.kindId root = g.root
  root_layout : S.layout root = .many (.one items none)
  root_ne : g.root ≠ S.operators.binary

/-- Whatever a run of statements makes is laid as the items of the root. -/
theorem Conforms.lays (h : g.Conforms S items root) {s : TokenStream τ} {nodes : List RawNode}
    {errors : List SyntaxError} (hrun : g.Run s nodes errors) :
    S.Lays (.many (.one items none)) nodes := by
  induction hrun with
  | done => exact .nil
  | statement _ hstatement _ ih => exact (h.statement hstatement).append ih
  | @broken s _ _ _ _ _ _ _ hrecover _ ih =>
    have hfound := h.recover s
    rw [hrecover] at hfound
    exact hfound.append ih

/-- Without its comments, a parsed source conforms. -/
theorem Conforms.allows_parse (h : g.Conforms S items root) (hg : g.IsProgressive)
    (hf : g.IsFaithful) (hcomment : g.comment ≠ .error) (source : String) :
    ∀ n ∈ ((g.parse source).root.without g.comment).preorder, S.Allows n := by
  have hlays := h.lays (run_statements hg (.ofLexemes (g.lexicon.lex source).lexemes
    (Text.byteLength source.toList)))
  rw [without_parse hg hf hcomment]
  intro n hn
  rcases List.mem_cons.1 (RawNode.preorder_eq _ ▸ hn) with rfl | hn
  · exact ⟨⟨root, h.root_id.symm, h.root_layout ▸ hlays.fits⟩, fun heq => absurd heq h.root_ne⟩
  · exact hlays.allows n hn

/-- Without its comments, a parsed source has no leaves below the root but tokens. -/
theorem Conforms.endsWell_parse (h : g.Conforms S items root) (hg : g.IsProgressive)
    (hf : g.IsFaithful) (hcomment : g.comment ≠ .error) (source : String) :
    ∀ n ∈ RawNode.preorderAll ((g.parse source).root.without g.comment).children,
      S.EndsWell n := by
  rw [without_parse hg hf hcomment]
  exact (h.lays (run_statements hg (.ofLexemes (g.lexicon.lex source).lexemes
    (Text.byteLength source.toList)))).leaves

end Grammar

end GrammarTools
