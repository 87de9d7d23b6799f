import GrammarTools.Proofs.Arena

/-!
# Raw trees read back from their arrays

The array of a tree has the raw tree in it: every node stands at its number with
all nodes below it right behind it, as the recursion over the raw nodes puts them
(`Tree.Stands`). A node that stands somewhere has its children standing where it
says (`Tree.Stands.children`), and every number of the array is that of a node
that stands there below its parent (`Tree.Stands.exists_stands`).

So the raw tree can be rebuilt from the numbers of children alone, and what the
array says of parents, of what is below a node and of errors is right
(`Tree.represents_ofOutput`).
-/

namespace GrammarTools

variable {tree : Tree} {parent : Option NodeId} {id : Nat} {node : RawNode}

namespace RawNode

/-- The numbers of some nodes, of which the first has the number `id`. -/
def ids (id : NodeId) : List RawNode → List NodeId
  | [] => []
  | node :: rest => id :: ids (id + node.size) rest

theorem map_fst_marked (id : NodeId) (nodes : List RawNode) :
    (marked id nodes).map Prod.fst = ids id nodes := by
  induction nodes generalizing id with
  | nil => rfl
  | cons node rest ih => rw [marked, List.map_cons, ih, ids]

theorem size_pos (node : RawNode) : 0 < node.size := by
  rw [size_eq]
  omega

mutual

/-- A node takes as many places as it has nodes in it. -/
theorem length_number (parent : Option NodeId) (id : NodeId) :
    (node : RawNode) → (node.number parent id).length = node.size
  | ⟨kind, field, span, children⟩ => by
    rw [number, List.length_cons, length_numberAll, size, Nat.add_comm]

theorem length_numberAll (parent : Option NodeId) (id : NodeId) :
    (nodes : List RawNode) → (numberAll parent id nodes).length = sizeAll nodes
  | [] => rfl
  | node :: rest => by
    rw [numberAll, List.length_append, length_number, length_numberAll, sizeAll]

end

/-- The first place is that of the node itself, and its children come behind it. -/
theorem number_eq (parent : Option NodeId) (id : NodeId) (node : RawNode) :
    node.number parent id =
      ⟨node.kind, node.field, node.span, parent, ids (id + 1) node.children, node.hasError⟩ ::
        numberAll (some id) (id + 1) node.children := by
  obtain ⟨kind, field, span, children⟩ := node
  rw [number, map_fst_marked]

/-- What a node shows of itself alone. -/
def label (node : RawNode) : KindId × Option FieldId × Span := (node.kind, node.field, node.span)

end RawNode

/-- What a node of an array shows of itself alone. -/
def NodeData.label (data : NodeData) : KindId × Option FieldId × Span :=
  (data.kind, data.field, data.span)

namespace RawNode

mutual

/-- Labels are numbered in the order from the root down. -/
theorem map_label_number (parent : Option NodeId) (id : NodeId) : (node : RawNode) →
    (node.number parent id).map NodeData.label = node.preorder.map label
  | ⟨kind, field, span, children⟩ => by
    rw [number, List.map_cons, map_label_numberAll, preorder, List.map_cons]
    rfl

theorem map_label_numberAll (parent : Option NodeId) (id : NodeId) : (nodes : List RawNode) →
    (numberAll parent id nodes).map NodeData.label = (preorderAll nodes).map label
  | [] => rfl
  | node :: rest => by
    rw [numberAll, List.map_append, map_label_number, map_label_numberAll, preorderAll,
      List.map_append]

end

/-- Numbers go on behind the last node in a row. -/
theorem numberAll_append (parent : Option NodeId) (id : NodeId) (nodes more : List RawNode) :
    numberAll parent id (nodes ++ more) =
      numberAll parent id nodes ++ numberAll parent (id + sizeAll nodes) more := by
  induction nodes generalizing id with
  | nil => rfl
  | cons node rest ih =>
    rw [List.cons_append, numberAll, numberAll, ih, sizeAll, List.append_assoc, Nat.add_assoc]

theorem sizeAll_append (nodes more : List RawNode) :
    sizeAll (nodes ++ more) = sizeAll nodes + sizeAll more := by
  induction nodes with
  | nil => rw [List.nil_append, sizeAll, Nat.zero_add]
  | cons node rest ih => rw [List.cons_append, sizeAll, sizeAll, ih, Nat.add_assoc]

/-- The number of a node is behind the nodes in front of it. -/
theorem mem_ids_iff {id i : Nat} {nodes : List RawNode} : i ∈ ids id nodes ↔
    ∃ before child after, nodes = before ++ child :: after ∧ i = id + sizeAll before := by
  induction nodes generalizing id with
  | nil => simp [ids]
  | cons node rest ih =>
    rw [ids, List.mem_cons, ih]
    constructor
    · rintro (rfl | ⟨before, child, after, rfl, rfl⟩)
      · exact ⟨[], node, rest, rfl, rfl⟩
      · exact ⟨node :: before, child, after, rfl, by rw [sizeAll, Nat.add_assoc]⟩
    · rintro ⟨before, child, after, heq, rfl⟩
      cases before with
      | nil => exact .inl rfl
      | cons first before =>
        obtain ⟨rfl, rfl⟩ := List.cons.inj heq
        exact .inr ⟨before, child, after, rfl, by rw [sizeAll, Nat.add_assoc]⟩

/-- What holds of each child and its number holds of all of them. -/
theorem forall₂_ids {r : NodeId → RawNode → Prop} {id : Nat} {nodes : List RawNode}
    (h : ∀ before child after, nodes = before ++ child :: after → r (id + sizeAll before) child) :
    List.Forall₂ r (ids id nodes) nodes := by
  induction nodes generalizing id with
  | nil => exact .nil
  | cons node rest ih =>
    refine .cons (h [] node rest rfl) (ih fun before child after heq => ?_)
    have hr := h (node :: before) child after (by rw [heq]; rfl)
    rwa [sizeAll, ← Nat.add_assoc] at hr

/-- The node among some nodes to which a number below their size falls. -/
theorem exists_of_lt_sizeAll {nodes : List RawNode} {n : Nat} (h : n < sizeAll nodes) :
    ∃ before child after, nodes = before ++ child :: after ∧ sizeAll before ≤ n ∧
      n < sizeAll before + child.size := by
  induction nodes generalizing n with
  | nil => exact absurd h (Nat.not_lt_zero n)
  | cons node rest ih =>
    rw [sizeAll] at h
    rcases Nat.lt_or_ge n node.size with hn | hn
    · exact ⟨[], node, rest, rfl, Nat.zero_le _, by rwa [sizeAll, Nat.zero_add]⟩
    · obtain ⟨before, child, after, rfl, hle, hlt⟩ := @ih (n - node.size) (by omega)
      refine ⟨node :: before, child, after, rfl, ?_, ?_⟩ <;> rw [sizeAll] <;> omega

end RawNode

namespace Tree

/-! ## Nodes in their places -/

/-- A raw node that stands in the array at the number `id`, with all nodes below it behind it. -/
def Stands (tree : Tree) (parent : Option NodeId) (id : NodeId) (node : RawNode) : Prop :=
  ∃ front back, tree.nodes.toList = front ++ node.number parent id ++ back ∧ front.length = id

/-- The root stands at the first place of the array. -/
theorem stands_root (language : Language) (source : String) (output : ParseOutput) :
    (ofOutput language source output).Stands none 0 output.root :=
  ⟨[], [], by simp [ofOutput, Arena.ofRaw_eq], rfl⟩

namespace Stands

variable (h : tree.Stands parent id node)
include h

/-- At its own place, a node has its own label and the numbers of its children. -/
theorem getElem? : tree.nodes[id]? = some ⟨node.kind, node.field, node.span, parent,
    RawNode.ids (id + 1) node.children, node.hasError⟩ := by
  obtain ⟨front, back, hnodes, rfl⟩ := h
  rw [← Array.getElem?_toList, hnodes, RawNode.number_eq]
  simp

/-- What the array says of a node. -/
theorem data_eq : (Node.mk tree id).data = ⟨node.kind, node.field, node.span, parent,
    RawNode.ids (id + 1) node.children, node.hasError⟩ := by
  rw [Node.data, Array.getD_eq_getD_getElem?, h.getElem?, Option.getD_some]

/-- All that is below a node stands behind it. -/
theorem le_size : id + node.size ≤ tree.nodes.size := by
  obtain ⟨front, back, hnodes, rfl⟩ := h
  have hlength := congrArg List.length hnodes
  rw [List.length_append, List.length_append, RawNode.length_number, Array.length_toList] at hlength
  omega

theorem lt_size : id < tree.nodes.size := by
  have := h.le_size
  have := node.size_pos
  omega

/-- A child of a node stands behind the node and the children in front of it. -/
theorem child {before after : List RawNode} {child : RawNode}
    (hc : node.children = before ++ child :: after) :
    tree.Stands (some id) (id + 1 + RawNode.sizeAll before) child := by
  obtain ⟨front, back, hnodes, rfl⟩ := h
  obtain ⟨data, hdata⟩ : ∃ data, node.number parent front.length =
      data :: RawNode.numberAll (some front.length) (front.length + 1) node.children :=
    ⟨_, RawNode.number_eq ..⟩
  rw [hdata, hc, RawNode.numberAll_append, RawNode.numberAll] at hnodes
  refine ⟨front ++ data :: RawNode.numberAll (some front.length) (front.length + 1) before,
    RawNode.numberAll (some front.length)
      (front.length + 1 + RawNode.sizeAll before + child.size) after ++ back, ?_, ?_⟩
  · rw [hnodes]
    simp only [List.append_assoc, List.cons_append]
  · rw [List.length_append, List.length_cons, RawNode.length_numberAll]
    omega

/-- The children of a node stand where its numbers say. -/
theorem children :
    List.Forall₂ (tree.Stands (some id)) (RawNode.ids (id + 1) node.children) node.children :=
  RawNode.forall₂_ids fun _ _ _ hc => h.child hc

end Stands

/-- A number behind that of a node, among the nodes below it, is that of a node which stands there
    and is listed by its parent. -/
theorem Stands.exists_parent {parent : Option NodeId} {id i : Nat} {node : RawNode}
    (h : tree.Stands parent id node) (hlt : id < i) (hi : i < id + node.size) :
    ∃ (p : Nat) (above : RawNode) (grand : Option NodeId) (child : RawNode),
      tree.Stands grand p above ∧ p < i ∧ i ∈ RawNode.ids (p + 1) above.children ∧
        tree.Stands (some p) i child := by
  rw [RawNode.size_eq] at hi
  have hwithin : i - (id + 1) < RawNode.sizeAll node.children := by omega
  obtain ⟨before, child, after, hc, hle, hbelow⟩ := RawNode.exists_of_lt_sizeAll hwithin
  have hchild := h.child hc
  -- The number is that of a child, or it falls below one.
  rcases Nat.eq_or_lt_of_le (show id + 1 + RawNode.sizeAll before ≤ i by omega) with rfl | hlt'
  · exact ⟨id, node, parent, child, h, hlt, RawNode.mem_ids_iff.2 ⟨before, child, after, hc, rfl⟩,
      hchild⟩
  · exact hchild.exists_parent hlt' (by omega)
termination_by node
decreasing_by
  have hmem : child ∈ node.children := hc ▸ List.mem_append_right before List.mem_cons_self
  have := List.sizeOf_lt_of_mem hmem
  cases node
  simp only [RawNode.mk.sizeOf_spec] at *
  omega

/-! ## Trees read back -/

/-- The raw tree from a node down, by the numbers of children. The first argument bounds its
    height. -/
def rebuild (tree : Tree) : Nat → NodeId → Option RawNode
  | 0, _ => none
  | bound + 1, id => do
    let data ← tree.nodes[id]?
    let children ← data.children.mapM (tree.rebuild bound)
    return ⟨data.kind, data.field, data.span, children⟩

/-- With enough fuel, a node is read back from its place. -/
theorem Stands.rebuild_eq (h : tree.Stands parent id node) {bound : Nat} (hb : node.size ≤ bound) :
    tree.rebuild bound id = some node := by
  induction bound generalizing parent id node with
  | zero =>
    have := node.size_pos
    omega
  | succ bound ih =>
    have hchildren : (RawNode.ids (id + 1) node.children).mapM (tree.rebuild bound) =
        some node.children := by
      have hsmall : RawNode.sizeAll node.children ≤ bound := by
        rw [RawNode.size_eq] at hb
        omega
      have hall := h.children
      -- The outer induction is on the bound, this one goes along the row of children.
      clear h hb
      generalize node.children = nodes at hall hsmall
      generalize RawNode.ids (id + 1) nodes = ids at hall
      induction hall with
      | nil => rfl
      | cons hchild _ ihc =>
        rw [RawNode.sizeAll] at hsmall
        rw [List.mapM_cons, ih hchild (by omega), ihc (by omega)]
        rfl
    cases node
    rw [rebuild, h.getElem?]
    simp [hchildren]

/-! ## Nodes below a node -/

/-- The numbers of some nodes and of all below them, where each stands at one of some numbers. -/
def idsBelow : List NodeId → List RawNode → List NodeId
  | id :: ids, node :: nodes => List.range' id node.size ++ idsBelow ids nodes
  | _, _ => []

/-- The numbers below some nodes are without gaps. -/
theorem idsBelow_ids (id : Nat) (nodes : List RawNode) :
    idsBelow (RawNode.ids id nodes) nodes = List.range' id (RawNode.sizeAll nodes) := by
  induction nodes generalizing id with
  | nil => rfl
  | cons node rest ih =>
    rw [RawNode.ids, idsBelow, ih, RawNode.sizeAll, List.range'_append_1]

/-- What is below nodes in a row is in a row. -/
theorem idsBelow_append {ids more : List NodeId} {nodes below : List RawNode}
    (h : ids.length = nodes.length) :
    idsBelow (ids ++ more) (nodes ++ below) = idsBelow ids nodes ++ idsBelow more below := by
  induction ids generalizing nodes with
  | nil =>
    obtain rfl := List.eq_nil_of_length_eq_zero h.symm
    rfl
  | cons id ids ih =>
    cases nodes with
    | nil => cases h
    | cons node nodes =>
      rw [List.cons_append, List.cons_append, idsBelow, idsBelow, ih (Nat.succ.inj h),
        List.append_assoc]

/-- A walk over some nodes that stand in the array finds them and all below them. -/
theorem descendantsFrom_eq {ids : List NodeId} (found : List NodeId) {nodes : List RawNode}
    {bound : Nat}
    (h : List.Forall₂ (fun id node => ∃ parent, tree.Stands parent id node) ids nodes)
    (hb : RawNode.sizeAll nodes ≤ bound) :
    Node.descendantsFrom tree bound found ids = found.reverse ++ idsBelow ids nodes := by
  induction bound generalizing found ids nodes with
  | zero =>
    cases h with
    | nil => simp [Node.descendantsFrom, idsBelow]
    | @cons _ node _ rest =>
      have := node.size_pos
      rw [RawNode.sizeAll] at hb
      omega
  | succ bound ih =>
    cases h with
    | nil => simp [Node.descendantsFrom, idsBelow]
    | @cons id node ids rest hfirst hrest =>
      obtain ⟨parent, hfirst⟩ := hfirst
      have hbelow : List.Forall₂ (fun id node => ∃ parent, tree.Stands parent id node)
          (RawNode.ids (id + 1) node.children) node.children :=
        hfirst.children.imp fun _ _ h => ⟨some id, h⟩
      have hsize : RawNode.sizeAll (node.children ++ rest) ≤ bound := by
        rw [RawNode.sizeAll, RawNode.size_eq] at hb
        rw [RawNode.sizeAll_append]
        omega
      rw [Node.descendantsFrom, hfirst.data_eq, ih _ (List.rel_append hbelow hrest) hsize,
        idsBelow_append hbelow.length_eq, idsBelow_ids, idsBelow, RawNode.size_eq,
        Nat.add_comm 1, List.range'_succ, List.reverse_cons]
      simp only [List.append_assoc, List.cons_append, List.nil_append]

/-- Every number of the array is that of a node that stands there, which is the root or is listed by
    its parent. -/
theorem exists_stands {root : RawNode} (h : tree.Stands none 0 root)
    (hsize : tree.nodes.size = root.size) {id : Nat} (hid : id < tree.nodes.size) :
    ∃ parent node, tree.Stands parent id node ∧
      ((id = 0 ∧ parent = none) ∨
        ∃ p < id, parent = some p ∧ id ∈ (Node.mk tree p).data.children) := by
  rcases Nat.eq_zero_or_pos id with rfl | hpos
  · exact ⟨none, root, h, .inl ⟨rfl, rfl⟩⟩
  · obtain ⟨p, above, grand, child, habove, hlt, hmem, hchild⟩ :=
      h.exists_parent hpos (by omega)
    refine ⟨some p, child, hchild, .inr ⟨p, hlt, rfl, ?_⟩⟩
    rwa [habove.data_eq]

/-- A node that another one lists stands at its number, below that other one. -/
theorem exists_stands_of_mem {root : RawNode} (h : tree.Stands none 0 root)
    (hsize : tree.nodes.size = root.size) {p id : Nat}
    (hmem : id ∈ (Node.mk tree p).data.children) :
    p < id ∧ ∃ node, tree.Stands (some p) id node := by
  rcases Nat.lt_or_ge p tree.nodes.size with hp | hp
  · obtain ⟨parent, above, habove, -⟩ := exists_stands h hsize hp
    rw [habove.data_eq] at hmem
    obtain ⟨before, child, after, hc, rfl⟩ := RawNode.mem_ids_iff.1 hmem
    exact ⟨by omega, child, habove.child hc⟩
  · -- Behind the end of the array there are no nodes, and so no children.
    rw [Node.data, Array.getD_eq_getD_getElem?, Array.getElem?_eq_none hp] at hmem
    cases hmem

/-! ## The array of a tree -/

namespace Stands

/-- Below a node there are as many numbers behind it as there are nodes. -/
theorem descendants_eq (h : tree.Stands parent id node) :
    (Node.mk tree id).descendants = (List.range' id node.size).map (Node.mk tree) := by
  have hle := h.le_size
  have hwalk := descendantsFrom_eq [] (.cons ⟨parent, h⟩ .nil)
    (show RawNode.sizeAll [node] ≤ tree.nodes.size by
      simp only [RawNode.sizeAll]
      omega)
  rw [Node.descendants, hwalk]
  simp only [List.reverse_nil, List.nil_append, idsBelow, List.append_nil]
  rfl

/-- A node has an error exactly if there is one somewhere in it. -/
theorem hasError_iff (h : tree.Stands parent id node) :
    (Node.mk tree id).hasError = true ↔ ∃ n ∈ node.preorder, n.kind = ⟨0⟩ := by
  rw [Node.hasError, h.data_eq, RawNode.hasError, List.any_eq_true]
  simp [RawNode.isError, KindId.error]

end Stands

section root

variable {root : RawNode} (h : tree.Stands none 0 root) (hsize : tree.nodes.size = root.size)
include h hsize

/-- Only the first node has no parent. -/
theorem parent_eq_none_iff {id : Nat} (hid : id < tree.nodes.size) :
    (Node.mk tree id).data.parent = none ↔ id = 0 := by
  obtain ⟨parent, node, hnode, ⟨rfl, rfl⟩ | ⟨p, hlt, rfl, -⟩⟩ := exists_stands h hsize hid
  · simp [hnode.data_eq]
  · simp only [hnode.data_eq, reduceCtorEq, false_iff]
    omega

/-- The parent of a node is the one that lists it. -/
theorem parent_eq_some_iff {id : Nat} (hid : id < tree.nodes.size) (p : NodeId) :
    (Node.mk tree id).data.parent = some p ↔ id ∈ (Node.mk tree p).data.children := by
  constructor
  · intro hp
    obtain ⟨parent, node, hnode, ⟨rfl, rfl⟩ | ⟨q, -, rfl, hmem⟩⟩ := exists_stands h hsize hid
    · simp [hnode.data_eq] at hp
    · rw [hnode.data_eq] at hp
      exact Option.some.inj hp ▸ hmem
  · intro hmem
    obtain ⟨-, node, hnode⟩ := exists_stands_of_mem h hsize hmem
    rw [hnode.data_eq]

end root

/-- A tree whose array holds a raw tree in pre-order, with every node linked to those around it. -/
structure Represents (tree : Tree) (root : RawNode) : Prop where
  preorder : tree.nodes.toList.map NodeData.label = root.preorder.map RawNode.label
  rebuild : tree.rebuild tree.nodes.size 0 = some root
  parent_eq_none_iff : ∀ id < tree.nodes.size, (Node.mk tree id).data.parent = none ↔ id = 0
  parent_eq_some_iff : ∀ id < tree.nodes.size, ∀ p,
    (Node.mk tree id).data.parent = some p ↔ id ∈ (Node.mk tree p).data.children
  lt_of_mem_children : ∀ p, ∀ id ∈ (Node.mk tree p).data.children, p < id ∧ id < tree.nodes.size
  below : ∀ id < tree.nodes.size, ∃ node, tree.rebuild tree.nodes.size id = some node ∧
    (Node.mk tree id).descendants = (List.range' id node.size).map (Node.mk tree) ∧
    ((Node.mk tree id).hasError = true ↔ ∃ n ∈ node.preorder, n.kind = ⟨0⟩)

/-- The array of a tree holds the raw tree that it is made of. -/
theorem represents_ofOutput (language : Language) (source : String) (root : RawNode)
    (errors : List SyntaxError) : (ofOutput language source ⟨root, errors⟩).Represents root := by
  have hroot : (ofOutput language source ⟨root, errors⟩).Stands none 0 root :=
    stands_root language source ⟨root, errors⟩
  have hnodes : (ofOutput language source ⟨root, errors⟩).nodes.toList = root.number none 0 := by
    rw [ofOutput, Arena.ofRaw_eq]
  have hsize : (ofOutput language source ⟨root, errors⟩).nodes.size = root.size := by
    rw [← Array.length_toList, hnodes, RawNode.length_number]
  generalize ofOutput language source ⟨root, errors⟩ = tree at hroot hnodes hsize
  refine ⟨?_, hroot.rebuild_eq hsize.ge, fun id hid => parent_eq_none_iff hroot hsize hid,
    fun id hid => parent_eq_some_iff hroot hsize hid, fun p id hmem => ?_, fun id hid => ?_⟩
  · rw [hnodes, RawNode.map_label_number]
  · obtain ⟨hlt, node, hnode⟩ := exists_stands_of_mem hroot hsize hmem
    exact ⟨hlt, hnode.lt_size⟩
  · obtain ⟨parent, node, hnode, -⟩ := exists_stands hroot hsize hid
    have hle := hnode.le_size
    exact ⟨node, hnode.rebuild_eq (by omega), hnode.descendants_eq, hnode.hasError_iff⟩

end Tree

end GrammarTools
