import GrammarTools.Proofs.Lossless
import GrammarTools.Tree

/-!
# Raw trees in an array

The array of a tree, described by recursion over the raw nodes: first comes the
node itself, with the numbers of its children and whether an error stands in it
or below, and then come the nodes below each child, one child after the other
(`RawNode.number`).

The first pass finds the nodes in this order (`Arena.preorder_eq`). The second
pass comes to a node when it has visited all below, and then the finished
subtrees begin with those of its children (`Arena.foldr_link_entries`). So both
passes together make the array that the recursion describes (`Arena.ofRaw_eq`).
-/

namespace GrammarTools

namespace RawNode

/-- Whether a node or one below stands for an error. -/
def hasError (node : RawNode) : Bool := node.preorder.any isError

/-- The numbers of some nodes, of which the first has the number `id`, and whether an error
    stands in them or below. -/
def marked (id : NodeId) : List RawNode → List (NodeId × Bool)
  | [] => []
  | node :: rest => (id, node.hasError) :: marked (id + node.size) rest

mutual

/-- The nodes from a node down, in pre-order and numbered from `id` on. -/
def number (parent : Option NodeId) (id : NodeId) : RawNode → List NodeData
  | ⟨kind, field, span, children⟩ =>
    ⟨kind, field, span, parent, (marked (id + 1) children).map Prod.fst,
      hasError ⟨kind, field, span, children⟩⟩ :: numberAll (some id) (id + 1) children

/-- The nodes from some nodes down, in pre-order and numbered from `id` on. -/
def numberAll (parent : Option NodeId) (id : NodeId) : List RawNode → List NodeData
  | [] => []
  | node :: rest => number parent id node ++ numberAll parent (id + node.size) rest

end

theorem length_marked (id : NodeId) (nodes : List RawNode) :
    (marked id nodes).length = nodes.length := by
  induction nodes generalizing id with
  | nil => rfl
  | cons node rest ih => simp [marked, ih]

/-- There is an error among marked nodes exactly if there is one in them. -/
theorem any_marked (id : NodeId) (nodes : List RawNode) :
    (marked id nodes).any Prod.snd = (preorderAll nodes).any isError := by
  induction nodes generalizing id with
  | nil => rfl
  | cons node rest ih => simp [marked, ih, hasError, Bool.or_assoc]

/-- A node has an error if it is one or if one of its children has one. -/
theorem hasError_eq (node : RawNode) (id : NodeId) :
    node.hasError = (node.isError || (marked id node.children).any Prod.snd) := by
  rw [hasError, preorder_eq, List.any_cons, any_marked]

theorem size_eq (node : RawNode) : node.size = 1 + sizeAll node.children := by
  cases node
  rfl

end RawNode

namespace Arena

mutual

/-- The entries for the nodes from a node down, in pre-order. -/
def entries (parent : Option NodeId) (id : NodeId) : RawNode → List Entry
  | ⟨kind, field, span, children⟩ =>
    ⟨⟨kind, field, span, children⟩, parent⟩ :: entriesAll (some id) (id + 1) children

/-- The entries for the nodes from some nodes down, in pre-order. -/
def entriesAll (parent : Option NodeId) (id : NodeId) : List RawNode → List Entry
  | [] => []
  | node :: rest => entries parent id node ++ entriesAll parent (id + node.size) rest

end

/-- The entries for some entries and all below them, in pre-order. -/
def unfold (id : NodeId) : List Entry → List Entry
  | [] => []
  | e :: rest => entries e.parent id e.node ++ unfold (id + e.node.size) rest

/-- The entries of a node are its own and those of its children. -/
theorem entries_eq (parent : Option NodeId) (id : NodeId) (node : RawNode) :
    entries parent id node = ⟨node, parent⟩ :: entriesAll (some id) (id + 1) node.children := by
  cases node
  rfl

mutual

/-- A node has as many entries as there are nodes in it. -/
theorem length_entries (parent : Option NodeId) (id : NodeId) :
    (node : RawNode) → (entries parent id node).length = node.size
  | ⟨kind, field, span, children⟩ => by
    rw [entries, List.length_cons, length_entriesAll, RawNode.size, Nat.add_comm]

theorem length_entriesAll (parent : Option NodeId) (id : NodeId) :
    (nodes : List RawNode) → (entriesAll parent id nodes).length = RawNode.sizeAll nodes
  | [] => rfl
  | node :: rest => by
    rw [entriesAll, List.length_append, length_entries, length_entriesAll, RawNode.sizeAll]

end

/-- What is still to be unfolded goes on behind what is unfolded first. -/
theorem unfold_append (id : NodeId) (es es' : List Entry) :
    unfold id (es ++ es') = unfold id es ++ unfold (id + Entry.totalSize es) es' := by
  induction es generalizing id with
  | nil => rfl
  | cons e rest ih =>
    rw [List.cons_append, unfold, unfold, ih, List.append_assoc, Entry.totalSize, Nat.add_assoc]

/-- Unfolding some nodes gives all entries below them. -/
theorem unfold_map (id : NodeId) (parent : Option NodeId) (nodes : List RawNode) :
    unfold id (nodes.map (⟨·, parent⟩)) = entriesAll parent id nodes := by
  induction nodes generalizing id with
  | nil => rfl
  | cons node rest ih => rw [List.map_cons, unfold, ih, entriesAll]

/-- The first pass puts the nodes in pre-order. -/
theorem preorder_eq (id : NodeId) (done waiting : List Entry) :
    preorder id done waiting = (unfold id waiting).reverse ++ done := by
  fun_induction preorder id done waiting with
  | case1 id done => rfl
  | case2 id done e waiting ih =>
    rw [ih, unfold_append, Entry.below, unfold_map, Entry.totalSize_map, unfold, entries_eq,
      RawNode.size_eq, ← Nat.add_assoc, List.cons_append, List.reverse_cons, List.append_assoc]
    rfl

mutual

/-- The second pass over all nodes from a node down leaves one finished subtree. -/
theorem foldr_link_entries (parent : Option NodeId) (id : NodeId)
    (orphans : List (NodeId × Bool)) (nodes : List NodeData) : (node : RawNode) →
    (entries parent id node).foldr (fun e state => link state e)
      ⟨id + node.size, orphans, nodes⟩ =
        ⟨id, (id, node.hasError) :: orphans, node.number parent id ++ nodes⟩
  | ⟨kind, field, span, children⟩ => by
    have hbelow := foldr_link_entriesAll (some id) (id + 1) orphans nodes children
    have hlength := RawNode.length_marked (id + 1) children
    rw [entries, List.foldr_cons, RawNode.size, ← Nat.add_assoc, hbelow, link,
      ← hlength, List.take_left, List.drop_left, Nat.add_sub_cancel,
      ← RawNode.hasError_eq ⟨kind, field, span, children⟩ (id + 1), RawNode.number]
    rfl

/-- The second pass over all nodes from some nodes down leaves a finished subtree for each. -/
theorem foldr_link_entriesAll (parent : Option NodeId) (id : NodeId)
    (orphans : List (NodeId × Bool)) (nodes : List NodeData) : (below : List RawNode) →
    (entriesAll parent id below).foldr (fun e state => link state e)
      ⟨id + RawNode.sizeAll below, orphans, nodes⟩ =
        ⟨id, RawNode.marked id below ++ orphans, RawNode.numberAll parent id below ++ nodes⟩
  | [] => rfl
  | node :: rest => by
    have hrest := foldr_link_entriesAll parent (id + node.size) orphans nodes rest
    rw [entriesAll, List.foldr_append, RawNode.sizeAll, ← Nat.add_assoc, hrest,
      foldr_link_entries parent id _ _ node, RawNode.numberAll, List.append_assoc]
    rfl

end

/-- The array of a tree is that of the recursion over its nodes. -/
theorem ofRaw_eq (root : RawNode) : ofRaw root = root.number none 0 := by
  have hentries : preorder 0 [] [⟨root, none⟩] = (entries none 0 root).reverse := by
    rw [preorder_eq, List.append_nil, unfold, unfold, List.append_nil]
  have hlink := foldr_link_entries none 0 [] [] root
  rw [Nat.zero_add, List.append_nil] at hlink
  rw [ofRaw, hentries, List.length_reverse, length_entries, List.foldl_reverse, hlink]

end Arena

/-- The root of a tree has an error if some node has one. -/
theorem Tree.hasError_root (language : Language) (source : String) (output : ParseOutput) :
    (ofOutput language source output).root.hasError = output.root.hasError := by
  obtain ⟨⟨kind, field, span, children⟩, errors⟩ := output
  have hnodes := Arena.ofRaw_eq ⟨kind, field, span, children⟩
  simp [root, Node.hasError, Node.data, ofOutput, hnodes, RawNode.number]

end GrammarTools
