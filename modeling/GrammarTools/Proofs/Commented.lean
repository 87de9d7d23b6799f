import GrammarTools.Proofs.Lossless

/-!
# Trees with extras put in

Whatever the tree and the extra, the walk ends at some node, and there the extra
comes between two rows of children; nothing else changes
(`RawNode.insertExtra_cases`). So what holds where the extra is put in, and is
handed up from a child to the node above, holds at the root
(`RawNode.insertExtra_induct`).

* A tree in which comments have been put is the same without its comments
  (`Grammar.without_addComments`).
* Extras that are no errors leave the errors of a tree where they were
  (`Grammar.errorSpans_addComments`).
-/

namespace GrammarTools

namespace RawNode

variable {node extra : RawNode}

/-- One step of the walk that puts an extra in. -/
theorem insertExtra_eq (node extra : RawNode) :
    node.insertExtra extra =
      let place := placeAmong node.children extra.span.start
      let here := node.withChildren (node.children.take place ++ extra :: node.children.drop place)
      if place = 0 then here
      else match node.children.drop (place - 1) with
        | [] => here
        | child :: after =>
          if extra.span.start < child.span.stop then
            node.withChildren (node.children.take (place - 1) ++ child.insertExtra extra :: after)
          else here := by
  rw [insertExtra, insertExtraAt]
  dsimp only
  split
  · rfl
  · split
    · rename_i h
      rw [h]
      rfl
    · rename_i child after h
      rw [h]
      dsimp only
      split
      · rw [insertExtraAt_eq]
        rfl
      · rfl

/-- An extra goes between two rows of children, or into a child. -/
theorem insertExtra_cases (node extra : RawNode) :
    (∃ before after, node.children = before ++ after ∧
      node.insertExtra extra = node.withChildren (before ++ extra :: after)) ∨
    ∃ before child after, node.children = before ++ child :: after ∧
      node.insertExtra extra = node.withChildren (before ++ child.insertExtra extra :: after) := by
  have hhere : ∀ n, ∃ before after, node.children = before ++ after ∧
      node.withChildren (node.children.take n ++ extra :: node.children.drop n) =
        node.withChildren (before ++ extra :: after) := fun n =>
    ⟨_, _, (List.take_append_drop n node.children).symm, rfl⟩
  rw [insertExtra_eq]
  dsimp only
  split
  · exact .inl (hhere _)
  · split
    · exact .inl (hhere _)
    · rename_i child after h
      split
      · refine .inr ⟨_, child, after, ?_, rfl⟩
        rw [← h, List.take_append_drop]
      · exact .inl (hhere _)

/-- What holds of a node that takes an extra among its children, and of a node if it holds of
    the child that takes the extra. -/
theorem insertExtra_induct {motive : RawNode → RawNode → Prop} {extra : RawNode}
    (here : ∀ {node before after}, node.children = before ++ after →
      motive node (node.withChildren (before ++ extra :: after)))
    (into : ∀ {node before child child' after}, node.children = before ++ child :: after →
      motive child child' → motive node (node.withChildren (before ++ child' :: after)))
    (node : RawNode) : motive node (node.insertExtra extra) := by
  rcases insertExtra_cases node extra with ⟨before, after, hc, heq⟩ |
    ⟨before, child, after, hc, heq⟩
  · rw [heq]
    exact here hc
  · rw [heq]
    exact into hc (insertExtra_induct here into child)
termination_by node
decreasing_by
  have hmem : child ∈ node.children := hc ▸ List.mem_append_right before List.mem_cons_self
  have := List.sizeOf_lt_of_mem hmem
  cases node
  simp only [mk.sizeOf_spec] at *
  omega

/-- An extra changes only what stands below a node. -/
theorem insertExtra_frame (node extra : RawNode) :
    (node.insertExtra extra).kind = node.kind ∧ (node.insertExtra extra).field = node.field ∧
      (node.insertExtra extra).span = node.span := by
  rcases insertExtra_cases node extra with ⟨before, after, -, heq⟩ | ⟨before, child, after, -, heq⟩
  all_goals
    rw [heq]
    exact ⟨rfl, rfl, rfl⟩

/-- The children that a node had before are still there, with other nodes below them. -/
theorem exists_mem_children_insertExtra (extra : RawNode) {child : RawNode}
    (h : child ∈ node.children) :
    ∃ n ∈ (node.insertExtra extra).children, n.kind = child.kind ∧ n.span = child.span := by
  rcases insertExtra_cases node extra with ⟨before, after, hc, heq⟩ |
    ⟨before, own, after, hc, heq⟩
  · rw [hc, List.mem_append] at h
    rw [heq]
    exact ⟨child, by simpa using h.imp_right .inr, rfl, rfl⟩
  · obtain ⟨hkind, -, hspan⟩ := insertExtra_frame own extra
    rw [hc, List.mem_append, List.mem_cons] at h
    rw [heq]
    rcases h with h | rfl | h
    · exact ⟨child, by simp [h], rfl, rfl⟩
    · exact ⟨_, by simp, hkind, hspan⟩
    · exact ⟨child, by simp [h], rfl, rfl⟩

/-! ## Without comments -/

mutual

/-- The node without the nodes of a kind below it. -/
def without (kind : KindId) : RawNode → RawNode
  | ⟨own, field, span, children⟩ => ⟨own, field, span, withoutAll kind children⟩

/-- The nodes that are not of a kind, without the nodes of that kind below them. -/
def withoutAll (kind : KindId) : List RawNode → List RawNode
  | [] => []
  | node :: rest =>
    if node.kind = kind then withoutAll kind rest else without kind node :: withoutAll kind rest

end

@[simp] theorem kind_without (kind : KindId) (node : RawNode) :
    (node.without kind).kind = node.kind := by
  cases node
  rfl

/-- Comments are left out of new children as they are of old ones. -/
theorem without_withChildren (kind : KindId) (node : RawNode) (children : List RawNode) :
    (node.withChildren children).without kind = node.withChildren (withoutAll kind children) := by
  cases node
  rfl

theorem withoutAll_append (kind : KindId) (nodes more : List RawNode) :
    withoutAll kind (nodes ++ more) = withoutAll kind nodes ++ withoutAll kind more := by
  induction nodes with
  | nil => rfl
  | cons node rest ih =>
    rw [List.cons_append, withoutAll, withoutAll, ih]
    split <;> rfl

mutual

/-- A tree without comments stays as it is. -/
theorem without_eq_self {kind : KindId} : (node : RawNode) →
    (∀ n ∈ preorderAll node.children, n.kind ≠ kind) → node.without kind = node
  | ⟨own, field, span, children⟩, h => by rw [without, withoutAll_eq_self children h]

/-- Nothing is taken out where no node is of the kind. -/
theorem withoutAll_eq_self {kind : KindId} : (nodes : List RawNode) →
    (∀ n ∈ preorderAll nodes, n.kind ≠ kind) → withoutAll kind nodes = nodes
  | [], _ => rfl
  | node :: rest, h => by
    rw [preorderAll_cons, List.cons_append, List.forall_mem_cons, List.forall_mem_append] at h
    rw [withoutAll, if_neg h.1, without_eq_self node h.2.1, withoutAll_eq_self rest h.2.2]

end

theorem children_without (kind : KindId) (node : RawNode) :
    (node.without kind).children = withoutAll kind node.children := by
  cases node
  rfl

theorem field_without (kind : KindId) (node : RawNode) :
    (node.without kind).field = node.field := by
  cases node
  rfl

theorem span_without (kind : KindId) (node : RawNode) : (node.without kind).span = node.span := by
  cases node
  rfl

theorem mem_withoutAll {nodes : List RawNode} {kind : KindId} (hn : node ∈ nodes)
    (hk : node.kind ≠ kind) :
    node.without kind ∈ withoutAll kind nodes := by
  obtain ⟨before, after, rfl⟩ := List.append_of_mem hn
  rw [withoutAll_append, withoutAll, if_neg hk]
  exact List.mem_append_right _ List.mem_cons_self

mutual

/-- Nodes that are no comments are found in the tree without comments. -/
theorem mem_preorder_without {kind : KindId} : (node : RawNode) →
    (∀ n ∈ node.preorder, n.kind = kind → n.children = []) →
      ∀ n ∈ node.preorder, n.kind ≠ kind → n.without kind ∈ (node.without kind).preorder
  | ⟨own, field, span, children⟩, hleaf, n, hn, hk => by
    rw [preorder_eq, children_without]
    rw [preorder_eq] at hleaf hn
    rcases List.mem_cons.1 hn with rfl | hn
    · exact List.mem_cons_self
    · exact List.mem_cons_of_mem _ (mem_preorderAll_withoutAll children
        (fun m hm => hleaf m (List.mem_cons_of_mem _ hm)) n hn hk)

/-- The nodes of other kinds stay, if there is nothing below those that are taken out. -/
theorem mem_preorderAll_withoutAll {kind : KindId} : (nodes : List RawNode) →
    (∀ n ∈ preorderAll nodes, n.kind = kind → n.children = []) →
      ∀ n ∈ preorderAll nodes, n.kind ≠ kind → n.without kind ∈ preorderAll (withoutAll kind nodes)
  | [], _, n, hn, _ => nomatch hn
  | node :: rest, hleaf, n, hn, hk => by
    rw [preorderAll] at hleaf hn
    have hrest := mem_preorderAll_withoutAll rest fun m hm => hleaf m (List.mem_append_right _ hm)
    rw [withoutAll]
    rcases List.mem_append.1 hn with hn | hn
    · split
      · rename_i hnode
        have hchildren := hleaf node (List.mem_append_left _ (by simp)) hnode
        rw [preorder_eq, hchildren, preorderAll, List.mem_singleton] at hn
        exact absurd (hn ▸ hnode) hk
      · exact List.mem_append_left _ (mem_preorder_without node
          (fun m hm => hleaf m (List.mem_append_left _ hm)) n hn hk)
    · split
      · exact hrest n hn hk
      · exact List.mem_append_right _ (hrest n hn hk)

end

/-- An extra of a kind is nothing to a tree without that kind. -/
theorem without_insertExtra (node extra : RawNode) :
    (node.insertExtra extra).without extra.kind = node.without extra.kind := by
  refine insertExtra_induct
    (motive := fun n n' => n'.without extra.kind = n.without extra.kind)
    (fun {node before after} hc => ?_) (fun {node before child child' after} hc heq => ?_) node
  · rw [← node.withChildren_self, hc, without_withChildren, withChildren_withChildren,
      without_withChildren, withoutAll_append, withoutAll_append, withoutAll, if_pos rfl]
  · have hkind : child'.kind = child.kind := by
      rw [← kind_without extra.kind, heq, kind_without]
    rw [← node.withChildren_self, hc, without_withChildren, withChildren_withChildren,
      without_withChildren, withoutAll_append, withoutAll_append, withoutAll, withoutAll, hkind,
      heq]

/-! ## Errors -/

/-- The spans of the errors among some nodes. -/
def errorSpans (nodes : List RawNode) : List Span := (nodes.filter isError).map (·.span)

theorem errorSpans_append (nodes more : List RawNode) :
    errorSpans (nodes ++ more) = errorSpans nodes ++ errorSpans more := by
  rw [errorSpans, List.filter_append, List.map_append]
  rfl

theorem preorderAll_append (nodes more : List RawNode) :
    preorderAll (nodes ++ more) = preorderAll nodes ++ preorderAll more := by
  induction nodes with
  | nil => rfl
  | cons node rest ih => rw [List.cons_append, preorderAll, preorderAll, ih, List.append_assoc]

theorem errorSpans_cons (node : RawNode) (nodes : List RawNode) :
    errorSpans (node :: nodes) =
      (if node.isError then [node.span] else []) ++ errorSpans nodes := by
  rw [errorSpans, List.filter_cons]
  split <;> rfl

/-- The errors of a node with new children are its own and those of the children. -/
theorem errorSpans_preorder_withChildren (node : RawNode) (children : List RawNode) :
    errorSpans (node.withChildren children).preorder =
      (if node.isError then [node.span] else []) ++ errorSpans (preorderAll children) := by
  rw [preorder_eq, errorSpans_cons]
  rfl

variable (he : extra.isError = false)
include he

theorem errorSpans_insert (before after : List RawNode) :
    errorSpans (before ++ extra :: after) = errorSpans (before ++ after) := by
  rw [errorSpans_append, errorSpans_cons, he, errorSpans_append]
  rfl

/-- An extra that is no error leaves the errors below a node where they were. -/
theorem errorSpans_preorder_insertExtra (hleaf : extra.children = []) (node : RawNode) :
    errorSpans (node.insertExtra extra).preorder = errorSpans node.preorder := by
  refine insertExtra_induct (motive := fun n n' => errorSpans n'.preorder = errorSpans n.preorder)
    (fun {node before after} hc => ?_) (fun {node before child child' after} hc heq => ?_) node
  · rw [← node.withChildren_self, hc, withChildren_withChildren, errorSpans_preorder_withChildren,
      errorSpans_preorder_withChildren, preorderAll_append, preorderAll, preorder_eq, hleaf,
      preorderAll, List.singleton_append, errorSpans_insert he, preorderAll_append]
  · rw [← node.withChildren_self, hc, withChildren_withChildren, errorSpans_preorder_withChildren,
      errorSpans_preorder_withChildren, preorderAll_append, preorderAll_append, preorderAll,
      preorderAll, errorSpans_append, errorSpans_append, heq, errorSpans_append, errorSpans_append]

/-- The same for the errors right below a node. -/
theorem errorSpans_children_insertExtra (node : RawNode) :
    errorSpans (node.insertExtra extra).children = errorSpans node.children := by
  rcases insertExtra_cases node extra with ⟨before, after, hc, heq⟩ |
    ⟨before, child, after, hc, heq⟩
  · rw [heq, children_withChildren, hc, errorSpans_insert he]
  · obtain ⟨hkind, -, hspan⟩ := insertExtra_frame child extra
    have hone : (child.insertExtra extra).isError = child.isError := by
      rw [isError, isError, hkind]
    rw [heq, children_withChildren, hc, errorSpans_append, errorSpans_cons, hone, hspan,
      errorSpans_append, errorSpans_cons]

end RawNode

namespace Grammar

variable {τ : Type} (g : Grammar τ)

/-- Comments put into a tree do nothing to the tree without its comments. -/
theorem without_addComments (root : RawNode) (comments : List Span) :
    (g.addComments root comments).without g.comment = root.without g.comment := by
  induction comments generalizing root with
  | nil => rfl
  | cons span comments ih =>
    rw [addComments, List.foldl_cons, ← addComments, ih]
    exact RawNode.without_insertExtra root (.leaf g.comment span)

/-- Without its comments, a parsed source is made of the nodes of a run. -/
theorem without_parse {g : Grammar τ} (hg : g.IsProgressive) (hf : g.IsFaithful)
    (hcomment : g.comment ≠ .error) (source : String) :
    (g.parse source).root.without g.comment = .branchAt g.root ⟨0, Text.byteLength source.toList⟩
      (g.statements (.ofLexemes (g.lexicon.lex source).lexemes
        (Text.byteLength source.toList))).1 := by
  let start : TokenStream τ :=
    .ofLexemes (g.lexicon.lex source).lexemes (Text.byteLength source.toList)
  have hrecords := (run_statements hg start).records hf (g.lexicon.ordered_lexemes source)
  have hno : ∀ n ∈ RawNode.preorderAll (g.statements start).1, n.kind ≠ g.comment := by
    have hcomments := hrecords.comments_preorderAll hcomment
    have hnone : Mark.comments (Mark.ofLexemes start.upcoming) = [] := by
      simp [Mark.comments, Mark.ofLexemes, List.filter_map]
    rw [hnone, List.map_eq_nil_iff, List.filter_eq_nil_iff] at hcomments
    simpa using hcomments
  have hroot : (g.parse source).root = g.addComments
    (.branchAt g.root ⟨0, Text.byteLength source.toList⟩ (g.statements start).1)
      (g.lexicon.lex source).comments := rfl
  rw [hroot, without_addComments, RawNode.branchAt, RawNode.without,
    RawNode.withoutAll_eq_self _ hno]

/-- Comments put into a tree leave the children of its root where they were. -/
theorem exists_mem_children_addComments (root : RawNode) {child : RawNode}
    (h : child ∈ root.children) (comments : List Span) :
    ∃ n ∈ (g.addComments root comments).children, n.kind = child.kind ∧ n.span = child.span := by
  induction comments generalizing root child with
  | nil => exact ⟨child, h, rfl, rfl⟩
  | cons span comments ih =>
    obtain ⟨n, hn, hkind, hspan⟩ :=
      RawNode.exists_mem_children_insertExtra (.leaf g.comment span) h
    obtain ⟨n', hn', hkind', hspan'⟩ := ih _ hn
    exact ⟨n', hn', hkind'.trans hkind, hspan'.trans hspan⟩

/-- Comments put into a tree leave its errors where they were. -/
theorem errorSpans_addComments (hcomment : g.comment ≠ .error) (root : RawNode)
    (comments : List Span) :
    RawNode.errorSpans (g.addComments root comments).preorder = RawNode.errorSpans root.preorder ∧
    RawNode.errorSpans (g.addComments root comments).children =
      RawNode.errorSpans root.children := by
  have he : ∀ span, (RawNode.leaf g.comment span).isError = false := fun span => by
    simpa [RawNode.isError, RawNode.leaf] using hcomment
  induction comments generalizing root with
  | nil => exact ⟨rfl, rfl⟩
  | cons span comments ih =>
    rw [addComments, List.foldl_cons, ← addComments, (ih _).1, (ih _).2]
    exact ⟨RawNode.errorSpans_preorder_insertExtra (he span) rfl root,
      RawNode.errorSpans_children_insertExtra (he span) root⟩

end Grammar

end GrammarTools
