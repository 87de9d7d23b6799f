import GrammarTools.Proofs.Commented
import GrammarTools.Proofs.ParallelRun
import GrammarTools.Proofs.Recording

/-!
# Sources moved to the right

Behind `offset` more bytes of text every token, node and error of a source stands
that much further to the right. Rules ask nothing about spans, so a run over
tokens that have been moved builds the same nodes and finds the same errors, moved
as well (`Grammar.Run.shift`). Extras are put in alike (`RawNode.insertExtra_shift`).

A node without children would have its span at the start of the source, wherever
it stands. But the nodes of a run record tokens, so none of them is empty.
-/

namespace GrammarTools

variable {τ : Type}

/-! ## Nodes -/

namespace Span

@[simp] theorem start_shift (a : Span) (offset : Nat) :
    (a.shift offset).start = a.start + offset := rfl

@[simp] theorem stop_shift (a : Span) (offset : Nat) :
    (a.shift offset).stop = a.stop + offset := rfl

theorem shift_merge (a b : Span) (offset : Nat) :
    (a.merge b).shift offset = (a.shift offset).merge (b.shift offset) := by
  simp [merge, shift, Nat.add_min_add_right, Nat.add_max_add_right]

end Span

/-- The same token in a text that has `offset` more bytes in front. -/
def Lexeme.shift (l : Lexeme τ) (offset : Nat) : Lexeme τ := { l with span := l.span.shift offset }

/-- The same error in a text that has `offset` more bytes in front. -/
def SyntaxError.shift (e : SyntaxError) (offset : Nat) : SyntaxError :=
  { e with span := e.span.shift offset }

namespace RawNode

mutual

/-- The same node in a text that has `offset` more bytes in front. -/
def shift : RawNode → Nat → RawNode
  | ⟨kind, field, span, children⟩, offset =>
    ⟨kind, field, span.shift offset, shiftAll children offset⟩

/-- The same nodes in a text that has `offset` more bytes in front. -/
def shiftAll : List RawNode → Nat → List RawNode
  | [], _ => []
  | node :: rest, offset => shift node offset :: shiftAll rest offset

end

variable (node : RawNode) (nodes : List RawNode) (offset : Nat)

theorem shiftAll_eq : shiftAll nodes offset = nodes.map (·.shift offset) := by
  induction nodes with
  | nil => rfl
  | cons node rest ih => rw [shiftAll, ih, List.map_cons]

theorem shift_eq : node.shift offset =
    ⟨node.kind, node.field, node.span.shift offset, node.children.map (·.shift offset)⟩ := by
  cases node
  rw [shift, shiftAll_eq]

@[simp] theorem span_shift : (node.shift offset).span = node.span.shift offset := by
  rw [shift_eq]

@[simp] theorem children_shift :
    (node.shift offset).children = node.children.map (·.shift offset) := by
  rw [shift_eq]

theorem shift_withChildren : (node.withChildren nodes).shift offset =
    (node.shift offset).withChildren (nodes.map (·.shift offset)) := by
  rw [shift_eq, shift_eq]
  rfl

/-- A shift of everything leaves the place of a comment among its siblings. -/
theorem placeAmong_shift (start : Nat) :
    placeAmong (nodes.map (·.shift offset)) (start + offset) = placeAmong nodes start := by
  have hless : ∀ i : Nat, ((nodes.map (·.shift offset))[i]?.map fun child : RawNode =>
      decide (child.span.start < start + offset)) =
        nodes[i]?.map fun child => decide (child.span.start < start) := fun i => by
    rw [List.getElem?_map, Option.map_map]
    congr 1
    funext child
    simp
  simp only [placeAmong, List.getElem?_toArray, List.size_toArray, List.length_map, hless]

/-- An extra that is moved goes where it went before. -/
theorem insertExtra_shift (node extra : RawNode) (offset : Nat) :
    (node.shift offset).insertExtra (extra.shift offset) =
      (node.insertExtra extra).shift offset := by
  have hplace := placeAmong_shift node.children offset extra.span.start
  rw [insertExtra_eq, insertExtra_eq]
  simp only [children_shift, span_shift, Span.start_shift, hplace]
  -- The place among the children is the same, so both sides split alike.
  generalize placeAmong node.children extra.span.start = place
  split
  · simp [shift_withChildren, ← List.map_take, ← List.map_drop]
  · rw [← List.map_drop]
    cases hdrop : node.children.drop (place - 1) with
    | nil => simp [shift_withChildren, ← List.map_take, ← List.map_drop]
    | cons child after =>
      have ih := insertExtra_shift child extra offset
      simp only [List.map_cons, span_shift, Span.stop_shift, Nat.add_lt_add_iff_right]
      split
      · rw [ih]
        simp [shift_withChildren, ← List.map_take]
      · simp [shift_withChildren, ← List.map_take, ← List.map_drop]
termination_by node
decreasing_by
  have hmem : child ∈ node.children := List.mem_of_mem_drop (hdrop ▸ List.mem_cons_self)
  have := List.sizeOf_lt_of_mem hmem
  cases node
  simp only [mk.sizeOf_spec] at *
  omega

/-- The span of some nodes is shifted with them, if there are any. -/
theorem spanOf_map_shift {nodes : List RawNode} (hne : nodes ≠ []) :
    spanOf (nodes.map (·.shift offset)) = (spanOf nodes).shift offset := by
  rw [spanOf, spanOf, List.head?_map, List.getLast?_map, List.head?_eq_some_head hne,
    List.getLast?_eq_some_getLast hne]
  simp [Span.shift_merge]

/-- What is inside one of some nodes is inside all of them. -/
theorem mem_preorderAll {n : RawNode} (hn : n ∈ nodes) {d : RawNode} (hd : d ∈ n.preorder) :
    d ∈ preorderAll nodes := by
  obtain ⟨before, after, rfl⟩ := List.append_of_mem hn
  rw [preorderAll_append, preorderAll]
  exact List.mem_append_right _ (List.mem_append_left _ hd)

/-- A node that covers some text, and so do all nodes below it. -/
def IsSolid (node : RawNode) : Prop := ∀ n ∈ node.preorder, n.span.start < n.span.stop

variable {node nodes offset}

theorem IsSolid.of_mem_children {child : RawNode} (h : node.IsSolid) (hc : child ∈ node.children) :
    child.IsSolid := by
  intro n hn
  exact h n (mem_preorder_of_below (mem_preorderAll _ hc hn))

theorem IsSolid.of_withField {field : FieldId} (h : (node.withField field).IsSolid) :
    node.IsSolid := by
  intro d hd
  rw [preorder_eq] at hd
  rcases List.mem_cons.1 hd with rfl | hd
  · exact h (d.withField field) (by simp)
  · exact h d (mem_preorder_of_below hd)

/-- A solid branch has children. -/
theorem IsSolid.branch_ne_nil {kind : KindId} {children : List RawNode}
    (h : (branch kind children).IsSolid) : children ≠ [] := by
  rintro rfl
  exact absurd (h (.branch kind []) (by simp)) (Nat.lt_irrefl 0)

/-- Nodes that are shifted one by one are shifted all together. -/
theorem map_shift_of_forall₂ {nodes' : List RawNode}
    (h : List.Forall₂ (fun n n' : RawNode => n.IsSolid → n' = n.shift offset) nodes nodes')
    (hsolid : ∀ n ∈ nodes, n.IsSolid) : nodes' = nodes.map (·.shift offset) := by
  induction h with
  | nil => rfl
  | cons hn _ ih =>
    rw [List.map_cons, hn (hsolid _ List.mem_cons_self),
      ih fun n hmem => hsolid n (List.mem_cons_of_mem _ hmem)]

end RawNode

namespace Grammar

variable (g : Grammar τ)

/-- Comments are put at the same places of a tree that is shifted with them. -/
theorem addComments_shift (root : RawNode) (comments : List Span) (offset : Nat) :
    g.addComments (root.shift offset) (comments.map (·.shift offset)) =
      (g.addComments root comments).shift offset := by
  induction comments generalizing root with
  | nil => rfl
  | cons span comments ih =>
    have hleaf : RawNode.leaf g.comment (span.shift offset) =
      (RawNode.leaf g.comment span).shift offset := rfl
    rw [addComments, List.map_cons, List.foldl_cons, hleaf, RawNode.insertExtra_shift,
      ← addComments, ih, addComments, addComments, List.foldl_cons]

end Grammar

/-! ## Runs -/

/-- Streams of which the right one has its tokens `offset` bytes further on. -/
def Likeness.shifted (τ : Type) (offset : Nat) : Likeness τ where
  like l l' := l' = l.shift offset
  leftStop _ := False
  rightStop _ := False
  node n n' := n.IsSolid → n' = n.shift offset
  same h := h ▸ ⟨rfl, rfl⟩
  leaf kind h _ := h ▸ rfl
  branch {children children'} kind h := by
    intro hsolid
    have hchildren : children' = children.map (·.shift offset) :=
      RawNode.map_shift_of_forall₂ h fun n hn => hsolid.of_mem_children hn
    rw [RawNode.shift_eq, RawNode.branch, hchildren,
      RawNode.spanOf_map_shift offset hsolid.branch_ne_nil]
    rfl
  withField field h hsolid := by
    rw [h hsolid.of_withField, RawNode.shift_eq, RawNode.shift_eq]
    rfl

namespace Likeness

variable {offset : Nat} {s s' t t' : TokenStream τ}

/-- Lexemes are alike under a shift exactly if they are shifted. -/
theorem alike_shifted {ls ls' : List (Lexeme τ)} :
    (shifted τ offset).Alike ls ls' ↔ ls' = ls.map (·.shift offset) := by
  rw [alike_iff_forall₂ (fun _ h => h) fun _ h => h, eq_comm, ← List.forall₂_eq_eq_eq,
    List.forall₂_map_left_iff]
  simp only [shifted, eq_comm]

/-- An error at a place that has been moved has been moved. -/
theorem Errs.eq_shift {e e' : SyntaxError} (h : (shifted τ offset).Errs s s' e e')
    (hend : s'.endOffset = s.endOffset + offset) : e' = e.shift offset := by
  obtain ⟨t, t', hm, he, he', hexpected⟩ := h
  have hu : t'.upcoming = t.upcoming.map (·.shift offset) := alike_shifted.1 hm.places
  have hspan : t'.span = t.span.shift offset := by
    rw [TokenStream.span, TokenStream.span, hu]
    cases t.upcoming with
    | nil =>
      rw [List.map_nil, hm.right_end, hm.left_end, hend]
      rfl
    | cons l rest => rfl
  have hfound : t'.text? = t.text? := by
    rw [TokenStream.text?, TokenStream.text?, hu, List.head?_map, Option.map_map]
    rfl
  have hsame : e.expected = e'.expected := hexpected (by simp [TokenStream.atEnd, hu])
  rw [← he.span, ← he'.span] at hspan
  rw [← he.found, ← he'.found] at hfound
  obtain ⟨span', expected', found'⟩ := e'
  obtain rfl : span' = e.span.shift offset := hspan
  obtain rfl : e.expected = expected' := hsame
  obtain rfl : found' = e.found := hfound
  rfl

end Likeness

namespace Grammar

variable {g : Grammar τ} {s s' : TokenStream τ} {nodes : List RawNode} {errors : List SyntaxError}
  {offset : Nat}

/-- The nodes of a run cover some text. -/
theorem Run.isSolid (hf : g.IsFaithful) (h : g.Run s nodes errors)
    (ho : Mark.Ordered (Mark.ofLexemes s.upcoming)) : ∀ n ∈ nodes, n.IsSolid := by
  have hrecords := h.records hf ho
  intro n hn d hd
  obtain ⟨own, hsub, hown⟩ :=
    hrecords.exists_of_mem_preorderAll (RawNode.mem_preorderAll _ hn hd)
  exact hown.frames.lt (ho.sublist hsub)

/-- A run over tokens that have been moved is the run over the tokens as they were, moved. -/
theorem Run.shift (hg : g.Respects (.shifted τ offset)) (hf : g.IsFaithful)
    (h : g.Run s nodes errors) (ho : Mark.Ordered (Mark.ofLexemes s.upcoming))
    (hu : s'.upcoming = s.upcoming.map (·.shift offset))
    (hend : s'.endOffset = s.endOffset + offset) :
    g.Run s' (nodes.map (·.shift offset)) (errors.map (·.shift offset)) := by
  obtain ⟨nodes', errors', t, t', hm, hdone, hnodes, herrors, hrun⟩ :=
    h.parallel hg (Likeness.alike_shifted.2 hu)
  have hdone' : t'.atEnd = true := by
    have ht := Likeness.alike_shifted.1 hm.places
    rw [TokenStream.atEnd, List.isEmpty_iff] at hdone ⊢
    rw [ht, hdone]
    rfl
  have hrun := hrun (.done hdone')
  rw [List.append_nil, List.append_nil] at hrun
  have herrors : errors.map (·.shift offset) = errors' := by
    rw [← List.forall₂_eq_eq_eq, List.forall₂_map_left_iff]
    exact herrors.imp fun _ _ h => (h.eq_shift hend).symm
  rwa [RawNode.map_shift_of_forall₂ hnodes (h.isSolid hf ho), ← herrors] at hrun

end Grammar

end GrammarTools
