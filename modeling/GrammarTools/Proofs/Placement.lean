import GrammarTools.Proofs.Shown
import GrammarTools.Proofs.Splice

/-!
# Where an extra comes to stand

In a *nested* tree every node covers something, its children stand inside it, and
they stand one behind the other (`RawNode.IsNested`). A tree *admits* an extra
inside it if none of its nodes starts with the extra and each of them contains
the extra or keeps clear of it (`RawNode.Admits`).

An extra that is put into such a tree becomes a child of the deepest node that
contains it (`RawNode.insertExtra_places`). Nothing else changes: the tree is
still nested, and is what it was before when the extra is taken out again.

Nodes are told apart by *addresses*, which say for each step down from the root
to which of the children it goes. A node contains another one if its address is
the front of the other one's.
-/

namespace GrammarTools.RawNode

/-! ## Addresses -/

/-- The node at an address. -/
def at? : RawNode → List Nat → Option RawNode
  | node, [] => some node
  | node, i :: address => node.children[i]?.bind fun child => child.at? address

/-- A tree with other children of the node at an address. -/
def modifyChildren (f : List RawNode → List RawNode) : RawNode → List Nat → RawNode
  | node, [] => node.withChildren (f node.children)
  | node, i :: address =>
    node.withChildren (node.children.modify i fun child => child.modifyChildren f address)

variable {root node child extra : RawNode} {before after : List RawNode} {address : List Nat}

/-- An address leads down through the child that it names. -/
theorem at?_cons_of_append (hc : node.children = before ++ child :: after) (address : List Nat) :
    node.at? (before.length :: address) = child.at? address := by
  rw [at?, hc, List.getElem?_append_right (Nat.le_refl _), Nat.sub_self]
  rfl

/-- What is changed below a child is changed in its place. -/
theorem modifyChildren_cons_of_append (f : List RawNode → List RawNode)
    (hc : node.children = before ++ child :: after) (address : List Nat) :
    node.modifyChildren f (before.length :: address) =
      node.withChildren (before ++ child.modifyChildren f address :: after) := by
  simp [modifyChildren, hc, List.modify_eq_take_drop]

theorem insertIdx_length_append (before after : List RawNode) (extra : RawNode) :
    (before ++ after).insertIdx before.length extra = before ++ extra :: after := by
  induction before with
  | nil => rfl
  | cons node before ih =>
    rw [List.length_cons, List.cons_append, List.insertIdx_succ_cons, ih]
    rfl

/-- What is at an address of more than one step is below a child. -/
theorem exists_child_of_at? {i : Nat} {below : RawNode} (h : node.at? (i :: address) = some below) :
    ∃ child, node.children[i]? = some child ∧ child.at? address = some below :=
  Option.bind_eq_some_iff.1 h

/-! ## Nested trees -/

/-- Nodes that cover something stand inside each other or one behind the other. -/
structure IsNested (root : RawNode) : Prop where
  lt : ∀ n ∈ root.preorder, n.span.start < n.span.stop
  inside : ∀ n ∈ root.preorder, ∀ child ∈ n.children, n.span.covers child.span
  apart : ∀ n ∈ root.preorder, n.children.IsChain fun a b => a.span.stop ≤ b.span.start

/-- A childless node inside a tree with which no node below the root starts, and which each of
    them contains or keeps clear of. -/
structure Admits (root extra : RawNode) : Prop where
  childless : extra.children = []
  lt : extra.span.start < extra.span.stop
  inside : root.span.covers extra.span
  start_ne : ∀ n ∈ preorderAll root.children, n.span.start ≠ extra.span.start
  clear : ∀ n ∈ preorderAll root.children, n.span.covers extra.span ∨
    extra.span.stop ≤ n.span.start ∨ n.span.stop ≤ extra.span.start

theorem exists_of_mem_preorderAll {nodes : List RawNode} {n : RawNode}
    (h : n ∈ preorderAll nodes) : ∃ node ∈ nodes, n ∈ node.preorder := by
  induction nodes with
  | nil => cases h
  | cons node rest ih =>
    rw [preorderAll, List.mem_append] at h
    rcases h with h | h
    · exact ⟨node, List.mem_cons_self, h⟩
    · obtain ⟨m, hm, hn⟩ := ih h
      exact ⟨m, List.mem_cons_of_mem _ hm, hn⟩

theorem IsNested.of_mem (h : root.IsNested) (hc : child ∈ root.children) : child.IsNested := by
  have hmem : ∀ n ∈ child.preorder, n ∈ root.preorder := fun n hn =>
    mem_preorder_of_below (mem_preorderAll _ hc hn)
  exact ⟨fun n hn => h.lt n (hmem n hn), fun n hn => h.inside n (hmem n hn),
    fun n hn => h.apart n (hmem n hn)⟩

/-- A tree is nested if its children are, and stand in order inside it. -/
theorem IsNested.of_children (hlt : root.span.start < root.span.stop)
    (hinside : ∀ child ∈ root.children, root.span.covers child.span)
    (hapart : root.children.IsChain fun a b => a.span.stop ≤ b.span.start)
    (h : ∀ child ∈ root.children, child.IsNested) : root.IsNested := by
  have hcases : ∀ n ∈ root.preorder, n = root ∨ ∃ child ∈ root.children, n ∈ child.preorder := by
    intro n hn
    rw [preorder_eq, List.mem_cons] at hn
    exact hn.imp_right exists_of_mem_preorderAll
  refine ⟨fun n hn => ?_, fun n hn => ?_, fun n hn => ?_⟩
  all_goals rcases hcases n hn with rfl | ⟨child, hchild, hn⟩
  · exact hlt
  · exact (h child hchild).lt n hn
  · exact hinside
  · exact (h child hchild).inside n hn
  · exact hapart
  · exact (h child hchild).apart n hn

/-- Children that cover something stand one behind the other, however far apart. -/
theorem IsNested.pairwise (h : root.IsNested) :
    root.children.Pairwise fun a b => a.span.stop ≤ b.span.start := by
  have hapart := h.apart root root.self_mem_preorder
  have hlt : ∀ n ∈ root.children, n.span.start < n.span.stop := fun n hn =>
    h.lt n (mem_preorder_of_below (mem_preorderAll _ hn n.self_mem_preorder))
  generalize root.children = nodes at hapart hlt
  induction nodes with
  | nil => exact .nil
  | cons a rest ih =>
    have hrest := ih hapart.of_cons fun n hn => hlt n (List.mem_cons_of_mem _ hn)
    refine .cons (fun b hb => ?_) hrest
    cases rest with
    | nil => cases hb
    | cons c rest =>
      have hac := (List.isChain_cons_cons.1 hapart).1
      rcases List.mem_cons.1 hb with rfl | hb
      · exact hac
      · have := hlt c (by simp)
        have := List.rel_of_pairwise_cons hrest hb
        omega

/-- Of two children that contain the same text, neither is in front of the other. -/
theorem IsNested.eq_of_covers (h : root.IsNested) {i j : Nat} {a b : RawNode} {span : Span}
    (hi : root.children[i]? = some a) (hj : root.children[j]? = some b) (ha : a.span.covers span)
    (hb : b.span.covers span) (hlt : span.start < span.stop) : i = j := by
  have ha := Span.covers_iff.1 ha
  have hb := Span.covers_iff.1 hb
  obtain ⟨hilt, rfl⟩ := List.getElem?_eq_some_iff.1 hi
  obtain ⟨hjlt, rfl⟩ := List.getElem?_eq_some_iff.1 hj
  have hpairwise := List.pairwise_iff_getElem.1 h.pairwise
  rcases Nat.lt_trichotomy i j with hij | rfl | hji
  · have := hpairwise i j hilt hjlt hij
    omega
  · rfl
  · have := hpairwise j i hjlt hilt hji
    omega

/-- Whatever is at an address stands inside the root. -/
theorem IsNested.covers_at? (h : root.IsNested) (hat : root.at? address = some node) :
    root.span.covers node.span := by
  induction address generalizing root with
  | nil =>
    obtain rfl := Option.some.inj hat
    exact Span.covers_refl _
  | cons i address ih =>
    obtain ⟨child, hi, hchild⟩ := exists_child_of_at? hat
    have hmem := List.mem_of_getElem? hi
    exact Span.covers_trans (h.inside root root.self_mem_preorder child hmem)
      (ih (h.of_mem hmem) hchild)

/-- What the root admits is admitted by the child that covers it. -/
theorem Admits.of_mem (h : root.Admits extra) (hc : child ∈ root.children)
    (hcovers : child.span.covers extra.span) : child.Admits extra := by
  have hmem : ∀ n ∈ preorderAll child.children, n ∈ preorderAll root.children := fun n hn =>
    mem_preorderAll _ hc (mem_preorder_of_below hn)
  exact ⟨h.childless, h.lt, hcovers, fun n hn => h.start_ne n (hmem n hn),
    fun n hn => h.clear n (hmem n hn)⟩

/-! ## Extras in their places -/

/-- A tree that has an extra as one more child, with the number `i`, of the deepest node that
    contains it, and is nested. Without this child it is the tree that it was. -/
structure IsPlaced (extra root result : RawNode) (address : List Nat) (i : Nat) : Prop where
  exists_node : ∃ node, root.at? address = some node ∧ node.span.covers extra.span ∧
    i ≤ node.children.length ∧
      result.at? address = some (node.withChildren (node.children.insertIdx i extra))
  deepest : ∀ other m, root.at? other = some m → m.span.covers extra.span → other <+: address
  erase : result.modifyChildren (·.eraseIdx i) address = root
  nested : result.IsNested

theorem isNested_of_childless (hc : extra.children = [])
    (hlt : extra.span.start < extra.span.stop) : extra.IsNested :=
  .of_children hlt (by simp [hc]) (by simp [hc]) (by simp [hc])

/-- Where no child contains the extra, it is placed among the children. -/
theorem IsPlaced.here (h : root.IsNested) (he : root.Admits extra)
    (hc : root.children = before ++ after) (hb : ∀ n ∈ before, n.span.stop ≤ extra.span.start)
    (ha : ∀ n ∈ after, extra.span.stop ≤ n.span.start) :
    IsPlaced extra root (root.withChildren (before ++ extra :: after)) [] before.length := by
  have hinsert : root.children.insertIdx before.length extra = before ++ extra :: after := by
    rw [hc, insertIdx_length_append]
  refine ⟨⟨root, rfl, he.inside, by simp [hc], by rw [hinsert]; rfl⟩, fun other m hat hm => ?_,
    ?_, ?_⟩
  · cases other with
    | nil => exact List.nil_prefix
    | cons i other =>
      -- A child whose subtree had a node around the extra would contain the extra.
      obtain ⟨child, hi, hchild⟩ := exists_child_of_at? hat
      have hmem := List.mem_of_getElem? hi
      have hcovers := Span.covers_iff.1 (Span.covers_trans ((h.of_mem hmem).covers_at? hchild) hm)
      have hlt := he.lt
      rw [hc, List.mem_append] at hmem
      rcases hmem with hmem | hmem
      · have := hb child hmem
        omega
      · have := ha child hmem
        omega
  · have herase : (before ++ extra :: after).eraseIdx before.length = before ++ after := by
      simp [List.eraseIdx_append]
    rw [modifyChildren, children_withChildren, herase, withChildren_withChildren, ← hc,
      withChildren_self]
  · have hpairwise := h.pairwise
    rw [hc, List.pairwise_append] at hpairwise
    have hinside := h.inside root root.self_mem_preorder
    rw [hc, List.forall_mem_append] at hinside
    have hchildren : ∀ child ∈ before ++ after, child.IsNested := fun child hchild =>
      h.of_mem (hc ▸ hchild)
    rw [List.forall_mem_append] at hchildren
    refine .of_children (h.lt root root.self_mem_preorder) ?_ ?_ ?_
    · exact List.forall_mem_append.2 ⟨hinside.1, List.forall_mem_cons.2 ⟨he.inside, hinside.2⟩⟩
    · refine List.Pairwise.isChain (List.pairwise_append.2 ⟨hpairwise.1, .cons ha hpairwise.2.1,
        fun a hmem b hb' => ?_⟩)
      rcases List.mem_cons.1 hb' with rfl | hb'
      · exact hb a hmem
      · exact hpairwise.2.2 a hmem b hb'
    · exact List.forall_mem_append.2 ⟨hchildren.1, List.forall_mem_cons.2
        ⟨isNested_of_childless he.childless he.lt, hchildren.2⟩⟩

/-- Where a child contains the extra, the extra is placed in the child. -/
theorem IsPlaced.into {i : Nat} {result : RawNode} (h : root.IsNested)
    (hc : root.children = before ++ child :: after) (hspan : result.span = child.span)
    (hcovers : child.span.covers extra.span) (hlt : extra.span.start < extra.span.stop)
    (hp : IsPlaced extra child result address i) :
    IsPlaced extra root (root.withChildren (before ++ result :: after))
      (before.length :: address) i := by
  have hchildren : (root.withChildren (before ++ result :: after)).children =
      before ++ result :: after := rfl
  have hmem : child ∈ root.children := by simp [hc]
  refine ⟨?_, fun other m hat hm => ?_, ?_, ?_⟩
  · obtain ⟨node, hnode, hrest⟩ := hp.exists_node
    refine ⟨node, ?_, ?_⟩
    · rw [at?_cons_of_append hc, hnode]
    · rw [at?_cons_of_append hchildren]
      exact hrest
  · cases other with
    | nil => exact List.nil_prefix
    | cons j other =>
      obtain ⟨sibling, hj, hsibling⟩ := exists_child_of_at? hat
      -- Only one child can contain the extra, as children do not overlap.
      have hover := Span.covers_trans ((h.of_mem (List.mem_of_getElem? hj)).covers_at? hsibling) hm
      have hplace : root.children[before.length]? = some child := by simp [hc]
      have heq := h.eq_of_covers hj hplace hover hcovers hlt
      subst heq
      obtain rfl := Option.some.inj (hplace.symm.trans hj)
      exact List.cons_prefix_cons.2 ⟨rfl, hp.deepest other m hsibling hm⟩
  · rw [modifyChildren_cons_of_append _ hchildren, hp.erase, withChildren_withChildren, ← hc,
      withChildren_self]
  · -- The child has kept its span, so it stands among its siblings as before.
    have hinside := h.inside root root.self_mem_preorder
    have hapart := h.apart root root.self_mem_preorder
    have hnested : ∀ n ∈ root.children, n.IsNested := fun n hn => h.of_mem hn
    have hspans :
        (before ++ result :: after).map RawNode.span = root.children.map RawNode.span := by
      simp [hc, hspan]
    refine .of_children (h.lt root root.self_mem_preorder) ?_ ?_ ?_
    · have hall : ∀ span ∈ root.children.map RawNode.span, root.span.covers span :=
        List.forall_mem_map.2 hinside
      rw [← hspans] at hall
      exact List.forall_mem_map.1 hall
    · have hall :=
        (List.isChain_map (R := fun a b : Span => a.stop ≤ b.start) RawNode.span).2 hapart
      rw [← hspans] at hall
      exact (List.isChain_map RawNode.span).1 hall
    · rw [hc, List.forall_mem_append, List.forall_mem_cons] at hnested
      exact List.forall_mem_append.2 ⟨hnested.1, List.forall_mem_cons.2 ⟨hp.nested, hnested.2.2⟩⟩

/-- An extra that a nested tree admits is placed in the deepest node that contains it, and nothing
    else changes. -/
theorem insertExtra_places {root extra : RawNode} (h : root.IsNested) (he : root.Admits extra) :
    ∃ address i, IsPlaced extra root (root.insertExtra extra) address i := by
  have hbelow : ∀ child ∈ root.children, child ∈ preorderAll root.children := fun child hchild =>
    mem_preorderAll _ hchild child.self_mem_preorder
  have hsorted : IsSorted root.children := h.pairwise.imp_of_mem fun ha _ hab =>
    Nat.le_trans (Nat.le_of_lt (h.lt _ (mem_preorder_of_below (hbelow _ ha)))) hab
  obtain ⟨before, after, hb, ha, ⟨hc, hlast⟩ | ⟨child, hc, hstart, hstop⟩⟩ :=
    hsorted.insert_cases extra
  · -- No child reaches over the start of the extra, so none contains it.
    rw [insertExtra_here hc hb ha hlast]
    refine ⟨[], before.length, .here h he hc (fun n hn => ?_) fun n hn => ?_⟩
    · rcases List.eq_nil_or_concat before with rfl | ⟨front, last, rfl⟩
      · cases hn
      · rw [List.concat_eq_append] at hb hlast hn hc
        have hpairwise := h.pairwise
        rw [hc, List.pairwise_append, List.pairwise_append] at hpairwise
        have hstop := hlast last (by simp)
        rcases List.mem_append.1 hn with hn | hn
        · have := hpairwise.1.2.2 n hn last (by simp)
          have := hb last (by simp)
          omega
        · rwa [List.mem_singleton.1 hn]
    · have hn : n ∈ root.children := by simp [hc, hn]
      have hle := ha n ‹_›
      have hne := he.start_ne n (hbelow n hn)
      have hlt := h.lt n (mem_preorder_of_below (hbelow n hn))
      rcases he.clear n (hbelow n hn) with hcovers | hclear | hclear
      · have := Span.covers_iff.1 hcovers
        omega
      · exact hclear
      · omega
  · have hmem : child ∈ root.children := by simp [hc]
    -- The child reaches over the start of the extra, so it contains all of it, and the extra goes
    -- further down.
    have hcovers : child.span.covers extra.span := by
      have := he.clear child (hbelow child hmem)
      have := he.lt
      rcases he.clear child (hbelow child hmem) with hcovers | hclear
      · exact hcovers
      · omega
    obtain ⟨address, i, hp⟩ := insertExtra_places (h.of_mem hmem) (he.of_mem hmem hcovers)
    rw [insertExtra_into hc hb ha hstart hstop]
    exact ⟨before.length :: address, i,
      hp.into h hc (insertExtra_frame child extra).2.2 hcovers he.lt⟩
termination_by root
decreasing_by
  have := List.sizeOf_lt_of_mem hmem
  cases root
  simp only [mk.sizeOf_spec] at *
  omega

/-- An extra between two words of a phrase is placed in the phrase. -/
theorem insertExtra_places_in_phrase :
    let root := branchAt ⟨1⟩ ⟨0, 40⟩ [leaf ⟨1⟩ ⟨0, 4⟩,
      branch ⟨1⟩ [leaf ⟨1⟩ ⟨6, 8⟩, leaf ⟨1⟩ ⟨20, 24⟩], leaf ⟨1⟩ ⟨30, 34⟩]
    let extra := leaf ⟨2⟩ ⟨10, 18⟩
    root.IsNested ∧ root.Admits extra ∧
      ∃ address i, IsPlaced extra root (root.insertExtra extra) address i := by
  intro root extra
  have hnested : root.IsNested := ⟨by decide, by decide, by decide⟩
  have hadmits : root.Admits extra := ⟨rfl, by decide, by decide, by decide, by decide⟩
  exact ⟨hnested, hadmits, insertExtra_places hnested hadmits⟩

end GrammarTools.RawNode
