import GrammarTools.Proofs.Placement

/-!
# Extras in any order

A tree is *ordered* if the children of every node stand in the order in which they
start (`RawNode.IsOrdered`); they may overlap, or reach out of the node above. Extras
are *scattered* if they have no children, cover something and keep clear of each other
(`RawNode.AreScattered`).

Of two such extras the one behind is never taken in by the one in front, and where it
goes depends on the last child that starts in front of it. If some child starts between
the two extras, each of them therefore changes children of its own. If none does, they
go into the same child, or the one behind goes right behind the other one or behind the
child that has taken it. In each case the tree is the same whichever goes first
(`RawNode.insertExtra_comm_of_stop_le`), and so it is for any number of extras in any
order (`RawNode.insertExtras_perm`).
-/

namespace GrammarTools.RawNode

variable {root node child extra a b : RawNode} {xs ys : List RawNode}

/-! ## Ordered trees -/

/-- A tree in which the children of every node are in the order in which they start. -/
def IsOrdered (root : RawNode) : Prop := ∀ n ∈ root.preorder, IsSorted n.children

theorem isOrdered_iff :
    root.IsOrdered ↔ IsSorted root.children ∧ ∀ child ∈ root.children, child.IsOrdered := by
  constructor
  · intro h
    exact ⟨h root root.self_mem_preorder, fun child hchild n hn =>
      h n (mem_preorder_of_below (mem_preorderAll _ hchild hn))⟩
  · rintro ⟨hroot, hchildren⟩ n hn
    rw [preorder_eq, List.mem_cons] at hn
    rcases hn with rfl | hn
    · exact hroot
    · obtain ⟨child, hchild, hn⟩ := exists_of_mem_preorderAll hn
      exact hchildren child hchild n hn

/-- A childless extra leaves an ordered tree in order. -/
theorem IsOrdered.insertExtra {root : RawNode} (h : root.IsOrdered) (he : extra.children = []) :
    (root.insertExtra extra).IsOrdered := by
  obtain ⟨hsorted, hchildren⟩ := isOrdered_iff.1 h
  obtain ⟨before, after, hb, ha, ⟨hc, hlast⟩ | ⟨child, hc, hstart, hstop⟩⟩ :=
    hsorted.insert_cases extra
  · have hextra : extra.IsOrdered := isOrdered_iff.2 (by simp [he, IsSorted])
    rw [hc, List.forall_mem_append] at hchildren
    rw [insertExtra_here hc hb ha hlast, isOrdered_iff]
    exact ⟨isSorted_insert (hc ▸ hsorted) hb ha, List.forall_mem_append.2
      ⟨hchildren.1, List.forall_mem_cons.2 ⟨hextra, hchildren.2⟩⟩⟩
  · have hmem : child ∈ root.children := by simp [hc]
    have hchild := (hchildren child hmem).insertExtra he
    rw [hc, List.forall_mem_append, List.forall_mem_cons] at hchildren
    rw [insertExtra_into hc hb ha hstart hstop, isOrdered_iff]
    exact ⟨isSorted_into (hc ▸ hsorted), List.forall_mem_append.2
      ⟨hchildren.1, List.forall_mem_cons.2 ⟨hchild, hchildren.2.2⟩⟩⟩
termination_by root
decreasing_by
  have := List.sizeOf_lt_of_mem hmem
  cases root
  simp only [mk.sizeOf_spec] at *
  omega

/-! ## Rows of children -/

/-- What holds of where the children and the extra start holds of where the children start when
    the extra has been put in. -/
theorem forall_start_insertExtra {p : Nat → Prop} (hc : ∀ n ∈ node.children, p n.span.start)
    (he : p extra.span.start) : ∀ n ∈ (node.insertExtra extra).children, p n.span.start := by
  rcases insertExtra_cases node extra with ⟨before, after, hcs, heq⟩ |
    ⟨before, child, after, hcs, heq⟩
  all_goals
    rw [hcs, List.forall_mem_append] at hc
    rw [heq, children_withChildren]
  · exact List.forall_mem_append.2 ⟨hc.1, List.forall_mem_cons.2 ⟨he, hc.2⟩⟩
  · rw [List.forall_mem_cons] at hc
    refine List.forall_mem_append.2 ⟨hc.1, List.forall_mem_cons.2 ⟨?_, hc.2.2⟩⟩
    rw [(insertExtra_frame child extra).2.2]
    exact hc.2.1

/-- Children that start behind an extra have no part in where it goes. -/
theorem insertExtra_append_left (node : RawNode) (hx : IsSorted xs)
    (hy : ∀ n ∈ ys, extra.span.start ≤ n.span.start) :
    (node.withChildren (xs ++ ys)).insertExtra extra =
      node.withChildren (((node.withChildren xs).insertExtra extra).children ++ ys) := by
  obtain ⟨xs', -, h⟩ := insertExtra_front extra hx hy
  rw [(h node).1, (h node).2, children_withChildren]

/-- Children in front of another one that starts in front of an extra have no part in where the
    extra goes. -/
theorem insertExtra_append_right (node : RawNode) (hx : ∀ n ∈ xs, n.span.start < extra.span.start)
    (hchild : child.span.start < extra.span.start) (hy : IsSorted (child :: ys)) :
    (node.withChildren (xs ++ child :: ys)).insertExtra extra =
      node.withChildren
        (xs ++ ((node.withChildren (child :: ys)).insertExtra extra).children) := by
  obtain ⟨before, after, hb, ha, ⟨hc, hlast⟩ | ⟨own, hc, hstart, hstop⟩⟩ := hy.insert_cases extra
  -- Nodes in front start earlier, so they change neither the place nor the child that is entered.
  all_goals
    have hall : ∀ n ∈ xs ++ before, n.span.start < extra.span.start :=
      List.forall_mem_append.2 ⟨hx, hb⟩
    rw [hc]
  · have hne : before ≠ [] := by
      rintro rfl
      have := ha child (by rw [← List.nil_append after, ← hc]; exact List.mem_cons_self)
      omega
    have hboth : ∀ n ∈ (xs ++ before).getLast?, n.span.stop ≤ extra.span.start := by
      rwa [List.getLast?_append_of_ne_nil _ hne]
    have hright : (node.withChildren (before ++ after)).insertExtra extra =
        node.withChildren (before ++ extra :: after) := insertExtra_here rfl hb ha hlast
    rw [insertExtra_here (List.append_assoc ..).symm hall ha hboth, hright]
    simp
  · have hright : (node.withChildren (before ++ own :: after)).insertExtra extra =
        node.withChildren (before ++ own.insertExtra extra :: after) :=
      insertExtra_into rfl hb ha hstart hstop
    rw [insertExtra_into (List.append_assoc ..).symm hall ha hstart hstop, hright]
    simp

/-! ## Two extras -/

/-- If a child starts between two extras, each of them changes children of its own. -/
theorem insertExtra_comm_apart (node : RawNode) (hsorted : IsSorted (xs ++ child :: ys))
    (hab : a.span.start < b.span.start) (hx : ∀ n ∈ xs, n.span.start < a.span.start)
    (ha : a.span.start ≤ child.span.start) (hb : child.span.start < b.span.start) :
    ((node.withChildren (xs ++ child :: ys)).insertExtra a).insertExtra b =
      ((node.withChildren (xs ++ child :: ys)).insertExtra b).insertExtra a := by
  obtain ⟨hxs, hys, -⟩ := List.pairwise_append.1 hsorted
  have hbehind : ∀ n ∈ child :: ys, a.span.start ≤ n.span.start :=
    List.forall_mem_cons.2 ⟨ha, fun n hn => Nat.le_trans ha (List.rel_of_pairwise_cons hys hn)⟩
  have hxb : ∀ n ∈ xs, n.span.start < b.span.start := fun n hn => Nat.lt_trans (hx n hn) hab
  have hfront : ∀ n ∈ ((node.withChildren xs).insertExtra a).children,
      n.span.start < b.span.start :=
    forall_start_insertExtra (p := (· < b.span.start)) hxb hab
  have hback : ∀ n ∈ ((node.withChildren (child :: ys)).insertExtra b).children,
      a.span.start ≤ n.span.start :=
    forall_start_insertExtra (p := (a.span.start ≤ ·)) hbehind (Nat.le_of_lt hab)
  rw [insertExtra_append_left node hxs hbehind, insertExtra_append_right node hfront hb hys,
    insertExtra_append_right node hxb hb hys, insertExtra_append_left node hxs hback]

section between

-- No child of the nodes below starts between the two extras.
variable (hx : ∀ n ∈ xs, n.span.start < a.span.start) (hy : ∀ n ∈ ys, b.span.start ≤ n.span.start)
  (hlt : a.span.start < b.span.start)
include hx hy hlt

/-- If the last child in front of two extras has ended, they go right behind it. -/
theorem insertExtra_comm_here (hab : a.span.stop ≤ b.span.start) (hc : root.children = xs ++ ys)
    (hlast : ∀ n ∈ xs.getLast?, n.span.stop ≤ a.span.start) :
    (root.insertExtra a).insertExtra b = (root.insertExtra b).insertExtra a := by
  have hya : ∀ n ∈ b :: ys, a.span.start ≤ n.span.start :=
    List.forall_mem_cons.2 ⟨Nat.le_of_lt hlt, fun n hn => Nat.le_trans (Nat.le_of_lt hlt) (hy n hn)⟩
  have hxb : ∀ n ∈ xs, n.span.start < b.span.start := fun n hn => Nat.lt_trans (hx n hn) hlt
  have hxab : ∀ n ∈ xs ++ [a], n.span.start < b.span.start :=
    List.forall_mem_append.2 ⟨hxb, by simpa using hlt⟩
  have hlastb : ∀ n ∈ xs.getLast?, n.span.stop ≤ b.span.start := fun n hn =>
    Nat.le_trans (hlast n hn) (Nat.le_of_lt hlt)
  have ha : root.insertExtra a = root.withChildren (xs ++ a :: ys) :=
    insertExtra_here hc hx (List.forall_mem_cons.1 hya).2 hlast
  have hab : (root.withChildren (xs ++ a :: ys)).insertExtra b =
      root.withChildren (xs ++ [a] ++ b :: ys) :=
    insertExtra_here (List.append_cons ..) hxab hy (by simpa using hab)
  have hb : root.insertExtra b = root.withChildren (xs ++ b :: ys) :=
    insertExtra_here hc hxb hy hlastb
  have hba : (root.withChildren (xs ++ b :: ys)).insertExtra a =
      root.withChildren (xs ++ a :: b :: ys) := insertExtra_here rfl hx hya hlast
  rw [ha, hab, hb, hba, ← List.append_cons]

/-- If a child takes the extra in front, the one behind goes into this child as well, or right
    behind it. -/
theorem insertExtra_comm_into (hc : root.children = xs ++ child :: ys)
    (hstart : child.span.start < a.span.start) (hstop : a.span.start < child.span.stop)
    (hcomm : (child.insertExtra a).insertExtra b = (child.insertExtra b).insertExtra a) :
    (root.insertExtra a).insertExtra b = (root.insertExtra b).insertExtra a := by
  have hspan (extra : RawNode) : (child.insertExtra extra).span = child.span :=
    (insertExtra_frame child extra).2.2
  have hchild : child.span.start < b.span.start := Nat.lt_trans hstart hlt
  have hya : ∀ n ∈ b :: ys, a.span.start ≤ n.span.start :=
    List.forall_mem_cons.2 ⟨Nat.le_of_lt hlt, fun n hn => Nat.le_trans (Nat.le_of_lt hlt) (hy n hn)⟩
  have hxb : ∀ n ∈ xs, n.span.start < b.span.start := fun n hn => Nat.lt_trans (hx n hn) hlt
  have ha : root.insertExtra a = root.withChildren (xs ++ child.insertExtra a :: ys) :=
    insertExtra_into hc hx (List.forall_mem_cons.1 hya).2 hstart hstop
  rcases Nat.lt_or_ge b.span.start child.span.stop with hstopb | hstopb
  · -- Both go into the child, where the order does not matter by assumption.
    have hab : (root.withChildren (xs ++ child.insertExtra a :: ys)).insertExtra b =
        root.withChildren (xs ++ (child.insertExtra a).insertExtra b :: ys) :=
      insertExtra_into rfl hxb hy (by rwa [hspan]) (by rwa [hspan])
    have hb : root.insertExtra b = root.withChildren (xs ++ child.insertExtra b :: ys) :=
      insertExtra_into hc hxb hy hchild hstopb
    have hba : (root.withChildren (xs ++ child.insertExtra b :: ys)).insertExtra a =
        root.withChildren (xs ++ (child.insertExtra b).insertExtra a :: ys) :=
      insertExtra_into rfl hx (List.forall_mem_cons.1 hya).2 (by rwa [hspan]) (by rwa [hspan])
    rw [ha, hab, hb, hba, hcomm]
  · -- The second one starts behind the child, so it stands next to it either way.
    have hxown (own : RawNode) (h : own.span = child.span) :
        ∀ n ∈ xs ++ [own], n.span.start < b.span.start :=
      List.forall_mem_append.2 ⟨hxb, by simpa [h] using hchild⟩
    have hab : (root.withChildren (xs ++ child.insertExtra a :: ys)).insertExtra b =
        root.withChildren (xs ++ [child.insertExtra a] ++ b :: ys) :=
      insertExtra_here (List.append_cons ..) (hxown _ (hspan a)) hy (by simpa [hspan] using hstopb)
    have hb : root.insertExtra b = root.withChildren (xs ++ [child] ++ b :: ys) :=
      insertExtra_here (hc.trans (List.append_cons ..)) (hxown child rfl) hy
        (by simpa using hstopb)
    have hba : (root.withChildren (xs ++ child :: b :: ys)).insertExtra a =
        root.withChildren (xs ++ child.insertExtra a :: b :: ys) :=
      insertExtra_into rfl hx hya hstart hstop
    rw [ha, hab, hb, ← List.append_cons, ← List.append_cons, hba]

end between

/-- Some node in order starts between two offsets, or none does. -/
theorem IsSorted.between_cases {nodes : List RawNode} (h : IsSorted nodes) (i j : Nat) :
    (∃ xs child ys, nodes = xs ++ child :: ys ∧ (∀ n ∈ xs, n.span.start < i) ∧
      i ≤ child.span.start ∧ child.span.start < j) ∨
    ∀ n ∈ nodes, n.span.start < i ∨ j ≤ n.span.start := by
  obtain ⟨xs, rest, rfl, hx, hrest⟩ := h.split i
  cases rest with
  | nil => exact .inr fun n hn => .inl (hx n (by simpa using hn))
  | cons child ys =>
    rcases Nat.lt_or_ge child.span.start j with hlt | hge
    · exact .inl ⟨xs, child, ys, rfl, hx, hrest child List.mem_cons_self, hlt⟩
    · have hys := List.pairwise_cons.1 (List.pairwise_append.1 h).2.1
      refine .inr (List.forall_mem_append.2 ⟨fun n hn => .inl (hx n hn),
        List.forall_mem_cons.2 ⟨.inr hge, fun n hn => .inr ?_⟩⟩)
      exact Nat.le_trans hge (hys.1 n hn)

/-- Of two extras either may be put in first. -/
theorem insertExtra_comm_of_stop_le {root : RawNode} (h : root.IsOrdered)
    (ha : a.span.start < a.span.stop) (hab : a.span.stop ≤ b.span.start) :
    (root.insertExtra a).insertExtra b = (root.insertExtra b).insertExtra a := by
  obtain ⟨hsorted, hchildren⟩ := isOrdered_iff.1 h
  have hlt : a.span.start < b.span.start := Nat.lt_of_lt_of_le ha hab
  -- If a child starts between the two, they go to different sides of it.
  rcases hsorted.between_cases a.span.start b.span.start with
    ⟨xs, child, ys, hc, hx, hstart, hbetween⟩ | hnone
  · rw [← root.withChildren_self, hc]
    exact insertExtra_comm_apart root (hc ▸ hsorted) hlt hx hstart hbetween
  obtain ⟨xs, ys, hx, hy, hcase⟩ := hsorted.insert_cases a
  have hyb (hmem : ∀ n ∈ ys, n ∈ root.children) : ∀ n ∈ ys, b.span.start ≤ n.span.start :=
    fun n hn => (hnone n (hmem n hn)).resolve_left (Nat.not_lt.2 (hy n hn))
  rcases hcase with ⟨hc, hlast⟩ | ⟨child, hc, hstart, hstop⟩
  · exact insertExtra_comm_here hx (hyb fun n hn => by simp [hc, hn]) hlt hab hc hlast
  · have hmem : child ∈ root.children := by simp [hc]
    exact insertExtra_comm_into hx (hyb fun n hn => by simp [hc, hn]) hlt hc hstart hstop
      (insertExtra_comm_of_stop_le (hchildren child hmem) ha hab)
termination_by root
decreasing_by
  have := List.sizeOf_lt_of_mem hmem
  cases root
  simp only [mk.sizeOf_spec] at *
  omega

/-! ## Any number of extras -/

/-- Childless extras that cover something and do not overlap. -/
structure AreScattered (extras : List RawNode) : Prop where
  childless : ∀ e ∈ extras, e.children = []
  lt : ∀ e ∈ extras, e.span.start < e.span.stop
  apart : extras.Pairwise fun a b => a.span.stop ≤ b.span.start ∨ b.span.stop ≤ a.span.start

theorem AreScattered.perm {extras extras' : List RawNode} (h : AreScattered extras)
    (hperm : extras.Perm extras') : AreScattered extras' :=
  ⟨fun e he => h.childless e (hperm.mem_iff.2 he), fun e he => h.lt e (hperm.mem_iff.2 he),
    hperm.pairwise h.apart Or.symm⟩

theorem AreScattered.tail {extras : List RawNode} (h : AreScattered (extra :: extras)) :
    AreScattered extras :=
  ⟨(List.forall_mem_cons.1 h.childless).2, (List.forall_mem_cons.1 h.lt).2,
    (List.pairwise_cons.1 h.apart).2⟩

/-- Of two extras that do not overlap either may be put in first. -/
theorem insertExtra_comm {extras : List RawNode} (hroot : root.IsOrdered)
    (h : AreScattered (a :: b :: extras)) :
    (root.insertExtra a).insertExtra b = (root.insertExtra b).insertExtra a := by
  rcases List.rel_of_pairwise_cons h.apart List.mem_cons_self with hab | hba
  · exact insertExtra_comm_of_stop_le hroot (h.lt a List.mem_cons_self) hab
  · exact (insertExtra_comm_of_stop_le hroot (h.lt b (by simp)) hba).symm

/-- A tree with extras put in, one after the other. -/
def insertExtras (root : RawNode) (extras : List RawNode) : RawNode :=
  extras.foldl insertExtra root

theorem insertExtras_cons (root extra : RawNode) (extras : List RawNode) :
    root.insertExtras (extra :: extras) = (root.insertExtra extra).insertExtras extras := rfl

theorem IsOrdered.insertExtras {extras : List RawNode} (hroot : root.IsOrdered)
    (h : AreScattered extras) : (root.insertExtras extras).IsOrdered := by
  induction extras generalizing root with
  | nil => exact hroot
  | cons extra extras ih =>
    exact ih (hroot.insertExtra (h.childless extra List.mem_cons_self)) h.tail

/-- Scattered extras make the same tree of an ordered tree, whatever the order in which they are
    put in, and the tree is ordered. -/
theorem insertExtras_perm {root : RawNode} {extras extras' : List RawNode} (hroot : root.IsOrdered)
    (h : AreScattered extras) (hperm : extras.Perm extras') :
    root.insertExtras extras = root.insertExtras extras' ∧
      (root.insertExtras extras).IsOrdered := by
  refine ⟨?_, hroot.insertExtras h⟩
  induction hperm generalizing root with
  | nil => rfl
  | cons extra _ ih => exact ih (hroot.insertExtra (h.childless extra List.mem_cons_self)) h.tail
  | swap a b extras =>
    simp only [insertExtras_cons]
    rw [insertExtra_comm hroot h]
  | trans hperm _ ih ih' => exact (ih hroot h).trans (ih' hroot (h.perm hperm))

/-- Three extras among children that overlap, one of them in a child, two between children. -/
theorem insertExtras_perm_overlapping :
    let root := branchAt ⟨1⟩ ⟨5, 9⟩ [branchAt ⟨1⟩ ⟨0, 30⟩ [leaf ⟨1⟩ ⟨2, 3⟩], leaf ⟨1⟩ ⟨4, 12⟩,
      leaf ⟨1⟩ ⟨4, 1⟩, leaf ⟨1⟩ ⟨40, 41⟩]
    let extras := [leaf ⟨2⟩ ⟨20, 25⟩, leaf ⟨2⟩ ⟨1, 4⟩, leaf ⟨2⟩ ⟨30, 40⟩]
    root.IsOrdered ∧ AreScattered extras ∧ extras.Perm extras.reverse ∧
      root.insertExtras extras = root.insertExtras extras.reverse ∧
        (root.insertExtras extras).IsOrdered := by
  intro root extras
  have hroot : root.IsOrdered := by unfold IsOrdered IsSorted; decide
  have hscattered : AreScattered extras := ⟨by decide, by decide, by decide⟩
  have hperm : extras.Perm extras.reverse := (List.reverse_perm extras).symm
  exact ⟨hroot, hscattered, hperm, insertExtras_perm hroot hscattered hperm⟩

end GrammarTools.RawNode
