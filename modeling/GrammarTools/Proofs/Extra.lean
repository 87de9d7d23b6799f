import GrammarTools.RawNode.Extra

/-!
# Where an extra goes

The walk that puts an extra into a tree, described from the top. Let the
children of a node be those that start in front of the extra (`before`) and
those that do not (`after`). Only the children of the node change:

* if the last child of `before` ends behind the start of the extra, that child
  takes the extra (`insertExtra_into`);
* otherwise the extra goes between the two rows (`insertExtra_here`).
-/

namespace GrammarTools.RawNode

variable {node child extra : RawNode} {before after : List RawNode} {offset : Nat}

@[simp] theorem children_withChildren : (node.withChildren before).children = before := rfl

@[simp] theorem withChildren_withChildren :
    (node.withChildren before).withChildren after = node.withChildren after := rfl

theorem withChildren_self (node : RawNode) : node.withChildren node.children = node := by
  cases node
  rfl

/-- The place among children is behind those that start before the offset. -/
theorem placeAmong_append (hb : ∀ n ∈ before, n.span.start < offset)
    (ha : ∀ n ∈ after, offset ≤ n.span.start) :
    placeAmong (before ++ after) offset = before.length := by
  unfold placeAmong
  refine bisect_eq (fun i => ?_) (by simp)
  rw [List.getElem?_toArray]
  rcases Nat.lt_or_ge i before.length with hi | hi
  · have := hb _ (List.getElem_mem hi)
    simp [List.getElem?_append_left hi, hi, this]
  · rw [List.getElem?_append_right hi]
    cases hn : after[i - before.length]? with
    | none => simpa using hi
    | some n =>
      have := ha n (List.mem_of_getElem? hn)
      simp only [Option.map_some, Option.getD_some, decide_eq_true_eq]
      omega

/-- The steps that lead to a node have no part in the walk down from it. -/
theorem insertExtraAt_append (path path' : List Step) (node extra : RawNode) :
    insertExtraAt (path ++ path') node extra =
      Step.rebuild path' (insertExtraAt path node extra) := by
  fun_induction insertExtraAt path node extra with
  | case1 path node place here hplace =>
    rw [insertExtraAt, if_pos hplace]
    simp only [Step.rebuild, List.foldl_append, here]
    rfl
  | case2 path node place here hplace h =>
    rw [insertExtraAt, if_neg hplace]
    split
    · simp [Step.rebuild, here, place]
    · simp_all [place]
  | case3 path node place hplace child after h hlt ih =>
    rw [← ih, insertExtraAt, if_neg hplace]
    split
    · simp_all [place]
    · simp_all [place]
  | case4 path node place here hplace child after h hlt =>
    rw [insertExtraAt, if_neg hplace]
    split
    · simp_all [place]
    · rw [if_neg]
      · simp [Step.rebuild, here, place]
      simp_all [place]

/-- Inserting with an explicit path is inserting, and building up along the path. -/
theorem insertExtraAt_eq (path : List Step) (node extra : RawNode) :
    insertExtraAt path node extra = Step.rebuild path (insertExtra node extra) :=
  insertExtraAt_append [] path node extra

theorem drop_length_sub_one (before : List RawNode) (last : RawNode) (after : List RawNode) :
    (before ++ last :: after).drop ((before ++ [last]).length - 1) = last :: after := by
  rw [List.length_append, List.length_singleton, Nat.add_sub_cancel, List.drop_left]

/-- An extra goes behind the children that start before it, if the last of them has
    ended. -/
theorem insertExtra_here (hc : node.children = before ++ after)
    (hb : ∀ n ∈ before, n.span.start < extra.span.start)
    (ha : ∀ n ∈ after, extra.span.start ≤ n.span.start)
    (hl : ∀ n ∈ before.getLast?, n.span.stop ≤ extra.span.start) :
    node.insertExtra extra = node.withChildren (before ++ extra :: after) := by
  have hplace : placeAmong node.children extra.span.start = before.length := by
    rw [hc, placeAmong_append hb ha]
  rw [insertExtra, insertExtraAt, hplace, hc, List.take_left, List.drop_left]
  rcases List.eq_nil_or_concat before with rfl | ⟨front, last, rfl⟩
  · rfl
  · rw [if_neg (by simp)]
    split
    · rfl
    · rename_i child' after' h
      rw [List.concat_eq_append, List.append_assoc, List.singleton_append, drop_length_sub_one] at h
      obtain ⟨rfl, rfl⟩ := List.cons_eq_cons.1 h
      rw [if_neg (Nat.not_lt.2 (hl last (by simp)))]
      rfl

/-- An extra goes into the last child that starts before it, if that has not ended. -/
theorem insertExtra_into (hc : node.children = before ++ child :: after)
    (hb : ∀ n ∈ before, n.span.start < extra.span.start)
    (ha : ∀ n ∈ after, extra.span.start ≤ n.span.start)
    (hstart : child.span.start < extra.span.start) (hstop : extra.span.start < child.span.stop) :
    node.insertExtra extra =
      node.withChildren (before ++ child.insertExtra extra :: after) := by
  have hplace : placeAmong node.children extra.span.start = (before ++ [child]).length := by
    rw [hc, List.append_cons]
    refine placeAmong_append (fun n hn => ?_) ha
    rcases List.mem_append.1 hn with hn | hn
    · exact hb n hn
    · rwa [List.mem_singleton.1 hn]
  rw [insertExtra, insertExtraAt, hplace, if_neg (by simp)]
  split
  · rename_i h
    rw [hc, drop_length_sub_one] at h
    cases h
  · rename_i child' after' h
    rw [hc, drop_length_sub_one] at h
    obtain ⟨rfl, rfl⟩ := List.cons_eq_cons.1 h
    rw [if_pos hstop, insertExtraAt_eq, hc]
    simp [Step.rebuild, Step.close]

end GrammarTools.RawNode
