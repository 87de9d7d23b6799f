import GrammarTools.Proofs.Nesting
import GrammarTools.Proofs.Location

/-!
# Sources put together

Let two sources be put one behind the other, with a line feed between, and let the
lexer find in the whole what it finds in the two, that of the second one moved to
the right. If the parser, too, goes through the tokens of the first
source as it does without the second one behind, then the tree of the whole has the
nodes of the first tree and, moved, those of the second (`Grammar.parse_splice`).

The comments of the first source go in front of all nodes of the second one
(`Grammar.addComments_front`), and those of the second source behind all nodes of
the first one (`Grammar.addComments_back`).
-/

namespace GrammarTools

variable {τ : Type}

/-! ## Extras among nodes in order -/

namespace RawNode

variable {node extra : RawNode} {nodes xs ys : List RawNode}

/-- Nodes in the order in which they start. -/
def IsSorted (nodes : List RawNode) : Prop := nodes.Pairwise fun a b => a.span.start ≤ b.span.start

/-- Nodes in order come apart at every offset. -/
theorem IsSorted.split (h : IsSorted nodes) (offset : Nat) :
    ∃ before after, nodes = before ++ after ∧ (∀ n ∈ before, n.span.start < offset) ∧
      ∀ n ∈ after, offset ≤ n.span.start := by
  induction nodes with
  | nil => exact ⟨[], [], rfl, by simp, by simp⟩
  | cons node nodes ih =>
    obtain ⟨hfirst, hrest⟩ := List.pairwise_cons.1 h
    rcases Nat.lt_or_ge node.span.start offset with hlt | hge
    · obtain ⟨before, after, rfl, hb, ha⟩ := ih hrest
      exact ⟨node :: before, after, rfl, by simpa using ⟨hlt, hb⟩, ha⟩
    · refine ⟨[], node :: nodes, rfl, by simp, fun n hn => ?_⟩
      rcases List.mem_cons.1 hn with rfl | hn
      · exact hge
      · exact Nat.le_trans hge (hfirst n hn)

/-- Among nodes in order an extra goes behind all that start in front of it, or into the last
    one of them. -/
theorem IsSorted.insert_cases (h : IsSorted nodes) (extra : RawNode) :
    ∃ before after, (∀ n ∈ before, n.span.start < extra.span.start) ∧
      (∀ n ∈ after, extra.span.start ≤ n.span.start) ∧
        ((nodes = before ++ after ∧ ∀ n ∈ before.getLast?, n.span.stop ≤ extra.span.start) ∨
          ∃ child, nodes = before ++ child :: after ∧ child.span.start < extra.span.start ∧
            extra.span.start < child.span.stop) := by
  obtain ⟨before, after, rfl, hb, ha⟩ := h.split extra.span.start
  rcases List.eq_nil_or_concat before with rfl | ⟨front, last, rfl⟩
  · exact ⟨[], after, hb, ha, .inl ⟨rfl, by simp⟩⟩
  · rw [List.concat_eq_append] at hb ⊢
    rcases Nat.lt_or_ge extra.span.start last.span.stop with hlt | hge
    · exact ⟨front, after, fun n hn => hb n (List.mem_append_left _ hn), ha,
        .inr ⟨last, by simp, hb last (by simp), hlt⟩⟩
    · exact ⟨front ++ [last], after, hb, ha, .inl ⟨rfl, by simpa using hge⟩⟩

/-- A node put between what starts before it and what starts behind it keeps the order. -/
theorem isSorted_insert {before after : List RawNode} (h : IsSorted (before ++ after))
    (hb : ∀ n ∈ before, n.span.start < extra.span.start)
    (ha : ∀ n ∈ after, extra.span.start ≤ n.span.start) :
    IsSorted (before ++ extra :: after) := by
  rw [IsSorted, List.pairwise_append] at h ⊢
  refine ⟨h.1, .cons ha h.2.1, fun n hn m hm => ?_⟩
  rcases List.mem_cons.1 hm with rfl | hm
  · exact Nat.le_of_lt (hb n hn)
  · exact h.2.2 n hn m hm

/-- A node put into a child leaves the order of the children. -/
theorem isSorted_into {before after : List RawNode} {child : RawNode}
    (h : IsSorted (before ++ child :: after)) :
    IsSorted (before ++ child.insertExtra extra :: after) := by
  have hspan := (insertExtra_frame child extra).2.2
  rw [IsSorted, ← List.pairwise_map (R := fun a b : Nat => a ≤ b)] at h ⊢
  simpa [hspan] using h

/-- An extra that is in front of the last ones of some nodes goes where it would go without
    them. -/
theorem insertExtra_front (extra : RawNode) (hx : IsSorted xs)
    (hy : ∀ n ∈ ys, extra.span.start ≤ n.span.start) :
    ∃ xs', IsSorted xs' ∧ ∀ node : RawNode,
      (node.withChildren xs).insertExtra extra = node.withChildren xs' ∧
        (node.withChildren (xs ++ ys)).insertExtra extra = node.withChildren (xs' ++ ys) := by
  obtain ⟨before, after, hb, ha, hcase⟩ := hx.insert_cases extra
  have hay : ∀ n ∈ after ++ ys, extra.span.start ≤ n.span.start := fun n hn =>
    (List.mem_append.1 hn).elim (ha n) (hy n)
  rcases hcase with ⟨rfl, hlast⟩ | ⟨child, rfl, hstart, hstop⟩
  · refine ⟨_, isSorted_insert hx hb ha, fun node => ⟨insertExtra_here rfl hb ha hlast, ?_⟩⟩
    rw [insertExtra_here (List.append_assoc ..) hb hay hlast, withChildren_withChildren,
      List.append_assoc, List.cons_append]
  · refine ⟨_, isSorted_into hx, fun node => ⟨insertExtra_into rfl hb ha hstart hstop, ?_⟩⟩
    rw [insertExtra_into (List.append_assoc ..) hb hay hstart hstop, withChildren_withChildren,
      List.append_assoc, List.cons_append]

/-- An extra that is behind the first ones of some nodes goes where it would go without them. -/
theorem insertExtra_back (extra : RawNode)
    (hx : ∀ n ∈ xs, n.span.start < extra.span.start)
    (hlast : ∀ n ∈ xs.getLast?, n.span.stop ≤ extra.span.start) (hy : IsSorted ys) :
    ∃ ys', IsSorted ys' ∧ ∀ node : RawNode,
      (node.withChildren ys).insertExtra extra = node.withChildren ys' ∧
        (node.withChildren (xs ++ ys)).insertExtra extra = node.withChildren (xs ++ ys') := by
  obtain ⟨before, after, hb, ha, hcase⟩ := hy.insert_cases extra
  have hxb : ∀ n ∈ xs ++ before, n.span.start < extra.span.start := fun n hn =>
    (List.mem_append.1 hn).elim (hx n) (hb n)
  rcases hcase with ⟨rfl, hbefore⟩ | ⟨child, rfl, hstart, hstop⟩
  · have hboth : ∀ n ∈ (xs ++ before).getLast?, n.span.stop ≤ extra.span.start := by
      rcases eq_or_ne before [] with rfl | hne
      · rwa [List.append_nil]
      · rwa [List.getLast?_append_of_ne_nil _ hne]
    refine ⟨_, isSorted_insert hy hb ha, fun node => ⟨insertExtra_here rfl hb ha hbefore, ?_⟩⟩
    rw [insertExtra_here (List.append_assoc ..).symm hxb ha hboth, List.append_assoc]
    rfl
  · refine ⟨_, isSorted_into hy, fun node => ⟨insertExtra_into rfl hb ha hstart hstop, ?_⟩⟩
    rw [insertExtra_into (List.append_assoc ..).symm hxb ha hstart hstop, List.append_assoc]
    rfl

end RawNode

namespace Grammar

open RawNode

variable {g : Grammar τ} {comments : List Span} {xs ys : List RawNode}

/-- Comments are added in order, so they may be added in two parts. -/
theorem addComments_append (root : RawNode) (cs ds : List Span) :
    g.addComments root (cs ++ ds) = g.addComments (g.addComments root cs) ds :=
  List.foldl_append

/-- Comments that start before the nodes behind are added among the nodes in front. -/
theorem addComments_front (g : Grammar τ) (comments : List Span) (ys : List RawNode)
    (hx : IsSorted xs)
    (hy : ∀ span ∈ comments, ∀ n ∈ ys, span.start ≤ n.span.start) :
    ∃ xs', ∀ root : RawNode, g.addComments (root.withChildren xs) comments = root.withChildren xs' ∧
      g.addComments (root.withChildren (xs ++ ys)) comments = root.withChildren (xs' ++ ys) := by
  induction comments generalizing xs with
  | nil => exact ⟨xs, fun root => ⟨rfl, rfl⟩⟩
  | cons span comments ih =>
    obtain ⟨xs₁, hx₁, h₁⟩ := insertExtra_front (.leaf g.comment span) hx
      (hy span List.mem_cons_self)
    obtain ⟨xs', h'⟩ := ih hx₁ fun span hspan => hy span (List.mem_cons_of_mem _ hspan)
    refine ⟨xs', fun root => ?_⟩
    rw [addComments, addComments, List.foldl_cons, List.foldl_cons, (h₁ root).1, (h₁ root).2]
    exact h' root

/-- Comments that start behind the nodes in front are added among the nodes behind. -/
theorem addComments_back (g : Grammar τ) (comments : List Span)
    (hx : ∀ span ∈ comments, ∀ n ∈ xs, n.span.start < span.start)
    (hlast : ∀ span ∈ comments, ∀ n ∈ xs.getLast?, n.span.stop ≤ span.start) (hy : IsSorted ys) :
    ∃ ys', ∀ root : RawNode, g.addComments (root.withChildren ys) comments = root.withChildren ys' ∧
      g.addComments (root.withChildren (xs ++ ys)) comments = root.withChildren (xs ++ ys') := by
  induction comments generalizing ys with
  | nil => exact ⟨ys, fun root => ⟨rfl, rfl⟩⟩
  | cons span comments ih =>
    obtain ⟨ys₁, hy₁, h₁⟩ := insertExtra_back (.leaf g.comment span)
      (hx span List.mem_cons_self) (hlast span List.mem_cons_self) hy
    obtain ⟨ys', h'⟩ := ih (fun span hspan => hx span (List.mem_cons_of_mem _ hspan))
      (fun span hspan => hlast span (List.mem_cons_of_mem _ hspan)) hy₁
    refine ⟨ys', fun root => ?_⟩
    rw [addComments, addComments, List.foldl_cons, List.foldl_cons, (h₁ root).1, (h₁ root).2]
    exact h' root

/-- Comments put into nodes of which the last ones have been moved behind the first ones. -/
theorem addComments_splice {cs ds : List Span} {offset : Nat} (root front back : RawNode)
    (hx : IsSorted xs) (hy : IsSorted ys) (hcs : ∀ span ∈ cs, span.start ≤ offset)
    (hxs : ∀ n ∈ (g.addComments (front.withChildren xs) cs).children,
      n.span.start < offset ∧ n.span.stop ≤ offset) :
    (g.addComments (root.withChildren (xs ++ ys.map (·.shift offset)))
        (cs ++ ds.map (·.shift offset))).children =
      (g.addComments (front.withChildren xs) cs).children ++
        (g.addComments (back.withChildren ys) ds).children.map (·.shift offset) := by
  have hmoved : IsSorted (ys.map (·.shift offset)) := by
    rw [IsSorted, List.pairwise_map]
    simpa [IsSorted] using hy
  -- The comments in front go into the nodes in front, and the others behind these.
  obtain ⟨xs', hfront⟩ := addComments_front g cs (ys.map (·.shift offset)) hx
    fun span hspan n hn => by
      obtain ⟨m, -, rfl⟩ := List.mem_map.1 hn
      have := hcs span hspan
      simp only [span_shift, Span.start_shift]
      omega
  rw [(hfront front).1, children_withChildren] at hxs ⊢
  have hbehind : ∀ span ∈ ds.map (·.shift offset), offset ≤ span.start := fun span hspan => by
    obtain ⟨span, -, rfl⟩ := List.mem_map.1 hspan
    simp
  obtain ⟨ys', hback⟩ := addComments_back g (ds.map (·.shift offset))
    (fun span hspan n hn => Nat.lt_of_lt_of_le (hxs n hn).1 (hbehind span hspan))
    (fun span hspan n hn => Nat.le_trans (hxs n (List.mem_of_getLast? hn)).2 (hbehind span hspan))
    hmoved
  have hys' := (hback (back.shift offset)).1
  rw [← shift_withChildren, addComments_shift] at hys'
  rw [← children_shift, hys', addComments_append, (hfront root).2, (hback root).2,
    children_withChildren, children_withChildren]

end Grammar

/-! ## Sources -/

namespace Grammar

open RawNode

variable {g : Grammar τ}

/-- The place in front of the tokens of a source. -/
abbrev start (g : Grammar τ) (source : String) : TokenStream τ :=
  .ofLexemes (g.lexicon.lex source).lexemes (Text.byteLength source.toList)

/-- The nodes of a run are in order. -/
theorem Run.isSorted {s : TokenStream τ} {nodes : List RawNode} {errors : List SyntaxError}
    (hf : g.IsFaithful) (h : g.Run s nodes errors)
    (ho : Mark.Ordered (Mark.ofLexemes s.upcoming)) : IsSorted nodes := by
  have hrecords := h.records hf ho
  refine (hrecords.pairwise ho).imp_of_mem fun {a b} ha _ hab => ?_
  exact Nat.le_trans (Nat.le_of_lt (hrecords.start_lt_stop ho ha)) hab

/-- No comment starts behind the end of its source. -/
theorem comment_start_le (g : Grammar τ) {source : String} {span : Span}
    (h : span ∈ (g.lexicon.lex source).comments) :
    span.start ≤ Text.byteLength source.toList := by
  rw [← g.lexicon.comments_marks] at h
  obtain ⟨m, hm, rfl⟩ := List.mem_map.1 h
  exact (g.lexicon.marks_boundary source (List.mem_filter.1 hm).1).1.le

theorem byteLength_append_line (a b : String) : Text.byteLength (a ++ "\n" ++ b).toList =
    Text.byteLength a.toList + 1 + Text.byteLength b.toList := by
  rw [String.toList_append, String.toList_append, Text.byteLength_append, Text.byteLength_append]
  rfl

/-- A source put behind another one. Where the run over the first one can go on over the second
    one, the tree has the nodes of both, and the errors are those of both runs. -/
theorem parse_splice {r : List SyntaxError → List SyntaxError → Prop} {a b source : String}
    {offset : Nat} (hg : g.IsProgressive) (hf : g.IsFaithful)
    (hshift : g.Respects (.shifted τ offset))
    (hoffset : Text.byteLength a.toList < offset)
    (hlength : Text.byteLength source.toList = offset + Text.byteLength b.toList)
    (hlex : g.lexicon.lex source = (g.lexicon.lex a).append ((g.lexicon.lex b).shift offset))
    (hrun : ∀ {nodes errors}, g.Run (g.start a) nodes errors → ∃ errors' t, r errors errors' ∧
      t.upcoming = ((g.lexicon.lex b).shift offset).lexemes ∧
        t.endOffset = Text.byteLength source.toList ∧
          ∀ {more later}, g.Run t more later →
            g.Run (g.start source) (nodes ++ more) (errors' ++ later)) :
    (g.parse source).root.children =
        (g.parse a).root.children ++ (g.parse b).root.children.map (·.shift offset) ∧
      ∃ errors', r (g.statements (g.start a)).2 errors' ∧ (g.statements (g.start source)).2 =
        errors' ++ (g.statements (g.start b)).2.map (·.shift offset) := by
  -- A run over the front and a shifted run over the back make one run over the whole.
  have hrunA := run_statements hg (g.start a)
  have hrunB := run_statements hg (g.start b)
  have hsortedA := hrunA.isSorted hf (g.lexicon.ordered_lexemes a)
  have hsortedB := hrunB.isSorted hf (g.lexicon.ordered_lexemes b)
  obtain ⟨errors', t, hr, hu, hend, hnext⟩ := hrun hrunA
  have hmoved : g.Run t _ _ := hrunB.shift hshift hf (g.lexicon.ordered_lexemes b) hu
    (by rw [hend, hlength, Nat.add_comm]; rfl)
  obtain ⟨hnodes, herrors⟩ := (run_statements hg (g.start source)).unique (hnext hmoved)
  refine ⟨?_, errors', hr, herrors⟩
  -- The comments are put in afterwards, those of the front before those of the back.
  have hnested := g.isWellNested_parse hg hf a
  have hroot : (g.parse source).root =
      g.addComments ((branchAt g.root ⟨0, Text.byteLength source.toList⟩ []).withChildren
        ((g.statements (g.start a)).1 ++ (g.statements (g.start b)).1.map (·.shift offset)))
          ((g.lexicon.lex a).comments ++ (g.lexicon.lex b).comments.map (·.shift offset)) := by
    have hcomments : (g.lexicon.lex source).comments =
      (g.lexicon.lex a).comments ++ (g.lexicon.lex b).comments.map (·.shift offset) := by
        rw [hlex]
        rfl
    rw [← hnodes, ← hcomments]
    rfl
  rw [hroot]
  refine addComments_splice _ (branchAt g.root ⟨0, Text.byteLength a.toList⟩ [])
    (branchAt g.root ⟨0, Text.byteLength b.toList⟩ []) hsortedA hsortedB
    (fun span hspan => ?_) fun n hn => ?_
  · exact Nat.le_of_lt (Nat.lt_of_le_of_lt (g.comment_start_le hspan) hoffset)
  · have hmem := mem_preorderAll _ hn (d := n) (by simp)
    have hlt := hnested.lt n hmem
    have hle := hnested.stop_le n hmem
    omega

end Grammar

end GrammarTools
