import GrammarTools.Proofs.Extra
import GrammarTools.Proofs.Lexing
import GrammarTools.Proofs.Reading
import Mathlib.Data.List.Basic

/-!
# Nodes that record marks

Every node of a parsed source stands for a row of marks, the tokens and
comments that it covers, and its span goes from the first of them to the last
(`Mark.Frames`). There are four ways to record marks (`Records`):

* a leaf records a token;
* a comment records itself;
* any other node records what its children record, one behind the other;
* an error records tokens and comments, but shows the comments alone.

An extra that stands between two marks is put between what records the marks in
front of it and what records those behind it (`RecordsAll.insertExtra`). If no
two children of a node come apart there, it goes into the child that records
marks on both sides (`RecordsAll.split`).
-/

namespace GrammarTools

namespace Mark

variable {marks more : List Mark} {m c : Mark} {span : Span}

theorem Ordered.sublist (h : Ordered marks) (hs : more.Sublist marks) : Ordered more :=
  ⟨fun m hm => h.lt m (hs.subset hm), h.pairwise.sublist hs⟩

theorem Ordered.append_left (h : Ordered (marks ++ more)) : Ordered marks :=
  h.sublist (List.sublist_append_left _ _)

theorem Ordered.append_right (h : Ordered (marks ++ more)) : Ordered more :=
  h.sublist (List.sublist_append_right _ _)

/-- Marks of two rows in order do not overlap. -/
theorem Ordered.apart (h : Ordered (marks ++ more)) (hm : m ∈ marks) (hc : c ∈ more) :
    m.span.stop ≤ c.span.start :=
  (List.pairwise_append.1 h.pairwise).2.2 m hm c hc

/-- A span from the first of some marks to the last. -/
structure Frames (marks : List Mark) (span : Span) : Prop where
  start : marks.head?.map (·.span.start) = some span.start
  stop : marks.getLast?.map (·.span.stop) = some span.stop

namespace Frames

theorem ne_nil (h : Frames marks span) : marks ≠ [] := by
  rintro rfl
  cases h.start

theorem singleton (m : Mark) : Frames [m] m.span := ⟨rfl, rfl⟩

/-- Marks frame one span only. -/
theorem eq {span' : Span} (h : Frames marks span) (h' : Frames marks span') : span = span' := by
  have hstart := h.start.symm.trans h'.start
  have hstop := h.stop.symm.trans h'.stop
  cases span
  cases span'
  simp_all

/-- Rows behind each other frame the span from the first to the last of them. -/
theorem append {a b : Span} (h : Frames marks a) (h' : Frames more b) :
    Frames (marks ++ more) ⟨a.start, b.stop⟩ := by
  refine ⟨?_, ?_⟩
  · rw [List.head?_append_of_ne_nil _ h.ne_nil, h.start]
  · rw [List.getLast?_append_of_ne_nil _ h'.ne_nil, h'.stop]

theorem exists_first (h : Frames marks span) :
    ∃ first rest, marks = first :: rest ∧ first.span.start = span.start := by
  obtain ⟨first, hf, hstart⟩ := Option.map_eq_some_iff.1 h.start
  obtain ⟨rest, rfl⟩ := List.head?_eq_some_iff.1 hf
  exact ⟨first, rest, rfl, hstart⟩

theorem exists_last (h : Frames marks span) :
    ∃ front last, marks = front ++ [last] ∧ last.span.stop = span.stop := by
  obtain ⟨last, hl, hstop⟩ := Option.map_eq_some_iff.1 h.stop
  obtain ⟨front, rfl⟩ := List.getLast?_eq_some_iff.1 hl
  exact ⟨front, last, rfl, hstop⟩

/-- The frame starts where the first mark does. -/
theorem start_le (h : Frames marks span) (ho : Ordered marks) (hm : m ∈ marks) :
    span.start ≤ m.span.start := by
  obtain ⟨first, rest, rfl, hstart⟩ := h.exists_first
  rcases List.mem_cons.1 hm with rfl | hm
  · exact Nat.le_of_eq hstart.symm
  · have := ho.lt first List.mem_cons_self
    have := List.rel_of_pairwise_cons ho.pairwise hm
    omega

/-- The frame ends where the last mark does. -/
theorem le_stop (h : Frames marks span) (ho : Ordered marks) (hm : m ∈ marks) :
    m.span.stop ≤ span.stop := by
  obtain ⟨front, last, rfl, hstop⟩ := h.exists_last
  rcases List.mem_append.1 hm with hm' | hm'
  · have := ho.lt last (by simp)
    have := ho.apart hm' List.mem_cons_self
    omega
  · rw [List.mem_singleton.1 hm', hstop]

/-- A frame is not empty. -/
theorem lt (h : Frames marks span) (ho : Ordered marks) : span.start < span.stop := by
  obtain ⟨m, hm⟩ := List.exists_mem_of_ne_nil _ h.ne_nil
  have := h.start_le ho hm
  have := h.le_stop ho hm
  have := ho.lt m hm
  omega

/-- A mark between two others stands inside the frame. -/
theorem surrounds (h : Frames (marks ++ c :: more) span) (ho : Ordered (marks ++ c :: more))
    (hm : marks ≠ []) (hn : more ≠ []) :
    span.start < c.span.start ∧ c.span.stop < span.stop := by
  obtain ⟨a, ha⟩ := List.exists_mem_of_ne_nil _ hm
  obtain ⟨b, hb⟩ := List.exists_mem_of_ne_nil _ hn
  constructor
  · have hmem : a ∈ marks ++ c :: more := List.mem_append_left _ ha
    have := h.start_le ho hmem
    have := ho.lt a hmem
    have := ho.apart ha List.mem_cons_self
    omega
  · have hmem : b ∈ marks ++ c :: more := List.mem_append_right _ (List.mem_cons_of_mem _ hb)
    have := h.le_stop ho hmem
    have := ho.lt b hmem
    have := List.rel_of_pairwise_cons (List.pairwise_append.1 ho.pairwise).2.1 hb
    omega

/-- A mark put between two others leaves the frame as it was. -/
theorem insert (h : Frames (marks ++ more) span) (hm : marks ≠ []) (hn : more ≠ []) :
    Frames (marks ++ c :: more) span := by
  refine ⟨?_, ?_⟩
  · rw [List.head?_append_of_ne_nil _ hm, ← List.head?_append_of_ne_nil _ hm, h.start]
  · rw [List.getLast?_append_of_ne_nil _ (List.cons_ne_nil c more),
      List.getLast?_cons_of_ne_nil hn, ← h.stop, List.getLast?_append_of_ne_nil _ hn]

end Frames

/-- The nodes of the comments among some marks. -/
def leaves (comment : KindId) (marks : List Mark) : List RawNode :=
  (comments marks).map (.leaf comment)

theorem leaves_append (comment : KindId) (marks more : List Mark) :
    leaves comment (marks ++ more) = leaves comment marks ++ leaves comment more := by
  simp [leaves]

end Mark

mutual

/-- A node that records a row of marks. -/
inductive Records (comment : KindId) : RawNode → List Mark → Prop
  | token {kind : KindId} {field : Option FieldId} {span : Span} :
      kind.isPlain comment → Records comment ⟨kind, field, span, []⟩ [⟨span, false⟩]
  | comment {span : Span} : Records comment (.leaf comment span) [⟨span, true⟩]
  | branch {kind : KindId} {field : Option FieldId} {span : Span} {children : List RawNode}
      {marks : List Mark} : kind.isPlain comment → RecordsAll comment children marks →
        Mark.Frames marks span → Records comment ⟨kind, field, span, children⟩ marks
  | error {span : Span} {marks : List Mark} : Mark.Frames marks span →
      Records comment (.error span (Mark.leaves comment marks)) marks

/-- Nodes that record a row of marks, one behind the other. -/
inductive RecordsAll (comment : KindId) : List RawNode → List Mark → Prop
  | nil : RecordsAll comment [] []
  | cons {node : RawNode} {nodes : List RawNode} {own marks : List Mark} :
      Records comment node own → RecordsAll comment nodes marks →
        RecordsAll comment (node :: nodes) (own ++ marks)

end

variable {comment : KindId} {node : RawNode} {nodes more : List RawNode}
  {marks marks' : List Mark} {c : Mark} {offset : Nat}

/-- The span of a node goes from the first mark that it records to the last. -/
theorem Records.frames (h : Records comment node marks) : Mark.Frames marks node.span := by
  cases h with
  | token => exact .singleton _
  | comment => exact .singleton _
  | branch _ _ hf => exact hf
  | error hf => exact hf

namespace RecordsAll

/-- An induction over nodes that record marks, by the way in which the first one does. -/
theorem induct {motive : (nodes : List RawNode) → (marks : List Mark) →
      RecordsAll comment nodes marks → Prop}
    (nil : motive [] [] .nil)
    (token : ∀ {kind field span nodes marks} (hk : kind.isPlain comment)
      (h : RecordsAll comment nodes marks), motive nodes marks h →
        motive (⟨kind, field, span, []⟩ :: nodes) (⟨span, false⟩ :: marks) (.cons (.token hk) h))
    (extra : ∀ {span nodes marks} (h : RecordsAll comment nodes marks), motive nodes marks h →
      motive (.leaf comment span :: nodes) (⟨span, true⟩ :: marks) (.cons .comment h))
    (branch : ∀ {kind field span children own nodes marks} (hk : kind.isPlain comment)
      (hc : RecordsAll comment children own) (hf : Mark.Frames own span)
      (h : RecordsAll comment nodes marks), motive children own hc → motive nodes marks h →
        motive (⟨kind, field, span, children⟩ :: nodes) (own ++ marks) (.cons (.branch hk hc hf) h))
    (error : ∀ {span own nodes marks} (hf : Mark.Frames own span)
      (h : RecordsAll comment nodes marks), motive nodes marks h →
        motive (.error span (Mark.leaves comment own) :: nodes) (own ++ marks)
          (.cons (.error hf) h))
    (h : RecordsAll comment nodes marks) : motive nodes marks h :=
  @RecordsAll.rec _
    (fun node own hn => ∀ nodes marks h, motive nodes marks h →
      motive (node :: nodes) (own ++ marks) (.cons hn h))
    motive (fun hk _ _ h ih => token hk h ih) (fun _ _ h ih => extra h ih)
    (fun hk hc hf ihc _ _ h ih => branch hk hc hf h ihc ih) (fun hf _ _ h ih => error hf h ih)
    nil (fun _ h ihn ih => ihn _ _ h ih) _ _ h

theorem singleton (h : Records comment node marks) : RecordsAll comment [node] marks := by
  simpa using RecordsAll.cons h .nil

/-- Nodes in a row record marks in a row. -/
theorem append (h : RecordsAll comment nodes marks) (h' : RecordsAll comment more marks') :
    RecordsAll comment (nodes ++ more) (marks ++ marks') := by
  induction nodes generalizing marks with
  | nil =>
    cases h
    exact h'
  | cons node nodes ih =>
    cases h with
    | cons hn h =>
      rw [List.append_assoc]
      exact .cons hn (ih h)

/-- The comments of an error record themselves. -/
theorem of_comments (marks : List Mark) :
    RecordsAll comment (Mark.leaves comment marks) (marks.filter Mark.isComment) := by
  induction marks with
  | nil => exact .nil
  | cons m marks ih =>
    obtain ⟨span, isComment⟩ := m
    cases isComment with
    | false => exact ih
    | true => exact .cons .comment ih

/-- Each of some nodes records some of the marks. -/
theorem exists_of_mem (h : RecordsAll comment nodes marks) (hn : node ∈ nodes) :
    ∃ own, own.Sublist marks ∧ Records comment node own := by
  induction nodes generalizing marks with
  | nil => cases hn
  | cons first nodes ih =>
    cases h with
    | cons hfirst h =>
      rcases List.mem_cons.1 hn with rfl | hn
      · exact ⟨_, List.sublist_append_left _ _, hfirst⟩
      · obtain ⟨own, hs, hown⟩ := ih h hn
        exact ⟨own, hs.trans (List.sublist_append_right _ _), hown⟩

/-- The frame of some nodes goes from the first of them to the last. -/
theorem frames {first last : RawNode} (h : RecordsAll comment nodes marks)
    (hf : nodes.head? = some first) (hl : nodes.getLast? = some last) :
    Mark.Frames marks ⟨first.span.start, last.span.stop⟩ := by
  induction nodes generalizing marks first with
  | nil => cases hf
  | cons node nodes ih =>
    cases h with
    | cons hn h =>
      obtain rfl : node = first := by simpa using hf
      cases nodes with
      | nil =>
        obtain rfl : node = last := by simpa using hl
        cases h
        simpa using hn.frames
      | cons next nodes =>
        have hrest := ih h rfl hl
        have hframes := hn.frames.append hrest
        exact hframes

/-- No recorded node is empty. -/
theorem start_lt_stop (h : RecordsAll comment nodes marks) (ho : Mark.Ordered marks)
    (hn : node ∈ nodes) : node.span.start < node.span.stop := by
  obtain ⟨own, hs, hown⟩ := h.exists_of_mem hn
  exact hown.frames.lt (ho.sublist hs)

/-- Nodes stand behind what their marks stand behind. -/
theorem le_start (h : RecordsAll comment nodes marks) (hm : ∀ m ∈ marks, offset ≤ m.span.start)
    (hn : node ∈ nodes) : offset ≤ node.span.start := by
  obtain ⟨own, hs, hown⟩ := h.exists_of_mem hn
  obtain ⟨first, rest, rfl, hstart⟩ := hown.frames.exists_first
  exact hstart ▸ hm first (hs.subset List.mem_cons_self)

/-- Nodes stand in front of what their marks stand in front of. -/
theorem stop_le (h : RecordsAll comment nodes marks) (hm : ∀ m ∈ marks, m.span.stop ≤ offset)
    (hn : node ∈ nodes) : node.span.stop ≤ offset := by
  obtain ⟨own, hs, hown⟩ := h.exists_of_mem hn
  obtain ⟨front, last, rfl, hstop⟩ := hown.frames.exists_last
  exact hstop ▸ hm last (hs.subset (by simp))

/-- Nodes that record ordered marks stand one behind the other. -/
theorem pairwise (h : RecordsAll comment nodes marks) (ho : Mark.Ordered marks) :
    nodes.Pairwise fun a b => a.span.stop ≤ b.span.start := by
  induction nodes generalizing marks with
  | nil => exact .nil
  | cons node nodes ih =>
    cases h with
    | @cons _ _ own rest hn h =>
      refine .cons (fun next hnext => ?_) (ih h ho.append_right)
      exact h.le_start (fun m hm => stop_le (singleton hn) (fun m' hm' => ho.apart hm' hm)
        List.mem_cons_self) hnext

/-- Between two marks, either two nodes come apart or one node records marks on both
    sides. -/
theorem split (h : RecordsAll comment nodes (marks ++ marks')) :
    (∃ before after, nodes = before ++ after ∧ RecordsAll comment before marks ∧
      RecordsAll comment after marks') ∨
    (∃ before child after front own own' back, nodes = before ++ child :: after ∧
      marks = front ++ own ∧ marks' = own' ++ back ∧ own ≠ [] ∧ own' ≠ [] ∧
      RecordsAll comment before front ∧ Records comment child (own ++ own') ∧
      RecordsAll comment after back) := by
  generalize hm : marks ++ marks' = all at h
  induction nodes generalizing marks all with
  | nil =>
    cases h
    obtain ⟨rfl, rfl⟩ := List.append_eq_nil_iff.1 hm
    exact .inl ⟨[], [], rfl, .nil, .nil⟩
  | cons node nodes ih =>
    cases h with
    | @cons _ _ own rest hn h =>
      -- The marks are cut in the first node, or behind it.
      rcases List.append_eq_append_iff.1 hm with ⟨t, rfl, rfl⟩ | ⟨t, rfl, rfl⟩
      · rcases marks with - | ⟨m, marks⟩
        · exact .inl ⟨[], node :: nodes, rfl, .nil, .cons hn h⟩
        rcases t with - | ⟨m', t⟩
        · rw [List.append_nil] at hn
          exact .inl ⟨[node], nodes, rfl, singleton hn, h⟩
        · exact .inr ⟨[], node, nodes, [], m :: marks, m' :: t, rest, rfl, rfl, rfl, by simp,
            by simp, .nil, hn, h⟩
      · rcases ih _ rfl h with ⟨before, after, rfl, hb, ha⟩ |
          ⟨before, child, after, front, own, own', back, rfl, rfl, rfl, ho, ho', hb, hc, ha⟩
        · exact .inl ⟨node :: before, after, rfl, .cons hn hb, ha⟩
        · exact .inr ⟨node :: before, child, after, _ ++ front, own, own', back, rfl,
            (List.append_assoc ..).symm, rfl, ho, ho', .cons hn hb, hc, ha⟩

end RecordsAll

/-! ## Comments put in -/

section insertExtra

variable {span : Span} {own own' : List Mark} {before after : List RawNode} {child : RawNode}
  (ho : Mark.Ordered (marks ++ ⟨span, true⟩ :: marks'))
include ho

/-- Nodes in front of a comment start before it. -/
theorem RecordsAll.start_lt (h : RecordsAll comment nodes own) (hs : own.Sublist marks) :
    ∀ n ∈ nodes, n.span.start < span.start := fun _ hn =>
  Nat.lt_of_lt_of_le
    (h.start_lt_stop (ho.append_left.sublist hs) hn)
    (h.stop_le (fun _ hm => ho.apart (hs.subset hm) List.mem_cons_self) hn)

/-- Nodes behind a comment start behind it. -/
theorem RecordsAll.lt_start (h : RecordsAll comment nodes own) (hs : own.Sublist marks') :
    ∀ n ∈ nodes, span.start < n.span.start := fun _ hn =>
  Nat.lt_of_lt_of_le (ho.lt ⟨span, true⟩ (by simp))
    (h.le_start (fun _ hm => List.rel_of_pairwise_cons
      (List.pairwise_append.1 ho.pairwise).2.1 (hs.subset hm)) hn)

/-- A comment goes between nodes that come apart there. -/
theorem RecordsAll.insertExtra_here (hn : node.children = before ++ after)
    (hb : RecordsAll comment before own) (hs : own.Sublist marks)
    (ha : RecordsAll comment after own') (hs' : own'.Sublist marks') :
    node.insertExtra (.leaf comment span) =
      node.withChildren (before ++ .leaf comment span :: after) :=
  RawNode.insertExtra_here hn (hb.start_lt ho hs)
    (fun n hn => Nat.le_of_lt (ha.lt_start ho hs' n hn)) fun _ hn =>
      hb.stop_le (fun _ hm => ho.apart (hs.subset hm) List.mem_cons_self)
        (List.mem_of_getLast? hn)

omit ho in
/-- A node that records marks on both sides of a comment takes it, if its children can. -/
theorem Records.insertExtra (ho : Mark.Ordered (marks ++ ⟨span, true⟩ :: marks'))
    (h : Records comment child (marks ++ marks')) (hm : marks ≠ []) (hm' : marks' ≠ [])
    (hchildren : RecordsAll comment child.children (marks ++ marks') →
      ∃ children, child.insertExtra (.leaf comment span) = child.withChildren children ∧
        RecordsAll comment children (marks ++ ⟨span, true⟩ :: marks')) :
    Records comment (child.insertExtra (.leaf comment span)) (marks ++ ⟨span, true⟩ :: marks') := by
  have hframes := h.frames.insert hm hm' (c := ⟨span, true⟩)
  have hlength : 1 < (marks ++ marks').length := by
    have := List.length_pos_iff.2 hm
    have := List.length_pos_iff.2 hm'
    simp only [List.length_append]
    omega
  generalize hall : marks ++ marks' = all at h hlength
  cases h with
  -- A node with a single mark has none on both sides.
  | token => simp at hlength
  | comment => simp at hlength
  | branch hk h hf =>
    obtain ⟨children, heq, h'⟩ := hchildren (hall ▸ h)
    rw [heq]
    exact .branch hk h' hframes
  | error hf =>
    have hcomments : Mark.leaves comment (marks ++ ⟨span, true⟩ :: marks') =
        Mark.leaves comment marks ++ .leaf comment span :: Mark.leaves comment marks' :=
      Mark.leaves_append ..
    rw [RecordsAll.insertExtra_here ho (hall ▸ Mark.leaves_append ..) (.of_comments marks)
      List.filter_sublist (.of_comments marks') List.filter_sublist, ← hcomments]
    exact .error hframes

omit ho in
/-- A comment that stands between two marks is recorded there. -/
theorem RecordsAll.insertExtra {node : RawNode} {marks marks' : List Mark}
    (ho : Mark.Ordered (marks ++ ⟨span, true⟩ :: marks'))
    (h : RecordsAll comment node.children (marks ++ marks')) :
    ∃ children, node.insertExtra (.leaf comment span) = node.withChildren children ∧
      RecordsAll comment children (marks ++ ⟨span, true⟩ :: marks') := by
  -- The comment stands between two children, or between two marks of one child.
  rcases h.split with ⟨before, after, hn, hb, ha⟩ |
    ⟨before, child, after, front, own, own', back, hn, rfl, rfl, hne, hne', hb, hchild, ha⟩
  · exact ⟨_, insertExtra_here ho hn hb (.refl _) ha (.refl _), hb.append (.cons .comment ha)⟩
  · have hinfix : own ++ ⟨span, true⟩ :: own' <:+:
        front ++ own ++ ⟨span, true⟩ :: (own' ++ back) := ⟨front, back, by simp⟩
    have hown := ho.sublist hinfix.sublist
    have hinside := (hchild.frames.insert hne hne').surrounds hown hne hne'
    have hrec := hchild.insertExtra hown hne hne' fun h => insertExtra hown h
    refine ⟨before ++ child.insertExtra (.leaf comment span) :: after, ?_, ?_⟩
    · exact RawNode.insertExtra_into hn (hb.start_lt ho (List.sublist_append_left _ _))
        (fun n hn => Nat.le_of_lt (ha.lt_start ho (List.sublist_append_right _ _) n hn))
        hinside.1 (Nat.lt_trans (hown.lt ⟨span, true⟩ (by simp)) hinside.2)
    · have hrow := hb.append (.cons hrec ha)
      simpa using hrow
termination_by node
decreasing_by
  have hmem : child ∈ node.children := hn ▸ List.mem_append_right before List.mem_cons_self
  have := List.sizeOf_lt_of_mem hmem
  cases node
  simp only [RawNode.mk.sizeOf_spec] at *
  omega

end insertExtra

end GrammarTools
