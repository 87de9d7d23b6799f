import GrammarTools.Proofs.Captures
import GrammarTools.Proofs.Nesting

/-!
# What is shown of nodes

Nothing is shown below a node that is shown itself, so what is shown of nodes
that stand inside each other or apart stands apart (`RawNode.pairwise_shownAll`).

What nodes record is shown, save the tokens of errors, if every leaf is shown
unless the node above it is (`RecordsAll.isShownIn`). A comment inside a node that
is shown as a whole is lost, and every other comment is shown
(`RecordsAll.commentsOf_shownAll`).
-/

namespace GrammarTools

variable {l : Language} {comment : KindId}

/-! ## Nodes that stand apart -/

/-- Nodes one behind the other, with those below each of them inside it in the same way. -/
structure RawNode.NestAll (nodes : List RawNode) : Prop where
  row : nodes.Pairwise fun a b => a.span.stop ≤ b.span.start
  inside : ∀ n ∈ preorderAll nodes, ∀ child ∈ n.children, n.span.covers child.span
  apart : ∀ n ∈ preorderAll nodes, n.children.Pairwise fun a b => a.span.stop ≤ b.span.start

theorem Span.covers_iff {a b : Span} : a.covers b ↔ a.start ≤ b.start ∧ b.stop ≤ a.stop := by
  simp [Span.covers]

theorem Span.covers_refl (s : Span) : s.covers s := covers_iff.2 ⟨Nat.le_refl _, Nat.le_refl _⟩

theorem Span.covers_trans {a b c : Span} (h : a.covers b) (h' : b.covers c) : a.covers c := by
  have := covers_iff.1 h
  have := covers_iff.1 h'
  exact covers_iff.2 ⟨by omega, by omega⟩

/-- No token overlaps a comment. -/
theorem Mark.Ordered.not_overlap {marks : List Mark} (ho : Ordered marks) {c m : Mark}
    (hc : c ∈ marks) (hcomment : c.isComment = true) (hm : m ∈ marks)
    (htoken : m.isComment = false) (hcm : c.span.start < m.span.stop) :
    ¬ m.span.start < c.span.stop := by
  intro hmc
  obtain rfl := Span.eq_of_overlap ho.pairwise hc hm hcm hmc
  rw [htoken] at hcomment
  cases hcomment

/-- A stretch of marks that is a single token has no comments. -/
theorem Mark.Frames.comments_eq_nil {marks all : List Mark} {span : Span} (hf : Frames marks span)
    (ho : Ordered all) (hall : marks.Sublist all) {m : Mark} (hm : m ∈ all)
    (htoken : m.isComment = false) (hspan : m.span = span) : Mark.comments marks = [] := by
  have hmarks := ho.sublist hall
  refine List.eq_nil_iff_forall_not_mem.2 fun span' hcomment => ?_
  obtain ⟨c, hc, -⟩ := List.mem_map.1 hcomment
  obtain ⟨hc, hcomment⟩ := List.mem_filter.1 hc
  have hstart := hf.start_le hmarks hc
  have hstop := hf.le_stop hmarks hc
  have hlt := hmarks.lt c hc
  rw [← hspan] at hstart hstop
  exact ho.not_overlap (hall.subset hc) hcomment hm htoken (by omega) (by omega)

/-- Below a well nested root, everything is well nested. -/
theorem RawNode.IsWellNested.nestAll {source : String} {root : RawNode}
    (h : root.IsWellNested source) : NestAll root.children := by
  exact ⟨h.apart root root.self_mem_preorder, fun n hn => h.inside n (mem_preorder_of_below hn),
    fun n hn => h.apart n (mem_preorder_of_below hn)⟩

namespace RawNode.NestAll

variable {node : RawNode} {rest : List RawNode}

theorem head (h : NestAll (node :: rest)) : NestAll node.children := by
  have hmem : ∀ n ∈ preorderAll node.children, n ∈ preorderAll (node :: rest) := fun n hn => by
    rw [preorderAll_cons]
    exact List.mem_append_left _ (List.mem_cons_of_mem _ hn)
  have hnode : node ∈ preorderAll (node :: rest) := by
    rw [preorderAll_cons]
    exact List.mem_append_left _ List.mem_cons_self
  exact ⟨h.apart node hnode, fun n hn => h.inside n (hmem n hn), fun n hn => h.apart n (hmem n hn)⟩

theorem tail (h : NestAll (node :: rest)) : NestAll rest := by
  have hmem : ∀ n ∈ preorderAll rest, n ∈ preorderAll (node :: rest) := fun n hn => by
    rw [preorderAll_cons]
    exact List.mem_append_right _ hn
  exact ⟨(List.pairwise_cons.1 h.row).2, fun n hn => h.inside n (hmem n hn),
    fun n hn => h.apart n (hmem n hn)⟩

theorem covers_head (h : NestAll (node :: rest)) :
    ∀ child ∈ node.children, node.span.covers child.span :=
  h.inside node (by rw [preorderAll_cons]; exact List.mem_append_left _ List.mem_cons_self)

/-- What is below a node is nested as the node is. -/
theorem below {nodes : List RawNode} (h : NestAll nodes) {n : RawNode} (hn : n ∈ nodes) :
    NestAll n.children := by
  induction nodes with
  | nil => cases hn
  | cons node rest ih =>
    rcases List.mem_cons.1 hn with rfl | hn
    · exact h.head
    · exact ih h.tail hn

end RawNode.NestAll

namespace RawNode

mutual

/-- What is shown of a node stands inside it. -/
theorem covers_shown {above : Option KindId} : (node : RawNode) → NestAll node.children →
    (∀ child ∈ node.children, node.span.covers child.span) →
      ∀ t ∈ node.shown l above, node.span.covers t.span
  | ⟨kind, field, span, children⟩, h, hinside, t, ht => by
    rw [shown] at ht
    split at ht
    · split at ht
      · cases ht
      · obtain rfl := List.mem_singleton.1 ht
        exact span.covers_refl
    · obtain ⟨child, hchild, hcovers⟩ := covers_shownAll children h t ht
      exact Span.covers_trans (hinside child hchild) hcovers

/-- What is shown of some nodes stands inside one of them. -/
theorem covers_shownAll {above : Option KindId} : (nodes : List RawNode) → NestAll nodes →
    ∀ t ∈ shownAll l above nodes, ∃ n ∈ nodes, n.span.covers t.span
  | [], _, t, ht => nomatch ht
  | node :: rest, h, t, ht => by
    rw [shownAll] at ht
    rcases List.mem_append.1 ht with ht | ht
    · exact ⟨node, List.mem_cons_self, covers_shown node h.head h.covers_head t ht⟩
    · obtain ⟨n, hn, hcovers⟩ := covers_shownAll rest h.tail t ht
      exact ⟨n, List.mem_cons_of_mem _ hn, hcovers⟩

end

mutual

/-- What is shown below one node stands in order. -/
theorem pairwise_shown {above : Option KindId} : (node : RawNode) → NestAll node.children →
    (node.shown l above).Pairwise fun a b => a.span.stop ≤ b.span.start
  | ⟨kind, field, span, children⟩, h => by
    rw [shown]
    split
    · split
      · exact .nil
      · exact List.pairwise_singleton _ _
    · exact pairwise_shownAll children h

/-- What is shown of nodes that nest stands one behind the other. -/
theorem pairwise_shownAll {above : Option KindId} : (nodes : List RawNode) → NestAll nodes →
    (shownAll l above nodes).Pairwise fun a b => a.span.stop ≤ b.span.start
  | [], _ => .nil
  | node :: rest, h => by
    rw [shownAll, List.pairwise_append]
    refine ⟨pairwise_shown node h.head, pairwise_shownAll rest h.tail, fun a ha b hb => ?_⟩
    obtain ⟨n, hn, hb⟩ := covers_shownAll rest h.tail b hb
    have ha := Span.covers_iff.1 (covers_shown node h.head h.covers_head a ha)
    have hb := Span.covers_iff.1 hb
    have hrow := List.rel_of_pairwise_cons h.row hn
    omega

end

/-- What is shown of nodes and covers a part of one of them is shown of that one. -/
theorem mem_shown_of_covers {above : Option KindId} {nodes : List RawNode} {node : RawNode}
    {t : HighlightToken} {s : Span} (h : NestAll nodes) (hn : node ∈ nodes)
    (ht : t ∈ shownAll l above nodes) (hlt : s.start < s.stop) (hs : node.span.covers s)
    (hc : t.span.covers s) : t ∈ node.shown l above := by
  have hs' := Span.covers_iff.1 hs
  have hc' := Span.covers_iff.1 hc
  induction nodes with
  | nil => cases hn
  | cons first rest ih =>
    rw [shownAll] at ht
    rcases List.mem_cons.1 hn with rfl | hn
    · refine (List.mem_append.1 ht).resolve_right fun ht => ?_
      obtain ⟨n, hn, hcovers⟩ := covers_shownAll rest h.tail t ht
      have hrow := List.rel_of_pairwise_cons h.row hn
      have := Span.covers_iff.1 hcovers
      omega
    · rcases List.mem_append.1 ht with ht | ht
      · have hrow := List.rel_of_pairwise_cons h.row hn
        have := Span.covers_iff.1 (covers_shown first h.head h.covers_head t ht)
        omega
      · exact ih h.tail hn ht

mutual

/-- Every token that is shown is the span of a node with a rule for it. -/
theorem exists_of_mem_shown {above : Option KindId} : (node : RawNode) →
    ∀ t ∈ node.shown l above, ∃ n ∈ node.preorder, ∃ kind : Option KindId, n.span = t.span ∧
      l.tokenType? kind n.field n.kind = some t.type
  | ⟨kind, field, span, children⟩, t, ht => by
    rw [shown] at ht
    rw [preorder_eq]
    split at ht
    · rename_i u hu
      split at ht
      · cases ht
      · obtain rfl := List.mem_singleton.1 ht
        exact ⟨_, List.mem_cons_self, above, rfl, hu⟩
    · obtain ⟨n, hn, hshown⟩ := exists_of_mem_shownAll children t ht
      exact ⟨n, List.mem_cons_of_mem _ hn, hshown⟩

/-- What is shown of some nodes is one of them or of those below them, which is shown as a whole. -/
theorem exists_of_mem_shownAll {above : Option KindId} : (nodes : List RawNode) →
    ∀ t ∈ shownAll l above nodes, ∃ n ∈ preorderAll nodes, ∃ kind : Option KindId,
      n.span = t.span ∧ l.tokenType? kind n.field n.kind = some t.type
  | [], t, ht => nomatch ht
  | node :: rest, t, ht => by
    rw [shownAll] at ht
    rw [preorderAll]
    rcases List.mem_append.1 ht with ht | ht
    · obtain ⟨n, hn, hshown⟩ := exists_of_mem_shown node t ht
      exact ⟨n, List.mem_append_left _ hn, hshown⟩
    · obtain ⟨n, hn, hshown⟩ := exists_of_mem_shownAll rest t ht
      exact ⟨n, List.mem_append_right _ hn, hshown⟩

end

end RawNode

/-! ## Tokens that are shown -/

namespace Language

/-- A token that is shown where it stands, if it is one. -/
def ShowsLeaf (l : Language) (comment : KindId) (above : Option KindId) (node : RawNode) : Prop :=
  node.children = [] → node.kind.isPlain comment →
    (l.tokenType? above node.field node.kind).isSome

/-- A node that is shown as a whole, or shows the tokens right below it. -/
def ShowsBelow (l : Language) (comment : KindId) (node : RawNode) : Prop :=
  (∀ above field, (l.tokenType? above field node.kind).isSome) ∨
    ∀ child ∈ node.children, l.ShowsLeaf comment (some node.kind) child

end Language

open RawNode

variable {above : Option KindId} {node : RawNode} {nodes rest : List RawNode}
  {marks all : List Mark} {s : Span}

/-- A stretch that is part of what is shown of some nodes, or of an error. -/
def IsShownIn (l : Language) (above : Option KindId) (nodes : List RawNode) (s : Span) : Prop :=
  (∃ t ∈ shownAll l above nodes, t.span.covers s) ∨
    ∃ n ∈ preorderAll nodes, n.isError ∧ n.span.covers s

namespace IsShownIn

/-- What is shown in later nodes is shown in all of them. -/
theorem tail (h : IsShownIn l above rest s) : IsShownIn l above (node :: rest) s :=
  h.imp (fun ⟨t, ht, hs⟩ => ⟨t, List.mem_append_right _ ht, hs⟩)
    fun ⟨n, hn, hs⟩ => ⟨n, List.mem_append_right _ hn, hs⟩

/-- A node with a rule of its own shows what it covers. -/
theorem of_some (node : RawNode) {t : TokenType}
    (h : l.tokenType? above node.field node.kind = some t)
    (hlt : node.span.start < node.span.stop) (hs : node.span.covers s) :
    IsShownIn l above (node :: rest) s := by
  refine .inl ⟨⟨t, node.span⟩, List.mem_append_left _ ?_, hs⟩
  rw [shown_of_some node h, if_neg (Nat.ne_of_lt hlt)]
  exact List.mem_singleton_self _

/-- A node without one leaves it to its children. -/
theorem of_none (node : RawNode) (h : l.tokenType? above node.field node.kind = none)
    (hs : IsShownIn l (some node.kind) node.children s) : IsShownIn l above (node :: rest) s := by
  refine hs.imp (fun ⟨t, ht, hs⟩ => ⟨t, List.mem_append_left _ ?_, hs⟩)
    fun ⟨n, hn, hs⟩ => ⟨n, ?_, hs⟩
  · rwa [shown_of_none node h]
  · rw [preorderAll_cons]
    exact List.mem_append_left _ (List.mem_cons_of_mem _ hn)

end IsShownIn

/-- Every token that some nodes record is shown, or stands in an error. -/
theorem RecordsAll.isShownIn (h : RecordsAll comment nodes marks) (ho : Mark.Ordered marks)
    (htop : ∀ n ∈ nodes, l.ShowsLeaf comment above n)
    (hbelow : ∀ n ∈ preorderAll nodes, l.ShowsBelow comment n) {m : Mark} (hm : m ∈ marks)
    (htoken : m.isComment = false) : IsShownIn l above nodes m.span := by
  induction h using RecordsAll.induct generalizing above with
  | nil => cases hm
  | @token kind field span nodes marks hk _ ih =>
    rcases List.mem_cons.1 hm with rfl | hm
    · obtain ⟨t, ht⟩ := Option.isSome_iff_exists.1 (htop _ List.mem_cons_self rfl hk)
      exact .of_some _ ht (ho.lt _ List.mem_cons_self) (Span.covers_refl _)
    · exact (ih (ho.sublist (List.sublist_cons_self _ _))
        (fun n hn => htop n (List.mem_cons_of_mem _ hn))
        (fun n hn => hbelow n (List.mem_append_right _ hn)) hm).tail
  | extra _ ih =>
    rcases List.mem_cons.1 hm with rfl | hm
    · cases htoken
    · exact (ih (ho.sublist (List.sublist_cons_self _ _))
        (fun n hn => htop n (List.mem_cons_of_mem _ hn))
        (fun n hn => hbelow n (List.mem_append_right _ hn)) hm).tail
  | @branch kind field span children own nodes marks hk hc hf _ ihc ih =>
    rw [preorderAll_cons, List.cons_append, List.forall_mem_cons, List.forall_mem_append] at hbelow
    obtain ⟨hnode, hbelow, hrest⟩ := hbelow
    rcases List.mem_append.1 hm with hm | hm
    · cases ht : l.tokenType? above field kind with
      | some t =>
        have hown := ho.append_left
        exact .of_some ⟨kind, field, span, children⟩ ht (hf.lt hown)
          (Span.covers_iff.2 ⟨hf.start_le hown hm, hf.le_stop hown hm⟩)
      | none =>
        -- A node that is not shown itself shows the tokens right below it.
        have hleaves := hnode.resolve_left fun hall => by simpa [ht] using hall above field
        exact .of_none ⟨kind, field, span, children⟩ ht
          (ihc ho.append_left hleaves hbelow hm)
    · exact (ih ho.append_right (fun n hn => htop n (List.mem_cons_of_mem _ hn)) hrest hm).tail
  | @error span own nodes marks hf _ ih =>
    rw [preorderAll_cons, List.cons_append, List.forall_mem_cons, List.forall_mem_append] at hbelow
    rcases List.mem_append.1 hm with hm | hm
    · have hown := ho.append_left
      refine .inr ⟨.error span (Mark.leaves comment own), ?_, rfl,
        Span.covers_iff.2 ⟨hf.start_le hown hm, hf.le_stop hown hm⟩⟩
      rw [preorderAll_cons]
      exact List.mem_append_left _ List.mem_cons_self
    · exact (ih ho.append_right (fun n hn => htop n (List.mem_cons_of_mem _ hn)) hbelow.2.2
        hm).tail

/-! ## Comments that are shown -/

/-- A language that shows comments as such, and nothing else, and shows no error. -/
structure Language.ShowsComments (l : Language) (comment : KindId) : Prop where
  comments : ∀ above field, l.tokenType? above field comment = some .comment
  only : ∀ {above field kind}, l.tokenType? above field kind = some .comment → kind = comment
  error : ∀ above field, l.tokenType? above field .error = none

/-- What is shown as a comment. -/
def HighlightToken.commentsOf (tokens : List HighlightToken) : List Span :=
  (tokens.filter (·.type = .comment)).map HighlightToken.span

open HighlightToken

theorem commentsOf_append (a b : List HighlightToken) :
    commentsOf (a ++ b) = commentsOf a ++ commentsOf b := by
  simp [commentsOf]

/-- Kinds of nodes that are shown as a whole wherever they stand, and are no comments. -/
structure Language.Hides (l : Language) (comment : KindId) (hides : KindId → Bool) : Prop where
  shown : ∀ kind, hides kind → ∀ above field, (l.tokenType? above field kind).isSome
  comment : hides comment = false

/-- Whether a stretch is inside one of some nodes, or of those below them, of kinds that hide what
    is in them. -/
def RawNode.isHidden (hides : KindId → Bool) (nodes : List RawNode) (s : Span) : Bool :=
  (preorderAll nodes).any fun n => hides n.kind && n.span.covers s

@[simp] theorem RawNode.isHidden_nil (hides : KindId → Bool) (s : Span) :
    isHidden hides [] s = false :=
  rfl

@[simp] theorem RawNode.isHidden_cons (hides : KindId → Bool) (node : RawNode)
    (nodes : List RawNode) (s : Span) : isHidden hides (node :: nodes) s =
      (hides node.kind && node.span.covers s || isHidden hides node.children s ||
        isHidden hides nodes s) := by
  rw [isHidden, preorderAll_cons, List.cons_append, List.any_cons, List.any_append, Bool.or_assoc]
  rfl

/-- No node covers what stands apart from the marks that it records. -/
theorem RecordsAll.not_covers (h : RecordsAll comment nodes marks) (hlt : s.start < s.stop)
    (hapart : (∀ m ∈ marks, s.stop ≤ m.span.start) ∨ ∀ m ∈ marks, m.span.stop ≤ s.start)
    {n : RawNode} (hn : n ∈ preorderAll nodes) : ¬ n.span.covers s := by
  intro hcovers
  have hcovers := Span.covers_iff.1 hcovers
  obtain ⟨own, hs, hown⟩ := h.exists_of_mem_preorderAll hn
  rcases hapart with hapart | hapart
  · obtain ⟨first, rest, rfl, hstart⟩ := hown.frames.exists_first
    have := hapart first (hs.subset List.mem_cons_self)
    omega
  · obtain ⟨front, last, rfl, hstop⟩ := hown.frames.exists_last
    have := hapart last (hs.subset (List.mem_append_right _ List.mem_cons_self))
    omega

/-- The comments of a row of nodes are hidden by the nodes that record them. -/
theorem Records.comments_filter {own : List Mark} (hides : KindId → Bool)
    (h : Records comment node own) (hrest : RecordsAll comment rest marks)
    (ho : Mark.Ordered (own ++ marks)) :
    (Mark.comments (own ++ marks)).filter (!isHidden hides (node :: rest) ·) =
      (Mark.comments own).filter (!isHidden hides [node] ·) ++
        (Mark.comments marks).filter (!isHidden hides rest ·) := by
  -- A comment of the one part is hidden by no node of the other, as their marks are apart.
  have hsplit : ∀ s, isHidden hides (node :: rest) s =
      (isHidden hides [node] s || isHidden hides rest s) := fun s => by
    simp
  rw [Mark.comments_append, List.filter_append]
  congr 1
  · refine List.filter_congr fun s hs => ?_
    obtain ⟨m, hm, rfl⟩ := Mark.mem_comments hs
    have hnone : isHidden hides rest m.span = false := by
      refine List.any_eq_false.2 fun n hn => ?_
      have := hrest.not_covers (ho.append_left.lt m hm) (.inl fun c hc => ho.apart hm hc) hn
      simp [this]
    rw [hsplit, hnone, Bool.or_false]
  · refine List.filter_congr fun s hs => ?_
    obtain ⟨m, hm, rfl⟩ := Mark.mem_comments hs
    have hnone : isHidden hides [node] m.span = false := by
      refine List.any_eq_false.2 fun n hn => ?_
      have := (RecordsAll.singleton h).not_covers (ho.append_right.lt m hm)
        (.inr fun c hc => ho.apart hc hm) hn
      simp [this]
    rw [hsplit, hnone, Bool.false_or]

/-- A node of a kind that hides what is in it hides all comments that it records. -/
theorem Records.comments_filter_of_hides {hides : KindId → Bool} {own : List Mark}
    (h : Records comment node own) (ho : Mark.Ordered own) (hkind : hides node.kind = true) :
    (Mark.comments own).filter (!isHidden hides [node] ·) = [] := by
  refine List.filter_eq_nil_iff.2 fun s hs => ?_
  obtain ⟨m, hm, rfl⟩ := Mark.mem_comments hs
  have hcovers := Span.covers_iff.2 ⟨h.frames.start_le ho hm, h.frames.le_stop ho hm⟩
  simp [hkind, hcovers]

section comments

variable (hl : l.ShowsComments comment)
include hl

/-- A node that is no comment and has a rule of its own shows no comments. -/
theorem commentsOf_shown_of_plain (node : RawNode) {t : TokenType} (hk : node.kind.isPlain comment)
    (h : l.tokenType? above node.field node.kind = some t) :
    commentsOf (node.shown l above) = [] := by
  have hne : t ≠ .comment := by
    rintro rfl
    exact KindId.ne_comment_of_isPlain hk (hl.only h)
  rw [shown_of_some node h]
  split <;> simp [commentsOf, hne]

/-- A comment shows itself. -/
theorem commentsOf_shown_leaf {span : Span} (hlt : span.start < span.stop) :
    commentsOf ((RawNode.leaf comment span).shown l above) = [span] := by
  rw [shown_of_some (.leaf comment span) (hl.comments above none), RawNode.leaf,
    if_neg (Nat.ne_of_lt hlt)]
  rfl

/-- Comments that are children of the root are shown in order. -/
theorem commentsOf_leaves (ho : Mark.Ordered marks) :
    commentsOf (shownAll l above (Mark.leaves comment marks)) = Mark.comments marks := by
  have hlt : ∀ span ∈ Mark.comments marks, span.start < span.stop := fun span hspan => by
    obtain ⟨m, hm, rfl⟩ := Mark.mem_comments hspan
    exact ho.lt m hm
  rw [Mark.leaves]
  generalize Mark.comments marks = spans at hlt
  induction spans with
  | nil => rfl
  | cons span spans ih =>
    obtain ⟨hspan, hspans⟩ := List.forall_mem_cons.1 hlt
    rw [List.map_cons, shownAll, commentsOf_append, ih hspans, commentsOf_shown_leaf hl hspan]
    rfl

/-- An error shows the comments that it records, and hides none of them. -/
theorem commentsOf_shown_error {hides : KindId → Bool} (hh : l.Hides comment hides) {span : Span}
    (ho : Mark.Ordered marks) :
    commentsOf ((RawNode.error span (Mark.leaves comment marks)).shown l above) =
      (Mark.comments marks).filter
        (!isHidden hides [.error span (Mark.leaves comment marks)] ·) := by
  have hnot : hides .error = false := Bool.eq_false_iff.2 fun hkind => by
    simpa [hl.error] using hh.shown .error hkind none none
  have hleaves : ∀ s, isHidden hides (Mark.leaves comment marks) s = false := fun s => by
    refine List.any_eq_false.2 fun n hn => ?_
    rw [preorderAll_leaves] at hn
    simp [Mark.kind_of_mem_leaves hn, hh.comment]
  rw [shown_of_none (.error span (Mark.leaves comment marks)) (hl.error above none), RawNode.error,
    RawNode.branchAt, commentsOf_leaves hl ho]
  simp [hnot, hleaves]

/-- What some nodes show as comments are the comments that they record, save those in nodes that are
    shown as a whole, if nothing else shown as a whole has more than a token in it. -/
theorem RecordsAll.commentsOf_shownAll {hides : KindId → Bool} (hh : l.Hides comment hides)
    (h : RecordsAll comment nodes marks) (ho : Mark.Ordered all) (hall : marks.Sublist all)
    (hsingle : ∀ n ∈ preorderAll nodes, n.kind.isPlain comment →
      (∀ above field, l.tokenType? above field n.kind = none) ∨
        (∃ m ∈ all, m.isComment = false ∧ m.span = n.span) ∨ hides n.kind) :
    commentsOf (shownAll l above nodes) =
      (Mark.comments marks).filter (!isHidden hides nodes ·) := by
  induction h using RecordsAll.induct generalizing above with
  | nil => rfl
  | @token kind field span nodes marks hk h ih =>
    have htoken : Records comment ⟨kind, field, span, []⟩ [⟨span, false⟩] := .token hk
    have hfilter := htoken.comments_filter hides h (ho.sublist hall)
    rw [List.singleton_append] at hfilter
    rw [preorderAll_cons, List.cons_append, List.forall_mem_cons] at hsingle
    rw [shownAll, commentsOf_append, ih ((List.sublist_cons_self _ _).trans hall) hsingle.2,
      hfilter]
    congr 1
    cases ht : l.tokenType? above field kind with
    | some t => exact commentsOf_shown_of_plain hl ⟨kind, field, span, []⟩ hk ht
    | none =>
      rw [shown_of_none ⟨kind, field, span, []⟩ ht]
      rfl
  | @extra span nodes marks h ih =>
    have hlt := ho.lt _ (hall.subset List.mem_cons_self)
    have hfilter := Records.comment.comments_filter hides h (ho.sublist hall)
    rw [List.singleton_append] at hfilter
    rw [preorderAll_cons, List.cons_append, List.forall_mem_cons] at hsingle
    rw [shownAll, commentsOf_append, ih ((List.sublist_cons_self _ _).trans hall) hsingle.2,
      commentsOf_shown_leaf hl hlt, hfilter]
    simp [Mark.comments, hh.comment, RawNode.leaf]
  | @branch kind field span children own nodes marks hk hc hf h ihc ih =>
    rw [preorderAll_cons, List.cons_append, List.forall_mem_cons, List.forall_mem_append] at hsingle
    obtain ⟨hnode, hbelow, hrest⟩ := hsingle
    have hown := (List.sublist_append_left _ _).trans hall
    rw [shownAll, commentsOf_append, ih ((List.sublist_append_right _ _).trans hall) hrest,
      (Records.branch hk hc hf).comments_filter hides h (ho.sublist hall)]
    congr 1
    cases ht : l.tokenType? above field kind with
    | none =>
      -- A node that is not shown itself hides nothing, save what those below it hide.
      have hnot : hides kind = false := Bool.eq_false_iff.2 fun hkind => by
        simpa [ht] using hh.shown kind hkind above field
      rw [shown_of_none ⟨kind, field, span, children⟩ ht, ihc hown hbelow]
      simp [hnot]
    | some t =>
      rw [commentsOf_shown_of_plain hl ⟨kind, field, span, children⟩ hk ht]
      rcases (hnode hk).resolve_left fun hnone => by simp [hnone] at ht with
        ⟨m, hm, htoken, hspan⟩ | hkind
      · -- All marks below stand inside the one token, so none of them is a comment.
        rw [hf.comments_eq_nil ho hown hm htoken hspan, List.filter_nil]
      · rw [(Records.branch hk hc hf).comments_filter_of_hides (ho.sublist hown) hkind]
  | @error span own nodes marks hf h ih =>
    rw [preorderAll_cons, List.cons_append, List.forall_mem_cons, List.forall_mem_append] at hsingle
    have hown := (List.sublist_append_left _ _).trans hall
    rw [shownAll, commentsOf_append, (Records.error hf).comments_filter hides h (ho.sublist hall),
      ih ((List.sublist_append_right _ _).trans hall) hsingle.2.2,
      commentsOf_shown_error hl hh (ho.sublist hown)]

end comments

end GrammarTools
