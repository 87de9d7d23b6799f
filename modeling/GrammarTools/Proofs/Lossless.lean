import GrammarTools.Proofs.Peopl.Acceptance
import GrammarTools.Proofs.Recording
import GrammarTools.Proofs.Simpl.Acceptance

/-!
# Lossless trees

A walk over a tree in pre-order that shows the span of every leaf, and for an
error the tokens inside its span together with its comments
(`RawNode.walkAll`). In the tree of a parsed source it shows every token and
every comment of the source once, in the order in which they stand there
(`parse_isLossless`).

This holds of all nodes that record the marks they cover
(`RecordsAll.walkAll_eq`). The tokens inside the span of an error are those that
it covers, since the span goes from the first of its marks to the last and no
two marks overlap.
-/

namespace GrammarTools

/-- Whether a span reaches over another one. -/
def Span.covers (outer inner : Span) : Bool := outer.start ≤ inner.start && inner.stop ≤ outer.stop

/-- Whether a span starts no later than another one. -/
def Span.startsFirst (a b : Span) : Bool := a.start ≤ b.start

namespace RawNode

mutual

/-- The nodes from a node down, in pre-order. -/
def preorder : RawNode → List RawNode
  | ⟨kind, field, span, children⟩ => ⟨kind, field, span, children⟩ :: preorderAll children

/-- The nodes from some nodes down, in pre-order. -/
def preorderAll : List RawNode → List RawNode
  | [] => []
  | node :: rest => preorder node ++ preorderAll rest

end

mutual

/-- The spans of the leaves from a node down, where an error stands for the tokens inside its
    span and its children, by where they start. -/
def walk (tokens : List Span) : RawNode → List Span
  | ⟨kind, _, span, children⟩ =>
    if kind = .error then
      (tokens.filter span.covers).merge (children.map (·.span)) Span.startsFirst
    else if children.isEmpty then [span]
    else walkAll tokens children

/-- The spans of the leaves from some nodes down. -/
def walkAll (tokens : List Span) : List RawNode → List Span
  | [] => []
  | node :: rest => walk tokens node ++ walkAll tokens rest

end

/-- The walk over a broken statement has its tokens, with the comments in it where they belong. -/
theorem walk_error (tokens : List Span) (span : Span) (children : List RawNode) :
    (error span children).walk tokens =
      (tokens.filter span.covers).merge (children.map (·.span)) Span.startsFirst := by
  simp [error, branchAt, walk]

/-- A root whose tree shows all that a lexer has found, each token and comment once and in
    order. -/
structure IsLossless {τ : Type} (comment : KindId) (lexed : Lexed τ) (root : RawNode) : Prop where
  walk : walkAll (lexed.lexemes.map Lexeme.span) root.children =
    (lexed.lexemes.map Lexeme.span).merge lexed.comments Span.startsFirst
  increasing : (walkAll (lexed.lexemes.map Lexeme.span) root.children).Pairwise
    fun a b => a.start < b.start
  errors : ∀ n ∈ root.preorder, n.kind = .error → ∀ child ∈ n.children, child.kind = comment
  comments : (root.preorder.filter fun n => n.kind = comment).map (·.span) = lexed.comments
  comment_leaf : ∀ n ∈ root.preorder, n.kind = comment → n.children = [] ∧ n.field = none

end RawNode

/-! ## Marks in order -/

namespace Mark

variable {marks all : List Mark} {span : Span}

theorem mem_tokens {s : Span} (h : s ∈ tokens marks) : ∃ m ∈ marks, m.span = s := by
  obtain ⟨m, hm, rfl⟩ := List.mem_map.1 h
  exact ⟨m, (List.mem_filter.1 hm).1, rfl⟩

theorem mem_comments {s : Span} (h : s ∈ comments marks) : ∃ m ∈ marks, m.span = s := by
  obtain ⟨m, hm, rfl⟩ := List.mem_map.1 h
  exact ⟨m, (List.mem_filter.1 hm).1, rfl⟩

theorem map_span_leaves (comment : KindId) (marks : List Mark) :
    (leaves comment marks).map (·.span) = comments marks := by
  simp [leaves, RawNode.leaf, Function.comp_def]

theorem kind_of_mem_leaves {comment : KindId} {n : RawNode} (h : n ∈ leaves comment marks) :
    n.kind = comment := by
  obtain ⟨span, -, rfl⟩ := List.mem_map.1 h
  rfl

/-- Marks that are apart start behind each other. -/
theorem Ordered.start_lt {m m' : Mark} (ho : Ordered (m :: marks)) (hm : m' ∈ marks) :
    m.span.start < m'.span.start :=
  Nat.lt_of_lt_of_le (ho.lt m List.mem_cons_self) (List.rel_of_pairwise_cons ho.pairwise hm)

/-- Tokens and comments put together are the marks. -/
theorem merge_tokens_comments (ho : Ordered marks) :
    (tokens marks).merge (comments marks) Span.startsFirst = marks.map Mark.span := by
  induction marks with
  | nil => simp [tokens, comments]
  | cons m marks ih =>
    have ih := ih (ho.sublist (List.sublist_cons_self _ _))
    obtain ⟨span, isComment⟩ := m
    -- The first mark starts before all others, so merging takes it first, from whichever row it
    -- is in.
    cases isComment with
    | false =>
      have htokens : tokens (⟨span, false⟩ :: marks) = span :: tokens marks := rfl
      have hcomments : comments (⟨span, false⟩ :: marks) = comments marks := rfl
      rw [htokens, hcomments, List.map_cons, ← ih]
      cases hc : comments marks with
      | nil => simp
      | cons c cs =>
        obtain ⟨m, hm, rfl⟩ := mem_comments (hc ▸ List.mem_cons_self)
        exact List.cons_merge_cons_pos _ _ _ (decide_eq_true (Nat.le_of_lt (ho.start_lt hm)))
    | true =>
      have htokens : tokens (⟨span, true⟩ :: marks) = tokens marks := rfl
      have hcomments : comments (⟨span, true⟩ :: marks) = span :: comments marks := rfl
      rw [htokens, hcomments, List.map_cons, ← ih]
      cases ht : tokens marks with
      | nil => simp
      | cons t ts =>
        obtain ⟨m, hm, rfl⟩ := mem_tokens (ht ▸ List.mem_cons_self)
        have hlt : ¬ m.span.start ≤ span.start := Nat.not_le.2 (ho.start_lt hm)
        exact List.cons_merge_cons_neg _ _ _ (by simpa [Span.startsFirst] using hlt)

/-- The tokens inside a frame are those among its marks. -/
theorem Frames.filter_covers (h : Frames marks span) (ho : Ordered all) (hall : marks <:+: all) :
    (tokens all).filter span.covers = tokens marks := by
  obtain ⟨front, back, rfl⟩ := hall
  have hleft := ho.append_left
  have hmarks := hleft.append_right
  -- What lies outside the frame begins or ends outside of it.
  have hfront : (tokens front).filter span.covers = [] := by
    rw [List.filter_eq_nil_iff]
    intro s hs
    obtain ⟨m, hm, rfl⟩ := mem_tokens hs
    obtain ⟨first, rest, rfl, hfirst⟩ := h.exists_first
    have hgap := hleft.apart hm List.mem_cons_self
    have hlt := ho.lt m (by simp [hm])
    simp only [Span.covers, Bool.and_eq_true, decide_eq_true_eq]
    omega
  have hback : (tokens back).filter span.covers = [] := by
    rw [List.filter_eq_nil_iff]
    intro s hs
    obtain ⟨m, hm, rfl⟩ := mem_tokens hs
    obtain ⟨rest, last, rfl, hlast⟩ := h.exists_last
    have hgap := ho.apart (m := last) (c := m) (by simp) hm
    have hlt := ho.lt m (by simp [hm])
    simp only [Span.covers, Bool.and_eq_true, decide_eq_true_eq]
    omega
  have hown : (tokens marks).filter span.covers = tokens marks := by
    rw [List.filter_eq_self]
    intro s hs
    obtain ⟨m, hm, rfl⟩ := mem_tokens hs
    simp [Span.covers, h.start_le hmarks hm, h.le_stop hmarks hm]
  simp only [tokens_append, List.filter_append, hfront, hback, hown, List.nil_append,
    List.append_nil]

end Mark

variable {comment : KindId} {nodes : List RawNode} {marks all : List Mark}

/-! ## What a walk shows -/

/-- A walk over nodes shows the marks that they record. -/
theorem RecordsAll.walkAll_eq (hc : comment ≠ .error) (ho : Mark.Ordered all)
    (h : RecordsAll comment nodes marks) (hall : marks <:+: all) :
    RawNode.walkAll (Mark.tokens all) nodes = marks.map Mark.span := by
  induction h using RecordsAll.induct with
  | nil => rfl
  | token hk _ ih =>
    have ih := ih ((List.suffix_cons _ _).isInfix.trans hall)
    simp [RawNode.walkAll, RawNode.walk, KindId.ne_error_of_isPlain hk, ih]
  | extra _ ih =>
    have ih := ih ((List.suffix_cons _ _).isInfix.trans hall)
    simp [RawNode.walkAll, RawNode.walk, RawNode.leaf, hc, ih]
  | @branch _ _ _ children _ _ _ hk hchildren hf _ ihc ih =>
    have ihc := ihc ((List.prefix_append _ _).isInfix.trans hall)
    have ih := ih ((List.suffix_append _ _).isInfix.trans hall)
    have hne : children ≠ [] := by
      rintro rfl
      cases hchildren
      exact hf.ne_nil rfl
    simp [RawNode.walkAll, RawNode.walk, KindId.ne_error_of_isPlain hk, ih, ihc, hne]
  | error hf _ ih =>
    -- An error has no leaf for a token, so its tokens are those that its span covers.
    have hown := (List.prefix_append _ _).isInfix.trans hall
    have ih := ih ((List.suffix_append _ _).isInfix.trans hall)
    rw [RawNode.walkAll, RawNode.walk_error, hf.filter_covers ho hown, Mark.map_span_leaves,
      Mark.merge_tokens_comments (ho.sublist hown.sublist), ih, List.map_append]

/-! ## The nodes of a tree -/

namespace RawNode

@[simp] theorem preorder_eq (node : RawNode) :
    node.preorder = node :: preorderAll node.children := by
  cases node
  rfl

theorem self_mem_preorder (node : RawNode) : node ∈ node.preorder := by
  rw [preorder_eq]
  exact List.mem_cons_self

theorem mem_preorder_of_below {node n : RawNode} (h : n ∈ preorderAll node.children) :
    n ∈ node.preorder := by
  rw [preorder_eq]
  exact List.mem_cons_of_mem _ h

@[simp] theorem preorderAll_cons (node : RawNode) (nodes : List RawNode) :
    preorderAll (node :: nodes) = node :: preorderAll node.children ++ preorderAll nodes := by
  rw [preorderAll, preorder_eq]

/-- Leaves have nothing below them. -/
@[simp] theorem preorderAll_leaves (comment : KindId) (marks : List Mark) :
    preorderAll (Mark.leaves comment marks) = Mark.leaves comment marks := by
  unfold Mark.leaves
  induction Mark.comments marks with
  | nil => rfl
  | cons span spans ih => simp [ih, leaf, preorderAll]

end RawNode

/-- The comments in pre-order are those among the marks. -/
theorem RecordsAll.comments_preorderAll (hc : comment ≠ .error)
    (h : RecordsAll comment nodes marks) :
    ((RawNode.preorderAll nodes).filter fun n => n.kind = comment).map (·.span) =
      Mark.comments marks := by
  induction h using RecordsAll.induct with
  | nil => rfl
  | token hk _ ih => simp [RawNode.preorderAll, KindId.ne_comment_of_isPlain hk, ih, Mark.comments]
  | extra _ ih => simp [RawNode.preorderAll, RawNode.leaf, ih, Mark.comments]
  | branch hk _ _ _ ihc ih => simp [KindId.ne_comment_of_isPlain hk, ih, ihc]
  | @error _ own _ _ _ _ ih =>
    have hown : (Mark.leaves comment own).filter (fun n => n.kind = comment) =
        Mark.leaves comment own := by
      rw [List.filter_eq_self]
      exact fun n hn => decide_eq_true (Mark.kind_of_mem_leaves hn)
    simp [RawNode.error, RawNode.branchAt, hc.symm, ih, hown, Mark.map_span_leaves]

/-- Every node below records some of the marks. -/
theorem RecordsAll.exists_of_mem_preorderAll (h : RecordsAll comment nodes marks) {node : RawNode}
    (hn : node ∈ RawNode.preorderAll nodes) :
    ∃ own, own.Sublist marks ∧ Records comment node own := by
  induction h using RecordsAll.induct with
  | nil => cases hn
  | @token _ _ span _ _ hk _ ih =>
    rcases List.mem_cons.1 (RawNode.preorderAll_cons .. ▸ hn) with rfl | hn
    · exact ⟨[⟨span, false⟩], by simp, .token hk⟩
    · obtain ⟨own, hs, hown⟩ := ih hn
      exact ⟨own, hs.cons _, hown⟩
  | @extra span _ _ _ ih =>
    rcases List.mem_cons.1 (RawNode.preorderAll_cons .. ▸ hn) with rfl | hn
    · exact ⟨[⟨span, true⟩], by simp, .comment⟩
    · obtain ⟨own, hs, hown⟩ := ih hn
      exact ⟨own, hs.cons _, hown⟩
  | branch hk hc hf _ ihc ih =>
    rw [RawNode.preorderAll_cons, List.cons_append, List.mem_cons, List.mem_append] at hn
    rcases hn with rfl | hn | hn
    · exact ⟨_, List.sublist_append_left _ _, .branch hk hc hf⟩
    · obtain ⟨own, hs, hown⟩ := ihc hn
      exact ⟨own, hs.trans (List.sublist_append_left _ _), hown⟩
    · obtain ⟨own, hs, hown⟩ := ih hn
      exact ⟨own, hs.trans (List.sublist_append_right _ _), hown⟩
  -- What is inside a broken statement are its comments, each with its own mark.
  | @error _ all _ _ hf _ ih =>
    rw [RawNode.preorderAll_cons, List.cons_append, List.mem_cons, List.mem_append] at hn
    rcases hn with rfl | hn | hn
    · exact ⟨_, List.sublist_append_left _ _, .error hf⟩
    · rw [RawNode.error, RawNode.branchAt, RawNode.preorderAll_leaves] at hn
      obtain ⟨own, hs, hown⟩ := (RecordsAll.of_comments all).exists_of_mem hn
      exact ⟨own, (hs.trans List.filter_sublist).trans (List.sublist_append_left _ _), hown⟩
    · obtain ⟨own, hs, hown⟩ := ih hn
      exact ⟨own, hs.trans (List.sublist_append_right _ _), hown⟩

section

variable {n : RawNode} {own : List Mark} (h : Records comment n own) (hc : comment ≠ .error)
include h hc

/-- A broken statement has nothing but comments in it. -/
theorem Records.kind_of_error (hn : n.kind = .error) :
    ∀ child ∈ n.children, child.kind = comment := by
  cases h with
  | token hk => exact absurd hn (KindId.ne_error_of_isPlain hk)
  | comment => exact absurd hn hc
  | branch hk => exact absurd hn (KindId.ne_error_of_isPlain hk)
  | error => exact fun _ => Mark.kind_of_mem_leaves

/-- A comment is a leaf without a field. -/
theorem Records.leaf_of_comment (hn : n.kind = comment) : n.children = [] ∧ n.field = none := by
  cases h with
  | token hk => exact absurd hn (KindId.ne_comment_of_isPlain hk)
  | comment => exact ⟨rfl, rfl⟩
  | branch hk => exact absurd hn (KindId.ne_comment_of_isPlain hk)
  | error => exact absurd hn.symm hc

end

/-! ## The trees of the parsers -/

/-- A grammar that records what it reads has lossless trees. -/
theorem Grammar.isLossless_parse {τ : Type} {g : Grammar τ} (hg : g.IsProgressive)
    (hf : g.IsFaithful) (hroot : g.root.isPlain g.comment) (hc : g.comment ≠ .error)
    (source : String) :
    (g.parse source).root.IsLossless g.comment (g.lexicon.lex source) := by
  obtain ⟨children, hparse, h⟩ := records_parse hg hf source
  have ho := g.lexicon.marks_ordered source
  -- The walk over the children is the row of all marks, from which order and completeness follow.
  have hwalk : RawNode.walkAll ((g.lexicon.lex source).lexemes.map Lexeme.span) children =
      (g.lexicon.marks source).map Mark.span := by
    rw [← g.lexicon.tokens_marks]
    exact h.walkAll_eq hc ho List.infix_rfl
  have hnodes : ∀ n ∈ (RawNode.branchAt g.root ⟨0, Text.byteLength source.toList⟩
      children).preorder, n.kind = g.root ∨ ∃ own, Records g.comment n own := fun n hn => by
    rcases List.mem_cons.1 (RawNode.preorder_eq _ ▸ hn) with rfl | hn
    · exact .inl rfl
    · obtain ⟨own, -, hown⟩ := h.exists_of_mem_preorderAll hn
      exact .inr ⟨own, hown⟩
  rw [hparse]
  refine ⟨?_, ?_, fun n hn hkind => ?_, ?_, fun n hn hkind => ?_⟩
  · rw [← g.lexicon.comments_marks, ← g.lexicon.tokens_marks, Mark.merge_tokens_comments ho,
      g.lexicon.tokens_marks]
    exact hwalk
  · refine hwalk ▸ List.pairwise_map.2 (ho.pairwise.imp_of_mem fun {a b} ha _ hab => ?_)
    exact Nat.lt_of_lt_of_le (ho.lt a ha) hab
  · rcases hnodes n hn with hn | ⟨own, hown⟩
    · exact absurd (hn ▸ hkind) (KindId.ne_error_of_isPlain hroot)
    · exact hown.kind_of_error hc hkind
  · have hne := KindId.ne_comment_of_isPlain hroot
    simpa [RawNode.branchAt, hne, g.lexicon.comments_marks] using h.comments_preorderAll hc
  · rcases hnodes n hn with hn | ⟨own, hown⟩
    · exact absurd (hn ▸ hkind) (KindId.ne_comment_of_isPlain hroot)
    · exact hown.leaf_of_comment hc hkind

/-- What the rules of Simpl make spells the tokens that they read. -/
theorem Simpl.grammar_isFaithful : Simpl.grammar.IsFaithful where
  statement h := (Simpl.statement_reads h).spells.transcribes
  recover hs := .skipUntil _ hs

/-- What the rules of PeoPl make spells the tokens that they read. -/
theorem Peopl.grammar_isFaithful : Peopl.grammar.IsFaithful where
  statement h := (Peopl.statement_reads h).spells.transcribes
  recover hs := by
    have hskip : Transcribes Peopl.grammar.comment _ _ _ :=
      .skipUntil (fun _ (s : TokenStream Peopl.Token) => s.atEnd || s.isAt .dotDot) hs
    simp only [Peopl.grammar, Peopl.recover]
    split
    · exact hskip.cons (.leaf (TokenStream.peek_of_isAt ‹_›) rfl)
    · exact hskip

/-- The trees of both parsers are lossless. -/
theorem parse_isLossless (source : String) :
    (Simpl.grammar.parse source).root.IsLossless Simpl.Kind.comment (Simpl.lexicon.lex source) ∧
    (Peopl.grammar.parse source).root.IsLossless Peopl.Kind.comment (Peopl.lexicon.lex source) :=
  ⟨Simpl.grammar.isLossless_parse Simpl.grammar_isProgressive Simpl.grammar_isFaithful
      rfl (by decide) source,
    Peopl.grammar.isLossless_parse Peopl.grammar_isProgressive Peopl.grammar_isFaithful
      rfl (by decide) source⟩

end GrammarTools
