import GrammarTools.Proofs.Lossless

/-!
# Well-nested trees

In the tree of a parsed source every node below the root covers some text, from
one character boundary to another. The children of a node stand inside it, one
behind the other, and a node other than an error reaches from its first child to
its last (`parse_isWellNested`).

A node takes its ends from marks that it records, and marks are ordered and
begin and end between characters. So all this holds of every node that records
marks of a source.
-/

namespace GrammarTools

/-- Things that stand one behind the other are the same if they overlap. -/
theorem Span.eq_of_overlap {α : Type} {span : α → Span} {xs : List α} {a b : α}
    (h : xs.Pairwise fun x y => (span x).stop ≤ (span y).start) (ha : a ∈ xs) (hb : b ∈ xs)
    (hab : (span a).start < (span b).stop) (hba : (span b).start < (span a).stop) : a = b := by
  by_contra hne
  have hsymm : Std.Symm fun x y : α =>
    (span x).stop ≤ (span y).start ∨ (span y).stop ≤ (span x).start := ⟨fun _ _ => Or.symm⟩
  have hsplit := (h.imp fun {x y} => Or.inl).forall (R := fun x y : α =>
    (span x).stop ≤ (span y).start ∨ (span y).stop ≤ (span x).start) ha hb hne
  -- Two of them come one behind the other, whichever is the first.
  omega

/-- A root over a source whose nodes are not empty and stand inside each other or apart. -/
structure RawNode.IsWellNested (source : String) (root : RawNode) : Prop where
  root_span : root.span = ⟨0, Text.byteLength source.toList⟩
  lt : ∀ n ∈ preorderAll root.children, n.span.start < n.span.stop
  stop_le : ∀ n ∈ preorderAll root.children, n.span.stop ≤ Text.byteLength source.toList
  boundary : ∀ n ∈ preorderAll root.children,
    Text.IsBoundary source.toList n.span.start ∧ Text.IsBoundary source.toList n.span.stop
  inside : ∀ n ∈ root.preorder, ∀ child ∈ n.children, n.span.covers child.span
  apart : ∀ n ∈ root.preorder, n.children.Pairwise fun a b => a.span.stop ≤ b.span.start
  tight : ∀ n ∈ preorderAll root.children, n.kind ≠ .error →
    (∀ first ∈ n.children.head?, first.span.start = n.span.start) ∧
      ∀ last ∈ n.children.getLast?, last.span.stop = n.span.stop

namespace Records

variable {comment : KindId} {node child : RawNode} {marks : List Mark}

/-- What is below a node records some of its marks. -/
theorem exists_children (h : Records comment node marks) :
    ∃ inner, inner.Sublist marks ∧ RecordsAll comment node.children inner := by
  cases h with
  | token => exact ⟨[], List.nil_sublist _, .nil⟩
  | comment => exact ⟨[], List.nil_sublist _, .nil⟩
  | branch _ hc _ => exact ⟨marks, .refl _, hc⟩
  | error => exact ⟨_, List.filter_sublist, .of_comments marks⟩

theorem covers (h : Records comment node marks) (ho : Mark.Ordered marks)
    (hc : child ∈ node.children) : node.span.covers child.span := by
  obtain ⟨inner, hs, hinner⟩ := h.exists_children
  have hstart : node.span.start ≤ child.span.start :=
    hinner.le_start (fun m hm => h.frames.start_le ho (hs.subset hm)) hc
  have hstop : child.span.stop ≤ node.span.stop :=
    hinner.stop_le (fun m hm => h.frames.le_stop ho (hs.subset hm)) hc
  simp [Span.covers, hstart, hstop]

theorem pairwise (h : Records comment node marks) (ho : Mark.Ordered marks) :
    node.children.Pairwise fun a b => a.span.stop ≤ b.span.start := by
  obtain ⟨inner, hs, hinner⟩ := h.exists_children
  exact hinner.pairwise (ho.sublist hs)

/-- A node that is no error reaches from its first child to its last. -/
theorem tight (h : Records comment node marks) (he : node.kind ≠ .error) :
    (∀ first ∈ node.children.head?, first.span.start = node.span.start) ∧
      ∀ last ∈ node.children.getLast?, last.span.stop = node.span.stop := by
  cases h with
  | token => simp
  | comment => simp [RawNode.leaf]
  | @branch _ _ span children _ _ hc hframes =>
    rcases eq_or_ne children [] with rfl | hne
    · simp
    · have hf := List.head?_eq_some_head hne
      have hl := List.getLast?_eq_some_getLast hne
      obtain rfl := hframes.eq (hc.frames hf hl)
      simp [hf, hl]
  | error => exact absurd rfl he

theorem boundary {cs : List Char} (h : Records comment node marks)
    (hm : ∀ m ∈ marks, Text.IsBoundary cs m.span.start ∧ Text.IsBoundary cs m.span.stop) :
    Text.IsBoundary cs node.span.start ∧ Text.IsBoundary cs node.span.stop := by
  constructor
  · obtain ⟨first, rest, rfl, hstart⟩ := h.frames.exists_first
    exact hstart ▸ (hm first List.mem_cons_self).1
  · obtain ⟨front, last, rfl, hstop⟩ := h.frames.exists_last
    exact hstop ▸ (hm last (by simp)).2

end Records

/-- A grammar that records what it reads has well-nested trees. -/
theorem Grammar.isWellNested_parse {τ : Type} {g : Grammar τ} (hg : g.IsProgressive)
    (hf : g.IsFaithful) (source : String) : (g.parse source).root.IsWellNested source := by
  obtain ⟨children, hparse, h⟩ := records_parse hg hf source
  have ho := g.lexicon.marks_ordered source
  have hm := fun m => g.lexicon.marks_boundary source (m := m)
  -- Every node below the root records some of the marks, in order.
  have hnodes : ∀ n ∈ RawNode.preorderAll children, ∃ own, Mark.Ordered own ∧
      Records g.comment n own ∧ Text.IsBoundary source.toList n.span.start ∧
        Text.IsBoundary source.toList n.span.stop := fun n hn => by
    obtain ⟨own, hs, hown⟩ := h.exists_of_mem_preorderAll hn
    exact ⟨own, ho.sublist hs, hown, hown.boundary fun m hmem => hm m (hs.subset hmem)⟩
  rw [hparse]
  refine ⟨rfl, fun n hn => ?_, fun n hn => ?_, fun n hn => ?_, fun n hn child hc => ?_,
    fun n hn => ?_, fun n hn he => ?_⟩
  · obtain ⟨own, ho, hown, -⟩ := hnodes n hn
    exact hown.frames.lt ho
  · obtain ⟨own, ho, hown, hb⟩ := hnodes n hn
    exact hb.2.le
  · obtain ⟨own, ho, hown, hb⟩ := hnodes n hn
    exact hb
  · rcases List.mem_cons.1 (RawNode.preorder_eq _ ▸ hn) with rfl | hn
    · have hstop := h.stop_le (fun m hmem => (hm m hmem).2.le) hc
      simp [Span.covers, RawNode.branchAt, hstop]
    · obtain ⟨own, ho, hown, -⟩ := hnodes n hn
      exact hown.covers ho hc
  · rcases List.mem_cons.1 (RawNode.preorder_eq _ ▸ hn) with rfl | hn
    · exact h.pairwise ho
    · obtain ⟨own, ho, hown, -⟩ := hnodes n hn
      exact hown.pairwise ho
  · obtain ⟨own, -, hown, -⟩ := hnodes n hn
    exact hown.tight he

/-- The trees of both parsers are well-nested. -/
theorem parse_isWellNested (source : String) :
    (Simpl.grammar.parse source).root.IsWellNested source ∧
    (Peopl.grammar.parse source).root.IsWellNested source :=
  ⟨Simpl.grammar.isWellNested_parse Simpl.grammar_isProgressive Simpl.grammar_isFaithful source,
    Peopl.grammar.isWellNested_parse Peopl.grammar_isProgressive Peopl.grammar_isFaithful source⟩

end GrammarTools
