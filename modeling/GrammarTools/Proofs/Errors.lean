import GrammarTools.Proofs.Arena
import GrammarTools.Proofs.Commented
import GrammarTools.Proofs.Parallel
import GrammarTools.Proofs.Recording
import Mathlib.Data.List.Pairwise

/-!
# Errors of a run

Every broken statement of a run leaves one error node and one syntax error. What
ties the two together is handed on from the single statements to the run
(`Grammar.Run.forall₂_errors`), and so is the order of the errors
(`Grammar.Run.pairwise_errors`).

The errors of a run are put in order before they are reported. If every node
starts no later than the error of the same number, this is so in the new order
as well (`forall₂_le_of_perm`).
-/

namespace GrammarTools

variable {τ : Type} {lexemes ls : List (Lexeme τ)} {length : Nat} {s s' t : TokenStream τ}
  {nodes : List RawNode} {errors : List SyntaxError}

/-! ## Places in a source -/

/-- Tokens that stand one behind the other in a source of a given length. -/
structure Lexeme.IsRow (lexemes : List (Lexeme τ)) (length : Nat) : Prop where
  ordered : Mark.Ordered (Mark.ofLexemes lexemes)
  stop_le : ∀ l ∈ lexemes, l.span.stop ≤ length

/-- The lexemes of a source stand in order, in its length. -/
theorem Lexicon.isRow (lexicon : Lexicon τ) (source : String) :
    Lexeme.IsRow (lexicon.lex source).lexemes (Text.byteLength source.toList) := by
  refine ⟨lexicon.ordered_lexemes source, fun l hl => ?_⟩
  have hmem : (⟨l.span, false⟩ : Mark) ∈ Mark.ofLexemes (lexicon.lex source).lexemes :=
    Mark.mem_ofLexemes hl
  rw [Mark.ofLexemes_eq_filter (lexicon.tokens_marks source)] at hmem
  exact (lexicon.marks_boundary source (List.mem_filter.1 hmem).1).2.le

/-- A place among the tokens of a source of a given length. -/
structure TokenStream.IsIn (s : TokenStream τ) (lexemes : List (Lexeme τ)) (length : Nat) :
    Prop where
  suffix : s.upcoming <:+ lexemes
  endOffset : s.endOffset = length

/-- An error at a token, or behind the last one. -/
structure SyntaxError.IsPlaced (e : SyntaxError) (lexemes : List (Lexeme τ)) (length : Nat) :
    Prop where
  expected : e.expected ≠ []
  found : (∃ l ∈ lexemes, e.span = l.span ∧ e.found = some l.text) ∨
    (e.span = .empty length ∧ e.found = none)

namespace TokenStream

theorem Takes.trans {ms : List (Lexeme τ)} (h : s.Takes ls t) (h' : t.Takes ms s') :
    s.Takes (ls ++ ms) s' :=
  ⟨by rw [h.upcoming, h'.upcoming, List.append_assoc], h'.endOffset.trans h.endOffset⟩

theorem Takes.advance {x : τ} (hp : s.peek = some x) : ∃ l, s.Takes [l] s.advance := by
  obtain ⟨l, rest, hu, -, ha⟩ := exists_upcoming hp
  exact ⟨l, by rw [hu, ha]; rfl, by rw [ha]⟩

/-- What is left of a row after taking some of it is a row. -/
theorem IsIn.takes (hs : s.IsIn lexemes length) (h : s.Takes ls t) : t.IsIn lexemes length :=
  ⟨(h.upcoming ▸ List.suffix_append ls t.upcoming).trans hs.suffix,
    h.endOffset.trans hs.endOffset⟩

/-- An error at a place of a stream is an error at a place of its row. -/
theorem IsIn.isPlaced {e : SyntaxError} (hs : s.IsIn lexemes length) (he : e.IsAt s) :
    e.IsPlaced lexemes length := by
  refine ⟨he.expected, ?_⟩
  rw [he.span, he.found, TokenStream.span, text?]
  cases hu : s.upcoming with
  | nil => exact .inr ⟨by rw [hs.endOffset], rfl⟩
  | cons l rest => exact .inl ⟨l, hs.suffix.subset (hu ▸ List.mem_cons_self), rfl, rfl⟩

variable (hrow : Lexeme.IsRow lexemes length) (hs : s.IsIn lexemes length)
include hrow hs

theorem IsIn.ordered : Mark.Ordered (Mark.ofLexemes s.upcoming) :=
  hrow.ordered.sublist (List.Sublist.map _ hs.suffix.sublist)

/-- A token taken stands in front of where the taking ends. -/
theorem IsIn.stop_le (h : s.Takes ls t) {l : Lexeme τ} (hl : l ∈ ls) :
    l.span.stop ≤ t.span.start := by
  have ho := hs.ordered hrow
  rw [h.upcoming, Mark.ofLexemes_append] at ho
  cases hu : t.upcoming with
  | nil =>
    have hmem : l ∈ lexemes := hs.suffix.subset (h.upcoming ▸ List.mem_append_left _ hl)
    rw [span, hu, h.endOffset, hs.endOffset]
    exact hrow.stop_le l hmem
  | cons m rest =>
    rw [span, hu]
    exact ho.apart (m := ⟨l.span, false⟩) (c := ⟨m.span, false⟩) (List.mem_map_of_mem hl)
      (by simp [Mark.ofLexemes, hu])

/-- What is taken lies before what is left. -/
theorem IsIn.start_lt (h : s.Takes ls t) (hne : ls ≠ []) : s.span.start < t.span.start := by
  obtain ⟨l, rest, rfl⟩ := List.exists_cons_of_ne_nil hne
  have hlt : l.span.start < l.span.stop :=
    (hs.ordered hrow).lexeme_lt (by simp [h.upcoming])
  have hstop := hs.stop_le hrow h List.mem_cons_self
  rw [span, h.upcoming]
  exact Nat.lt_of_lt_of_le hlt hstop

/-- Taking never moves back. -/
theorem IsIn.start_le (h : s.Takes ls t) : s.span.start ≤ t.span.start := by
  rcases eq_or_ne ls [] with rfl | hne
  · have hu : s.upcoming = t.upcoming := h.upcoming
    rw [span, span, hu, h.endOffset]
  · exact Nat.le_of_lt (hs.start_lt hrow h hne)

end TokenStream

/-- The first token that starts behind the frame of some tokens is the next one. -/
theorem Lexeme.IsRow.find?_behind {front own back : List (Lexeme τ)} {m : Lexeme τ} {span : Span}
    (hrow : IsRow (front ++ own ++ m :: back) length)
    (hf : Mark.Frames (Mark.ofLexemes own) span) :
    (front ++ own ++ m :: back).find? (fun l => span.stop ≤ l.span.start) = some m := by
  obtain ⟨start, last, hown, hstop⟩ := hf.exists_last
  have ho := hrow.ordered
  rw [Mark.ofLexemes_append, Mark.ofLexemes_append, hown, ← List.append_assoc] at ho
  -- All others start before the frame ends, since none of them is empty.
  have hbehind : ∀ l ∈ front ++ own, ¬ span.stop ≤ l.span.start := by
    intro l hl
    have hmem : (⟨l.span, false⟩ : Mark) ∈ Mark.ofLexemes front ++ start ++ [last] := by
      rw [List.append_assoc, ← hown, ← Mark.ofLexemes_append]
      exact Mark.mem_ofLexemes hl
    have hlt : l.span.start < l.span.stop := ho.lt _ (List.mem_append_left _ hmem)
    have hlast := ho.lt last (by simp)
    rcases List.mem_append.1 hmem with hmem | hmem
    · have hgap : l.span.stop ≤ last.span.start :=
        ho.append_left.apart hmem List.mem_cons_self
      omega
    · have heq : l.span.stop = span.stop := by rw [← hstop, ← List.mem_singleton.1 hmem]
      omega
  have hnext : span.stop ≤ m.span.start := by
    rw [← hstop]
    exact ho.apart (m := last) (c := ⟨m.span, false⟩) (by simp) List.mem_cons_self
  rw [List.find?_append, List.find?_eq_none.2 (by simpa using hbehind)]
  simp [hnext]

/-! ## Runs -/

/-- Nodes that spell tokens are no errors, and there are none below them. -/
theorem Spells.errorSpans_preorderAll {comment : KindId} (h : Spells comment nodes s s') :
    RawNode.errorSpans (RawNode.preorderAll nodes) = [] := by
  have hplain : ∀ {node : RawNode}, node.kind.isPlain comment → node.isError = false :=
    fun {node} hk => by simpa [RawNode.isError] using KindId.ne_error_of_isPlain hk
  induction h with
  | nil => rfl
  | leaf hp hk _ ih =>
    rw [RawNode.preorderAll_cons, List.cons_append, RawNode.errorSpans_cons, hplain hk,
      RawNode.errorSpans_append, ih]
    rfl
  | branch hn hk _ _ ihc ih =>
    rw [RawNode.preorderAll_cons, List.cons_append, RawNode.errorSpans_cons, hplain hk,
      RawNode.errorSpans_append, ihc, ih]
    rfl

namespace Grammar

variable {g : Grammar τ}

/-- A grammar whose whole statements have no errors, and whose broken statements leave one error
    node each, which is related to the error that is reported. -/
structure Reports (g : Grammar τ) (lexemes : List (Lexeme τ)) (length : Nat)
    (r : Span → SyntaxError → Prop) : Prop where
  whole : ∀ {s nodes s'}, g.statement s = .ok (nodes, s') →
    RawNode.errorSpans (RawNode.preorderAll nodes) = [] ∧ ∃ ls, s.Takes ls s'
  broken : ∀ {s e}, s.IsIn lexemes length → s.atEnd = false → g.statement s = .error e →
    ∃ span more, (g.recover s).1 = .error span [] :: more ∧
      RawNode.errorSpans (RawNode.preorderAll more) = [] ∧ r span e ∧
        ∃ ls, s.Takes ls (g.recover s).2

/-- The nodes for whole statements, and the first node for a broken one. -/
theorem errorSpans_of_preorderAll (h : RawNode.errorSpans (RawNode.preorderAll nodes) = []) :
    RawNode.errorSpans nodes = [] := by
  induction nodes with
  | nil => rfl
  | cons node rest ih =>
    rw [RawNode.preorderAll_cons, List.cons_append, RawNode.errorSpans_cons,
      RawNode.errorSpans_append, List.append_eq_nil_iff, List.append_eq_nil_iff] at h
    rw [RawNode.errorSpans_cons, h.1, ih h.2.2]
    rfl

/-- The errors of a run and its error nodes are related one by one, and no error node stands
    below another node. -/
theorem Run.forall₂_errors {r : Span → SyntaxError → Prop} (hg : g.Reports lexemes length r)
    (h : g.Run s nodes errors) (hs : s.IsIn lexemes length) :
    List.Forall₂ r (RawNode.errorSpans nodes) errors ∧
      RawNode.errorSpans (RawNode.preorderAll nodes) = RawNode.errorSpans nodes := by
  induction h with
  | done => exact ⟨.nil, rfl⟩
  | statement _ hstatement _ ih =>
    obtain ⟨hnone, ls, htakes⟩ := hg.whole hstatement
    obtain ⟨hpairs, hbelow⟩ := ih (hs.takes htakes)
    rw [RawNode.errorSpans_append, RawNode.preorderAll_append, RawNode.errorSpans_append, hnone,
      errorSpans_of_preorderAll hnone]
    exact ⟨hpairs, hbelow⟩
  | broken hend hstatement hrecover _ ih =>
    obtain ⟨span, more, hfound, hmore, hr, ls, htakes⟩ := hg.broken hs hend hstatement
    rw [hrecover] at hfound htakes
    obtain ⟨hpairs, hbelow⟩ := ih (hs.takes htakes)
    obtain rfl : _ = RawNode.error span [] :: more := hfound
    rw [RawNode.errorSpans_append, RawNode.preorderAll_append, RawNode.errorSpans_append,
      RawNode.preorderAll_cons, List.cons_append, RawNode.errorSpans_cons, RawNode.errorSpans_cons,
      RawNode.errorSpans_append, hmore, errorSpans_of_preorderAll hmore, hbelow]
    exact ⟨.cons hr hpairs, rfl⟩

/-- The errors of a run are in order, if each is in front of the next statement. -/
theorem Run.pairwise_errors {r : Span → SyntaxError → Prop} (hg : g.Reports lexemes length r)
    (hrow : Lexeme.IsRow lexemes length)
    (hr : ∀ {s e}, s.IsIn lexemes length → s.atEnd = false → g.statement s = .error e →
      s.span.start ≤ e.span.start ∧
        ((g.recover s).2.atEnd = true ∨ e.span.start < (g.recover s).2.span.start))
    (h : g.Run s nodes errors) (hs : s.IsIn lexemes length) :
    errors.Pairwise (fun a b => a.span.start < b.span.start) ∧
      ∀ e ∈ errors, s.span.start ≤ e.span.start := by
  induction h with
  | done => exact ⟨.nil, by simp⟩
  | statement _ hstatement _ ih =>
    obtain ⟨-, ls, htakes⟩ := hg.whole hstatement
    obtain ⟨hpairwise, hstart⟩ := ih (hs.takes htakes)
    exact ⟨hpairwise, fun e he => Nat.le_trans (hs.start_le hrow htakes) (hstart e he)⟩
  | @broken s s₁ e _ _ _ hend hstatement hrecover hrun ih =>
    obtain ⟨-, -, -, -, -, ls, htakes⟩ := hg.broken hs hend hstatement
    obtain ⟨hfirst, hnext⟩ := hr hs hend hstatement
    rw [hrecover] at htakes hnext
    obtain ⟨hpairwise, hstart⟩ := ih (hs.takes htakes)
    refine ⟨.cons (fun e' he' => ?_) hpairwise, fun e' he' => ?_⟩
    · rcases hnext with hdone | hlt
      · cases hrun with
        | done => cases he'
        | statement hmore => rw [hdone] at hmore; cases hmore
        | broken hmore => rw [hdone] at hmore; cases hmore
      · exact Nat.lt_of_lt_of_le hlt (hstart e' he')
    · rcases List.mem_cons.1 he' with rfl | he'
      · exact hfirst
      · exact Nat.le_trans (hs.start_le hrow htakes) (hstart e' he')

end Grammar

/-! ## Errors in order -/

/-- Numbers in order that are each at most the one across are so still when those are put in
    order. -/
theorem forall₂_le_of_perm {ns ms ms' : List Nat} (h : List.Forall₂ (· ≤ ·) ns ms)
    (hn : ns.Pairwise (· ≤ ·)) (hp : ms'.Perm ms) (hm : ms'.Pairwise (· ≤ ·)) :
    List.Forall₂ (· ≤ ·) ns ms' := by
  rw [List.forall₂_iff_get] at h ⊢
  obtain ⟨hlength, h⟩ := h
  refine ⟨hlength.trans hp.length_eq.symm, fun i hi hi' => ?_⟩
  rw [← Nat.not_lt]
  intro hlt
  -- The first `i + 1` numbers of `ms'` are less than `ns[i]`, but of `ms` only the first `i`
  -- can be.
  let less : Nat → Bool := fun m => m < ns.get ⟨i, hi⟩
  have hmany : i + 1 ≤ ms'.countP less := by
    have hall : (ms'.take (i + 1)).countP less = (ms'.take (i + 1)).length := by
      refine List.countP_eq_length.2 fun m hmem => decide_eq_true ?_
      obtain ⟨j, hj, rfl⟩ := List.mem_take_iff_getElem.1 hmem
      refine Nat.lt_of_le_of_lt ?_ hlt
      exact hm.rel_get_of_le (a := ⟨j, by omega⟩) (b := ⟨i, hi'⟩) (Fin.mk_le_mk.2 (by omega))
    have hsub := (List.take_sublist (i + 1) ms').countP_le (p := less)
    rw [hall, List.length_take] at hsub
    omega
  have hfew : ms.countP less ≤ i := by
    have hnone : (ms.drop i).countP less = 0 := by
      refine List.countP_eq_zero.2 fun m hmem => ?_
      obtain ⟨j, hj, rfl⟩ := List.mem_drop_iff_getElem.1 hmem
      rw [decide_eq_true_eq, Nat.not_lt]
      refine Nat.le_trans ?_ (h (i + j) (by omega) (by omega))
      exact hn.rel_get_of_le (a := ⟨i, hi⟩) (b := ⟨i + j, by omega⟩) (Fin.mk_le_mk.2 (by omega))
    have htake := List.countP_le_length (p := less) (l := ms.take i)
    rw [List.length_take] at htake
    rw [← List.take_append_drop i ms, List.countP_append, hnone]
    omega
  rw [hp.countP_eq] at hmany
  omega

end GrammarTools
