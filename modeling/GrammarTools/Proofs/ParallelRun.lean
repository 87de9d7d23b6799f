import GrammarTools.Proofs.Parallel
import GrammarTools.Proofs.Run

/-!
# Parallel runs of a parser

If the statements and the skips of a grammar do the same at places that are
alike (`Grammar.Respects`), so do whole runs: a run to the end of the left
stream goes along with a run of the right one up to its first stop, or to its
end (`Run.parallel`). The errors of the two runs are at places that are alike.

From a given place there is only one run (`Run.unique`).
-/

namespace GrammarTools

variable {τ : Type} {s s' t t' : TokenStream τ} {strict : Bool} {nodes nodes' : List RawNode}
  {errors errors' : List SyntaxError}

namespace Likeness

variable {L : Likeness τ} {e e' : SyntaxError}

/-- Errors at places that are alike, not in front of two given places. -/
structure Errs (L : Likeness τ) (s s' : TokenStream τ) (e e' : SyntaxError) : Prop where
  exists_places : ∃ t t', L.Moves false s s' t t' ∧ e.IsAt t ∧ e'.IsAt t' ∧
    (t.atEnd = t'.atEnd → e.expected = e'.expected)

theorem Errs.of_moves (h : L.Errs t t' e e') (hm : L.Moves strict s s' t t') :
    L.Errs s s' e e' := by
  obtain ⟨u, u', hmoves, he⟩ := h
  exact ⟨u, u', hm.weaken.trans hmoves, he⟩

/-- The right stream of a move over a token is not at its end. -/
theorem Moves.atEnd_right (h : L.Moves true s s' t t') : s'.atEnd = false := by
  have hlt := h.length_lt.2
  rw [TokenStream.atEnd, List.isEmpty_eq_false_iff_exists_mem]
  exact List.exists_mem_of_length_pos (Nat.zero_lt_of_lt hlt)

end Likeness

namespace Grammar

variable {g : Grammar τ} {L : Likeness τ}

/-- A grammar whose statements and skips do the same at places that are alike, where only the
    right stream may have stops. -/
structure Respects (g : Grammar τ) (L : Likeness τ) : Prop where
  left : ∀ l, ¬ L.leftStop l
  statement : ∀ {s s'}, L.Places s s' → s.atEnd = false →
    L.Parallel true (List.Forall₂ L.node) g.statement g.statement s s'
  recover : ∀ {s s'}, L.Places s s' → s.atEnd = false →
    List.Forall₂ L.node (g.recover s).1 (g.recover s').1 ∧
      L.Moves true s s' (g.recover s).2 (g.recover s').2

namespace Run

/-- A run to the end of the left stream, and the run along it of the right stream, which may
    go on from there. -/
theorem parallel (hg : g.Respects L) (h : g.Run s nodes errors) (hs : L.Places s s') :
    ∃ nodes' errors' t t', L.Moves false s s' t t' ∧ t.atEnd = true ∧
      List.Forall₂ L.node nodes nodes' ∧ List.Forall₂ (L.Errs s s') errors errors' ∧
        ∀ {more later}, g.Run t' more later → g.Run s' (nodes' ++ more) (errors' ++ later) := by
  induction h generalizing s' with
  | done hend => exact ⟨[], [], _, s', .refl hs, hend, .nil, .nil, fun h => h⟩
  | statement hend hstatement _ ih =>
    obtain ⟨found', t', hstatement', hfound, hm⟩ := (hg.statement hs hend).of_ok hstatement
    obtain ⟨nodes', errors', u, u', hmoves, hdone, hnodes, herrors, hrun⟩ := ih hm.places
    refine ⟨found' ++ nodes', errors', u, u', hm.weaken.trans hmoves, hdone,
      List.rel_append hfound hnodes, herrors.imp fun _ _ h => h.of_moves hm, fun h => ?_⟩
    rw [List.append_assoc]
    exact .statement hm.atEnd_right hstatement' (hrun h)
  | @broken s s₁ e _ _ _ hend hstatement hrecover _ ih =>
    -- Both runs fail and recover alike, so the rest is parallel again.
    obtain ⟨e', t, t', hstatement', herror⟩ := (hg.statement hs hend).of_error hstatement
    obtain ⟨hfound, hm⟩ := hg.recover hs hend
    rw [hrecover] at hfound hm
    obtain ⟨nodes', errors', u, u', hmoves, hdone, hnodes, herrors, hrun⟩ := ih hm.places
    refine ⟨(g.recover s').1 ++ nodes', e' :: errors', u, u', hm.weaken.trans hmoves, hdone,
      List.rel_append hfound hnodes,
      .cons ⟨t, t', herror⟩ (herrors.imp fun _ _ h => h.of_moves hm), fun h => ?_⟩
    rw [List.append_assoc]
    exact .broken hm.atEnd_right hstatement' rfl (hrun h)

/-- A run over tokens behind which a stop follows can go on from there. -/
theorem append {stop : Lexeme τ → Prop} {rest : List (Lexeme τ)}
    (hg : g.Respects (.upTo (fun _ => False) stop)) (h : g.Run s nodes errors)
    (hu : s'.upcoming = s.upcoming ++ rest) (hrest : ∀ l ∈ rest.head?, stop l) :
    ∃ errors' t, errors'.length = errors.length ∧ t.upcoming = rest ∧
      t.endOffset = s'.endOffset ∧
        ∀ {more later}, g.Run t more later → g.Run s' (nodes ++ more) (errors' ++ later) := by
  have hplaces : (Likeness.upTo (fun _ => False) stop).Places s s' := by
    unfold Likeness.Places
    rw [hu]
    generalize s.upcoming = front
    induction front with
    | nil => exact .ends (by simp) hrest
    | cons l front ih => exact .cons rfl ih
  obtain ⟨nodes', errors', t, t', hm, hdone, hnodes, herrors, hrun⟩ := h.parallel hg hplaces
  obtain ⟨ls, ls', htakes, htakes', hlike, -⟩ := hm.takes
  rw [TokenStream.atEnd, List.isEmpty_iff] at hdone
  have hls : s.upcoming = ls := by rw [htakes.upcoming, hdone, List.append_nil]
  obtain rfl : ls = ls' := List.forall₂_eq_eq_eq ▸ hlike
  obtain rfl : nodes = nodes' := List.forall₂_eq_eq_eq ▸ hnodes
  have hrest' : t'.upcoming = rest :=
    List.append_cancel_left (htakes'.upcoming.symm.trans (hls ▸ hu))
  exact ⟨errors', t', herrors.length_eq.symm, hrest', htakes'.endOffset, hrun⟩

theorem unique (h : g.Run s nodes errors) (h' : g.Run s nodes' errors') :
    nodes = nodes' ∧ errors = errors' := by
  induction h generalizing nodes' errors' with
  | done hend =>
    cases h' with
    | done => exact ⟨rfl, rfl⟩
    | statement hmore => exact absurd hend (by simp [hmore])
    | broken hmore => exact absurd hend (by simp [hmore])
  | statement hmore hstatement _ ih =>
    cases h' with
    | done hend => exact absurd hend (by simp [hmore])
    | statement _ hstatement' hrun =>
      rw [hstatement, Except.ok.injEq, Prod.mk.injEq] at hstatement'
      obtain ⟨rfl, rfl⟩ := hstatement'
      obtain ⟨rfl, rfl⟩ := ih hrun
      exact ⟨rfl, rfl⟩
    | broken _ hstatement' => rw [hstatement] at hstatement'; cases hstatement'
  | broken hmore hstatement hrecover _ ih =>
    cases h' with
    | done hend => exact absurd hend (by simp [hmore])
    | statement _ hstatement' => rw [hstatement] at hstatement'; cases hstatement'
    | broken _ hstatement' hrecover' hrun =>
      rw [hstatement, Except.error.injEq] at hstatement'
      rw [hrecover, Prod.mk.injEq] at hrecover'
      obtain ⟨rfl, rfl⟩ := hrecover'
      obtain ⟨rfl, rfl⟩ := ih hrun
      exact ⟨rfl, congrArg (· :: _) hstatement'⟩

end Run

end Grammar

end GrammarTools
