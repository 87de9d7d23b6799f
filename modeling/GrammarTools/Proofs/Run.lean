import GrammarTools.Grammar
import GrammarTools.Proofs.Acceptance
import GrammarTools.Proofs.Lexing

/-!
# Runs of a parser

A parser goes through a source statement by statement, and skips what is broken
(`Grammar.Run`). A grammar whose statements and skips take at least one token
each (`Grammar.IsProgressive`) gets to the end of every source
(`Grammar.run_statements`).

A run without errors has read a row of statements (`Run.rel_of_no_error`). A
row of statements that are accepted gives a run without errors, unless rules
are nested too deeply (`Run.no_error_of_accepts`).
-/

namespace GrammarTools

open Relation

variable {τ : Type} {s s₁ s' : TokenStream τ}

/-! ## Skips -/

namespace TokenStream

variable (stop : τ → TokenStream τ → Bool)

/-- The span over some tokens and more. -/
def spanOver (span : Span) (lexemes : List (Lexeme τ)) : Span :=
  lexemes.foldl (fun span l => span.merge l.span) span

theorem skipFrom_eq {lexemes : List (Lexeme τ)} (hs : s.upcoming = lexemes) (hne : lexemes ≠ [])
    (span : Span) : ∃ skipped rest, skipped ≠ [] ∧ lexemes = skipped ++ rest ∧
      skipFrom stop lexemes span s =
        (spanOver span skipped, ⟨skipped.reverse ++ s.past, rest, s.endOffset⟩) := by
  induction lexemes generalizing s span with
  | nil => exact absurd rfl hne
  | cons l rest ih =>
    have ha : s.advance = ⟨l :: s.past, rest, s.endOffset⟩ := by simp [advance, hs]
    unfold skipFrom
    split
    · exact ⟨[l], rest, by simp, rfl, by simp [spanOver, ha]⟩
    · cases rest with
      | nil => exact ⟨[l], [], by simp, rfl, by simp [skipFrom, spanOver, ha]⟩
      | cons l' rest =>
        obtain ⟨skipped, rest', -, hrest, heq⟩ :=
          ih (s := s.advance) (by simp [ha]) (by simp) (span.merge l.span)
        refine ⟨l :: skipped, rest', by simp, by simp [hrest], ?_⟩
        rw [heq, ha]
        simp [spanOver]

/-- A skip passes over at least one token, and its span is that of the tokens. -/
theorem skipUntil_eq {l : Lexeme τ} {rest : List (Lexeme τ)} (hs : s.upcoming = l :: rest) :
    ∃ skipped rest', rest = skipped ++ rest' ∧
      s.skipUntil stop = (spanOver l.span skipped,
        ⟨(l :: skipped).reverse ++ s.past, rest', s.endOffset⟩) := by
  obtain ⟨skipped, rest', hne, heq, hskip⟩ :=
    skipFrom_eq stop hs (List.cons_ne_nil l rest) s.span
  cases skipped with
  | nil => exact absurd rfl hne
  | cons l' skipped =>
    obtain ⟨rfl, hrest⟩ := List.cons_eq_cons.1 heq
    refine ⟨skipped, rest', hrest, ?_⟩
    rw [skipUntil, hs, hskip]
    simp [spanOver, span, hs]

theorem isAhead_skipUntil (hs : s.atEnd = false) : (s.skipUntil stop).2.IsAhead s := by
  cases hu : s.upcoming with
  | nil => simp [atEnd, hu] at hs
  | cons l rest =>
    obtain ⟨skipped, rest', hrest, heq⟩ := skipUntil_eq stop hu
    rw [heq, IsAhead, hu, hrest]
    simp only [List.length_cons, List.length_append]
    omega

end TokenStream

/-! ## Runs -/

namespace Grammar

variable (g : Grammar τ)

/-- From a place to the end, with the nodes built and the errors found. -/
inductive Run : TokenStream τ → List RawNode → List SyntaxError → Prop
  | done {s : TokenStream τ} : s.atEnd = true → Run s [] []
  | statement {s s₁ : TokenStream τ} {found nodes : List RawNode} {errors : List SyntaxError} :
      s.atEnd = false → g.statement s = .ok (found, s₁) → Run s₁ nodes errors →
        Run s (found ++ nodes) errors
  | broken {s s₁ : TokenStream τ} {e : SyntaxError} {found nodes : List RawNode}
      {errors : List SyntaxError} :
      s.atEnd = false → g.statement s = .error e → g.recover s = (found, s₁) →
        Run s₁ nodes errors → Run s (found ++ nodes) (e :: errors)

/-- Statements take tokens, and so do skips unless no token is left. -/
structure IsProgressive : Prop where
  statement : ∀ {s nodes s'}, g.statement s = .ok (nodes, s') → s'.IsAhead s
  recover : ∀ {s}, s.atEnd = false → (g.recover s).2.IsAhead s

variable {g}

theorem run_statementsFrom (hg : g.IsProgressive) {measure : List (Lexeme τ)}
    (hm : s.upcoming.length ≤ measure.length) (nodes : List RawNode) (errors : List SyntaxError) :
    ∃ nodes' errors', g.Run s nodes' errors' ∧ g.statementsFrom measure nodes errors s =
      (nodes.reverse ++ nodes', errors.reverse ++ errors') := by
  -- The measure bounds the tokens to come, and each round moves on.
  induction measure generalizing s nodes errors with
  | nil =>
    have hs : s.atEnd = true := by
      rw [TokenStream.atEnd, List.isEmpty_iff, ← List.length_eq_zero_iff]
      exact Nat.le_zero.1 hm
    exact ⟨[], [], .done hs, by simp [statementsFrom]⟩
  | cons l measure ih =>
    have hlen : ∀ {s₁ : TokenStream τ}, s₁.IsAhead s → s₁.upcoming.length ≤ measure.length :=
      fun ha => Nat.le_of_lt_succ (Nat.lt_of_lt_of_le ha hm)
    cases hs : s.atEnd with
    | true => exact ⟨[], [], .done hs, by simp [statementsFrom, hs]⟩
    | false =>
      cases hstatement : g.statement s with
      | ok x =>
        obtain ⟨nodes', errors', hrun, heq⟩ :=
          ih (hlen (hg.statement hstatement)) (x.1.reverse ++ nodes) errors
        refine ⟨_, _, .statement hs hstatement hrun, ?_⟩
        simp [statementsFrom, hs, hstatement, heq]
      | error e =>
        obtain ⟨nodes', errors', hrun, heq⟩ :=
          ih (hlen (hg.recover hs)) ((g.recover s).1.reverse ++ nodes) (e :: errors)
        refine ⟨_, _, .broken hs hstatement rfl hrun, ?_⟩
        simp [statementsFrom, hs, hstatement, heq]

/-- A parser runs to the end. -/
theorem run_statements (hg : g.IsProgressive) (s : TokenStream τ) :
    g.Run s (g.statements s).1 (g.statements s).2 := by
  obtain ⟨nodes, errors, hrun, heq⟩ := run_statementsFrom hg (Nat.le_refl s.upcoming.length) [] []
  rw [statements, heq]
  exact hrun

namespace Run

variable {nodes : List RawNode} {errors : List SyntaxError}

/-- Without errors, the statements read make up a row. -/
theorem exists_between {ν : Type} {productions : Productions ν τ} {p : Pattern ν τ}
    (hp : ∀ {s nodes s'}, g.statement s = .ok (nodes, s') → Between productions p s s')
    (h : g.Run s nodes []) : ∃ s', Between productions (.many p) s s' ∧ s'.atEnd = true := by
  generalize he : ([] : List SyntaxError) = errors at h
  induction h with
  | done hs => exact ⟨_, .nil, hs⟩
  | statement _ hstatement _ ih =>
    obtain ⟨s', hs', hend⟩ := ih he
    exact ⟨s', .cons (hp hstatement) hs', hend⟩
  | broken => cases he

/-- A row of accepted statements is read without errors. -/
theorem errors_eq_nil (h : ReflTransGen (fun a b => b.IsAhead a ∧ Accepts g.statement a b) s s')
    (hend : s'.atEnd = true) (hrun : g.Run s nodes errors) (he : ∀ e ∈ errors, ¬ e.IsNesting) :
    errors = [] := by
  induction h using ReflTransGen.head_induction_on generalizing nodes errors with
  | refl =>
    cases hrun with
    | done => rfl
    | statement hs => simp [hend] at hs
    | broken hs => simp [hend] at hs
  | @head a b hab _ ih =>
    cases hrun with
    | done => rfl
    -- What is accepted is read up to the same place, or fails for being nested, which no error of
    -- this run does.
    | statement _ hstatement hrun =>
      rcases hab.2 with ⟨found, hok⟩ | ⟨e, herror, -⟩
      · rw [hstatement, Except.ok.injEq, Prod.mk.injEq] at hok
        obtain ⟨-, rfl⟩ := hok
        exact ih hrun he
      · rw [hstatement] at herror
        cases herror
    | broken _ hstatement _ _ =>
      rcases hab.2 with ⟨found, hok⟩ | ⟨e, herror, hn⟩
      · rw [hstatement] at hok
        cases hok
      · rw [hstatement, Except.error.injEq] at herror
        exact absurd (herror ▸ hn) (he _ List.mem_cons_self)

end Run

/-- A parsed source has the errors of a run. -/
theorem exists_run_parse (hg : g.IsProgressive) (source : String) :
    ∃ nodes errors, g.Run (.ofLexemes (g.lexicon.lex source).lexemes
      (Text.byteLength source.toList)) nodes errors ∧
        (g.parse source).errors.Perm errors ∧
        (g.parse source).root = g.addComments
          (.branchAt g.root ⟨0, Text.byteLength source.toList⟩ nodes)
          (g.lexicon.lex source).comments :=
  ⟨_, _, run_statements hg _, List.mergeSort_perm _ _, rfl⟩

/-- A parser accepts the language of a grammar if its runs do. -/
theorem parse_errors_eq_nil_iff (hg : g.IsProgressive) {p : List (Word τ) → Prop}
    (hp : ∀ {s nodes errors}, g.Run s nodes errors → (∀ e ∈ errors, ¬ e.IsNesting) →
      (errors = [] ↔ p (Word.ofLexemes s.upcoming)))
    (source : String) (he : ∀ e ∈ (g.parse source).errors, ¬ e.IsNesting) :
    (g.parse source).errors = [] ↔
      p (Word.ofSource source.toList (g.lexicon.lex source).lexemes) := by
  obtain ⟨nodes, errors, hrun, hperm, -⟩ := exists_run_parse hg source
  rw [Word.ofSource_lex]
  refine Iff.trans ?_ (hp hrun fun e h => he e (hperm.mem_iff.2 h))
  rw [← List.length_eq_zero_iff, hperm.length_eq, List.length_eq_zero_iff]

end Grammar

end GrammarTools
