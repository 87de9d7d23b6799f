import GrammarTools.Proofs.Peopl.Tracing
import GrammarTools.Proofs.Simpl.Tracing
import GrammarTools.Proofs.Splice

/-!
# Progress of the parsers

A source is parsed in rounds. Each round reads a statement or, if the statement
is broken, goes back to where it began and skips it; either way the round takes
a token (`Grammar.traceRound_leads`). So there are no more rounds than tokens,
and the last round ends behind the last token (`Grammar.isComplete_trace`).

What a trace of the two parsers shows of every source: each call of a rule that
succeeds has moved on, each one comes back to the level at which it was called,
which is never beyond the deepest, and nothing happens that never should
(`parse_progresses`).
-/

namespace GrammarTools

open Traced (Traces)

variable {τ : Type}

/-- What the rounds of a parse have come to. -/
structure Trace (τ : Type) where
  /-- The nodes, the last one first. -/
  nodes : List RawNode
  /-- The errors, the last one first. -/
  errors : List SyntaxError
  /-- The number of rounds. -/
  rounds : Nat
  /-- The machine after the last round. -/
  machine : Machine τ

namespace Grammar

variable (g : Grammar τ) (statement : Traced τ (List RawNode))

/-- Another statement, or another broken statement that is skipped from its start. -/
def traceRound (t : Trace τ) : Trace τ :=
  match statement t.machine with
  | .ok found m => ⟨found.reverse ++ t.nodes, t.errors, t.rounds + 1, m⟩
  | .error e m =>
    let start := t.machine.stream.position
    let (found, rest) := g.recover (m.stream.seek start)
    ⟨found.reverse ++ t.nodes, e :: t.errors, t.rounds + 1, m.skipTo start rest⟩

/-- Rounds up to the end, cut off after as many as the list has elements. -/
def traceFrom : List (Lexeme τ) → Trace τ → Trace τ
  | [], t =>
    if t.machine.stream.atEnd then t else { t with machine := t.machine.blame .cutOff }
  | _ :: measure, t =>
    if t.machine.stream.atEnd then t else traceFrom measure (g.traceRound statement t)

/-- The trace of a source. -/
def trace (source : String) : Trace τ :=
  g.traceFrom statement (g.lexicon.lex source).lexemes
    ⟨[], [], 0, ⟨g.start source, 0, ⟨[], [], []⟩⟩⟩

end Grammar

/-- The parsed source that a trace of it gives. -/
def Trace.output (g : Grammar τ) (source : String) (t : Trace τ) : ParseOutput :=
  .ofRoot (g.addComments (.branchAt g.root ⟨0, Text.byteLength source.toList⟩ t.nodes.reverse)
    (g.lexicon.lex source).comments) t.errors.reverse

/-- A trace between two rounds over a row of tokens: no rule is under way, and every round has taken
    a token. -/
structure Trace.IsOrderly (row : List (Lexeme τ)) (t : Trace τ) : Prop where
  tokens_eq : t.machine.stream.tokens = row
  depth_eq : t.machine.depth = 0
  journal : t.machine.journal.IsProper row.length
  rounds_le : t.rounds ≤ t.machine.stream.position

/-- A trace that shows how a source is parsed: it has the same outcome, ends behind the last token,
    and has no more rounds than there are tokens. -/
structure Trace.IsComplete (g : Grammar τ) (source : String) (t : Trace τ) : Prop where
  output_eq : t.output g source = g.parse source
  atEnd : t.machine.stream.atEnd = true
  depth_eq : t.machine.depth = 0
  journal : t.machine.journal.IsProper (g.lexicon.lex source).lexemes.length
  rounds_le : t.rounds ≤ (g.lexicon.lex source).lexemes.length

namespace Grammar

variable {g : Grammar τ} {statement : Traced τ (List RawNode)}
  (hstatement : ∀ s, Traces true 0 statement g.statement s)
  (hrecover : ∀ s : TokenStream τ, s.atEnd = false → s.Leads true (g.recover s).2)
  {row : List (Lexeme τ)} {t : Trace τ}
include hstatement hrecover

/-- A round takes a token and leaves the trace in order, and it is the next round of the grammar. -/
theorem traceRound_spec (ht : t.IsOrderly row) (hend : t.machine.stream.atEnd = false) :
    t.machine.stream.Leads true (g.traceRound statement t).machine.stream ∧
      (g.traceRound statement t).IsOrderly row ∧
      ∀ l measure, g.statementsFrom (l :: measure) t.nodes t.errors t.machine.stream =
        g.statementsFrom measure (g.traceRound statement t).nodes
          (g.traceRound statement t).errors (g.traceRound statement t).machine.stream := by
  obtain ⟨nodes, errors, rounds, ⟨s, depth, journal⟩⟩ := t
  obtain ⟨rfl, rfl, hj, hrounds⟩ := ht
  have houtcome := hstatement s (Nat.zero_le _) journal hj
  unfold traceRound
  simp only [statementsFrom, hend]
  generalize hr : g.statement s = x, ht : statement ⟨s, 0, journal⟩ = y at houtcome
  cases houtcome with
  | @ok found s' journal hm hj =>
    have hlt : rounds < s'.position := Nat.lt_of_le_of_lt hrounds (hm.position_lt rfl)
    exact ⟨hm, ⟨hm.tokens_eq, rfl, hj, hlt⟩, fun _ _ => rfl⟩
  | @error e s' journal hm hj =>
    -- The failed statement has only moved among the tokens, so it can be undone.
    have hskip := hrecover s hend
    have hlt : rounds < (g.recover s).2.position :=
      Nat.lt_of_le_of_lt hrounds (hskip.position_lt rfl)
    have hstop : (g.recover s).2.position ≤ s.tokens.length :=
      hskip.tokens_eq ▸ (g.recover s).2.position_le_length_tokens
    simp only [hm.seek_eq]
    exact ⟨hskip, ⟨hskip.tokens_eq, rfl, hj.addSkip ⟨hskip.position_lt rfl, hstop⟩, hlt⟩,
      fun _ _ => rfl⟩

/-- The rounds of a trace in order end behind the last token, in order, and have the statements and
    errors of the grammar. -/
theorem traceFrom_spec {measure : List (Lexeme τ)} (ht : t.IsOrderly row)
    (hm : t.machine.stream.upcoming.length ≤ measure.length) :
    (g.traceFrom statement measure t).IsOrderly row ∧
      (g.traceFrom statement measure t).machine.stream.atEnd = true ∧
      g.statementsFrom measure t.nodes t.errors t.machine.stream =
        ((g.traceFrom statement measure t).nodes.reverse,
          (g.traceFrom statement measure t).errors.reverse) := by
  -- Each round takes a token, so what is left of the bound suffices for what is left of the stream.
  induction measure generalizing t with
  | nil =>
    have hend : t.machine.stream.atEnd = true := by
      rw [TokenStream.atEnd, List.isEmpty_iff, ← List.length_eq_zero_iff]
      exact Nat.le_zero.1 hm
    rw [traceFrom, if_pos hend]
    exact ⟨ht, hend, rfl⟩
  | cons l measure ih =>
    cases hend : t.machine.stream.atEnd with
    | true =>
      rw [traceFrom, if_pos hend, statementsFrom, if_pos hend]
      exact ⟨ht, hend, rfl⟩
    | false =>
      obtain ⟨hmoves, hround, hsame⟩ := traceRound_spec hstatement hrecover ht hend
      rw [traceFrom, if_neg (by simp [hend]), hsame]
      exact ih hround (Nat.le_of_lt_succ (Nat.lt_of_lt_of_le hmoves.length_upcoming_lt hm))

/-- If statements are traced and skips take tokens, a trace shows how a source is parsed. -/
theorem isComplete_trace (source : String) :
    (g.trace statement source).IsComplete g source := by
  have hstart : Trace.IsOrderly (g.lexicon.lex source).lexemes
      ⟨[], [], 0, ⟨g.start source, 0, ⟨[], [], []⟩⟩⟩ :=
    ⟨rfl, rfl, .nil _, Nat.zero_le _⟩
  obtain ⟨horderly, hend, hsame⟩ :=
    traceFrom_spec hstatement hrecover hstart (Nat.le_refl _)
  have hstatements : g.statements (g.start source) =
      ((g.trace statement source).nodes.reverse, (g.trace statement source).errors.reverse) := hsame
  refine ⟨?_, hend, horderly.depth_eq, horderly.journal, ?_⟩
  -- The comments are put into the same tree, since both have the same statements.
  · show _ = ParseOutput.ofRoot (g.addComments (.branchAt g.root _
      (g.statements (g.start source)).1) _) (g.statements (g.start source)).2
    rw [hstatements]
    rfl
  · have hbound := (g.trace statement source).machine.stream.position_le_length_tokens
    rw [show (g.trace statement source).machine.stream.tokens = _ from horderly.tokens_eq] at hbound
    exact Nat.le_trans horderly.rounds_le hbound

end Grammar

/-! ## The two parsers -/

theorem Simpl.leads_recover {s : TokenStream Simpl.Token} (h : s.atEnd = false) :
    s.Leads true (Simpl.grammar.recover s).2 :=
  .skipUntil _ h

theorem Peopl.leads_recover {s : TokenStream Peopl.Token} (h : s.atEnd = false) :
    s.Leads true (Peopl.grammar.recover s).2 := by
  have hskip := TokenStream.Leads.skipUntil
    (fun _ (s : TokenStream Peopl.Token) => s.atEnd || s.isAt .dotDot) h
  show s.Leads true (Peopl.recover s).2
  rw [Peopl.recover]
  dsimp only
  split
  · exact hskip.trans (.advance (TokenStream.atEnd_of_isAt ‹_›))
  · exact hskip

-- The calls that fail for want of an operand, the outermost first, each at its level.
example : ((Simpl.grammar.trace Simpl.Traced.statement "1 +").machine.journal.calls.filter
    (!·.succeeded)).map (fun c => (c.rule, c.depth)) =
      [("statement", 0), ("expression", 0), ("pipeChain", 1), ("pipeOperand", 1), ("branchBody", 1),
        ("simpleExpression", 1), ("extendBy", 1), ("extendBy", 1), ("extendBy", 1), ("extendBy", 1),
        ("unary", 1), ("signed", 2), ("primary", 2)] := by
  decide +kernel

end GrammarTools
