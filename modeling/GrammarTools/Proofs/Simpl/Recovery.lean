import GrammarTools.Proofs.Errors
import GrammarTools.Proofs.Simpl.Acceptance
import GrammarTools.Proofs.Simpl.Parallel

/-!
# Broken statements of Simpl

A statement may break far behind its first line, while the error node for it ends
with a line. All that is known is that the error is not in front of the node
(`grammar_reports`).
-/

namespace GrammarTools.Simpl

open TokenStream

variable {s s' : TokenStream Token} {e : SyntaxError}

/-- Streams with the same tokens up to the end. -/
abbrev upToEnd : Likeness Token := .upTo (fun _ => False) fun _ => False

theorem lined_upToEnd : Lined upToEnd := ⟨⟨fun _ h => h, nofun⟩, nofun, congrArg _⟩

/-- A statement is read alike from a stream and from itself. -/
theorem statement_self (hend : s.atEnd = false) :
    upToEnd.Parallel true (List.Forall₂ Eq) statement statement s s := by
  obtain ⟨l, rest, hu⟩ := exists_cons_of_atEnd hend
  have hp : s.peek = some l.token := by simp [peek, peekNth, hu]
  exact statement_parallel lined_upToEnd (Likeness.Alike.refl (fun _ => rfl) s.upcoming) hp

theorem takes_of_statement_ok {nodes : List RawNode} (h : statement s = .ok (nodes, s')) :
    ∃ ls, s.Takes ls s' := by
  have hend : s.atEnd = false := by
    have hahead := grammar_isProgressive.statement h
    rw [atEnd, List.isEmpty_eq_false_iff_exists_mem]
    exact List.exists_mem_of_length_pos (Nat.zero_lt_of_lt hahead)
  obtain ⟨_, _, -, -, hmoves⟩ := (statement_self hend).of_ok h
  obtain ⟨ls, _, htakes, -⟩ := hmoves.takes
  exact ⟨ls, htakes⟩

/-- Where the error of a broken statement can be: not in front of its node. -/
structure Locates (lexemes : List (Lexeme Token)) (length : Nat) (span : Span) (e : SyntaxError) :
    Prop where
  placed : e.IsPlaced lexemes length
  start_le : span.start ≤ e.span.start

/-- Simpl reports errors no earlier than the nodes for what is broken. -/
theorem grammar_reports {lexemes : List (Lexeme Token)} {length : Nat}
    (hrow : Lexeme.IsRow lexemes length) :
    grammar.Reports lexemes length (Locates lexemes length) where
  whole h := ⟨(statement_reads h).spells.errorSpans_preorderAll, takes_of_statement_ok h⟩
  broken {s e} hs hend h := by
    obtain ⟨l, rest, hu⟩ := exists_cons_of_atEnd hend
    obtain ⟨_, t, _, -, hmoves, hat, -⟩ := (statement_self hend).of_error h
    obtain ⟨ls, _, htakes, -⟩ := hmoves.takes
    obtain ⟨skipped, rest', hrest, heq⟩ := skipUntil_eq (fun token (s' : TokenStream Token) =>
      s'.atLineStart && (token == Token.dot || !atDeclaration s || atDeclaration s')) hu
    have ho := hs.ordered hrow
    rw [hu, hrest, ← List.cons_append] at ho
    have hframes := Mark.Frames.spanOver (.singleton ⟨l.span, false⟩) ho.left
    have hstart : l.span.start = (spanOver l.span skipped).start := Option.some.inj hframes.start
    have hle := hs.start_le hrow htakes
    rw [TokenStream.span, hu, ← hat.span, hstart] at hle
    change ∃ span more, (recover s).1 = _ ∧ _ ∧ _ ∧ ∃ ls, s.Takes ls (recover s).2
    rw [recover, heq]
    exact ⟨_, [], rfl, rfl, ⟨(hs.takes htakes).isPlaced hat, hle⟩, l :: skipped,
      by rw [hu, hrest]; rfl, rfl⟩

end GrammarTools.Simpl
