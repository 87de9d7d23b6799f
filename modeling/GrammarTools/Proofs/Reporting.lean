import GrammarTools.Peopl.Language
import GrammarTools.Proofs.Nesting
import GrammarTools.Proofs.Peopl.Recovery
import GrammarTools.Proofs.Simpl.Recovery
import GrammarTools.Report
import GrammarTools.Simpl.Language

/-!
# Errors and error nodes

A parsed source has as many error nodes as errors, all of them right below the
root, and it has a report if it has either. An error says what was expected and
which token was found, and it does not start before the error node of the same
number (`Grammar.errorsCorrespond`). In PeoPl the errors follow each other, and
each is in its error node, at the first token behind it, or at the end of the
input (`parse_errors_correspond`).

A run pairs nodes and errors as they come up, and both in the order in which
they stand in the source, save that in Simpl an error may be further on than the
errors of the statements that follow. Putting comments into the tree moves no
error node.
-/

namespace GrammarTools

variable {τ : Type} {g : Grammar τ} {lexemes : List (Lexeme τ)} {length : Nat}

/-- The error nodes of a root, in pre-order. -/
def RawNode.errors (root : RawNode) : List RawNode := root.preorder.filter isError

/-- Error nodes and errors that belong to each other, in a parsed source and in its tree. -/
structure ParseOutput.ErrorsCorrespond (output : ParseOutput) (tree : Tree)
    (lexemes : List (Lexeme τ)) (length : Nat) : Prop where
  errors : tree.errors = output.errors
  top : output.root.errors = output.root.children.filter RawNode.isError
  count : output.root.errors.length = output.errors.length
  hasError : tree.root.hasError = true ↔ output.errors ≠ []
  report : ∀ name, (tree.report? name).isSome = true ↔ output.errors ≠ []
  placed : ∀ e ∈ output.errors, e.IsPlaced lexemes length
  start_le : List.Forall₂ (fun n e => n.span.start ≤ e.span.start) output.root.errors output.errors

/-- Errors put in order start one after the other. -/
theorem SyntaxError.pairwise_mergeSort (errors : List SyntaxError) :
    (errors.mergeSort fun a b => a.span.start ≤ b.span.start).Pairwise
      fun a b => a.span.start ≤ b.span.start := by
  let le : SyntaxError → SyntaxError → Bool := fun a b => a.span.start ≤ b.span.start
  have htrans : ∀ a b c, le a b = true → le b c = true → le a c = true := by
    intro a b c hab hbc
    exact decide_eq_true (Nat.le_trans (of_decide_eq_true hab) (of_decide_eq_true hbc))
  have htotal : ∀ a b, (le a b || le b a) = true := by
    intro a b
    simpa [le] using Nat.le_total a.span.start b.span.start
  exact (List.pairwise_mergeSort htrans htotal errors).imp of_decide_eq_true

namespace RawNode

theorem sublist_preorderAll (nodes : List RawNode) : nodes.Sublist (preorderAll nodes) := by
  induction nodes with
  | nil => exact .refl _
  | cons node rest ih =>
    rw [preorderAll_cons, List.cons_append]
    exact .cons_cons _ (ih.trans (List.sublist_append_right _ _))

theorem errorSpans_eq_map (nodes : List RawNode) :
    (errorSpans nodes).map Span.start = (nodes.filter isError).map fun n => n.span.start := by
  rw [errorSpans, List.map_map]
  rfl

theorem length_errorSpans (nodes : List RawNode) :
    (errorSpans nodes).length = (nodes.filter isError).length :=
  List.length_map _

/-- The error nodes of a root are right below it if those have the stretches of all of them. -/
theorem errors_eq_filter {root : RawNode}
    (h : errorSpans root.children = errorSpans root.preorder) :
    root.errors = root.children.filter isError := by
  refine ((List.Sublist.filter _ ?_).eq_of_length ?_).symm
  · rw [preorder_eq]
    exact (sublist_preorderAll _).trans (List.sublist_cons_self _ _)
  · rw [← length_errorSpans, h, length_errorSpans]

end RawNode

/-- The errors of a tree and its error nodes, one by one and before the errors are put in order. -/
theorem Grammar.exists_errors (hg : g.IsProgressive) {r : Span → SyntaxError → Prop}
    (source : String)
    (hr : g.Reports (g.lexicon.lex source).lexemes (Text.byteLength source.toList) r)
    (hroot : g.root ≠ .error) (hcomment : g.comment ≠ .error) :
    ∃ nodes errors, g.Run (.ofLexemes (g.lexicon.lex source).lexemes
        (Text.byteLength source.toList)) nodes errors ∧
      (g.parse source).errors = errors.mergeSort (fun a b => a.span.start ≤ b.span.start) ∧
      List.Forall₂ r (RawNode.errorSpans (g.parse source).root.preorder) errors ∧
      RawNode.errorSpans (g.parse source).root.children =
        RawNode.errorSpans (g.parse source).root.preorder := by
  let start : TokenStream τ :=
    .ofLexemes (g.lexicon.lex source).lexemes (Text.byteLength source.toList)
  let root := RawNode.branchAt g.root ⟨0, Text.byteLength source.toList⟩ (g.statements start).1
  obtain ⟨hpairs, hbelow⟩ :=
    (run_statements hg start).forall₂_errors hr ⟨List.suffix_refl _, rfl⟩
  obtain ⟨hpreorder, hchildren⟩ :=
    g.errorSpans_addComments hcomment root (g.lexicon.lex source).comments
  have hspans : RawNode.errorSpans root.preorder = RawNode.errorSpans root.children := by
    have hfalse : root.isError = false := by
      simpa [root, RawNode.isError, RawNode.branchAt] using hroot
    rw [RawNode.preorder_eq, RawNode.errorSpans_cons, hfalse]
    exact hbelow
  rw [hspans] at hpreorder
  refine ⟨_, _, run_statements hg start, rfl, ?_, hchildren.trans hpreorder.symm⟩
  have heq : RawNode.errorSpans (g.parse source).root.preorder =
      RawNode.errorSpans (g.statements start).1 := hpreorder
  rw [heq]
  exact hpairs

/-- The error nodes below a root come one behind the other. -/
theorem Grammar.pairwise_errorSpans (hg : g.IsProgressive) (hf : g.IsFaithful) (source : String) :
    ((RawNode.errorSpans (g.parse source).root.children).map Span.start).Pairwise (· ≤ ·) := by
  have hnested := g.isWellNested_parse hg hf source
  have hapart := hnested.apart (g.parse source).root (RawNode.self_mem_preorder _)
  rw [RawNode.errorSpans_eq_map, List.pairwise_map]
  refine (List.Pairwise.imp_of_mem (fun {a b} ha _ hab => ?_) hapart).filter _
  have hlt := hnested.lt a ((RawNode.sublist_preorderAll _).subset ha)
  omega

/-- Errors put in order start no earlier than the error nodes of the same numbers, if they did so
    before. -/
theorem Grammar.forall₂_start_le (hg : g.IsProgressive) (hf : g.IsFaithful) {source : String}
    {errors : List SyntaxError}
    (herrors : (g.parse source).errors =
      errors.mergeSort fun a b => a.span.start ≤ b.span.start)
    (hchildren : RawNode.errorSpans (g.parse source).root.children =
      RawNode.errorSpans (g.parse source).root.preorder)
    (hpairs : List.Forall₂ (fun span e => span.start ≤ e.span.start)
      (RawNode.errorSpans (g.parse source).root.preorder) errors) :
    List.Forall₂ (fun n e => n.span.start ≤ e.span.start) (g.parse source).root.errors
      (g.parse source).errors := by
  have hnodes := g.pairwise_errorSpans hg hf source
  rw [hchildren] at hnodes
  have hrun := List.forall₂_map_left_iff.2 (List.forall₂_map_right_iff.2 hpairs)
  have hordered := SyntaxError.pairwise_mergeSort errors
  have hperm := List.mergeSort_perm errors fun a b => a.span.start ≤ b.span.start
  rw [← herrors] at hordered hperm
  have hsorted := forall₂_le_of_perm hrun hnodes (hperm.map fun e => e.span.start)
    (List.pairwise_map.2 hordered)
  rw [RawNode.errorSpans_eq_map] at hsorted
  exact List.forall₂_map_left_iff.1 (List.forall₂_map_right_iff.1 hsorted)

/-- A grammar that reports errors no earlier than the nodes for what is broken. -/
theorem Grammar.errorsCorrespond (hg : g.IsProgressive) (hf : g.IsFaithful)
    (hroot : g.root ≠ .error) (hcomment : g.comment ≠ .error) {r : Span → SyntaxError → Prop}
    (source : String)
    (hr : g.Reports (g.lexicon.lex source).lexemes (Text.byteLength source.toList) r)
    (hplaced : ∀ span e, r span e →
      e.IsPlaced (g.lexicon.lex source).lexemes (Text.byteLength source.toList) ∧
        span.start ≤ e.span.start)
    (language : Language) (hlanguage : language.definition.parse = g.parse) :
    (g.parse source).ErrorsCorrespond (Tree.parse language source)
      (g.lexicon.lex source).lexemes (Text.byteLength source.toList) := by
  obtain ⟨-, errors, -, herrors, hpairs, hchildren⟩ :=
    exists_errors hg source hr hroot hcomment
  have hperm : (g.parse source).errors.Perm errors := herrors ▸ List.mergeSort_perm _ _
  -- The errors are counted in the order of the nodes, and only then put in order.
  have hcount : (g.parse source).root.errors.length = (g.parse source).errors.length := by
    rw [hperm.length_eq, ← hpairs.length_eq, RawNode.length_errorSpans]
    rfl
  have hany : (g.parse source).root.hasError = true ↔ (g.parse source).errors ≠ [] := by
    rw [RawNode.hasError, ← List.length_pos_iff, ← hcount, List.length_pos_iff_exists_mem]
    simp [RawNode.errors]
  have htree : (Tree.parse language source).errors = (g.parse source).errors := by
    rw [Tree.parse, hlanguage]
    rfl
  refine ⟨htree, RawNode.errors_eq_filter hchildren, hcount, ?_, fun name => ?_, fun e he => ?_,
    forall₂_start_le hg hf herrors hchildren (hpairs.imp fun span e h => (hplaced span e h).2)⟩
  · rw [Tree.parse, hlanguage, Tree.hasError_root, hany]
  · rw [Tree.report?, htree]
    cases (g.parse source).errors <;> simp
  · obtain ⟨i, rfl⟩ := List.get_of_mem (hperm.mem_iff.1 he)
    have hi : i.1 < (RawNode.errorSpans (g.parse source).root.preorder).length :=
      Nat.lt_of_lt_of_eq i.2 hpairs.length_eq.symm
    exact (hplaced _ _ (hpairs.get hi i.2)).1

/-- The trees of both parsers have an error node for every error. In PeoPl the errors follow each
    other and are close to their nodes. -/
theorem parse_errors_correspond (source : String) :
    (Simpl.grammar.parse source).ErrorsCorrespond (Tree.parse Simpl.language source)
      (Simpl.lexicon.lex source).lexemes (Text.byteLength source.toList) ∧
    (Peopl.grammar.parse source).ErrorsCorrespond (Tree.parse Peopl.language source)
      (Peopl.lexicon.lex source).lexemes (Text.byteLength source.toList) ∧
    (Peopl.grammar.parse source).errors.Pairwise (fun a b => a.span.start < b.span.start) ∧
    List.Forall₂ (fun n e => n.span.covers e.span = true ∨
        ((Peopl.lexicon.lex source).lexemes.find? fun l => n.span.stop ≤ l.span.start).map
          Lexeme.span = some e.span ∨ e.span = .empty (Text.byteLength source.toList))
      (Peopl.grammar.parse source).root.errors (Peopl.grammar.parse source).errors := by
  have hsimpl := Simpl.grammar_reports (Simpl.lexicon.isRow source)
  have hpeopl := Peopl.grammar_reports (Peopl.lexicon.isRow source)
  refine ⟨Grammar.errorsCorrespond Simpl.grammar_isProgressive Simpl.grammar_isFaithful
      (by decide) (by decide) source hsimpl (fun _ _ h => ⟨h.placed, h.start_le⟩) _ rfl,
    Grammar.errorsCorrespond Peopl.grammar_isProgressive Peopl.grammar_isFaithful
      (by decide) (by decide) source hpeopl (fun _ _ h => ⟨h.placed, h.start_le⟩) _ rfl, ?_⟩
  obtain ⟨nodes, errors, hrun, herrors, hpairs, -⟩ :=
    Grammar.exists_errors Peopl.grammar_isProgressive source hpeopl (by decide) (by decide)
  rw [herrors, Peopl.mergeSort_errors hrun]
  exact ⟨Peopl.pairwise_errors hrun,
    List.forall₂_map_left_iff.1 (hpairs.imp fun _ _ h => h.near)⟩

end GrammarTools
