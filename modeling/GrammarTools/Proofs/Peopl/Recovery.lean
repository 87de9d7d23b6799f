import GrammarTools.Proofs.Errors
import GrammarTools.Proofs.Peopl.Acceptance
import GrammarTools.Proofs.Peopl.Parallel

/-!
# Broken statements of PeoPl

No rule for the inside of a statement takes two dots, so a statement that breaks
does so no further than its first two dots (`exists_place_of_statement_error`).
Its error node reaches from its first token up to the next two dots behind that
token, or to the end (`recover_eq`). So the error is inside the node, at the two
dots right behind it, or at the end of the input (`statement_reports`).
-/

namespace GrammarTools

open TokenStream

variable {τ : Type} [DecidableEq τ] {s : TokenStream τ}

/-- A front part of a row whose elements all pass a test ends in front of the first other element
    that fails it. -/
theorem exists_left_of_cons_eq_append {α : Type} {p : α → Bool} {a : α} {as front back : List α}
    (h : a :: as = front ++ back) (hp : ∀ b ∈ front, p b = true) :
    ∃ left, a :: as.takeWhile p = front ++ left ∧ back = left ++ as.dropWhile p := by
  cases front with
  | nil =>
    refine ⟨a :: as.takeWhile p, rfl, ?_⟩
    rw [List.cons_append, List.takeWhile_append_dropWhile]
    exact h.symm
  | cons b front =>
    obtain ⟨rfl, rfl⟩ := List.cons_eq_cons.1 h
    have hfront : ∀ b ∈ front, p b = true := fun b hb => hp b (List.mem_cons_of_mem _ hb)
    have htake : (front ++ back).takeWhile p = front ++ back.takeWhile p :=
      List.takeWhile_append_of_pos hfront
    have hdrop : (front ++ back).dropWhile p = back.dropWhile p :=
      List.dropWhile_append_of_pos hfront
    refine ⟨back.takeWhile p, ?_, ?_⟩
    · exact congrArg (a :: ·) htake
    · exact (List.takeWhile_append_dropWhile.symm).trans (congrArg (_ ++ ·) hdrop.symm)

/-- A skip up to a token passes over one token and then over all others. -/
theorem TokenStream.skipFrom_eq_takeWhile (d : τ) {l : Lexeme τ} {rest : List (Lexeme τ)}
    (hs : s.upcoming = l :: rest) (span : Span) :
    skipFrom (fun _ s => s.atEnd || s.isAt d) (l :: rest) span s =
      (spanOver (span.merge l.span) (rest.takeWhile (·.token ≠ d)),
        ⟨(rest.takeWhile (·.token ≠ d)).reverse ++ l :: s.past, rest.dropWhile (·.token ≠ d),
          s.endOffset⟩) := by
  have ha : s.advance = ⟨l :: s.past, rest, s.endOffset⟩ := by simp [advance, hs]
  induction rest generalizing l s span with
  | nil => simp [skipFrom, ha, atEnd, spanOver]
  | cons m rest ih =>
    rw [skipFrom, ha]
    by_cases hm : m.token = d
    · simp [isAt, peek, peekNth, hm, spanOver]
    · have hstop : (atEnd ⟨l :: s.past, m :: rest, s.endOffset⟩ ||
          isAt ⟨l :: s.past, m :: rest, s.endOffset⟩ d) = false := by
        simp [atEnd, isAt, peek, peekNth, hm]
      rw [hstop, if_neg (by simp), ih rfl _ rfl]
      simp [hm, spanOver]

namespace Peopl

variable {s : TokenStream Token} {e : SyntaxError} {l : Lexeme Token} {rest : List (Lexeme Token)}

/-- A broken statement ends in front of the next two dots, or at the end. -/
theorem recover_eq (hs : s.upcoming = l :: rest) :
    recover s =
      let skipped := rest.takeWhile (·.token ≠ .dotDot)
      match rest.dropWhile (·.token ≠ .dotDot) with
      | [] => ([.error (spanOver l.span skipped) []],
          ⟨skipped.reverse ++ l :: s.past, [], s.endOffset⟩)
      | d :: after => ([.error (spanOver l.span skipped) [], .leaf Kind.dotDot d.span],
          ⟨d :: (skipped.reverse ++ l :: s.past), after, s.endOffset⟩) := by
  have hskip := skipFrom_eq_takeWhile Token.dotDot hs s.span
  have hspan : s.span = l.span := by rw [TokenStream.span, hs]
  rw [recover, skipUntil, hs, hskip, hspan, Span.merge_self]
  dsimp only
  cases hd : rest.dropWhile (·.token ≠ .dotDot) with
  | nil => simp [isAt, peek, peekNth]
  | cons d after =>
    have htoken : d.token = .dotDot := by
      have hhead := List.head?_dropWhile_not (fun l : Lexeme Token => l.token ≠ .dotDot) rest
      rw [hd] at hhead
      simpa using hhead
    simp [isAt, peek, peekNth, htoken, advance, TokenStream.span]

/-- A statement is whole if two dots follow. -/
theorem statement_eq (s : TokenStream Token) :
    statement s =
      match openStatement s with
      | .error e => .error e
      | .ok (node, t) =>
        if t.isAt .dotDot then .ok ([node, .leaf Kind.dotDot t.span], t.advance)
        else .error ⟨t.span, ["`..`"], t.text?⟩ := by
  rw [statement]
  cases h : openStatement s with
  | error e => rw [Rule.bind_of_error h]
  | ok x =>
    obtain ⟨node, t⟩ := x
    rw [Rule.bind_of_ok h]
    dsimp only
    by_cases hp : t.isAt .dotDot = true
    · have hexpect : Rule.expect Token.dotDot Kind.dotDot "`..`" t =
          .ok (.leaf Kind.dotDot t.span, t.advance) := by rw [Rule.expect, if_pos hp]; rfl
      rw [Rule.bind_of_ok hexpect, if_pos hp]
      rfl
    · have hexpect : Rule.expect Token.dotDot Kind.dotDot "`..`" t =
          .error ⟨t.span, ["`..`"], t.text?⟩ := by rw [Rule.expect, if_neg hp]; rfl
      rw [Rule.bind_of_error hexpect, if_neg hp]

/-- Streams with the same tokens up to two dots. -/
abbrev upToDotDot : Likeness Token := .upTo (·.token = .dotDot) (·.token = .dotDot)

theorem isStop_upToDotDot (t : Token) (h : upToDotDot.IsStop t) : t = .dotDot := by
  obtain ⟨l, hl | hl, rfl⟩ := h
  · exact hl
  · exact hl

/-- A statement breaks at one of the tokens up to the next two dots, or right behind them. -/
theorem exists_place_of_statement_error (hu : s.upcoming = l :: rest) (h : statement s = .error e) :
    ∃ ls left t, s.Takes ls t ∧ e.IsAt t ∧
      l :: rest.takeWhile (·.token ≠ .dotDot) = ls ++ left ∧
        t.upcoming = left ++ rest.dropWhile (·.token ≠ .dotDot) := by
  obtain ⟨ls, t, htakes, hstop, hat⟩ : ∃ ls t, s.Takes ls t ∧
      (∀ l ∈ ls, l.token ≠ .dotDot) ∧ e.IsAt t := by
    have hs : upToDotDot.Places s s := Likeness.Alike.refl (fun _ => rfl) s.upcoming
    -- No rule inside a statement takes two dots, since it reads a stream that stops there in
    -- parallel with itself.
    have hopen := openStatement_parallel isStop_upToDotDot hs
    rw [statement_eq] at h
    cases hs : openStatement s with
    | error e' =>
      obtain ⟨_, t, _, -, hmoves, he, -⟩ := hopen.of_error hs
      obtain ⟨ls, _, htakes, -, -, hstop⟩ := hmoves.takes
      rw [hs] at h
      cases h
      exact ⟨ls, t, htakes, hstop, he⟩
    | ok x =>
      obtain ⟨node, t⟩ := x
      obtain ⟨_, _, -, -, hmoves⟩ := hopen.of_ok hs
      obtain ⟨ls, _, htakes, -, -, hstop⟩ := hmoves.takes
      rw [hs] at h
      dsimp only at h
      split at h
      · cases h
      · cases h
        exact ⟨ls, t, htakes, hstop, rfl, rfl, List.cons_ne_nil _ _⟩
  have hupcoming := htakes.upcoming
  rw [hu] at hupcoming
  obtain ⟨left, hinside, hleft⟩ := exists_left_of_cons_eq_append
    (p := fun m : Lexeme Token => m.token ≠ .dotDot) hupcoming (by simpa using hstop)
  exact ⟨ls, left, t, htakes, hat, hinside, hleft⟩

/-- Where the error of a broken statement can be: in its node, at the first token behind it, or
    at the end of the input. -/
structure Locates (lexemes : List (Lexeme Token)) (length : Nat) (span : Span) (e : SyntaxError) :
    Prop where
  placed : e.IsPlaced lexemes length
  start_le : span.start ≤ e.span.start
  near : span.covers e.span = true ∨
    (lexemes.find? fun l => span.stop ≤ l.span.start).map Lexeme.span = some e.span ∨
      e.span = .empty length

variable {lexemes : List (Lexeme Token)} {length : Nat} (hrow : Lexeme.IsRow lexemes length)
  (hs : s.IsIn lexemes length) (hu : s.upcoming = l :: rest)
include hrow hs hu

/-- The tokens up to two dots, one at least. -/
theorem ordered_skipped :
    Mark.Ordered (Mark.ofLexemes (l :: rest.takeWhile (·.token ≠ .dotDot))) := by
  have ho := hs.ordered hrow
  rw [hu] at ho
  exact ho.sublist (List.Sublist.map _ (.cons_cons l (List.takeWhile_sublist _)))

/-- The error of a broken statement is near its error node. -/
theorem locates_of_statement_error (h : statement s = .error e) :
    Locates lexemes length (spanOver l.span (rest.takeWhile (·.token ≠ .dotDot))) e := by
  obtain ⟨ls, left, t, htakes, hat, hinside, hleft⟩ := exists_place_of_statement_error hu h
  have ht := hs.takes htakes
  have ho := ordered_skipped hrow hs hu
  have hframes := Mark.Frames.spanOver (.singleton ⟨l.span, false⟩) ho
  change Mark.Frames (Mark.ofLexemes (l :: rest.takeWhile (·.token ≠ .dotDot))) _ at hframes
  generalize spanOver l.span (rest.takeWhile (·.token ≠ .dotDot)) = span at hframes ⊢
  refine ⟨ht.isPlaced hat, ?_, ?_⟩
  · have hstart : l.span.start = span.start := Option.some.inj hframes.start
    have hle := hs.start_le hrow htakes
    rwa [TokenStream.span, hu, ← hat.span, hstart] at hle
  rw [hat.span, TokenStream.span, hleft]
  -- The error is at a token that is skipped, or at what stands behind these.
  cases left with
  | cons m left =>
    have hmem : (⟨m.span, false⟩ : Mark) ∈
        Mark.ofLexemes (l :: rest.takeWhile (·.token ≠ .dotDot)) := by
      rw [hinside]
      simp [Mark.ofLexemes]
    have hstart : span.start ≤ m.span.start := hframes.start_le ho hmem
    have hstop : m.span.stop ≤ span.stop := hframes.le_stop ho hmem
    exact .inl (by simp [Span.covers, hstart, hstop])
  | nil =>
    cases hd : rest.dropWhile (·.token ≠ .dotDot) with
    | nil => exact .inr (.inr (by rw [ht.endOffset]; rfl))
    | cons m back =>
      obtain ⟨front, hlexemes⟩ := hs.suffix
      have hrest := List.takeWhile_append_dropWhile (p := fun m : Lexeme Token =>
        m.token ≠ .dotDot) (l := rest)
      rw [hd] at hrest
      rw [hu, ← hrest, ← List.cons_append, ← List.append_assoc] at hlexemes
      subst hlexemes
      exact .inr (.inl (by rw [hrow.find?_behind hframes]; rfl))

/-- A broken statement leaves one error node, perhaps two dots, and an error in front of the next
    statement. -/
theorem broken_statement (h : statement s = .error e) :
    ∃ span more, (recover s).1 = .error span [] :: more ∧
      RawNode.errorSpans (RawNode.preorderAll more) = [] ∧ Locates lexemes length span e ∧
        (∃ ls, s.Takes ls (recover s).2) ∧ s.span.start ≤ e.span.start ∧
          ((recover s).2.atEnd = true ∨ e.span.start < (recover s).2.span.start) := by
  have hlocates := locates_of_statement_error hrow hs hu h
  obtain ⟨ls, left, t, htakes, hat, hinside, hleft⟩ := exists_place_of_statement_error hu h
  have hrest := List.takeWhile_append_dropWhile (p := fun m : Lexeme Token =>
    m.token ≠ .dotDot) (l := rest)
  have hstart := hs.start_le hrow htakes
  rw [← hat.span] at hstart
  rw [recover_eq hu]
  dsimp only
  cases hd : rest.dropWhile (·.token ≠ .dotDot) with
  | nil =>
    rw [hd, List.append_nil] at hrest
    exact ⟨_, [], rfl, rfl, hlocates, ⟨l :: rest, ⟨by rw [hu, List.append_nil], rfl⟩⟩, hstart,
      .inl rfl⟩
  | cons d after =>
    rw [hd] at hrest hleft
    refine ⟨_, _, rfl, rfl, hlocates, ⟨l :: rest.takeWhile (·.token ≠ .dotDot) ++ [d], ?_, rfl⟩,
      hstart, .inr ?_⟩
    · rw [hu, List.append_assoc, List.cons_append, List.singleton_append, hrest]
    · have hnext : t.Takes (left ++ [d]) ⟨d :: ((rest.takeWhile (·.token ≠ .dotDot)).reverse ++
          l :: s.past), after, s.endOffset⟩ :=
        ⟨by rw [hleft, List.append_assoc]; rfl, htakes.endOffset.symm⟩
      rw [hat.span]
      exact (hs.takes htakes).start_lt hrow hnext (by simp)

omit hrow hs hu

theorem takes_of_statement_ok {nodes : List RawNode} {s' : TokenStream Token}
    (h : statement s = .ok (nodes, s')) : ∃ ls, s.Takes ls s' := by
  have hs : upToDotDot.Places s s := Likeness.Alike.refl (fun _ => rfl) s.upcoming
  rw [statement_eq] at h
  cases hopen : openStatement s with
  | error e => rw [hopen] at h; cases h
  | ok x =>
    obtain ⟨node, t⟩ := x
    obtain ⟨_, _, -, -, hmoves⟩ := (openStatement_parallel isStop_upToDotDot hs).of_ok hopen
    obtain ⟨ls, _, htakes, -⟩ := hmoves.takes
    rw [hopen] at h
    dsimp only at h
    split at h
    · cases h
      obtain ⟨d, hd⟩ := Takes.advance (TokenStream.peek_of_isAt ‹_›)
      exact ⟨_, htakes.trans hd⟩
    · cases h

/-- PeoPl reports errors near the nodes for what is broken. -/
theorem grammar_reports (hrow : Lexeme.IsRow lexemes length) :
    grammar.Reports lexemes length (Locates lexemes length) where
  whole h := ⟨(statement_reads h).spells.errorSpans_preorderAll, takes_of_statement_ok h⟩
  broken hs hend h := by
    obtain ⟨l, rest, hu⟩ := exists_cons_of_atEnd hend
    obtain ⟨span, more, hfound, hmore, hlocates, htakes, -⟩ := broken_statement hrow hs hu h
    exact ⟨span, more, hfound, hmore, hlocates, htakes⟩

/-- The errors of a source stand one behind the other. -/
theorem pairwise_errors {source : String} {nodes : List RawNode} {errors : List SyntaxError}
    (h : grammar.Run (.ofLexemes (lexicon.lex source).lexemes (Text.byteLength source.toList))
      nodes errors) : errors.Pairwise fun a b => a.span.start < b.span.start := by
  have hrow := lexicon.isRow source
  refine (h.pairwise_errors (grammar_reports hrow) hrow (fun hs hend h => ?_)
    ⟨List.suffix_refl _, rfl⟩).1
  obtain ⟨l, rest, hu⟩ := exists_cons_of_atEnd hend
  obtain ⟨-, -, -, -, -, -, hnear⟩ := broken_statement hrow hs hu h
  exact hnear

/-- The errors of a source need not be put in order. -/
theorem mergeSort_errors {source : String} {nodes : List RawNode} {errors : List SyntaxError}
    (h : grammar.Run (.ofLexemes (lexicon.lex source).lexemes (Text.byteLength source.toList))
      nodes errors) : (errors.mergeSort fun a b => a.span.start ≤ b.span.start) = errors :=
  List.mergeSort_of_pairwise ((pairwise_errors h).imp fun h => decide_eq_true (Nat.le_of_lt h))

end Peopl

end GrammarTools
