import GrammarTools.Proofs.Peopl.Recovery
import GrammarTools.Proofs.Splice
import Mathlib.Data.List.Chain

/-!
# Statements behind other statements in PeoPl

Every statement of PeoPl, whole or broken, goes up to its two dots and no further,
unless it is empty: a statement that consists of two dots alone is broken and takes
the next statement with it. So behind statements that are not empty, each with its
two dots, a source is parsed as it is alone (`parse_append_statements`).
-/

namespace GrammarTools.Peopl

open TokenStream Likeness

variable {s s' t t' : TokenStream Token} {d : Lexeme Token} {body rest rest' : List (Lexeme Token)}

/-! ## Streams without stops -/

section grammar

variable {L : Likeness Token} (hstop : ∀ t, ¬ L.IsStop t) {r : Span → Span → Prop}
  (hlike : ∀ {l l'}, L.like l l' → r l.span l'.span)
  (hmerge : ∀ {a a' b b' : Span}, r a a' → r b b' → r (a.merge b) (a'.merge b'))
include hstop hlike hmerge

/-- Skips over tokens that are alike to the end go on to the same place. -/
theorem skipUntil_parallel (hs : L.Places s s') (hend : s.atEnd = false) :
    let stop := fun (_ : Token) (s : TokenStream Token) => s.atEnd || s.isAt .dotDot
    r (s.skipUntil stop).1 (s'.skipUntil stop).1 ∧
      L.Moves true s s' (s.skipUntil stop).2 (s'.skipUntil stop).2 := by
  intro stop
  have hleft : ∀ l, ¬ L.leftStop l := fun l h => hstop l.token ⟨l, .inl h, rfl⟩
  have hright : ∀ l, ¬ L.rightStop l := fun l h => hstop l.token ⟨l, .inr h, rfl⟩
  obtain ⟨l, l', rest, rest', hu, hu', hl, hrest⟩ := hs.exists_cons hend hleft
  have hspan : r s.span s'.span := by
    rw [TokenStream.span, TokenStream.span, hu, hu']
    exact hlike hl
  rw [skipUntil, skipUntil, hu, hu']
  refine Likeness.skipFrom hlike hmerge (fun x t t' ht hne hne' => ?_) (fun x t h => ?_)
    (fun x t h => ?_) hu hu' (hleft l) hl hrest hspan
  · simp [stop, atEnd, List.isEmpty_eq_false_iff.2 hne, List.isEmpty_eq_false_iff.2 hne',
      ht.isAt_eq (hstop .dotDot)]
  · obtain ⟨m, -, hm⟩ := h
    exact absurd hm (hleft m)
  · obtain ⟨m, -, hm⟩ := h
    exact absurd hm (hright m)

/-- Statements and skips do the same on streams that are alike to the end. -/
theorem grammar_respects (hnode : ∀ {a a'}, r a a' → L.node (.error a []) (.error a' [])) :
    grammar.Respects L where
  left l h := hstop l.token ⟨l, .inl h, rfl⟩
  statement hs _ :=
    .bind (openStatement_parallel (fun t h => absurd h (hstop t)) hs) fun hnode hs =>
      .bind (.expect hs (hstop _)) fun hending hs => .pure hs (.cons hnode (.cons hending .nil))
  recover {s s'} hs hend := by
    obtain ⟨hspan, hmoves⟩ := skipUntil_parallel hstop hlike hmerge hs hend
    have hrecover : grammar.recover = recover := rfl
    simp only [hrecover, recover, ← hmoves.places.isAt_eq (hstop .dotDot)]
    split
    · have hp := peek_of_isAt ‹_›
      have hnoLeft : ¬ L.IsLeftStop .dotDot := by
        rintro ⟨l, h, -⟩
        exact hstop l.token ⟨l, .inl h, rfl⟩
      have hdots : L.Parallel true L.node (Rule.leaf Kind.dotDot) (Rule.leaf Kind.dotDot) _ _ :=
        .leaf hmoves.places hp hnoLeft
      obtain ⟨_, _, h, hleaf, hmoves'⟩ := hdots.of_ok rfl
      cases h
      exact ⟨.cons (hnode hspan) (.cons hleaf .nil), hmoves.trans hmoves'⟩
    · exact ⟨.cons (hnode hspan) .nil, hmoves⟩

end grammar

theorem respects_shifted (offset : Nat) : grammar.Respects (.shifted Token offset) :=
  grammar_respects (r := fun a a' => a' = a.shift offset) (fun _ ⟨_, h, _⟩ => h.elim id id)
    (fun h => congrArg Lexeme.span h) (fun h h' => by rw [h, h', Span.shift_merge])
    fun h _ => by rw [h]; rfl

/-! ## Single statements -/

/-- Tokens passed over that are no two dots end in front of the first two dots. -/
theorem exists_left_of_append_eq {front back : List (Lexeme Token)} (hd : d.token = .dotDot)
    (hfront : ∀ l ∈ front, l.token ≠ .dotDot) (h : body ++ d :: rest = front ++ back) :
    ∃ left, body = front ++ left ∧ back = left ++ d :: rest := by
  rcases List.append_eq_append_iff.1 h with ⟨left, hleft, hback⟩ | ⟨left, hbody, hback⟩
  · cases left with
    | nil => exact ⟨[], by simpa using hleft.symm, hback.symm⟩
    | cons m left =>
      obtain ⟨rfl, -⟩ := List.cons_eq_cons.1 hback
      exact absurd hd (hfront d (by simp [hleft]))
  · exact ⟨left, hbody, hback⟩

/-- An error at a token says nothing about the tokens behind it. -/
theorem eq_of_isAt {e e' : SyntaxError} {m : Lexeme Token} {more more' : List (Lexeme Token)}
    (he : e.IsAt t) (he' : e'.IsAt t') (ht : t.upcoming = m :: more)
    (ht' : t'.upcoming = m :: more') (hexpected : t.atEnd = t'.atEnd → e.expected = e'.expected) :
    e = e' := by
  have hspan : e.span = e'.span := by
    rw [he.span, he'.span, TokenStream.span, TokenStream.span, ht, ht']
  have hfound : e.found = e'.found := by rw [he.found, he'.found, text?, text?, ht, ht']; rfl
  have hsame : e.expected = e'.expected := hexpected (by rw [atEnd, atEnd, ht, ht']; rfl)
  cases e
  cases e'
  simp only at hspan hfound hsame
  rw [hspan, hfound, hsame]

section statement

theorem places_upToDotDot (hu : s.upcoming = body ++ d :: rest)
    (hu' : s'.upcoming = body ++ d :: rest') (hd : d.token = .dotDot) :
    upToDotDot.Places s s' := by
  rw [Places, hu, hu']
  clear hu hu'
  have hstop : ∀ {rest : List (Lexeme Token)}, ∀ l ∈ (d :: rest).head?, l.token = .dotDot :=
    fun l hl => Option.some.inj hl ▸ hd
  induction body with
  | nil => exact .ends hstop hstop
  | cons l body ih => exact .cons rfl ih

variable (hu : s.upcoming = body ++ d :: rest) (hu' : s'.upcoming = body ++ d :: rest')
  (hd : d.token = .dotDot)
include hu hu' hd

theorem exists_left_of_moves {strict : Bool} (h : upToDotDot.Moves strict s s' t t') :
    ∃ left, (∃ front, body = front ++ left) ∧ t.upcoming = left ++ d :: rest ∧
      t'.upcoming = left ++ d :: rest' := by
  obtain ⟨ls, ls', htakes, htakes', hlike, hstop⟩ := h.takes
  obtain rfl : ls = ls' := List.forall₂_eq_eq_eq ▸ hlike
  obtain ⟨left, hbody, hleft⟩ :=
    exists_left_of_append_eq hd hstop (hu.symm.trans htakes.upcoming)
  have hleft' : ls ++ t'.upcoming = ls ++ (left ++ d :: rest') := by
    rw [← htakes'.upcoming, hu', hbody, List.append_assoc]
  exact ⟨left, ⟨ls, hbody⟩, hleft, List.append_cancel_left hleft'⟩

/-- A statement does not see what comes behind its two dots. -/
theorem statement_append (hbody : ∀ l ∈ body, l.token ≠ .dotDot) :
    (∃ nodes t t', statement s = .ok (nodes, t) ∧ statement s' = .ok (nodes, t') ∧
      t.upcoming = rest ∧ t'.upcoming = rest' ∧ t'.endOffset = s'.endOffset) ∨
    ∃ e, statement s = .error e ∧ statement s' = .error e := by
  have hparallel := openStatement_parallel isStop_upToDotDot (places_upToDotDot hu hu' hd)
  rw [statement_eq, statement_eq]
  cases h : openStatement s with
  | error e =>
    obtain ⟨e', t, t', h', hm, he, he', hexpected⟩ := hparallel.of_error h
    obtain ⟨left, -, ht, ht'⟩ := exists_left_of_moves hu hu' hd hm
    -- Whether the error is inside the body or at its two dots, both streams have the same lexeme
    -- there.
    obtain ⟨m, more, more', hmore, hmore'⟩ : ∃ m more more', t.upcoming = m :: more ∧
        t'.upcoming = m :: more' := by
      cases left with
      | nil => exact ⟨d, rest, rest', ht, ht'⟩
      | cons m left => exact ⟨m, _, _, ht, ht'⟩
    obtain rfl := eq_of_isAt he he' hmore hmore' hexpected
    exact .inr ⟨e, rfl, by rw [h']⟩
  | ok x =>
    obtain ⟨node, t⟩ := x
    obtain ⟨node', t', h', rfl, hm⟩ := hparallel.of_ok h
    obtain ⟨left, ⟨front, hleft⟩, ht, ht'⟩ := exists_left_of_moves hu hu' hd hm
    rw [h']
    cases left with
    | nil =>
      -- The body is read to its end, where both streams have the two dots.
      have hat : t.isAt .dotDot = true := isAt_of_peek (by simp [peek, peekNth, ht, hd])
      have hat' : t'.isAt .dotDot = true := isAt_of_peek (by simp [peek, peekNth, ht', hd])
      refine .inl ⟨[node, .leaf Kind.dotDot d.span], t.advance, t'.advance, ?_, ?_, ?_, ?_, ?_⟩
      · simp [hat, TokenStream.span, ht]
      · simp [hat', TokenStream.span, ht']
      · simp [advance, ht]
      · simp [advance, ht']
      · simp [advance, ht', hm.right_end]
    | cons m left =>
      -- Something of the body is left, and it is no pair of dots.
      have hm : m.token ≠ .dotDot := hbody m (by simp [hleft])
      have hat : t.isAt .dotDot = false := by simp [isAt, peek, peekNth, ht, hm]
      have hat' : t'.isAt .dotDot = false := by simp [isAt, peek, peekNth, ht', hm]
      refine .inr ⟨⟨m.span, ["`..`"], some m.text⟩, ?_, ?_⟩
      · simp [hat, TokenStream.span, text?, ht]
      · simp [hat', TokenStream.span, text?, ht']

end statement

/-- A broken statement goes up to its two dots. -/
theorem recover_append {l : Lexeme Token} (hu : s.upcoming = l :: body ++ d :: rest)
    (hbody : ∀ l ∈ body, l.token ≠ .dotDot) (hd : d.token = .dotDot) :
    recover s = ([.error (spanOver l.span body) [], .leaf Kind.dotDot d.span],
      ⟨d :: (body.reverse ++ l :: s.past), rest, s.endOffset⟩) := by
  have hpass : ∀ l ∈ body, decide (l.token ≠ .dotDot) = true := fun l hl =>
    decide_eq_true (hbody l hl)
  have htake : (body ++ d :: rest).takeWhile (·.token ≠ .dotDot) = body := by
    rw [List.takeWhile_append_of_pos hpass, List.takeWhile_cons_of_neg (by simp [hd]),
      List.append_nil]
  have hdrop : (body ++ d :: rest).dropWhile (·.token ≠ .dotDot) = d :: rest := by
    rw [List.dropWhile_append_of_pos hpass, List.dropWhile_cons_of_neg (by simp [hd])]
  rw [List.cons_append] at hu
  rw [recover_eq hu]
  simp only [htake, hdrop]

/-! ## Rows of statements -/

/-- Statements that are not empty, whole or broken, each with its two dots. -/
inductive IsTerminated : List (Lexeme Token) → Prop
  | nil : IsTerminated []
  | cons {l d : Lexeme Token} {body rest : List (Lexeme Token)} :
      (∀ m ∈ l :: body, m.token ≠ .dotDot) → d.token = .dotDot → IsTerminated rest →
        IsTerminated (l :: body ++ d :: rest)

/-- Tokens of which the last one is two dots, but not the first one nor any two in turn, are
    statements that are not empty. -/
theorem isTerminated_of_isChain {lexemes : List (Lexeme Token)}
    (hlast : ∀ l ∈ lexemes.getLast?, l.token = .dotDot)
    (hfirst : ∀ l ∈ lexemes.head?, l.token ≠ .dotDot)
    (hchain : lexemes.IsChain fun a b => ¬ (a.token = .dotDot ∧ b.token = .dotDot)) :
    IsTerminated lexemes := by
  cases lexemes with
  | nil => exact .nil
  | cons l lexemes =>
    -- The first statement goes up to the first two dots.
    obtain ⟨body, after, rfl, hbody, hafter⟩ : ∃ body after, lexemes = body ++ after ∧
        (∀ m ∈ l :: body, m.token ≠ .dotDot) ∧ ∀ d ∈ after.head?, d.token = .dotDot := by
      refine ⟨lexemes.takeWhile (·.token ≠ .dotDot), lexemes.dropWhile (·.token ≠ .dotDot),
        List.takeWhile_append_dropWhile.symm, fun m hm => ?_, fun d hd => ?_⟩
      · rcases List.mem_cons.1 hm with rfl | hm
        · exact hfirst m rfl
        · simpa using List.mem_takeWhile_imp hm
      · have hhead := List.head?_dropWhile_not (fun m : Lexeme Token => m.token ≠ .dotDot) lexemes
        rw [hd] at hhead
        simpa using hhead
    cases after with
    | nil =>
      rw [List.append_nil] at hlast
      have hmem := List.getLast?_eq_some_getLast (List.cons_ne_nil l body)
      exact absurd (hlast _ hmem) (hbody _ (List.getLast_mem _))
    | cons d rest =>
      have hd := hafter d rfl
      have hrest : (d :: rest).IsChain fun a b => ¬ (a.token = .dotDot ∧ b.token = .dotDot) :=
        hchain.suffix ⟨l :: body, rfl⟩
      refine .cons hbody hd (isTerminated_of_isChain (fun m hm => hlast m ?_) (fun m hm hdots => ?_)
        hrest.tail)
      · rw [← List.cons_append, List.getLast?_append_cons, List.getLast?_cons,
          Option.mem_def.1 hm]
        rfl
      · exact hrest.rel_head? hm ⟨hd, hdots⟩
termination_by lexemes.length
decreasing_by
  subst_vars
  simp only [List.length_cons, List.length_append]
  omega

/-- A run over statements that have their two dots can go on behind them. -/
theorem run_append {nodes : List RawNode} {errors : List SyntaxError}
    (h : grammar.Run s nodes errors) (hs : IsTerminated s.upcoming)
    (hu : s'.upcoming = s.upcoming ++ rest) :
    ∃ t, t.upcoming = rest ∧ t.endOffset = s'.endOffset ∧ ∀ {more later},
      grammar.Run t more later → grammar.Run s' (nodes ++ more) (errors ++ later) := by
  have hmore : ∀ {s' : TokenStream Token} {l d : Lexeme Token} {body left : List (Lexeme Token)},
      s'.upcoming = l :: body ++ d :: left → s'.atEnd = false := fun h => by
    rw [atEnd, h]
    rfl
  -- A round up to two dots is the same whatever stands behind them.
  induction h generalizing s' with
  | @done s hend =>
    rw [atEnd, List.isEmpty_iff] at hend
    rw [hend, List.nil_append] at hu
    exact ⟨s', hu, rfl, fun h => h⟩
  | @statement s s₁ found nodes errors hend hstatement _ ih =>
    generalize hupcoming : s.upcoming = upcoming at hs hu
    cases hs with
    | nil => simp [atEnd, hupcoming] at hend
    | @cons l d body left hbody hd hleft =>
      rw [List.append_assoc, List.cons_append] at hu
      change statement s = _ at hstatement
      rcases statement_append hupcoming hu hd hbody with
        ⟨_, _, t', h, h', rfl, ht', hend'⟩ | ⟨e, h, -⟩
      · rw [hstatement, Except.ok.injEq, Prod.mk.injEq] at h
        obtain ⟨rfl, rfl⟩ := h
        obtain ⟨u, hrest, huend, hrun⟩ := ih hleft ht'
        refine ⟨u, hrest, huend.trans hend', fun h => ?_⟩
        rw [List.append_assoc]
        exact .statement (hmore hu) h' (hrun h)
      · rw [hstatement] at h
        cases h
  | @broken s s₁ e found nodes errors hend hstatement hrecover _ ih =>
    generalize hupcoming : s.upcoming = upcoming at hs hu
    cases hs with
    | nil => simp [atEnd, hupcoming] at hend
    | @cons l d body left hbody hd hleft =>
      rw [List.append_assoc, List.cons_append] at hu
      have hpass : ∀ m ∈ body, m.token ≠ .dotDot := fun m hm =>
        hbody m (List.mem_cons_of_mem _ hm)
      have hboth := (recover_append hupcoming hpass hd).symm.trans hrecover
      change statement s = _ at hstatement
      rcases statement_append hupcoming hu hd hbody with ⟨_, _, t', h, -⟩ | ⟨e', h, h'⟩
      · rw [hstatement] at h
        cases h
      · rw [hstatement, Except.error.injEq] at h
        obtain rfl := h
        obtain ⟨rfl, rfl⟩ := Prod.mk.inj hboth
        obtain ⟨u, hrest, huend, hrun⟩ :=
          @ih ⟨d :: (body.reverse ++ l :: s'.past), left ++ rest, s'.endOffset⟩ hleft rfl
        refine ⟨u, hrest, huend, fun h => ?_⟩
        rw [List.append_assoc]
        exact .broken (hmore hu) h' (recover_append hu hpass hd) (hrun h)

theorem lexicon_isPlain : lexicon.IsPlain := by decide

/-- A source is parsed alike behind statements that are not empty, whole or broken, if the last one
    has its two dots. -/
theorem parse_append_statements {a : String} (b : String)
    (hlast : ((lexicon.lex a).lexemes.map Lexeme.token).getLast? = some .dotDot)
    (hfirst : ((lexicon.lex a).lexemes.map Lexeme.token).head? ≠ some .dotDot)
    (hchain : ((lexicon.lex a).lexemes.map Lexeme.token).IsChain
      fun t u => ¬ (t = .dotDot ∧ u = .dotDot)) :
    (grammar.parse (a ++ "\n" ++ b)).root.children = (grammar.parse a).root.children ++
        (grammar.parse b).root.children.map (·.shift (Text.byteLength a.toList + 1)) ∧
      (grammar.parse (a ++ "\n" ++ b)).errors = (grammar.parse a).errors ++
        (grammar.parse b).errors.map (·.shift (Text.byteLength a.toList + 1)) := by
  rw [List.getLast?_map] at hlast
  rw [List.head?_map] at hfirst
  rw [List.isChain_map] at hchain
  have hlex := Lexicon.lex_append lexicon_isPlain (a := a) b fun l hl hinvalid => by
    rw [Option.mem_def.1 hl, Option.map_some, hinvalid] at hlast
    cases hlast
  -- No two pairs of dots in a row, and none in front, so every statement has a token of its own.
  have hterminated : IsTerminated (lexicon.lex a).lexemes := by
    refine isTerminated_of_isChain (fun l hl => ?_) (fun l hl h => ?_) hchain
    · rw [Option.mem_def.1 hl] at hlast
      exact Option.some.inj hlast
    · rw [Option.mem_def.1 hl, Option.map_some, h] at hfirst
      exact hfirst rfl
  have hu : (grammar.start (a ++ "\n" ++ b)).upcoming = (grammar.start a).upcoming ++
      ((lexicon.lex b).shift (Text.byteLength a.toList + 1)).lexemes :=
    congrArg Lexed.lexemes hlex
  obtain ⟨hchildren, errors', rfl, hall⟩ := grammar.parse_splice (r := Eq) grammar_isProgressive
    grammar_isFaithful (respects_shifted _) (Nat.lt_add_one _)
    (Grammar.byteLength_append_line a b) hlex fun hrun =>
      let ⟨t, ht⟩ := run_append hrun hterminated hu
      ⟨_, t, rfl, ht⟩
  -- Errors are in order already, so sorting them changes nothing.
  have herrors : ∀ source : String, (grammar.parse source).errors =
      (grammar.statements (grammar.start source)).2 := fun source =>
    mergeSort_errors (Grammar.run_statements grammar_isProgressive _)
  refine ⟨hchildren, ?_⟩
  rw [herrors, hall, herrors, herrors]

/-- A broken statement stands in front of one that never ends. -/
theorem parse_append_statements_broken :
    (((lexicon.lex "a = (1..").lexemes.map Lexeme.token).getLast? = some .dotDot ∧
      ((lexicon.lex "a = (1..").lexemes.map Lexeme.token).head? ≠ some .dotDot ∧
      ((lexicon.lex "a = (1..").lexemes.map Lexeme.token).IsChain
        fun t u => ¬ (t = .dotDot ∧ u = .dotDot)) ∧
    (grammar.parse ("a = (1.." ++ "\n" ++ "b = [2")).root.children =
        (grammar.parse "a = (1..").root.children ++ (grammar.parse "b = [2").root.children.map
          (·.shift (Text.byteLength "a = (1..".toList + 1)) ∧
      (grammar.parse ("a = (1.." ++ "\n" ++ "b = [2")).errors =
        (grammar.parse "a = (1..").errors ++ (grammar.parse "b = [2").errors.map
          (·.shift (Text.byteLength "a = (1..".toList + 1)) := by
  have htokens : (lexicon.lex "a = (1..").lexemes.map Lexeme.token =
      [.argumentName, .equals, .openParen, .number, .dotDot] := by cbv
  have hlast : ((lexicon.lex "a = (1..").lexemes.map Lexeme.token).getLast? = some .dotDot := by
    rw [htokens]
    rfl
  have hfirst : ((lexicon.lex "a = (1..").lexemes.map Lexeme.token).head? ≠ some .dotDot := by
    rw [htokens]
    decide
  have hchain : ((lexicon.lex "a = (1..").lexemes.map Lexeme.token).IsChain
      fun t u => ¬ (t = .dotDot ∧ u = .dotDot) := by
    rw [htokens]
    decide
  exact ⟨⟨hlast, hfirst, hchain⟩, parse_append_statements "b = [2" hlast hfirst hchain⟩

end GrammarTools.Peopl
