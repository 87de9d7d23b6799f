import GrammarTools.Proofs.Simpl.Acceptance
import GrammarTools.Proofs.Simpl.Parallel
import GrammarTools.Proofs.Splice

/-!
# Declarations behind other text in Simpl

The keyword of a declaration that is the first token on its line stops whatever
comes in front of it, as the end of the source would: no statement goes on behind
it, and every skip ends in front of it (`grammar_respects`). So the text in front,
broken or not, can not change how the declarations are parsed
(`parse_append_declarations`).

A statement that breaks off there finds the keyword where the end of the source
would be. So the errors in front differ in what they find, but not in number.
-/

namespace GrammarTools.Simpl

open TokenStream Likeness

variable {L : Likeness Token} {s s' : TokenStream Token}

/-- Skips end alike, and in front of a declaration on a line of its own in any case. Where lines
    begin on the left alone, the left skip may have ended at one of these lines. -/
theorem skipUntil_parallel_or (hL : Bounded L) (hline : ∀ l, L.rightStop l → l.startsLine = true)
    {P : TokenStream Token → Prop} (halike : ∀ {t t' : TokenStream Token}, L.Places t t' →
      t.atLineStart = t'.atLineStart ∨ t.atLineStart = true ∧ P t)
    {r : Span → Span → Prop} (hlike : ∀ {l l'}, L.like l l' → r l.span l'.span)
    (hmerge : ∀ {a a' b b' : Span}, r a a' → r b b' → r (a.merge b) (a'.merge b')) (ended : Bool)
    (hs : L.Places s s') (hend : s.atEnd = false) :
    let stop := fun token (s : TokenStream Token) =>
      s.atLineStart && (token == Token.dot || !ended || atDeclaration s)
    (r (s.skipUntil stop).1 (s'.skipUntil stop).1 ∧
      L.Moves true s s' (s.skipUntil stop).2 (s'.skipUntil stop).2) ∨ P (s.skipUntil stop).2 := by
  intro stop
  obtain ⟨l, l', rest, rest', hu, hu', hl, hrest⟩ := hs.exists_cons hend hL.left
  have hspan : r s.span s'.span := by
    rw [TokenStream.span, TokenStream.span, hu, hu']
    exact hlike hl
  rw [skipUntil, skipUntil, hu, hu']
  refine skipFrom_or hlike hmerge (fun x t t' ht hne hne' => ?_) (fun x t h => ?_) (fun x t h => ?_)
    hu hu' (hL.left l) hl hrest hspan
  · -- Both streams have a lexeme left, with the same token, so they differ in lines alone.
    obtain ⟨m, m', more, more', hm, hm', hsame, -⟩ :=
      ht.exists_cons (List.isEmpty_eq_false_iff.2 hne) hL.left
    have hdeclaration : atDeclaration t = atDeclaration t' := by
      simp [atDeclaration, peek, peekNth, hm, hm', (L.same hsame).1]
    simp only [stop, hdeclaration]
    cases hopen : x == Token.dot || !ended || atDeclaration t' with
    | false => exact .inl (by rw [Bool.and_false, Bool.and_false])
    | true =>
      rw [Bool.and_true, Bool.and_true]
      exact halike ht
  · obtain ⟨m, -, hm⟩ := h
    exact absurd hm (hL.left m)
  · -- A stop is a keyword at the start of a line, where skipping ends in any case.
    obtain ⟨m, hmem, hm⟩ := h
    obtain ⟨more, ht⟩ := List.head?_eq_some_iff.1 hmem
    have hkeyword : atDeclaration t = true := by
      have hmem := hL.keyword m hm
      simp only [keywords, List.mem_cons, List.not_mem_nil, or_false] at hmem
      rcases hmem with h | h | h
      all_goals simp [atDeclaration, peek, peekNth, ht, h]
    simp [stop, atLineStart, ht, hline m hm, hkeyword]

theorem skipUntil_parallel (hL : Lined L) {r : Span → Span → Prop}
    (hlike : ∀ {l l'}, L.like l l' → r l.span l'.span)
    (hmerge : ∀ {a a' b b' : Span}, r a a' → r b b' → r (a.merge b) (a'.merge b')) (ended : Bool)
    (hs : L.Places s s') (hend : s.atEnd = false) :
    let stop := fun token (s : TokenStream Token) =>
      s.atLineStart && (token == Token.dot || !ended || atDeclaration s)
    r (s.skipUntil stop).1 (s'.skipUntil stop).1 ∧
      L.Moves true s s' (s.skipUntil stop).2 (s'.skipUntil stop).2 :=
  (skipUntil_parallel_or (P := fun _ => False) hL.toBounded hL.line
    (fun ht => .inl (atLineStart_eq hL ht)) hlike hmerge ended hs hend).resolve_right id

/-- Statements and skips can not tell a declaration on a line of its own from the end. -/
theorem grammar_respects (hL : Lined L) {r : Span → Span → Prop}
    (hlike : ∀ {l l'}, L.like l l' → r l.span l'.span)
    (hmerge : ∀ {a a' b b' : Span}, r a a' → r b b' → r (a.merge b) (a'.merge b'))
    (hnode : ∀ {a a'}, r a a' → L.node (.error a []) (.error a' [])) : grammar.Respects L where
  left := hL.left
  statement hs hend := by
    obtain ⟨l, rest, hu⟩ := exists_cons_of_atEnd hend
    exact statement_parallel hL hs (by rw [peek, peekNth, hu]; rfl)
  recover {s s'} hs hend := by
    obtain ⟨l, l', rest, rest', hu, hu', hl, -⟩ := hs.exists_cons hend hL.left
    have hsame : atDeclaration s = atDeclaration s' := by
      simp [atDeclaration, peek, peekNth, hu, hu', (L.same hl).1]
    obtain ⟨hspan, hmoves⟩ :=
      skipUntil_parallel hL hlike hmerge (atDeclaration s) hs hend
    have hrecover : grammar.recover = recover := rfl
    simp only [hrecover, recover, ← hsame]
    exact ⟨.cons (hnode hspan) .nil, hmoves⟩

/-- Streams of which the right one goes on with a declaration where the left one ends. -/
abbrev upToDeclaration : Likeness Token :=
  .upTo (fun _ => False) fun l => l.token ∈ keywords ∧ l.startsLine = true

theorem respects_upToDeclaration : grammar.Respects upToDeclaration :=
  grammar_respects (r := Eq) ⟨⟨fun _ h => h, fun _ h => h.1⟩, fun _ h => h.2, congrArg _⟩
    (fun h => congrArg _ h) (fun h h' => by rw [h, h']) fun h => by rw [h]; rfl

theorem respects_shifted (offset : Nat) : grammar.Respects (.shifted Token offset) :=
  grammar_respects (r := fun a a' => a' = a.shift offset)
    ⟨⟨fun _ h => h, nofun⟩, nofun, fun h => h ▸ rfl⟩
    (fun h => congrArg Lexeme.span h) (fun h h' => by rw [h, h', Span.shift_merge])
    fun h _ => by rw [h]; rfl

theorem lexicon_isPlain : lexicon.IsPlain := by decide

/-- A source that begins with a declaration is parsed alike behind any other source, if the lexer
    tells the two apart: the tree of the whole has the nodes of both, and as many errors. -/
theorem parse_append_declarations {a b : String} {keyword : Token}
    (hfirst : (lexicon.lex b).lexemes.head?.map Lexeme.token = some keyword)
    (hkeyword : keyword ∈ keywords) (hlex : lexicon.Separates a b) :
    (grammar.parse (a ++ "\n" ++ b)).root.children = (grammar.parse a).root.children ++
        (grammar.parse b).root.children.map (·.shift (Text.byteLength a.toList + 1)) ∧
      (grammar.parse (a ++ "\n" ++ b)).errors.length =
        (grammar.parse a).errors.length + (grammar.parse b).errors.length := by
  have hstop : ∀ l ∈ ((lexicon.lex b).shift (Text.byteLength a.toList + 1)).lexemes.head?,
      l.token ∈ keywords ∧ l.startsLine = true := by
    intro l hl
    rw [Lexed.shift, List.head?_map] at hl
    obtain ⟨m, hm, rfl⟩ := Option.map_eq_some_iff.1 hl
    rw [hm] at hfirst
    obtain rfl := Option.some.inj hfirst
    exact ⟨hkeyword, lexicon.startsLine_of_mem_head? b m hm⟩
  have hu : (grammar.start (a ++ "\n" ++ b)).upcoming = (grammar.start a).upcoming ++
      ((lexicon.lex b).shift (Text.byteLength a.toList + 1)).lexemes :=
    congrArg Lexed.lexemes hlex.lex_eq
  obtain ⟨hchildren, errors', herrors, hall⟩ := grammar.parse_splice
    (r := fun errors errors' => errors'.length = errors.length) grammar_isProgressive
    grammar_isFaithful (respects_shifted _) (Nat.lt_add_one _)
    (Grammar.byteLength_append_line a b) hlex.lex_eq
    fun hrun => hrun.append respects_upToDeclaration hu hstop
  have hcount : ∀ source : String, (grammar.parse source).errors.length =
      (grammar.statements (grammar.start source)).2.length := fun source =>
    List.length_mergeSort _
  refine ⟨hchildren, ?_⟩
  rw [hcount, hall, List.length_append, List.length_map, herrors, hcount, hcount]

/-- Brackets that are never closed stand in front of a declaration. -/
theorem parse_append_declarations_broken :
    ((lexicon.lex "type T.").lexemes.head?.map Lexeme.token = some .typeKeyword ∧
      Token.typeKeyword ∈ keywords ∧ lexicon.Separates "[1, (2" "type T.") ∧
    (grammar.parse ("[1, (2" ++ "\n" ++ "type T.")).root.children =
        (grammar.parse "[1, (2").root.children ++ (grammar.parse "type T.").root.children.map
          (·.shift (Text.byteLength "[1, (2".toList + 1)) ∧
      (grammar.parse ("[1, (2" ++ "\n" ++ "type T.")).errors.length =
        (grammar.parse "[1, (2").errors.length + (grammar.parse "type T.").errors.length := by
  have hfirst : (lexicon.lex "type T.").lexemes.head?.map Lexeme.token = some .typeKeyword := by cbv
  have hlast : (lexicon.lex "[1, (2").lexemes.getLast?.map Lexeme.token = some .number := by cbv
  have hlex : lexicon.Separates "[1, (2" "type T." :=
    Lexicon.separates_of_isClosed lexicon_isPlain fun l hl hinvalid => by
      rw [hl, Option.map_some, hinvalid] at hlast
      cases hlast
  exact ⟨⟨hfirst, by decide, hlex⟩, parse_append_declarations hfirst (by decide) hlex⟩

end GrammarTools.Simpl
