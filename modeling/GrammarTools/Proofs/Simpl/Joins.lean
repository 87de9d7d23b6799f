import GrammarTools.Proofs.Joins
import GrammarTools.Proofs.Spacing

/-!
# Joined lines in Simpl

A rule asks for line breaks at two places only: behind the dot of a declaration, and
wherever a broken statement may end. So it makes no difference to a source whether
one of its tokens starts a line, unless a dot or an error ends in front of that token
(`run_unbroken`).

A line break that a backslash takes away can therefore be replaced by spaces, and the
source is parsed alike (`parse_spaced`). It must not stand behind two stars, which
with a space would begin a comment (`spaced_behind_stars`).
-/

namespace GrammarTools.Simpl

open TokenStream Likeness

variable {start : Nat} {s s' : TokenStream Token}

/-- Streams with the same tokens, of which one may start a line in the left stream alone. -/
def unbroken (start : Nat) : Likeness Token where
  like l l' := l' = l ∨
    l.span.start = start ∧ l.startsLine = true ∧ l' = { l with startsLine := false }
  leftStop _ := False
  rightStop _ := False
  node := Eq
  same h := by rcases h with rfl | ⟨-, -, rfl⟩ <;> exact ⟨rfl, rfl⟩
  leaf _ h := by rcases h with rfl | ⟨-, -, rfl⟩ <;> rfl
  branch kind h := branch_eq_of_forall₂ kind h
  withField field h := withField_eq field h

theorem bounded_unbroken : Bounded (unbroken start) := ⟨fun _ h => h, nofun⟩

/-- The next token stands at a given offset. -/
def IsInFrontOf (s : TokenStream Token) (start : Nat) : Prop :=
  ∃ m rest, s.upcoming = m :: rest ∧ m.span.start = start

/-- A dot or an error whose last token stands right in front of the token at a given offset. -/
structure ClosesAt (row : List (Lexeme Token)) (start : Nat) (n : RawNode) : Prop where
  kind : n.kind = .error ∨ n.kind = Kind.dot.id
  exists_last : ∃ front l m back, row = front ++ l :: m :: back ∧ m.span.start = start ∧
    n.span.stop = l.span.stop

theorem ClosesAt.of_suffix {row rest : List (Lexeme Token)} {n : RawNode}
    (h : ClosesAt rest start n) (hrow : rest <:+ row) : ClosesAt row start n := by
  obtain ⟨front, l, m, back, rfl, hm⟩ := h.exists_last
  obtain ⟨passed, rfl⟩ := hrow
  exact ⟨h.kind, passed ++ front, l, m, back, (List.append_assoc ..).symm, hm⟩

/-! ## Steps -/

section places

variable (hs : (unbroken start).Places s s')
include hs

/-- Both streams are at their ends, or at tokens that are alike. -/
theorem unbroken_cases : (s.upcoming = [] ∧ s'.upcoming = []) ∨
    ∃ l l' rest rest', s.upcoming = l :: rest ∧ s'.upcoming = l' :: rest' ∧
      (unbroken start).like l l' := by
  unfold Likeness.Places at hs
  generalize s.upcoming = left at hs ⊢
  generalize s'.upcoming = right at hs ⊢
  rw [alike_iff_forall₂ (fun _ h => h) fun _ h => h] at hs
  cases hs with
  | nil => exact .inl ⟨rfl, rfl⟩
  | cons hlike _ => exact .inr ⟨_, _, _, _, rfl, rfl, hlike⟩

theorem atLineStart_unbroken : s.atLineStart = s'.atLineStart ∨
    s.atLineStart = true ∧ IsInFrontOf s start := by
  rw [TokenStream.atLineStart_eq, TokenStream.atLineStart_eq]
  rcases unbroken_cases hs with ⟨hu, hu'⟩ | ⟨l, l', rest, rest', hu, hu', hlike⟩
  · exact .inl (by rw [hu, hu'])
  · rcases hlike with rfl | ⟨hstart, hline, -⟩
    · exact .inl (by rw [hu, hu']; rfl)
    · exact .inr ⟨by rw [hu]; exact hline, l, rest, hu, hstart⟩

theorem errors_eq_of_unbroken {e e' : SyntaxError} (hend : s.endOffset = s'.endOffset)
    (he : e.IsAt s) (he' : e'.IsAt s')
    (hexpected : s.atEnd = s'.atEnd → e.expected = e'.expected) : e = e' := by
  have hplace : s.span = s'.span ∧ s.text? = s'.text? ∧ s.atEnd = s'.atEnd := by
    unfold TokenStream.span TokenStream.text? TokenStream.atEnd
    rcases unbroken_cases hs with ⟨hu, hu'⟩ | ⟨l, l', rest, rest', hu, hu', hlike⟩
    · rw [hu, hu', hend]
      exact ⟨rfl, rfl, rfl⟩
    · rw [hu, hu']
      rcases hlike with rfl | ⟨-, -, rfl⟩ <;> exact ⟨rfl, rfl, rfl⟩
  obtain ⟨hspan, htext, hends⟩ := hplace
  have hspans := he.span.trans (hspan.trans he'.span.symm)
  have hfound := he.found.trans (htext.trans he'.found.symm)
  have hboth := hexpected hends
  cases e
  cases e'
  simp_all

omit hs in
/-- A declaration with a dot that ends it. -/
theorem ended_eq_ok {r : Rule Token RawNode} {node : RawNode} {t : TokenStream Token}
    (hr : r s = .ok (node, t)) (hends : atDeclarationEnd t = true) :
    ended r s = .ok ([node, .leaf Kind.dot t.span], t.advance) := by
  have hdot : declarationEnd t = .ok (.leaf Kind.dot t.span, t.advance) := by
    unfold atDeclarationEnd at hends
    rw [declarationEnd, Rule.ask_bind, if_pos hends]
    rfl
  rw [ended, Rule.bind_of_ok hr, Rule.bind_of_ok hdot]
  rfl

/-- A statement is read alike, unless it ends with a dot in front of the token. -/
theorem statement_unbroken (hend : s.atEnd = false)
    (hclosed : ∀ {nodes t}, statement s = .ok (nodes, t) →
      ∀ n ∈ nodes, ¬ ClosesAt s.upcoming start n) :
    (unbroken start).Parallel true (List.Forall₂ Eq) statement statement s s' := by
  obtain ⟨l, rest, hu⟩ := exists_cons_of_atEnd hend
  have hp : s.peek = some l.token := by simp [peek, peekNth, hu]
  refine statement_parallel_of_ends bounded_unbroken hs hp fun {r node t t'} hstatement hr hm => ?_
  by_contra hne
  have hdot : t.isAt .dot = t'.isAt .dot := isAt_eq bounded_unbroken hm.places (by decide)
  unfold atDeclarationEnd at hne
  rw [← hdot] at hne
  cases hat : t.isAt .dot with
  | false => simp [hat] at hne
  | true =>
    have hpeek := peek_of_isAt hat
    have hnext := hm.places.advance hpeek (bounded_unbroken.not_isLeftStop _)
    rcases atLineStart_unbroken hnext with heq | ⟨hline, m, back, hback, hstart⟩
    · exact hne (by rw [heq])
    -- On the left the dot ends the declaration, with the token right behind it.
    · obtain ⟨d, more, hd, -, ha⟩ := exists_upcoming hpeek
      obtain ⟨ls, -, htakes, -⟩ := hm.takes
      have hends : atDeclarationEnd t = true := by rw [atDeclarationEnd, hat, hline, Bool.and_true]
      refine hclosed (hstatement.trans (ended_eq_ok hr hends)) (.leaf Kind.dot t.span) (by simp)
        ⟨.inr rfl, ls, d, m, back, ?_, hstart, ?_⟩
      · rw [ha] at hback
        obtain rfl : more = m :: back := hback
        rw [htakes.upcoming, hd]
      · rw [TokenStream.span, hd]
        rfl

omit hs in
/-- The error of a broken statement ends with the last token that is skipped. -/
theorem exists_closesAt_of_recover (hend : s.atEnd = false)
    (ho : Mark.Ordered (Mark.ofLexemes s.upcoming)) (h : IsInFrontOf (recover s).2 start) :
    ∃ n ∈ (recover s).1, ClosesAt s.upcoming start n := by
  obtain ⟨l, rest, hu⟩ := exists_cons_of_atEnd hend
  obtain ⟨skipped, behind, hrest, heq⟩ := skipUntil_eq (fun token (s' : TokenStream Token) =>
    s'.atLineStart && (token == Token.dot || !atDeclaration s || atDeclaration s')) hu
  simp only [recover, heq] at h ⊢
  obtain ⟨m, back, hback, hstart⟩ := h
  obtain rfl : behind = m :: back := hback
  -- One token at least is skipped, and the last one stands in front of the next.
  obtain ⟨front, last, hlast⟩ := (List.eq_nil_or_concat (l :: skipped)).resolve_left (by simp)
  rw [List.concat_eq_append] at hlast
  have hrow : s.upcoming = front ++ last :: m :: back := by
    rw [hu, hrest, ← List.cons_append, hlast, List.append_assoc]
    rfl
  rw [hu, hrest, ← List.cons_append] at ho
  have hframes := Mark.Frames.spanOver (.singleton ⟨l.span, false⟩) ho.left
  have hmarks : [⟨l.span, false⟩] ++ Mark.ofLexemes skipped = Mark.ofLexemes (front ++ [last]) :=
    congrArg Mark.ofLexemes hlast
  have hstop : last.span.stop = (spanOver l.span skipped).stop := by
    have hend := hframes.stop
    rw [hmarks, Mark.ofLexemes_append] at hend
    simpa [Mark.ofLexemes] using hend
  exact ⟨_, List.mem_singleton_self _, .inl rfl, front, last, m, back, hrow, hstart, hstop.symm⟩

/-- A broken statement is skipped alike, unless the skip ends in front of the token. -/
theorem recover_unbroken (hend : s.atEnd = false) (ho : Mark.Ordered (Mark.ofLexemes s.upcoming)) :
    (recover s).1 = (recover s').1 ∧
        (unbroken start).Moves true s s' (recover s).2 (recover s').2 ∨
      ∃ n ∈ (recover s).1, ClosesAt s.upcoming start n := by
  obtain ⟨l, l', rest, rest', hu, hu', hlike, -⟩ := hs.exists_cons hend fun _ h => h
  have hsame : atDeclaration s = atDeclaration s' := by
    simp [atDeclaration, peek, peekNth, hu, hu', ((unbroken start).same hlike).1]
  have hspans : ∀ {l l' : Lexeme Token}, (unbroken start).like l l' → l.span = l'.span := by
    intro l l' h
    rcases h with rfl | ⟨-, -, rfl⟩ <;> rfl
  have hskips := skipUntil_parallel_or (P := fun t => IsInFrontOf t start) (r := Eq)
    bounded_unbroken (fun _ h => h.elim) atLineStart_unbroken hspans (fun h h' => by rw [h, h'])
    (atDeclaration s) hs hend
  rcases hskips with ⟨hspan, hmoves⟩ | hfront
  · refine .inl ?_
    simp only [recover, ← hsame]
    exact ⟨by rw [hspan], hmoves⟩
  · exact .inr (exists_closesAt_of_recover hend ho hfront)

end places

/-! ## Runs -/

/-- A source whose dots and errors do not end in front of a token is parsed alike if the token
    starts no line. -/
theorem run_unbroken {row : List (Lexeme Token)} {nodes : List RawNode} {errors : List SyntaxError}
    (ho : Mark.Ordered (Mark.ofLexemes row)) (h : grammar.Run s nodes errors)
    (hrow : s.upcoming <:+ row) (hs : (unbroken start).Places s s')
    (hend : s.endOffset = s'.endOffset) (hclosed : ∀ n ∈ nodes, ¬ ClosesAt row start n) :
    grammar.Run s' nodes errors := by
  -- Each round is the same in both runs, as none of its nodes ends in front of the token.
  induction h generalizing s' with
  | done hdone =>
    refine .done ?_
    rcases unbroken_cases hs with ⟨-, hu'⟩ | ⟨l, l', rest, rest', hu, -, -⟩
    · rw [TokenStream.atEnd, hu']
      rfl
    · rw [TokenStream.atEnd, hu] at hdone
      cases hdone
  | @statement s t found _ _ hmore hstatement _ ih =>
    have hfound : ∀ n ∈ found, ¬ ClosesAt s.upcoming start n := fun n hn hcloses =>
      hclosed n (List.mem_append_left _ hn) (hcloses.of_suffix hrow)
    have hread : statement s = .ok (found, t) := hstatement
    have hparallel := statement_unbroken hs hmore fun {nodes t} hok => by
      rw [hread, Except.ok.injEq, Prod.mk.injEq] at hok
      exact hok.1 ▸ hfound
    obtain ⟨found', t', hstatement', hsame, hm⟩ := hparallel.of_ok hread
    obtain rfl : found = found' := List.forall₂_eq_eq_eq ▸ hsame
    exact .statement hm.atEnd_right hstatement' (ih (hm.left_suffix.trans hrow) hm.places
      (hm.endOffset_eq hend) fun n hn => hclosed n (List.mem_append_right _ hn))
  | @broken s t e found _ _ hmore hstatement hrecover _ ih =>
    have hread : statement s = .error e := hstatement
    have hparallel := statement_unbroken hs hmore fun {nodes t} hok => by
      rw [hread] at hok
      cases hok
    obtain ⟨e', u, u', hstatement', hm, he, he', hexpected⟩ := hparallel.of_error hread
    obtain rfl : e = e' := errors_eq_of_unbroken hm.places (hm.endOffset_eq hend) he he' hexpected
    have ho' : Mark.Ordered (Mark.ofLexemes s.upcoming) := ho.sublist (hrow.sublist.map _)
    have hskip : recover s = (found, t) := hrecover
    rcases recover_unbroken hs hmore ho' with ⟨hsame, hm⟩ | ⟨n, hn, hcloses⟩
    · rw [hskip] at hsame hm
      have hrun := ih (hm.left_suffix.trans hrow) hm.places (hm.endOffset_eq hend)
        fun n hn => hclosed n (List.mem_append_right _ hn)
      rw [show found = (recover s').1 from hsame]
      exact .broken hm.atEnd_right hstatement' rfl hrun
    · rw [hskip] at hn
      exact absurd (hcloses.of_suffix hrow) (hclosed n (List.mem_append_left _ hn))

/-- Only one token stands right in front of a place. -/
theorem ClosesAt.stop_eq {row front back : List (Lexeme Token)} {l m : Lexeme Token} {n : RawNode}
    (h : ClosesAt row m.span.start n) (ho : Mark.Ordered (Mark.ofLexemes row))
    (hrow : row = front ++ l :: m :: back) : n.span.stop = l.span.stop := by
  obtain ⟨front', l', m', back', hrow', hstart, hstop⟩ := h.exists_last
  have hm : row[front.length + 1]? = some m := by simp [hrow]
  have hm' : row[front'.length + 1]? = some m' := by simp [hrow']
  have hle := (ho.start_le_iff hm hm').1 (Nat.le_of_eq hstart.symm)
  have hge := (ho.start_le_iff hm' hm).1 (Nat.le_of_eq hstart)
  obtain ⟨-, hbehind⟩ := List.append_inj (hrow.symm.trans hrow') (by omega)
  rw [hstop, (List.cons.inj hbehind).1]

/-! ## Sources -/

/-- A source is parsed like another one of the same length with the same statements and comments. -/
theorem parse_eq {s t : String}
    (hstatements : grammar.statements (grammar.start s) = grammar.statements (grammar.start t))
    (hcomments : (lexicon.lex s).comments = (lexicon.lex t).comments)
    (hlength : Text.byteLength s.toList = Text.byteLength t.toList) :
    grammar.parse s = grammar.parse t := by
  have hparse : ∀ source, grammar.parse source = .ofRoot
      (grammar.addComments (.branchAt grammar.root ⟨0, Text.byteLength source.toList⟩
        (grammar.statements (grammar.start source)).1) (lexicon.lex source).comments)
      (grammar.statements (grammar.start source)).2 := fun _ => rfl
  rw [hparse, hparse, hstatements, hcomments, hlength]

theorem isSeparator_backslash : lexicon.IsSeparator '\\' :=
  ⟨by decide, by decide, by decide, by decide⟩

theorem isSeparator_space : lexicon.IsSeparator ' ' :=
  ⟨by decide, by decide, by decide, by decide⟩

/-- A source has the same statements if one of its tokens starts no line, and no dot or error ends
    in front of that token. -/
theorem statements_unbroken {source source' : String} {front back : List (Lexeme Token)}
    {l m : Lexeme Token} (hrow : (lexicon.lex source).lexemes = front ++ l :: m :: back)
    (hrow' : (lexicon.lex source').lexemes =
      front ++ l :: { m with startsLine := false } :: back) (hstarts : m.startsLine = true)
    (hlength : Text.byteLength source.toList = Text.byteLength source'.toList)
    (hline : ∀ n ∈ (grammar.parse source).root.children,
      n.kind = .error ∨ n.kind = Kind.dot.id → n.span.stop ≠ l.span.stop) :
    grammar.statements (grammar.start source') = grammar.statements (grammar.start source) := by
  have ho := lexicon.ordered_lexemes source
  have hsame : ∀ ls : List (Lexeme Token), List.Forall₂ (unbroken m.span.start).like ls ls :=
    fun ls => List.forall₂_same.2 fun _ _ => .inl rfl
  have hplaces : (unbroken m.span.start).Places (grammar.start source) (grammar.start source') := by
    show (unbroken m.span.start).Alike (lexicon.lex source).lexemes (lexicon.lex source').lexemes
    rw [hrow, hrow']
    exact .of_forall₂ (List.rel_append (hsame front)
      (.cons (.inl rfl) (.cons (.inr ⟨rfl, hstarts, rfl⟩) (hsame back))))
  -- Comments that are put in change neither the kind nor the span of a child.
  have hclosed : ∀ n ∈ (grammar.statements (grammar.start source)).1,
      ¬ ClosesAt (lexicon.lex source).lexemes m.span.start n := by
    intro n hn hcloses
    obtain ⟨child, hchild, hkind, hspan⟩ := grammar.exists_mem_children_addComments
      (.branchAt grammar.root ⟨0, Text.byteLength source.toList⟩ _) hn
      (lexicon.lex source).comments
    refine hline child hchild (hkind ▸ hcloses.kind) ?_
    rw [hspan, hcloses.stop_eq ho hrow]
  have hrun := run_unbroken ho (Grammar.run_statements grammar_isProgressive (grammar.start source))
    List.suffix_rfl hplaces hlength hclosed
  obtain ⟨hnodes, herrors⟩ :=
    (Grammar.run_statements grammar_isProgressive (grammar.start source')).unique hrun
  exact Prod.ext hnodes herrors

/-- A backslash and the line break behind it can be replaced by spaces, unless two stars stand in
    front of it. Where no other line break stands between the tokens around it, it must not be the
    line break that a dot or an error ends with. -/
theorem parse_spaced {source : String} (j : Join lexicon source)
    (hstars : ¬ ['*', '*'] <:+ Segment.textOf j.front)
    (hline : j.IsOnlyBreak → ∀ n ∈ (grammar.parse source).root.children,
      n.kind = .error ∨ n.kind = Kind.dot.id → n.span.stop ≠ j.place) :
    grammar.parse j.spaced = grammar.parse source := by
  obtain ⟨hcomments, hlexemes⟩ := j.lex_spaced isSeparator_backslash isSeparator_space hstars
  refine parse_eq ?_ hcomments j.byteLength_spaced
  rcases hlexemes with hsame | ⟨honly, front, l, m, back, hrow, hplace, hstarts, hrow'⟩
  · show grammar.statements (.ofLexemes (lexicon.lex j.spaced).lexemes _) =
      grammar.statements (.ofLexemes (lexicon.lex source).lexemes _)
    rw [hsame, j.byteLength_spaced]
  · exact statements_unbroken hrow hrow' hstarts j.byteLength_spaced.symm
      fun n hn hkind => hplace ▸ hline honly n hn hkind

/-- A backslash behind the dot of a declaration, with another line break behind its own. -/
def joinedDot : Join lexicon "type T.\\\n\n1" where
  front := [⟨.token .typeKeyword, ['t', 'y', 'p', 'e']⟩, ⟨.blank, [' ']⟩,
    ⟨.token .typeName, ['T']⟩, ⟨.token .dot, ['.']⟩]
  ending := ['\n']
  back := [⟨.blank, ['\n']⟩, ⟨.token .number, ['1']⟩]
  segments_eq := by cbv

/-- A backslash in a declaration that is broken and skipped. -/
def joinedBroken : Join lexicon "type \\\n) x.\n1" where
  front := [⟨.token .typeKeyword, ['t', 'y', 'p', 'e']⟩, ⟨.blank, [' ']⟩]
  ending := ['\n']
  back := [⟨.token .closeParen, [')']⟩, ⟨.blank, [' ']⟩, ⟨.token .fieldName, ['x']⟩,
    ⟨.token .dot, ['.']⟩, ⟨.blank, ['\n']⟩, ⟨.token .number, ['1']⟩]
  segments_eq := by cbv

/-- The line break behind a dot may go if another one ends the line. In a broken declaration there
    is an error around the line break, but it does not end there. -/
theorem parse_spaced_joined :
    (¬ ['*', '*'] <:+ Segment.textOf joinedDot.front ∧
      (joinedDot.IsOnlyBreak → ∀ n ∈ (grammar.parse "type T.\\\n\n1").root.children,
        n.kind = .error ∨ n.kind = Kind.dot.id → n.span.stop ≠ joinedDot.place) ∧
      joinedDot.spaced = "type T.  \n1" ∧
      grammar.parse "type T.  \n1" = grammar.parse "type T.\\\n\n1") ∧
    ¬ ['*', '*'] <:+ Segment.textOf joinedBroken.front ∧
      (joinedBroken.IsOnlyBreak → ∀ n ∈ (grammar.parse "type \\\n) x.\n1").root.children,
        n.kind = .error ∨ n.kind = Kind.dot.id → n.span.stop ≠ joinedBroken.place) ∧
      joinedBroken.spaced = "type   ) x.\n1" ∧
      grammar.parse "type   ) x.\n1" = grammar.parse "type \\\n) x.\n1" := by
  have hdot : ¬ ['*', '*'] <:+ Segment.textOf joinedDot.front := by decide
  have honly : ¬ joinedDot.IsOnlyBreak := fun h =>
    h.back ⟨.blank, ['\n']⟩ (by decide) rfl (by decide)
  have hbroken : ¬ ['*', '*'] <:+ Segment.textOf joinedBroken.front := by decide
  have hstops : (grammar.parse "type \\\n) x.\n1").root.children.map (·.span.stop) = [11, 13] := by
    cbv
  have hline : ∀ n ∈ (grammar.parse "type \\\n) x.\n1").root.children,
      n.span.stop ≠ joinedBroken.place := by
    intro n hn
    have hmem := List.mem_map_of_mem (f := fun n : RawNode => n.span.stop) hn
    rw [hstops] at hmem
    rintro hstop
    rw [hstop] at hmem
    exact absurd hmem (by decide)
  exact ⟨⟨hdot, fun h => absurd h honly, rfl, parse_spaced joinedDot hdot fun h => absurd h honly⟩,
    hbroken, fun _ n hn _ => hline n hn, rfl,
    parse_spaced joinedBroken hbroken fun _ n hn _ => hline n hn⟩

/-- A backslash behind two stars. -/
def joinedStars : Join lexicon "**\\\n1" where
  front := [⟨.token .star, ['*']⟩, ⟨.token .star, ['*']⟩]
  ending := ['\n']
  back := [⟨.token .number, ['1']⟩]
  segments_eq := by cbv

/-- Behind two stars, spaces in place of a line break begin a comment. -/
theorem spaced_behind_stars : ¬ ∀ (source : String) (j : Join lexicon source),
    grammar.parse j.spaced = grammar.parse source := by
  intro h
  have hspaced : (grammar.parse joinedStars.spaced).errors.length = 0 := by cbv
  have hsource : (grammar.parse "**\\\n1").errors.length = 1 := by cbv
  rw [h _ joinedStars, hsource] at hspaced
  cases hspaced

end GrammarTools.Simpl
