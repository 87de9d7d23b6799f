import GrammarTools.Proofs.Room
import GrammarTools.Simpl.Rules

/-!
# Room for nested rules in Simpl

An operand needs a level, and a level more for each sign in front of it
(`needs_signs`). A simple expression needs a level more than its operand, but an
expression in parentheses that begins a step is no operand: it needs only a level
more than the expression inside (`needs_parens`).
-/

namespace GrammarTools.Simpl

open TokenStream

variable {s s₁ s' : TokenStream Token} {k : Nat}

/-! ## Operands -/

/-- A number is an operand, which takes one level. -/
theorem needs_number (hp : s.peek = some .number) :
    Needs (fun n => (level n).unary) 1 s s.advance :=
  .one rfl fun _ => .signed_none (by rw [hp]; rfl) (.peek hp .numeral)

/-- A number with signs needs a level, and one more for each sign. -/
theorem needs_signs (n : Nat) {rest : List Token}
    (h : s.toCome = List.replicate n Token.minus ++ Token.number :: rest) :
    ∃ s', s'.toCome = rest ∧ Needs (fun n => (level n).unary) (1 + n) s s' := by
  refine Needs.signs [Token.number] (fun _ => rfl) rfl (fun {s} h => ?_) n h
  exact ⟨s.advance, toCome_advance h, needs_number (peek_of_toCome h)⟩

/-! ## Expressions -/

/-- What follows goes on with no expression. -/
structure ExpressionEnds (s : TokenStream Token) : Prop where
  operator : operators.upcoming? s = none
  caret : s.isAt .caret = false
  semicolon : s.isAt .semicolon = false

/-- A token that goes on with no expression. -/
def endsExpression (t : Token) : Bool :=
  (operatorForm? t).isNone && t ∉ [.caret, .semicolon]

theorem ExpressionEnds.of_toCome {rest : List Token} (h : s.toCome = rest)
    (hrest : ∀ t ∈ rest.head?, endsExpression t = true) : ExpressionEnds s := by
  subst h
  rw [← peek_eq_head?] at hrest
  cases hp : s.peek with
  | none => exact ⟨by simp [Operators.upcoming?, hp], by simp [isAt, hp], by simp [isAt, hp]⟩
  | some t =>
    have ht := hrest t hp
    simp only [endsExpression, Bool.and_eq_true, Option.isNone_iff_eq_none, decide_eq_true_eq,
      List.mem_cons, List.not_mem_nil, not_or] at ht
    obtain ⟨hform, hcaret, hsemicolon, -⟩ := ht
    exact ⟨Operators.upcoming?_eq_none hp hform, by simpa [isAt, hp] using hcaret,
      by simpa [isAt, hp] using hsemicolon⟩

/-- Only types and fields can begin a call. -/
theorem atCall_eq_false {t : Token} (hp : s.peek = some t)
    (ht : t ∉ [.typeName, .openBrace, .fieldName]) : atCall s = false := by
  simp only [List.mem_cons, List.not_mem_nil, not_or] at ht
  simp [atCall, atType, isAt, hp, ht.1, ht.2.1, ht.2.2.1]

/-- A simple expression of one operand. -/
theorem needs_simple {t : Token} (hp : s.peek = some t)
    (ht : t ∉ [.typeName, .openBrace, .fieldName, .openParen, .pipe])
    (h : Needs (fun n => (level n).unary) k s s') (hs' : ExpressionEnds s') :
    Needs (fun n => (level n).expression) (k + 1) s s' := by
  simp only [List.mem_cons, List.not_mem_nil, not_or] at ht
  have hcall : atCall s = false := atCall_eq_false hp (by simp [ht])
  have hparen : s.isAt .openParen = false := by simp [isAt, hp, ht]
  have hpipe : s.isAt .pipe = false := by simp [isAt, hp, ht]
  have hsimple : ∀ n, ReadsIf (k ≤ n) (simpleExpression (level n)) s s' := fun n =>
    .expression (h n) hs'.operator
  exact .succ rfl fun n => .bind (.ask hpipe (.ask hcall (.ask hparen (hsimple n)))) fun _ =>
    .iterate_none (by simp [hs'.semicolon])

/-- An expression in parentheses. -/
theorem needs_parenthised (hp : s.peek = some .openParen)
    (h : Needs (fun n => (level n).expression) k s.advance s₁) (hs₁ : s₁.peek = some .closeParen)
    (hs : ExpressionEnds s₁.advance) :
    Needs (fun n => (level n).expression) (k + 1) s s₁.advance := by
  have hcall : atCall s = false := atCall_eq_false hp (by decide)
  have hpipe : s.isAt .pipe = false := by simp [isAt, hp]
  have hparens : ∀ n, ReadsIf (k ≤ n) (parenthisedExpression (level n)) s s₁.advance := by
    intro n
    refine .behind .leaf fun _ => ?_
    refine .bind (h n) fun _ => ?_
    exact .bind (.expect hs₁) fun _ => .pure
  have hafter : ∀ n parens, ReadsIf True (afterParens (level n) parens) s₁.advance s₁.advance :=
    fun _ parens => .ask hs.caret (.extend_none _ parens hs.operator)
  have hoperand : ∀ n, ReadsIf (k ≤ n) (pipeOperand (level n)) s s₁.advance := by
    intro n
    refine .ask hpipe (.ask hcall (.ask (isAt_of_peek hp) ?_))
    exact .bind (hparens n) (hafter n)
  exact .succ rfl fun n => .bind (hoperand n) fun _ => .iterate_none (by simp [hs.semicolon])

/-- A number in parentheses needs two levels, and one more for each pair. -/
theorem needs_parens (n : Nat) {rest : List Token}
    (hrest : ∀ t ∈ rest.head?, endsExpression t = true)
    (h : s.toCome = List.replicate n Token.openParen ++
      Token.number :: (List.replicate n Token.closeParen ++ rest)) :
    ∃ s', s'.toCome = rest ∧ Needs (fun n => (level n).expression) (n + 2) s s' := by
  induction n generalizing s rest with
  | zero =>
    exact ⟨s.advance, toCome_advance h, needs_simple (peek_of_toCome h) (by decide)
      (needs_number (peek_of_toCome h)) (.of_toCome (toCome_advance h) hrest)⟩
  | succ n ih =>
    -- The last one of the closing parentheses belongs to the first one of the others.
    rw [List.replicate_succ, List.replicate_succ', List.append_assoc, List.cons_append] at h
    have hclose : ∀ t ∈ (Token.closeParen :: rest).head?, endsExpression t = true := by
      rintro t ⟨⟩
      decide
    obtain ⟨s₁, hs₁, hneeds⟩ := ih hclose (toCome_advance h)
    exact ⟨s₁.advance, toCome_advance hs₁, needs_parenthised (peek_of_toCome h) hneeds
      (peek_of_toCome hs₁) (.of_toCome (toCome_advance hs₁) hrest)⟩

/-! ## Sources -/

/-- A statement that is no declaration has room where its expression does. -/
theorem statement_readsIf {t : Token} (hp : s.peek = some t)
    (ht : t ∉ [.typeKeyword, .contractKeyword, .funcKeyword])
    (h : Needs (fun n => (level n).expression) k s s') :
    ReadsIf (k ≤ maxNesting) statement s s' := by
  refine .peek hp ?_
  have hread : ReadsIf (k ≤ maxNesting) (do return [← top.expression]) s s' :=
    .bind (h maxNesting) fun _ => .pure
  split
  · simp_all
  · simp_all
  · simp_all
  · exact hread

/-- A skip that is to stop where a line starts goes to the end of the line. -/
theorem skipFrom_line {stop : Token → TokenStream Token → Bool} {l : Lexeme Token}
    {rest : List (Lexeme Token)} (hstop : ∀ t s, stop t s = true → s.atLineStart = true)
    (hs : s.upcoming = l :: rest) (hrest : ∀ m ∈ rest, m.startsLine = false) (span : Span) :
    (skipFrom stop (l :: rest) span s).2.atEnd = true := by
  have ha : s.advance = ⟨l :: s.past, rest, s.endOffset⟩ := by simp [advance, hs]
  induction rest generalizing l s span with
  | nil => simp [skipFrom, ha, atEnd]
  | cons m rest ih =>
    obtain ⟨hm, hrest⟩ := List.forall_mem_cons.1 hrest
    have hgo : stop l.token s.advance = false := by
      refine Bool.eq_false_iff.2 fun h => ?_
      have hline := hstop _ _ h
      rw [ha] at hline
      exact absurd hline (by simp [atLineStart, hm])
    rw [skipFrom_eq_skipFrom hgo]
    exact ih (by rw [ha]) hrest _ (by rw [ha]; rfl)

/-- A broken statement that is no declaration and stands on the last line is skipped as a whole. -/
theorem recovers_of_line {l : Lexeme Token} {rest : List (Lexeme Token)}
    (hs : s.upcoming = l :: rest) (hrest : ∀ m ∈ rest, m.startsLine = false) :
    ∃ span more s', s'.atEnd = true ∧ (∀ n ∈ more, n.kind = (Kind.dot : KindId)) ∧
      recover s = (.error span [] :: more, s') := by
  refine ⟨_, [], _, ?_, nofun, rfl⟩
  rw [hs]
  exact skipFrom_line (fun _ _ h => (Bool.and_eq_true_iff.1 h).1) hs hrest _

/-- A source of one line that is written as segments. -/
theorem isLimited_of_segments {source : String} {segments : List (Segment Token)} {room : Prop}
    (hsource : source.toList = Segment.textOf (segments ++ [⟨.blank, ['\n']⟩]))
    (htaken : Segment.AreTaken lexicon ['\n'] segments)
    (hinline : segments.all Segment.isInline = true)
    (hne : Segment.tokensOf segments ≠ []) (hreads : ∀ s : TokenStream Token,
      s.toCome = Segment.tokensOf segments → ∃ s', s'.atEnd = true ∧ ReadsIf room statement s s') :
    grammar.IsLimited Kind.dot source room := by
  have hend : Segment.AreTaken lexicon [] ([⟨.blank, ['\n']⟩] : List (Segment Token)) :=
    ⟨⟨'\n', [], rfl, rfl⟩, trivial⟩
  have hinline := List.all_eq_true.1 hinline
  have hcomment : ∀ s ∈ segments, s.role ≠ .comment := fun s hs =>
    Segment.role_of_isInline (hinline s hs)
  have hlex : lexicon.lex source = _ := Lexicon.lex_textOf hsource (htaken.append hend)
    (List.forall_mem_append.2 ⟨hcomment, by simp⟩)
  rw [Segment.lexemesFrom_snoc_blank rfl] at hlex
  have hstart : (TokenStream.ofLexemes (lexicon.lex source).lexemes
      (Text.byteLength source.toList)).toCome = Segment.tokensOf segments := by
    rw [hlex]
    exact Segment.map_token_lexemesFrom _ _ _
  have hlexemes : (lexicon.lex source).lexemes ≠ [] := by
    intro hnil
    rw [toCome, ofLexemes, hnil] at hstart
    exact hne hstart.symm
  obtain ⟨l, rest, hcons⟩ := List.exists_cons_of_ne_nil hlexemes
  -- All is in one line, so recovery takes everything.
  have hrest : ∀ m ∈ rest, m.startsLine = false := fun m hm => by
    rw [hlex] at hcons
    have htail : (Segment.lexemesFrom 0 true segments).tail = rest := congrArg List.tail hcons
    exact Segment.startsLine_of_mem_tail (fun s hs => Segment.notMem_of_isInline (hinline s hs))
      (htail ▸ hm)
  exact ⟨congrArg Lexed.comments hlex, hreads _ hstart,
    recovers_of_line (show (ofLexemes _ _).upcoming = l :: rest from hcons) hrest, hlexemes⟩

end GrammarTools.Simpl
