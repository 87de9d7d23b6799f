import GrammarTools.Proofs.Peopl.Recovery
import GrammarTools.Proofs.Room

/-!
# Room for nested rules in PeoPl

An operand needs a level, and a level more for each sign in front of it
(`needs_signs`). In parentheses it needs two levels more, one for the expression
inside and one for the operand that the parentheses are (`needs_parens`). A type
needs a level, and one more for each pair of angle brackets that it stands in
(`needs_typeArguments`).
-/

namespace GrammarTools.Peopl

open TokenStream

variable {s s₁ s' : TokenStream Token} {k : Nat}

/-! ## Operands -/

theorem withSuffixes_readsIf {below : Below} {operand : RawNode} (h : suffix? s = none) :
    ReadsIf True (withSuffixes below operand) s s :=
  .iterate_none h

/-- A number without suffixes is an operand, which takes one level. -/
theorem needs_number (hp : s.peek = some .number) (hs : suffix? s.advance = none) :
    Needs (fun n => (level n).unary) 1 s s.advance :=
  .one rfl fun _ => .signed_none (by rw [hp]; rfl)
    (.bind (.peek hp .numeral) fun _ => withSuffixes_readsIf hs)

/-- A simple expression of one operand takes the room of the operand. -/
theorem simpleExpression_readsIf (h : Needs (fun n => (level n).unary) k s s') (hs' : Closes s')
    (n : Nat) : ReadsIf (k ≤ n) (simpleExpression (level n)) s s' :=
  .expression (h n) hs'.operator

/-! ## Parentheses -/

/-- What follows goes on with no expression. -/
structure ExpressionEnds (s : TokenStream Token) : Prop extends Closes s where
  pipe : pipeKind? s = none

/-- A token that goes on with no expression. -/
def endsExpression (t : Token) : Bool :=
  (operatorForm? t).isNone && t ∉ [.openParen, .dot, .question, .semicolon]

theorem ExpressionEnds.of_peek {t : Token} (hp : s.peek = some t) (ht : endsExpression t = true) :
    ExpressionEnds s := by
  simp only [endsExpression, Bool.and_eq_true, Option.isNone_iff_eq_none, decide_eq_true_eq,
    List.mem_cons, List.not_mem_nil, not_or] at ht
  obtain ⟨hform, hparen, hdot, hquestion, hsemicolon, -⟩ := ht
  refine ⟨.of_peek hp ⟨hform, hparen, hdot⟩, ?_⟩
  unfold pipeKind?
  split <;> simp_all

/-- An expression of one operand takes one level more than the operand. -/
theorem needs_expression (hp : s.peek ≠ some .pipe) (h : Needs (fun n => (level n).unary) k s s')
    (hs' : ExpressionEnds s') : Needs (fun n => (level n).expression) (k + 1) s s' := by
  have hpipe : s.isAt .pipe = false := by simpa [isAt] using hp
  refine .succ rfl fun n => .bind ?_ fun _ => .iterate_none hs'.pipe
  exact .ask hpipe (simpleExpression_readsIf h hs'.toCloses n)

/-- Parentheses take one level more than the expression inside. -/
theorem needs_parenthisized (hp : s.peek = some .openParen)
    (h : Needs (fun n => (level n).expression) k s.advance s₁) (hs₁ : s₁.peek = some .closeParen)
    (hs : suffix? s₁.advance = none) : Needs (fun n => (level n).unary) (k + 1) s s₁.advance := by
  have hparens : ∀ n, ReadsIf (k ≤ n) (parenthisizedExpression (level n)) s s₁.advance := by
    intro n
    refine .behind .leaf fun _ => ?_
    refine .bind (h n) fun _ => ?_
    exact .bind (.expect hs₁) fun _ => .pure
  exact .succ rfl fun n => .signed_none (by rw [hp]; rfl)
    (.bind (.peek hp (hparens n)) fun _ => withSuffixes_readsIf hs)

/-- A number in parentheses needs a level, and two more for each pair. -/
theorem needs_parens (n : Nat) {t : Token} {more : List Token} (ht : endsExpression t = true)
    (h : s.toCome = List.replicate n Token.openParen ++
      Token.number :: (List.replicate n Token.closeParen ++ t :: more)) :
    ∃ s', s'.toCome = t :: more ∧ Needs (fun n => (level n).unary) (2 * n + 1) s s' := by
  induction n generalizing s t more with
  | zero =>
    have hends := ExpressionEnds.of_peek (peek_of_toCome (toCome_advance h)) ht
    exact ⟨s.advance, toCome_advance h, needs_number (peek_of_toCome h) hends.suffix⟩
  | succ n ih =>
    -- The last one of the closing parentheses belongs to the first one of the others.
    rw [List.replicate_succ, List.replicate_succ', List.append_assoc, List.cons_append] at h
    obtain ⟨s₁, hs₁, hneeds⟩ := ih (t := .closeParen) rfl (toCome_advance h)
    have hclose := peek_of_toCome hs₁
    have hstart : s.advance.peek ≠ some .pipe := by
      rw [peek_eq_head?, toCome_advance h]
      cases n <;> simp [List.replicate_succ]
    have hends := ExpressionEnds.of_peek (peek_of_toCome (toCome_advance hs₁)) ht
    have hinside := needs_expression hstart hneeds (.of_peek hclose rfl)
    exact ⟨s₁.advance, toCome_advance hs₁,
      needs_parenthisized (peek_of_toCome h) hinside hclose hends.suffix⟩

/-- A number with signs needs a level, and one more for each sign. -/
theorem needs_signs (n : Nat) {t : Token} {more : List Token} (ht : endsExpression t = true)
    (h : s.toCome = List.replicate n Token.minus ++ Token.number :: t :: more) :
    ∃ s', s'.toCome = t :: more ∧ Needs (fun n => (level n).unary) (1 + n) s s' := by
  refine Needs.signs [Token.number] (fun _ => rfl) rfl (fun {s} h => ?_) n h
  have hends := ExpressionEnds.of_peek (peek_of_toCome (toCome_advance h)) ht
  exact ⟨s.advance, toCome_advance h, needs_number (peek_of_toCome h) hends.suffix⟩

/-! ## Types -/

/-- A type name without arguments. -/
theorem nominalType_readsIf (below : Below) (hp : s.peek = some .typeName)
    (hs : TypeEnds s.advance) : ReadsIf True (nominalType below) s s.advance := by
  have hless : s.advance.isAt .less = false := by simpa [isAt] using hs.less
  have hcolons : s.advance.isAt .colonColon = false := by simpa [isAt] using hs.colons
  refine .bind (.bind (.expect hp) fun _ => .ask hless .pure) fun _ => ?_
  exact .bind (.repeatWhile_none hcolons) fun _ => .pure

/-- A type name without arguments takes one level. -/
theorem needs_typeName (hp : s.peek = some .typeName) (hs : TypeEnds s.advance) :
    Needs (fun n => (level n).typeIdentifier) 1 s s.advance :=
  .one rfl fun _ => .peek hp (.bind (nominalType_readsIf _ hp hs) fun _ => .pure)

/-- A type between the angle brackets of another one. -/
theorem needs_argument (hp : s.peek = some .typeName) (hless : s.advance.peek = some .less)
    (h : Needs (fun n => (level n).typeIdentifier) k s.advance.advance s₁)
    (hs₁ : s₁.peek = some .greater) (hs : TypeEnds s₁.advance) :
    Needs (fun n => (level n).typeIdentifier) (k + 1) s s₁.advance := by
  have hcomma : s₁.isAt .comma = false := by simp [isAt, hs₁]
  have hcolons : s₁.advance.isAt .colonColon = false := by simpa [isAt] using hs.colons
  have htypes : ∀ n, ReadsIf (k ≤ n) (typeIdentifiers (level n)) s.advance.advance s₁ := fun n =>
    .bind (h n) fun _ => .bind (.repeatWhile_none hcomma) fun _ => .pure
  have harguments : ∀ n, ReadsIf (k ≤ n) (typeArguments (level n)) s.advance s₁.advance := by
    intro n
    refine .behind .leaf fun _ => ?_
    refine .bind (htypes n) fun _ => ?_
    exact .bind (.expect hs₁) fun _ => .pure
  have hflat : ∀ n, ReadsIf (k ≤ n) (flatNominalType (level n)) s s₁.advance := by
    intro n
    refine .behind (.expect hp) fun _ => ?_
    exact .ask (isAt_of_peek hless) (.bind (harguments n) fun _ => .pure)
  have hnominal : ∀ n, ReadsIf (k ≤ n) (nominalType (level n)) s s₁.advance := fun n =>
    .bind (hflat n) fun _ => .bind (.repeatWhile_none hcolons) fun _ => .pure
  exact .succ rfl fun n => .peek hp (.bind (hnominal n) fun _ => .pure)

/-- A type in angle brackets needs a level, and one more for each pair. -/
theorem needs_typeArguments (n : Nat) {t : Token} {more : List Token}
    (ht : t ≠ .less ∧ t ≠ .colonColon)
    (h : s.toCome = (List.replicate n [Token.typeName, .less]).flatten ++
      Token.typeName :: (List.replicate n Token.greater ++ t :: more)) :
    ∃ s', s'.toCome = t :: more ∧
      Needs (fun n => (level n).typeIdentifier) (n + 1) s s' := by
  induction n generalizing s t more with
  | zero =>
    have hends := TypeEnds.of_peek (peek_of_toCome (toCome_advance h)) ht
    exact ⟨s.advance, toCome_advance h, needs_typeName (peek_of_toCome h) hends⟩
  | succ n ih =>
    rw [List.replicate_succ, List.flatten_cons, List.replicate_succ', List.append_assoc,
      List.append_assoc] at h
    have hless := toCome_advance h
    obtain ⟨s₁, hs₁, hneeds⟩ := ih (t := .greater) (by decide) (toCome_advance hless)
    have hends := TypeEnds.of_peek (peek_of_toCome (toCome_advance hs₁)) ht
    exact ⟨s₁.advance, toCome_advance hs₁, needs_argument (peek_of_toCome h) (peek_of_toCome hless)
      hneeds (peek_of_toCome hs₁) hends⟩

/-! ## Statements -/

/-- A value needs the room that its operand needs. -/
theorem statement_readsIf_constant {rest : List Token}
    (h : s.toCome = .argumentName :: .equals :: rest)
    (hneeds : ∃ s', s'.toCome = [.dotDot] ∧
      Needs (fun n => (level n).unary) k s.advance.advance s') :
    ∃ s', s'.atEnd = true ∧ ReadsIf (k ≤ maxNesting) statement s s' := by
  obtain ⟨s', hs', hneeds⟩ := hneeds
  have hname := peek_of_toCome h
  have hdots := peek_of_toCome hs'
  have hat : atArgumentName s = true := by simp [atArgumentName, hname, isArgumentName]
  refine ⟨s'.advance, atEnd_of_toCome (toCome_advance hs'), .bind (.peek hname ?_) fun _ =>
    .bind (.expect hdots) fun _ => .pure⟩
  have hvalue := simpleExpression_readsIf hneeds (.of_peek hdots (by decide)) maxNesting
  refine .behind (.ask hat .leaf) fun _ => ?_
  refine .behind (.expect (peek_of_toCome (toCome_advance h))) fun _ => ?_
  exact .bind hvalue fun _ => .pure

/-- A type with one parameter needs the room that the type of the parameter needs. -/
theorem statement_readsIf_param {rest : List Token}
    (h : s.toCome = .typeKeyword :: .typeName :: .argumentName :: .colon :: rest)
    (hneeds : ∃ s', s'.toCome = [.dotDot] ∧ Needs (fun n => (level n).typeIdentifier) k
      s.advance.advance.advance.advance s') :
    ∃ s', s'.atEnd = true ∧ ReadsIf (k ≤ maxNesting) statement s s' := by
  obtain ⟨s', hs', hneeds⟩ := hneeds
  have hname := toCome_advance h
  have hparam := toCome_advance hname
  have hcolon := toCome_advance hparam
  have hdots := peek_of_toCome hs'
  have hat : atArgumentName s.advance.advance = true := by
    simp [atArgumentName, peek_of_toCome hparam, isArgumentName]
  have hnamed : atNamedParam s.advance.advance = true := by
    simp [atNamedParam, hat, peekNth_eq, hparam]
  have hunnamed : atNamedParam s' = false := atNamedParam_eq_false hdots rfl
  have hno : ∀ t, t ≠ Token.dotDot → s'.isAt t = false := fun t ht => by
    simpa [isAt, hdots] using ht.symm
  -- Behind the type come the dots, so there is neither a value, a comma nor another parameter.
  have hvalue : ReadsIf True defaultValue s' s' := .ask (hno _ (by decide)) .pure
  have hcomma : ReadsIf True optionalComma s' s' := .ask (hno _ (by decide)) .pure
  have hdefinition : ReadsIf (k ≤ maxNesting) paramDefinition s.advance.advance s' := by
    refine .behind (.ask hat .leaf) fun _ => ?_
    refine .behind (.expect (peek_of_toCome hcolon)) fun _ => ?_
    refine .bind (hneeds maxNesting) fun _ => ?_
    refine .bind hvalue fun _ => ?_
    exact .bind hcomma fun _ => .pure
  have hparams : ReadsIf (k ≤ maxNesting) paramList s.advance.advance s' := by
    refine .ask hnamed (.bind (.repeatWhile_once (peek_of_toCome hparam) hnamed ?_ hunnamed)
      fun _ => .pure)
    exact .bind hdefinition fun _ => .pure
  have hnotName : s.advance.advance.isAt .typeName = false := by
    simp [isAt, peek_of_toCome hparam]
  refine ⟨s'.advance, atEnd_of_toCome (toCome_advance hs'), .bind (.peek (peek_of_toCome h) ?_)
    fun _ => .bind (.expect hdots) fun _ => .pure⟩
  have htypeName := nominalType_readsIf top (peek_of_toCome hname)
    (.of_peek (peek_of_toCome hparam) (by decide))
  refine .behind .leaf fun _ => ?_
  refine .behind htypeName fun _ => ?_
  exact .ask hnotName (.bind (.bind hparams fun _ => .pure) fun _ => .pure)

/-! ## Sources -/

/-- The name `x` and an equals sign, in front of a value. -/
def valueFront : List (Segment Token) :=
  [.word .argumentName ['x'], .space, .word .equals ['='], .space]

theorem valueFront_areTaken {after : List Char} (h : ∀ c ∈ after.head?, isGap c = false) :
    Segment.AreTaken lexicon after valueFront :=
  ⟨⟨'x', [], rfl, rfl⟩, ⟨' ', [], rfl, rfl⟩, ⟨'=', [], rfl, rfl⟩, Segment.isTaken_space h, trivial⟩

theorem dotDot_isTaken (after : List Char) :
    (Segment.word .dotDot ['.', '.']).IsTaken lexicon after := ⟨'.', ['.'], rfl, rfl⟩

/-- A broken statement with no two dots but those at the end is skipped as a whole. -/
theorem recovers_of_toCome {t : Token} {front : List Token}
    (h : s.toCome = t :: front ++ [.dotDot]) (hfront : Token.dotDot ∉ front) :
    ∃ span more s', s'.atEnd = true ∧ (∀ n ∈ more, n.kind = (Kind.dotDot : KindId)) ∧
      recover s = (.error span [] :: more, s') := by
  obtain ⟨l, rest, hu, rfl, -⟩ := exists_upcoming (peek_of_toCome h)
  obtain ⟨ls, last, hrest, hls, hlast⟩ : ∃ ls last, rest = ls ++ [last] ∧
      ls.map Lexeme.token = front ∧ last.token = Token.dotDot := by
    rw [toCome, hu, List.map_cons, List.cons_append, List.cons_eq_cons] at h
    obtain ⟨ls, lasts, rfl, hls, hlasts⟩ := List.map_eq_append_iff.1 h.2
    obtain ⟨last, rfl, hlast⟩ := List.map_eq_singleton_iff.1 hlasts
    exact ⟨ls, last, rfl, hls, hlast⟩
  have hskip : ∀ m ∈ ls, decide (m.token ≠ Token.dotDot) = true := fun m hm =>
    decide_eq_true fun heq => hfront (hls ▸ heq ▸ List.mem_map_of_mem hm)
  have hdrop : rest.dropWhile (·.token ≠ .dotDot) = [last] := by
    rw [hrest, List.dropWhile_append_of_pos hskip]
    simp [hlast]
  have hrecover := recover_eq hu
  rw [hdrop] at hrecover
  exact ⟨_, _, _, rfl, fun n hn => by rw [List.mem_singleton.1 hn]; rfl, hrecover⟩

/-- A source of one statement that is written as segments. -/
theorem isLimited_of_segments {source : String} {segments : List (Segment Token)} {room : Prop}
    (t : Token) (front : List Token) (hsource : source.toList = Segment.textOf segments)
    (htaken : Segment.AreTaken lexicon [] segments) (hinline : segments.all Segment.isInline = true)
    (htokens : Segment.tokensOf segments = t :: front ++ [.dotDot])
    (hfront : Token.dotDot ∉ front) (hreads : ∀ s : TokenStream Token,
      s.toCome = t :: front ++ [.dotDot] → ∃ s', s'.atEnd = true ∧ ReadsIf room statement s s') :
    grammar.IsLimited Kind.dotDot source room := by
  have hlex : lexicon.lex source = _ := Lexicon.lex_textOf hsource htaken fun s hs =>
    Segment.role_of_isInline (List.all_eq_true.1 hinline s hs)
  have hstart : (TokenStream.ofLexemes (lexicon.lex source).lexemes
      (Text.byteLength source.toList)).toCome = t :: front ++ [.dotDot] := by
    rw [← htokens, hlex]
    exact Segment.map_token_lexemesFrom _ _ _
  refine ⟨congrArg Lexed.comments hlex, hreads _ hstart, recovers_of_toCome hstart hfront, ?_⟩
  intro hnil
  rw [TokenStream.toCome, TokenStream.ofLexemes, show (lexicon.lex source).lexemes = [] from hnil]
    at hstart
  cases hstart

end GrammarTools.Peopl
