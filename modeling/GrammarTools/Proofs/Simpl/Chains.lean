import GrammarTools.Proofs.Chains
import GrammarTools.Proofs.Simpl.Acceptance

/-!
# Chains in Simpl

Sums of numbers and names are read by `pipeChain` (`pipeChain_sum`), and so are steps
with semicolons between (`pipeChain_steps`). Both make a left fold, at a level that does
not depend on how long the chain is.
-/

namespace GrammarTools.Simpl

open Rule Segment TokenStream

/-- A number, or a field name that is no keyword. -/
abbrev Plain := Spelling lexicon [.number, .fieldName]

/-- The kind of the leaf for such a text. -/
def plainKind (a : Plain) : KindId :=
  if a.token = .number then
    if a.text.toList.contains '.' then Kind.floatLiteral else Kind.intLiteral
  else Kind.fieldIdentifier

/-- The leaf for such a text, from an offset on. -/
def plainLeaf (a : Plain) (offset : Nat) : RawNode := .leaf (plainKind a) (a.span offset)

/-! ## Links -/

/-- An operand behind a plus sign. -/
def sumLink : Link lexicon [.number, .fieldName] :=
  operators.link ⟨.additive, Kind.plus, some Kind.additiveOperator⟩ .plus "+" plainKind

/-- A step behind a semicolon. -/
def pipeLink : Link lexicon [.number, .fieldName] where
  token := .semicolon
  mark := ";"
  isSpaced := true
  kind := Kind.semicolon
  operandKind := plainKind
  join left semicolon right := .branch Kind.pipeExpression
    [left.withField Field.left, semicolon, right.withField Field.right]
  stop_join _ _ _ h := Nat.max_eq_right h

/-! ## Operands -/

variable {s s' : TokenStream Token} {rest : List (Lexeme Token)} {more : List (Segment Token)}
  {offset : Nat} {startsLine : Bool}

theorem token_cases (a : Plain) : a.token = .number ∨ a.token = .fieldName := by
  simpa using a.token_mem

/-- A plain operand is read as its leaf. -/
theorem primary_plain (below : Below) (a : Plain)
    (hs : s.upcoming = a.lexeme offset startsLine :: rest) :
    primary below s = .ok (plainLeaf a offset, s.advance) := by
  have hp : s.peek = some a.token := peek_of_upcoming hs
  rw [primary, peek_bind, hp, plainLeaf, plainKind]
  rcases token_cases a with htoken | htoken <;> rw [htoken]
  · exact numeral_of_upcoming hs _ _
  · exact leaf_of_upcoming hs _

theorem unary_plain (n : Nat) (a : Plain) (hs : s.upcoming = a.lexeme offset startsLine :: rest) :
    (level (n + 1)).unary s = .ok (plainLeaf a offset, s.advance) := by
  have hp : s.peek = some a.token := peek_of_upcoming hs
  have hsign : s.peek.bind signForm? = none := by
    rcases token_cases a with htoken | htoken <;> rw [hp, htoken] <;> rfl
  show signs.signed (primary (level n)) (level n).unary s = _
  rw [Signs.signed_of_none hsign]
  exact primary_plain (level n) a hs

theorem isAhead_of_unary (n : Nat) {s s' : TokenStream Token} {node : RawNode}
    (h : (level n).unary s = .ok (node, s')) : s'.IsAhead s :=
  ((level_reads n).unary h).between.isAhead productions_isSolid rfl

/-- A step that begins with a number, or with a field name that is not called. -/
theorem pipeOperand_plain (below : Below) (a : Plain)
    (hs : s.upcoming = a.lexeme offset startsLine :: rest)
    (hnext : s.advance.peek ≠ some .fieldName) :
    pipeOperand below s = simpleExpression below s := by
  have hp : s.peek = some a.token := peek_of_upcoming hs
  -- Only a field name with another one behind it begins a call.
  have hsecond : (s.peekNth 1 == some .fieldName) = false := by
    rw [← peekNth_advance hp]
    simpa [TokenStream.peek] using hnext
  have hcall : atCall s = false := by
    rcases token_cases a with htoken | htoken <;>
      simp [atCall, atType, isAt, hp, htoken, hsecond]
  have hpipe : s.isAt .pipe = false := by
    rcases token_cases a with htoken | htoken <;> simp [isAt, hp, htoken]
  have hparen : s.isAt .openParen = false := by
    rcases token_cases a with htoken | htoken <;> simp [isAt, hp, htoken]
  rw [pipeOperand, ask_bind, hpipe]
  show branchBody below s = _
  rw [branchBody, ask_bind, hcall]
  show (ask (·.isAt .openParen) >>= _) s = _
  rw [ask_bind, hparen]
  rfl

/-- What links operands is no field, so no further argument follows. -/
theorem ne_fieldName_of_follows {link : Link lexicon [.number, .fieldName]}
    (hlink : link.token ≠ .fieldName) (h : link.Follows [] s) : s.peek ≠ some .fieldName :=
  fun hp => hlink (List.mem_singleton.1 (h _ hp)).symm

/-! ## Sums -/

/-- Every operand of a sum is read up to the next operator. -/
theorem sum_readsOperand (n : Nat) : sumLink.ReadsOperand [] (level (n + 1)).unary :=
  fun a _ _ _ _ hs _ => unary_plain n a hs

/-- A sum, up to the end of the source. -/
theorem pipeChain_sum (n : Nat) (first : Plain) (items : List Plain) (hmore : tokensOf more = [])
    (hs : s.upcoming =
      lexemesFrom offset startsLine (first.segment :: (sumLink.segments items ++ more))) :
    ∃ s', s'.atEnd = true ∧ pipeChain (level (n + 1)) s =
      .ok (items.foldl sumLink.step (plainLeaf first offset), s') := by
  rw [Spelling.lexemesFrom_segment] at hs
  have hends : ∀ t ∈ (tokensOf more).head?, t ∈ ([] : List Token) := by simp [hmore]
  have hrest := upcoming_advance hs
  have hfollows := sumLink.follows_of_upcoming hends hrest
  obtain ⟨s', hs', hextend⟩ := Operators.extend_eq_ok rfl (isAhead_of_unary (n + 1))
    (sum_readsOperand n) hends (by decide) (plainLeaf first offset) hrest
  have hpeek : s'.peek = none := by rw [peek_of_segments hs', hmore]; rfl
  have hoperand : pipeOperand (level (n + 1)) s =
      .ok (items.foldl sumLink.step (plainLeaf first offset), s') := by
    rw [pipeOperand_plain _ first hs (ne_fieldName_of_follows (by decide) hfollows)]
    exact (bind_of_ok (unary_plain n first hs)).trans hextend
  refine ⟨s', peek_eq_none.1 hpeek, (bind_of_ok hoperand).trans (iterate_of_rounds .refl ?_)⟩
  simp [isAt, hpeek]

/-! ## Steps -/

/-- A semicolon and a step are read as one more step of a chain. -/
theorem pipe_isReadBy (below : Below) :
    pipeLink.IsReadBy (fun s => if s.isAt .semicolon then some () else none) (fun _ left => do
      let semicolon ← leaf Kind.semicolon
      let right ← pipeOperand below
      return .branch Kind.pipeExpression
        [left.withField Field.left, semicolon, right.withField Field.right])
      (pipeOperand below) :=
  fun _ hp => ⟨(), if_pos (isAt_of_peek hp), fun _ => rfl⟩

/-- Every step of a chain is read up to the next semicolon. -/
theorem pipe_readsOperand (n : Nat) :
    pipeLink.ReadsOperand [] (pipeOperand (level (n + 1))) := by
  intro a offset startsLine s rest hs hfollows
  have hoperator : operators.upcoming? s.advance = none := by
    rw [Operators.upcoming?]
    cases hp : s.advance.peek with
    | none => rfl
    | some t => rw [List.mem_singleton.1 (hfollows t hp)]; rfl
  rw [pipeOperand_plain _ a hs (ne_fieldName_of_follows (by decide) hfollows)]
  exact (bind_of_ok (unary_plain n a hs)).trans (Operators.extend_none _ _ hoperator)

/-- Steps with semicolons between, up to the end of the source. -/
theorem pipeChain_steps (n : Nat) (first : Plain) (items : List Plain)
    (hmore : tokensOf more = [])
    (hs : s.upcoming =
      lexemesFrom offset startsLine (first.segment :: (pipeLink.segments items ++ more))) :
    ∃ s', s'.atEnd = true ∧ pipeChain (level (n + 1)) s =
      .ok (items.foldl pipeLink.step (plainLeaf first offset), s') := by
  rw [Spelling.lexemesFrom_segment] at hs
  have hmore' : ∀ t ∈ (tokensOf more).head?, t ∈ ([] : List Token) := by simp [hmore]
  have hrest := upcoming_advance hs
  have hfollows := pipeLink.follows_of_upcoming hmore' hrest
  have hends : ∀ s : TokenStream Token, (∀ t ∈ s.peek, t ∈ ([] : List Token)) →
      (if s.isAt .semicolon then some () else none) = none := by
    intro s hs
    refine if_neg fun hat => ?_
    exact List.not_mem_nil (hs _ (peek_of_isAt hat))
  obtain ⟨s', hs', hgrow⟩ := Link.growWhile_eq_ok (pipe_isReadBy (level (n + 1)))
    (pipe_readsOperand n) hmore' hends (plainLeaf first offset) hrest
  have hpeek : s'.peek = none := by rw [peek_of_segments hs', hmore]; rfl
  exact ⟨s', peek_eq_none.1 hpeek,
    (bind_of_ok (pipe_readsOperand n first _ _ _ _ hs hfollows)).trans hgrow⟩

/-! ## Statements -/

/-- An expression that begins with a number or a field name. -/
theorem statement_plain {node : RawNode} (first : Plain)
    (hs : s.upcoming = first.lexeme offset startsLine :: rest)
    (h : ∃ s', s'.atEnd = true ∧ pipeChain (level 127) s = .ok (node, s')) :
    ∃ s', s'.atEnd = true ∧ statement s = .ok ([node], s') := by
  obtain ⟨s', hend, hchain⟩ := h
  have hp : s.peek = some first.token := peek_of_upcoming hs
  refine ⟨s', hend, ?_⟩
  rw [statement, peek_bind, hp]
  rcases token_cases first with htoken | htoken <;> rw [htoken] <;> exact bind_of_ok hchain

end GrammarTools.Simpl
