import GrammarTools.Proofs.Chains
import GrammarTools.Proofs.Peopl.Room

/-!
# Chains in PeoPl

Sums of numbers and names are read by `simpleExpression` (`simpleExpression_sum`), and
so are accesses to a call (`simpleExpression_access`); steps are read by `pipeChain`
(`pipeChain_steps`). Each of them makes a left fold, at a level that does not depend on
how long the chain is.
-/

namespace GrammarTools.Peopl

open Rule Segment TokenStream

/-- A number, or an argument name that is no keyword. -/
abbrev Plain := Spelling lexicon [.number, .argumentName, .underscore]

/-- An argument name that is no keyword. -/
abbrev PlainName := Spelling lexicon [.argumentName, .underscore]

/-- The kind of the leaf for such a text. -/
def plainKind (a : Plain) : KindId :=
  if a.token = .number then
    if a.text.toList.contains '.' then Kind.floatLiteral else Kind.intLiteral
  else Kind.argumentName

/-- The leaf for such a text, from an offset on. -/
def plainLeaf (a : Plain) (offset : Nat) : RawNode := .leaf (plainKind a) (a.span offset)

/-! ## Links -/

/-- An operand behind a plus sign. -/
def sumLink : Link lexicon [.number, .argumentName, .underscore] :=
  operators.link ⟨.additive, Kind.plus, some Kind.additiveOperator⟩ .plus "+" plainKind

/-- A name behind a dot. -/
def accessLink : Link lexicon [.argumentName, .underscore] where
  token := .dot
  mark := "."
  isSpaced := false
  kind := Kind.dot
  operandKind _ := Kind.argumentName
  join operand dot name := .branch Kind.accessExpression [operand, dot, name]
  stop_join _ _ _ h := Nat.max_eq_right h

/-- A step behind a semicolon. -/
def pipeLink : Link lexicon [.number, .argumentName, .underscore] where
  token := .semicolon
  mark := ";"
  isSpaced := true
  kind := Kind.semicolon
  operandKind := plainKind
  join left semicolon right := .branch Kind.pipedExpression
    [left.withField Field.left,
      (RawNode.branch Kind.pipeOperator [semicolon]).withField Field.operator,
      right.withField Field.right]
  stop_join _ _ _ h := Nat.max_eq_right h

/-! ## Operands -/

variable {s s' : TokenStream Token} {rest : List (Lexeme Token)} {more : List (Segment Token)}
  {offset : Nat} {startsLine : Bool}

/-- One of the ends, or none at all, closes a simple expression. -/
theorem Closes.of_mem {ends : List Token} (h : ∀ t ∈ s.peek, t ∈ ends)
    (hends : ∀ t ∈ ends, operatorForm? t = none ∧ t ≠ .openParen ∧ t ≠ .dot) : Closes s := by
  cases hp : s.peek with
  | none => exact ⟨by simp [Operators.upcoming?, hp], by simp [suffix?, hp]⟩
  | some t => exact .of_peek hp (hends t (h t hp))

theorem suffix?_of_mem {ends : List Token} (h : ∀ t ∈ s.peek, t ∈ ends)
    (hends : ∀ t ∈ ends, t ≠ .openParen ∧ t ≠ .dot) : suffix? s = none := by
  cases hp : s.peek with
  | none => simp [suffix?, hp]
  | some t => exact suffix?_eq_none hp (hends t (h t hp)).1 (hends t (h t hp)).2

theorem token_cases (a : Plain) :
    a.token = .number ∨ a.token = .argumentName ∨ a.token = .underscore := by
  simpa using a.token_mem

/-- A plain operand is read as its leaf. -/
theorem primary_plain (below : Below) (a : Plain)
    (hs : s.upcoming = a.lexeme offset startsLine :: rest) :
    primary below false s = .ok (plainLeaf a offset, s.advance) := by
  have hp : s.peek = some a.token := peek_of_upcoming hs
  have hname : Rule.leaf Kind.argumentName s = _ := leaf_of_upcoming hs _
  rw [primary, peek_bind, hp, plainLeaf, plainKind]
  rcases token_cases a with htoken | htoken | htoken <;> rw [htoken]
  · exact numeral_of_upcoming hs _ _
  · exact hname
  · exact hname

theorem unary_plain (n : Nat) (a : Plain) (hs : s.upcoming = a.lexeme offset startsLine :: rest)
    (hsuffix : suffix? s.advance = none) :
    (level (n + 1)).unary s = .ok (plainLeaf a offset, s.advance) := by
  have hp : s.peek = some a.token := peek_of_upcoming hs
  have hsign : s.peek.bind signForm? = none := by
    rcases token_cases a with htoken | htoken | htoken <;> rw [hp, htoken] <;> rfl
  show signs.signed (suffixed (level n) false) (level n).unary s = _
  rw [Signs.signed_of_none hsign]
  exact (bind_of_ok (primary_plain (level n) a hs)).trans (iterate_of_rounds .refl hsuffix)

theorem isAhead_of_unary (n : Nat) {s s' : TokenStream Token} {node : RawNode}
    (h : (level n).unary s = .ok (node, s')) : s'.IsAhead s :=
  ((level_reads n).unary h).between.isAhead productions_isSolid rfl

/-! ## Sums -/

/-- Every operand of a sum is read up to the next operator. -/
theorem sum_readsOperand (n : Nat) : sumLink.ReadsOperand [.dotDot] (level (n + 1)).unary :=
  fun a _ _ _ _ hs hfollows => unary_plain n a hs (suffix?_of_mem hfollows (by decide))

/-- A sum, up to two dots. -/
theorem simpleExpression_sum (n : Nat) (first : Plain) (items : List Plain)
    (hmore : ∀ t ∈ (tokensOf more).head?, t ∈ [Token.dotDot])
    (hs : s.upcoming =
      lexemesFrom offset startsLine (first.segment :: (sumLink.segments items ++ more))) :
    ∃ s', s'.upcoming =
        lexemesFrom (items.foldl sumLink.step (plainLeaf first offset)).span.stop false more ∧
      simpleExpression (level (n + 1)) s =
        .ok (items.foldl sumLink.step (plainLeaf first offset), s') := by
  rw [Spelling.lexemesFrom_segment] at hs
  have hrest := upcoming_advance hs
  have hfollows := sumLink.follows_of_upcoming hmore hrest
  obtain ⟨s', hs', hextend⟩ := Operators.extend_eq_ok rfl (isAhead_of_unary (n + 1))
    (sum_readsOperand n) hmore (by decide) (plainLeaf first offset) hrest
  exact ⟨s', hs', (bind_of_ok (sum_readsOperand n first _ _ _ _ hs hfollows)).trans hextend⟩

/-! ## Accesses -/

/-- A dot and a name are read as an access. -/
theorem access_isReadBy (below : Below) :
    accessLink.IsReadBy suffix? (withSuffix below) argumentName := by
  intro s hp
  refine ⟨.access, ?_, fun left => rfl⟩
  rw [suffix?, hp]
  rfl

theorem access_readsOperand (ends : List Token) : accessLink.ReadsOperand ends argumentName := by
  intro a offset startsLine s rest hs _
  have htoken : a.token = .argumentName ∨ a.token = .underscore := by simpa using a.token_mem
  have hat : atArgumentName s = true := by
    rw [atArgumentName, peek_of_upcoming hs]
    rcases htoken with htoken | htoken <;> simp [Spelling.lexeme, htoken, isArgumentName]
  rw [argumentName, ask_bind, hat]
  exact leaf_of_upcoming hs _

/-- A call of the function `f` without arguments, from an offset on. -/
def callNode (offset : Nat) : RawNode :=
  .branch Kind.callExpression
    [(RawNode.leaf Kind.argumentName ⟨offset, offset + 1⟩).withField Field.command,
      .leaf Kind.openParen ⟨offset + 1, offset + 2⟩, .leaf Kind.closeParen ⟨offset + 2, offset + 3⟩]

/-- The text of the call. -/
def callSegments : List (Segment Token) :=
  [.word .argumentName ['f'], .word .openParen ['('], .word .closeParen [')']]

theorem lexemesFrom_callSegments (offset : Nat) (startsLine : Bool) :
    lexemesFrom offset startsLine (callSegments ++ more) =
      ⟨.argumentName, ⟨offset, offset + 1⟩, "f", startsLine⟩ ::
        ⟨.openParen, ⟨offset + 1, offset + 2⟩, "(", false⟩ ::
        ⟨.closeParen, ⟨offset + 2, offset + 3⟩, ")", false⟩ ::
          lexemesFrom (callNode offset).span.stop false more := by
  have hstop : (callNode offset).span.stop = offset + 3 :=
    Nat.max_eq_right (Nat.add_le_add_left (by decide) offset)
  rw [hstop]
  rfl

/-- The round in which a name grows to a call. -/
theorem withSuffix_call (below : Below) (operand : RawNode) {l l' : Lexeme Token}
    (hs : s.upcoming = l :: l' :: rest) (hl' : l'.token = .closeParen) :
    withSuffix below .call operand s = .ok (.branch Kind.callExpression
      [operand.withField Field.command, .leaf Kind.openParen l.span, .leaf Kind.closeParen l'.span],
      s.advance.advance) := by
  have hclose := upcoming_advance hs
  have hpeek : s.advance.peek = some .closeParen := hl' ▸ peek_of_upcoming hclose
  have hparams : callParams below s.advance = .ok ([], s.advance) := by
    rw [callParams, ask_bind, atNamedParam_eq_false hpeek rfl]
    rfl
  rw [withSuffix, bind_of_ok (leaf_of_upcoming hs _), bind_of_ok hparams,
    bind_of_ok (expect_of_upcoming hclose hl' ..)]
  rfl

/-- Accesses to a call, up to two dots. -/
theorem simpleExpression_access (n : Nat) (items : List PlainName)
    (hmore : ∀ t ∈ (tokensOf more).head?, t ∈ [Token.dotDot])
    (hs : s.upcoming =
      lexemesFrom offset startsLine (callSegments ++ (accessLink.segments items ++ more))) :
    ∃ s', s'.upcoming =
        lexemesFrom (items.foldl accessLink.step (callNode offset)).span.stop false more ∧
      simpleExpression (level (n + 1)) s =
        .ok (items.foldl accessLink.step (callNode offset), s') := by
  rw [lexemesFrom_callSegments] at hs
  have hparens := upcoming_advance hs
  have hclose := upcoming_advance hparens
  have hrest := upcoming_advance hclose
  have hname := peek_of_upcoming hs
  have hopen := peek_of_upcoming hparens
  have hcall : Round suffix? (withSuffix (level n)) (.leaf Kind.argumentName ⟨offset, offset + 1⟩,
      s.advance) (callNode offset, s.advance.advance.advance) := by
    refine ⟨(isAhead_advance hopen).trans (isAhead_advance (peek_of_upcoming hclose)), .call, ?_,
      withSuffix_call _ _ hparens rfl⟩
    rw [suffix?, hopen]
  -- The first round makes the call, and the others are those of the chain.
  obtain ⟨s', hs', hrounds⟩ := Link.exists_rounds (access_isReadBy (level n))
    (access_readsOperand _) hmore hrest
  have hcloses : Closes s' := .of_mem (fun t ht => hmore t (peek_of_segments hs' ▸ ht)) (by decide)
  have hsuffixes := iterate_of_rounds (.head hcall hrounds) hcloses.suffix
  have hsign : s.peek.bind signForm? = none := by rw [hname]; rfl
  have hprimary : primary (level n) false s =
      .ok (.leaf Kind.argumentName ⟨offset, offset + 1⟩, s.advance) := by
    rw [primary, peek_bind, hname]
    exact leaf_of_upcoming hs _
  have hunary : (level (n + 1)).unary s =
      .ok (items.foldl accessLink.step (callNode offset), s') := by
    show signs.signed (suffixed (level n) false) (level n).unary s = _
    rw [Signs.signed_of_none hsign]
    exact (bind_of_ok hprimary).trans hsuffixes
  exact ⟨s', hs', (bind_of_ok hunary).trans (Operators.extend_none _ _ hcloses.operator)⟩

/-! ## Steps -/

/-- A semicolon and a step are read as one more step of a chain. -/
theorem pipe_isReadBy (below : Below) : pipeLink.IsReadBy pipeKind? (fun kind left => do
    let token ← leaf kind
    let right ← pipeOperand below
    return .branch Kind.pipedExpression
      [left.withField Field.left,
        (RawNode.branch Kind.pipeOperator [token]).withField Field.operator,
        right.withField Field.right]) (pipeOperand below) := by
  intro s hp
  refine ⟨.semicolon, ?_, fun left => rfl⟩
  rw [pipeKind?, hp]
  rfl

/-- Every step of a chain is read up to the next semicolon. -/
theorem pipe_readsOperand (n : Nat) :
    pipeLink.ReadsOperand [.dotDot] (pipeOperand (level (n + 1))) := by
  intro a offset startsLine s rest hs hfollows
  have hcloses : Closes s.advance := .of_mem hfollows (by decide)
  have hpipe : s.isAt .pipe = false := by
    have htoken : a.token ≠ .pipe := fun h => by
      have hmem := a.token_mem
      rw [h] at hmem
      exact absurd hmem (by decide)
    simpa [isAt, peek_of_upcoming hs, Spelling.lexeme] using htoken
  rw [pipeOperand, ask_bind, hpipe]
  exact (bind_of_ok (unary_plain n a hs hcloses.suffix)).trans
    (Operators.extend_none _ _ hcloses.operator)

/-- Steps with semicolons between, up to two dots. -/
theorem pipeChain_steps (n : Nat) (first : Plain) (items : List Plain)
    (hmore : ∀ t ∈ (tokensOf more).head?, t ∈ [Token.dotDot])
    (hs : s.upcoming =
      lexemesFrom offset startsLine (first.segment :: (pipeLink.segments items ++ more))) :
    ∃ s', s'.upcoming =
        lexemesFrom (items.foldl pipeLink.step (plainLeaf first offset)).span.stop false more ∧
      pipeChain (level (n + 1)) s =
        .ok (items.foldl pipeLink.step (plainLeaf first offset), s') := by
  rw [Spelling.lexemesFrom_segment] at hs
  have hrest := upcoming_advance hs
  have hfollows := pipeLink.follows_of_upcoming hmore hrest
  have hends : ∀ s : TokenStream Token, (∀ t ∈ s.peek, t ∈ [Token.dotDot]) →
      pipeKind? s = none := by
    intro s hs
    cases hp : s.peek with
    | none => simp [pipeKind?, hp]
    | some t =>
      obtain rfl := List.mem_singleton.1 (hs t hp)
      simp [pipeKind?, hp]
  obtain ⟨s', hs', hgrow⟩ := Link.growWhile_eq_ok (pipe_isReadBy (level (n + 1)))
    (pipe_readsOperand n) hmore hends (plainLeaf first offset) hrest
  exact ⟨s', hs', (bind_of_ok (pipe_readsOperand n first _ _ _ _ hs hfollows)).trans hgrow⟩

/-! ## Statements -/

/-- A blank and two dots. -/
def ending : List (Segment Token) := [.space, .word .dotDot ['.', '.']]

/-- The leaf for two dots, one space behind another node. -/
def endingNode (node : RawNode) : RawNode :=
  .leaf Kind.dotDot ⟨node.span.stop + 1, node.span.stop + 3⟩

/-- A statement with the two dots behind it. -/
def ended (node : RawNode) : List RawNode := [node, endingNode node]

/-- The two dots behind a chain are read, and nothing is left. -/
theorem expect_ending {node : RawNode} {stop : Nat}
    (hs : s.upcoming = lexemesFrom stop false ending) (hstop : node.span.stop = stop) :
    expect .dotDot Kind.dotDot "`..`" s = .ok (endingNode node, s.advance) ∧
      s.advance.atEnd = true := by
  have hs : s.upcoming = [⟨.dotDot, ⟨stop + 1, stop + 3⟩, "..", false⟩] := hs
  refine ⟨?_, ?_⟩
  · rw [endingNode, hstop]
    exact expect_of_upcoming hs rfl ..
  · rw [atEnd, upcoming_advance hs]
    rfl

/-- The tree of the constant `x` with a value. -/
def constantNode (value : RawNode) : RawNode :=
  .branch Kind.constantsStatement
    [.leaf Kind.argumentName ⟨0, 1⟩, .leaf Kind.equals ⟨2, 3⟩, value]

/-- The constant `x` with a value that ends where two dots come. -/
theorem statement_constant {value : RawNode}
    (hs : s.upcoming = lexemesFrom 0 startsLine (valueFront ++ more))
    (hvalue : ∀ s : TokenStream Token, s.upcoming = lexemesFrom 4 false more →
      ∃ s', s'.upcoming = lexemesFrom value.span.stop false ending ∧
        simpleExpression top s = .ok (value, s'))
    (hstop : 4 ≤ value.span.stop) :
    ∃ s', s'.atEnd = true ∧
      statement s = .ok (ended (constantNode value), s') := by
  have hs : s.upcoming = ⟨.argumentName, ⟨0, 1⟩, "x", startsLine⟩ ::
      ⟨.equals, ⟨2, 3⟩, "=", false⟩ :: lexemesFrom 4 false more := hs
  have hequals := upcoming_advance hs
  obtain ⟨s', hs', hsimple⟩ := hvalue _ (upcoming_advance hequals)
  have hname := peek_of_upcoming hs
  have hat : atArgumentName s = true := by rw [atArgumentName, hname]; rfl
  have hargument : argumentName s = .ok (.leaf Kind.argumentName ⟨0, 1⟩, s.advance) := by
    rw [argumentName, ask_bind, hat]
    exact leaf_of_upcoming hs _
  have hopen : openStatement s = .ok (constantNode value, s') := by
    rw [openStatement, peek_bind, hname]
    exact (bind_of_ok hargument).trans
      ((bind_of_ok (expect_of_upcoming hequals rfl ..)).trans (bind_of_ok hsimple))
  have hnodeStop : (constantNode value).span.stop = value.span.stop :=
    Nat.max_eq_right (Nat.le_trans (by decide) hstop)
  obtain ⟨hending, hend⟩ := expect_ending hs' hnodeStop
  exact ⟨_, hend, (bind_of_ok hopen).trans (bind_of_ok hending)⟩

/-- A type name by itself. -/
def typeNode (span : Span) : RawNode :=
  .branch Kind.typeIdentifier [.branch Kind.nominalType [.branch Kind.flatNominalType
    [(RawNode.leaf Kind.typeName span).withField Field.typeName]]]

/-- A type name without arguments is read as a type. -/
theorem typeReference_name (below : Below) {l : Lexeme Token} (hs : s.upcoming = l :: rest)
    (hl : l.token = .typeName) (hends : TypeEnds s.advance) :
    typeReference below s = .ok (typeNode l.span, s.advance) := by
  have hpeek : s.peek = some .typeName := hl ▸ peek_of_upcoming hs
  have hless : s.advance.isAt .less = false := by simpa [isAt] using hends.less
  have hcolons : s.advance.isAt .colonColon = false := by simpa [isAt] using hends.colons
  have hflat : flatNominalType below s = .ok (.branch Kind.flatNominalType
      [(RawNode.leaf Kind.typeName l.span).withField Field.typeName], s.advance) := by
    rw [flatNominalType, bind_of_ok (expect_of_upcoming hs hl ..), ask_bind, hless]
    rfl
  have hmore : ∀ items : Rule Token (List RawNode),
      repeatWhile (·.isAt .colonColon) items s.advance = .ok ([], s.advance) := fun items =>
    bind_of_ok (iterate_of_rounds .refl (by simp [hcolons]))
  rw [typeReference, peek_bind, hpeek]
  refine (bind_of_ok ?_).trans rfl
  exact (bind_of_ok hflat).trans (bind_of_ok (hmore _))

/-- A function `f` without parameters, up to its body. -/
def functionFront : List (Segment Token) :=
  [.word .funcKeyword ['f', 'u', 'n', 'c'], .space, .word .argumentName ['f'],
    .word .openParen ['('], .word .closeParen [')'], .space, .word .fatArrow ['=', '>'], .space,
    .word .typeName ['I', 'n', 't'], .space]

/-- The tree of the function `f` with a body. -/
def functionNode (body : RawNode) : RawNode :=
  .branch Kind.functionDefinition
    [.leaf Kind.funcKeyword ⟨0, 4⟩, (RawNode.leaf Kind.argumentName ⟨5, 6⟩).withField Field.name,
      (RawNode.leaf Kind.openParen ⟨6, 7⟩).withField Field.params,
      (RawNode.leaf Kind.closeParen ⟨7, 8⟩).withField Field.params, .leaf Kind.fatArrow ⟨9, 11⟩,
      (typeNode ⟨12, 15⟩).withField Field.outputType, body.withField Field.body]

/-- The function `f` with a body that ends where two dots come. -/
theorem statement_function {body : RawNode}
    (hs : s.upcoming = lexemesFrom 0 startsLine (functionFront ++ more))
    (hmore : ∀ t ∈ (tokensOf more).head?, t ≠ .less ∧ t ≠ .colonColon)
    (hbody : ∀ s : TokenStream Token, s.upcoming = lexemesFrom 16 false more →
      ∃ s', s'.upcoming = lexemesFrom body.span.stop false ending ∧
        top.expression s = .ok (body, s'))
    (hstop : 16 ≤ body.span.stop) :
    ∃ s', s'.atEnd = true ∧
      statement s = .ok (ended (functionNode body), s') := by
  have hs : s.upcoming = ⟨.funcKeyword, ⟨0, 4⟩, "func", startsLine⟩ ::
      ⟨.argumentName, ⟨5, 6⟩, "f", false⟩ :: ⟨.openParen, ⟨6, 7⟩, "(", false⟩ ::
      ⟨.closeParen, ⟨7, 8⟩, ")", false⟩ :: ⟨.fatArrow, ⟨9, 11⟩, "=>", false⟩ ::
      ⟨.typeName, ⟨12, 15⟩, "Int", false⟩ :: lexemesFrom 16 false more := hs
  -- The stream in front of each token of the head, one after the other.
  have hname := upcoming_advance hs
  have hopen := upcoming_advance hname
  have hclose := upcoming_advance hopen
  have harrow := upcoming_advance hclose
  have htype := upcoming_advance harrow
  have hrest := upcoming_advance htype
  obtain ⟨s', hs', hexpression⟩ := hbody _ hrest
  have hnamePeek := peek_of_upcoming hname
  have hclosePeek := peek_of_upcoming hclose
  -- What may be left out is left out here.
  have hinput : inputType s.advance = .ok ([], s.advance) := by
    rw [inputType, ask_bind, isAt, hnamePeek]
    rfl
  have hscope : functionScope s.advance = .ok ([], s.advance) := by
    rw [functionScope, ask_bind, isAt, hnamePeek]
    rfl
  have hargument : argumentName s.advance =
      .ok (.leaf Kind.argumentName ⟨5, 6⟩, s.advance.advance) := by
    rw [argumentName, ask_bind, atArgumentName, hnamePeek]
    exact leaf_of_upcoming hname _
  have hparams : paramList s.advance.advance.advance = .ok ([], s.advance.advance.advance) := by
    rw [paramList, ask_bind, atNamedParam_eq_false hclosePeek rfl]
    rfl
  have hpeekRest := peek_of_segments hrest
  have hends : TypeEnds s.advance.advance.advance.advance.advance.advance := by
    rw [← hpeekRest] at hmore
    exact ⟨fun h => (hmore _ h).1 rfl, fun h => (hmore _ h).2 rfl⟩
  have houtput : top.typeIdentifier s.advance.advance.advance.advance.advance = _ :=
    typeReference_name (level 127) htype rfl hends
  have hstatement : openStatement s = .ok (functionNode body, s') := by
    rw [openStatement, peek_bind, peek_of_upcoming hs]
    show functionDefinition s = _
    rw [functionDefinition, bind_of_ok (leaf_of_upcoming hs _), bind_of_ok hinput,
      bind_of_ok hscope, bind_of_ok hargument, bind_of_ok (expect_of_upcoming hopen rfl ..),
      bind_of_ok hparams, bind_of_ok (expect_of_upcoming hclose rfl ..),
      bind_of_ok (expect_of_upcoming harrow rfl ..), bind_of_ok houtput, bind_of_ok hexpression]
    rfl
  have hnodeStop : (functionNode body).span.stop = body.span.stop :=
    Nat.max_eq_right (Nat.le_trans (by decide) hstop)
  obtain ⟨hending, hend⟩ := expect_ending hs' hnodeStop
  exact ⟨_, hend, (bind_of_ok hstatement).trans (bind_of_ok hending)⟩

end GrammarTools.Peopl
