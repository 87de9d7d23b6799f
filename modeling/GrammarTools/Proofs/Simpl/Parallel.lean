import GrammarTools.Proofs.Parallel
import GrammarTools.Proofs.Simpl.Reading
import GrammarTools.Proofs.Simpl.Steps

/-!
# Parallel runs of the rules of Simpl

The rules of Simpl can not tell a declaration on a new line from the end of a
stream: no rule takes the keyword of a declaration, save in front of a
declaration, and a dot ends its line before either.

The values of an array are the one exception. At the end there are no more of
them; a keyword is taken for one more, which is then no value. Both runs fail, but
they do not expect the same.

Each rule is followed through once on two streams, and the rules that stand
inside themselves by induction on their level (`level_parallel`).
-/

namespace GrammarTools.Simpl

open Likeness

variable {L : Likeness Token} {below : Below} {s s' : TokenStream Token}

/-- The tokens that begin declarations. -/
def keywords : List Token := [.typeKeyword, .contractKeyword, .funcKeyword]

/-- Two streams of which the left one ends, while the right one may go on with declarations. -/
structure Bounded (L : Likeness Token) : Prop where
  left : ∀ l, ¬ L.leftStop l
  keyword : ∀ l, L.rightStop l → l.token ∈ keywords

/-- Two such streams whose lines break alike, and in front of where the left one ends. -/
structure Lined (L : Likeness Token) : Prop extends Bounded L where
  line : ∀ l, L.rightStop l → l.startsLine = true
  alike : ∀ {l l'}, L.like l l' → l.startsLine = l'.startsLine

/-- Inner rules that do the same on streams that are alike. In front of a stop there is no
    operand. -/
structure Below.Parallel (L : Likeness Token) (below : Below) : Prop
    extends Nested.Parallel L below where
  unary_keyword : ∀ {s : TokenStream Token}, (∃ t ∈ keywords, s.peek = some t) →
    ∃ e, below.unary s = .error e ∧ e.IsAt s

section Bounded

variable (hL : Bounded L)
include hL

namespace Bounded

/-- The left stream has no stops, so every stop is a keyword. -/
theorem mem_of_isStop {t : Token} (ht : L.IsStop t) : t ∈ keywords := by
  obtain ⟨l, hl | hl, rfl⟩ := ht
  · exact absurd hl (hL.left l)
  · exact hL.keyword l hl

/-- The left stream goes up to its end. -/
theorem not_isLeftStop (t : Token) : ¬ L.IsLeftStop t := fun ⟨l, hl, _⟩ => hL.left l hl

/-- What holds of the keywords holds of all stops. -/
theorem forall_stop {p : Token → Prop} (htype : p .typeKeyword) (hcontract : p .contractKeyword)
    (hfunc : p .funcKeyword) (t : Token) (ht : L.IsStop t) : p t := by
  have hmem := hL.mem_of_isStop ht
  simp only [keywords, List.mem_cons, List.not_mem_nil, or_false] at hmem
  rcases hmem with rfl | rfl | rfl
  · exact htype
  · exact hcontract
  · exact hfunc

end Bounded

/-! ## Signs and names -/

/-- A stop is a keyword, so no other token is asked for in vain. -/
theorem isAt_eq {t : Token} (hs : L.Places s s') (ht : t ∉ keywords) : s.isAt t = s'.isAt t :=
  hs.isAt_eq fun h => ht (hL.mem_of_isStop h)

/-- A token that was asked for is no stop, and is taken on both sides. -/
theorem leaf_parallel {t : Token} {kind : KindId} (hs : L.Places s s') (hp : s.isAt t = true) :
    L.Parallel true L.node (Rule.leaf kind) (Rule.leaf kind) s s' :=
  .leaf hs (TokenStream.peek_of_isAt hp) (hL.not_isLeftStop t)

/-- What is expected is no keyword, so both runs find it or neither does. -/
theorem expect_parallel {t : Token} {kind : KindId} {description : String} (hs : L.Places s s')
    (ht : t ∉ keywords) : L.Parallel true L.node (Rule.expect t kind description)
      (Rule.expect t kind description) s s' :=
  .expect hs fun h => ht (hL.mem_of_isStop h)

/-- Neither of the two tokens that begin a parameter is a keyword. -/
theorem atNamedParam_eq (hs : L.Places s s') : atNamedParam s = atNamedParam s' :=
  hs.and_next_eq (f := fun o => o == some Token.fieldName) (g := fun o => o == some Token.colon)
    rfl (hL.forall_stop rfl rfl rfl) (hL.forall_stop rfl rfl rfl)

/-- No keyword begins a type. -/
theorem atType_eq (hs : L.Places s s') : atType s = atType s' := by
  rw [atType, atType, isAt_eq hL hs (by decide), isAt_eq hL hs (by decide)]

/-- A call shows by up to three tokens. Each further one is asked for only behind one that is no
    stop, where both streams have moved on alike. -/
theorem atCall_eq (hs : L.Places s s') : atCall s = atCall s' := by
  rw [atCall, atCall, atType_eq hL hs, Bool.and_assoc, Bool.and_assoc]
  refine congrArg (atType s' || ·) ?_
  refine hs.and_eq (f := fun o => o == some Token.fieldName) rfl (hL.forall_stop rfl rfl rfl)
    fun t t' hp hp' hnext => ?_
  have hcolon := hnext.and_next_eq (f := fun o => o == some Token.fieldName)
    (g := fun o => o == some Token.colon) rfl (hL.forall_stop rfl rfl rfl)
    (hL.forall_stop rfl rfl rfl)
  rwa [TokenStream.peek, TokenStream.peek, TokenStream.peekNth_advance hp,
    TokenStream.peekNth_advance hp, TokenStream.peekNth_advance hp',
    TokenStream.peekNth_advance hp'] at hcolon

omit hL in
theorem atNamedParam_of_end (h : s.upcoming = []) : atNamedParam s = false := by
  simp [atNamedParam, TokenStream.isAt_of_end h]

theorem fieldIdentifier_parallel (hs : L.Places s s') :
    L.Parallel true L.node fieldIdentifier fieldIdentifier s s' :=
  expect_parallel hL hs (by decide)

theorem colon_parallel (hs : L.Places s s') : L.Parallel true L.node colon colon s s' :=
  expect_parallel hL hs (by decide)

section Rules

variable (hb : below.Parallel L)
include hb

/-! ## Types -/

/-- A parameter is read alike by its parts. -/
theorem paramDeclaration_parallel (hs : L.Places s s') :
    L.Parallel true L.node (paramDeclaration below) (paramDeclaration below) s s' := by
  refine .bind (fieldIdentifier_parallel hL hs) fun hname hs => ?_
  refine .bind (colon_parallel hL hs) fun hcolon hs => ?_
  refine .bind (hb.typeIdentifier hs) fun htype hs => ?_
  exact .pure hs (L.branch _ (.cons (L.withField _ hname)
    (.cons hcolon (.cons (L.withField _ htype) .nil))))

/-- A row of parameters ends on both sides at once. -/
theorem paramList_parallel (hs : L.Places s s') :
    L.Parallel false L.node (paramList below) (paramList below) s s' :=
  .bind (.repeatEach (atNamedParam_eq hL) atNamedParam_of_end
    (paramDeclaration_parallel hL hb) hs) fun hparams hs => .pure hs (L.branch _ hparams)

/-- Both runs take the opening brace, since it is no stop. -/
theorem inlineFunctionDeclaration_parallel (hs : L.Places s s') (hp : s.isAt .openBrace = true) :
    L.Parallel true L.node (inlineFunctionDeclaration below) (inlineFunctionDeclaration below)
      s s' := by
  refine .bind (leaf_parallel hL hs hp) fun hopening hs => ?_
  refine .bind (.repeatEach (fun hs => isAt_eq hL hs (by decide)) TokenStream.isAt_of_end
    (paramDeclaration_parallel hL hb) hs) fun hparams hs => ?_
  refine .bind (expect_parallel hL hs (by decide)) fun hclosing hs => ?_
  refine .bind (hb.typeIdentifier hs) fun hresult hs => ?_
  exact .pure hs (L.branch _ (.cons hopening (List.rel_append hparams
    (.cons hclosing (.cons hresult .nil)))))

/-- In front of a stop, as at the end, a type is missing. -/
theorem typeReference_parallel (hs : L.Places s s') :
    L.Parallel true L.node (typeReference below) (typeReference below) s s' := by
  refine .peek hs (hL.forall_stop rfl rfl rfl) (hL.forall_stop rfl rfl rfl) fun o ho => ?_
  split
  · exact .leaf hs (ho _ rfl).1 (ho _ rfl).2
  · exact .bind (inlineFunctionDeclaration_parallel hL hb hs
      (TokenStream.isAt_of_peek (ho _ rfl).1)) fun hinner hs =>
        .pure hs (L.branch _ (.cons hinner .nil))
  · exact .fail hs (List.cons_ne_nil _ _)

/-! ## Operands -/

/-- No keyword is an operator, so operands are extended alike. -/
theorem extend_parallel {left left' : RawNode} (hs : L.Places s s') (hleft : L.node left left') :
    L.Parallel false L.node (operators.extend below.unary left)
      (operators.extend below.unary left') s s' :=
  .extend (hL.forall_stop rfl rfl rfl) hb.unary hs hleft

theorem simpleExpression_parallel (hs : L.Places s s') :
    L.Parallel true L.node (simpleExpression below) (simpleExpression below) s s' :=
  .expression (hL.forall_stop rfl rfl rfl) hb.unary hs

omit hb in
/-- At the end there is no value, while a keyword is taken for one. -/
theorem moreValues_eq {s s' : TokenStream Token} (hs : L.Places s s')
    (hne : (!s.isAt .closeBracket && !s.atEnd) ≠ (!s'.isAt .closeBracket && !s'.atEnd)) :
    s.upcoming = [] ∧ ∃ t ∈ keywords, s'.peek = some t := by
  rw [isAt_eq hL hs (by decide)] at hne
  have hends : s.atEnd ≠ s'.atEnd := fun heq => hne (by rw [heq])
  unfold Places at hs
  rw [TokenStream.atEnd, TokenStream.atEnd] at hends
  rw [TokenStream.peek, TokenStream.peekNth]
  generalize s.upcoming = left at hs hends
  generalize s'.upcoming = right at hs hends
  cases hs with
  | cons => exact absurd rfl hends
  | ends hleft hright =>
    cases left with
    | cons l ls => exact absurd (hleft l rfl) (hL.left l)
    | nil =>
      cases right with
      | nil => exact absurd rfl hends
      | cons l' ls' => exact ⟨rfl, l'.token, hL.keyword l' (hright l' rfl), rfl⟩

/-- An array is the exception: in front of a stop the left run misses the bracket, and the right one
    a value. -/
theorem arrayLiteral_parallel (hs : L.Places s s') (hp : s.isAt .openBracket = true) :
    L.Parallel true L.node (arrayLiteral below) (arrayLiteral below) s s' := by
  refine .bind (leaf_parallel hL hs hp) fun hopening hs => ?_
  refine .repeatWhile_bind (fun h => by simp [TokenStream.atEnd, h]) (fun hs _ => ?_)
    (fun {s s' _ _} hs _ hne => ?_) (fun hs hvalues => ?_) hs
  · refine .bind (simpleExpression_parallel hL hb hs) fun hvalue hs => ?_
    exact .pure hs (.cons hvalue .nil)
  · -- The left run misses the bracket, and the right run the value.
    obtain ⟨hend, hkeyword⟩ := moreValues_eq hL hs hne
    obtain ⟨e, he, hat⟩ := hb.unary_keyword hkeyword
    obtain ⟨t, -, hp⟩ := hkeyword
    have hleft : s.atEnd = true := by rw [TokenStream.atEnd, hend]; rfl
    have hright : s'.atEnd ≠ true := fun h => by
      rw [TokenStream.peek_eq_none.2 h] at hp
      cases hp
    have hexpect : Rule.expect .closeBracket Kind.closeBracket "`]`" s =
        .error ⟨s.span, ["`]`"], s.text?⟩ := by
      rw [Rule.expect, TokenStream.isAt_of_end hend]
      rfl
    exact ⟨by rw [hleft]; simp, fun h => hright (h ▸ hleft),
      ⟨_, Rule.bind_of_error hexpect, rfl, rfl, List.cons_ne_nil _ _⟩,
      e, Rule.bind_of_error (Rule.bind_of_error he), hat⟩
  · refine .bind (expect_parallel hL hs (by decide)) fun hclosing hs => ?_
    exact .pure hs (L.branch _ (.cons hopening (List.rel_append hvalues (.cons hclosing .nil))))

theorem parenthisedExpression_parallel (hs : L.Places s s') (hp : s.isAt .openParen = true) :
    L.Parallel true L.node (parenthisedExpression below) (parenthisedExpression below) s s' := by
  refine .bind (leaf_parallel hL hs hp) fun hopening hs => ?_
  refine .bind (hb.expression hs) fun hexpression hs => ?_
  refine .bind (expect_parallel hL hs (by decide)) fun hclosing hs => ?_
  exact .pure hs (L.branch _ (.cons hopening (.cons hexpression (.cons hclosing .nil))))

/-- An operand is picked by the next token, and a keyword picks none, as the end does not. -/
theorem primary_parallel (hs : L.Places s s') :
    L.Parallel true L.node (primary below) (primary below) s s' := by
  refine .peek hs (hL.forall_stop rfl rfl rfl) (hL.forall_stop rfl rfl rfl) fun o ho => ?_
  split
  · exact .numeral hs (ho _ rfl).1 (ho _ rfl).2
  · exact .leaf hs (ho _ rfl).1 (ho _ rfl).2
  · exact .leaf hs (ho _ rfl).1 (ho _ rfl).2
  · exact .leaf hs (ho _ rfl).1 (ho _ rfl).2
  · exact .leaf hs (ho _ rfl).1 (ho _ rfl).2
  · exact arrayLiteral_parallel hL hb hs (TokenStream.isAt_of_peek (ho _ rfl).1)
  · exact parenthisedExpression_parallel hL hb hs (TokenStream.isAt_of_peek (ho _ rfl).1)
  · exact .fail hs (List.cons_ne_nil _ _)

/-- A keyword is no sign, so both runs read the same signs. -/
theorem signed_parallel (hs : L.Places s s') :
    L.Parallel true L.node (signed below) (signed below) s s' :=
  .signed (hL.forall_stop rfl rfl rfl) (primary_parallel hL hb) hb.unary hs

/-! ## Expressions -/

theorem paramDefinition_parallel (hs : L.Places s s') :
    L.Parallel true L.node (paramDefinition below) (paramDefinition below) s s' := by
  refine .bind (fieldIdentifier_parallel hL hs) fun hname hs => ?_
  refine .bind (colon_parallel hL hs) fun hcolon hs => ?_
  refine .bind (simpleExpression_parallel hL hb hs) fun hvalue hs => ?_
  exact .pure hs (L.branch _ (.cons (L.withField _ hname)
    (.cons hcolon (.cons (L.withField _ hvalue) .nil))))

/-- Whether there are arguments is told by tokens that are no keywords. -/
theorem callParams_parallel (hs : L.Places s s') :
    L.Parallel false (List.Forall₂ L.node) (callParams below) (callParams below) s s' := by
  refine .ite (atNamedParam_eq hL hs) (fun _ => ?_) fun _ => .pure hs .nil
  refine .bind (.repeatEach (atNamedParam_eq hL) atNamedParam_of_end
    (paramDefinition_parallel hL hb) hs) fun hparams hs => ?_
  exact .pure hs (.cons (L.withField _ (L.branch _ hparams)) .nil)

/-- The two kinds of calls differ in the callee alone. -/
theorem callExpression_parallel (hs : L.Places s s') :
    L.Parallel true L.node (callExpression below) (callExpression below) s s' := by
  have hcall : ∀ {r : Rule Token RawNode}, L.Parallel true L.node r r s s' →
      L.Parallel true L.node
        (do
          let callee ← r
          let params ← callParams below
          return .branch Kind.callExpression (callee.withField Field.callee :: params))
        (do
          let callee ← r
          let params ← callParams below
          return .branch Kind.callExpression (callee.withField Field.callee :: params)) s s' := by
    intro r hr
    refine .bind hr fun hcallee hs => ?_
    refine .bind (callParams_parallel hL hb hs) fun hparams hs => ?_
    exact .pure hs (L.branch _ (.cons (L.withField _ hcallee) hparams))
  exact .ite (isAt_eq hL hs (by decide)) (fun hp => hcall (leaf_parallel hL hs hp))
    fun _ => hcall (hb.typeIdentifier hs)

/-- Behind parentheses both runs see a caret, or neither does. -/
theorem afterParens_parallel {parens parens' : RawNode} (hs : L.Places s s')
    (hparens : L.node parens parens') :
    L.Parallel false L.node (afterParens below parens) (afterParens below parens') s s' := by
  refine .ite (isAt_eq hL hs (by decide)) (fun hp => ?_) fun _ => extend_parallel hL hb hs hparens
  refine .bind (leaf_parallel hL hs hp) fun hcaret hs => ?_
  exact .pure hs (L.branch _ (.cons hparens (.cons hcaret .nil)))

/-- What a branch does is told by tokens that are no keywords. -/
theorem branchBody_parallel (hs : L.Places s s') :
    L.Parallel true L.node (branchBody below) (branchBody below) s s' := by
  refine .ite (atCall_eq hL hs) (fun _ => callExpression_parallel hL hb hs) fun _ => ?_
  refine .ite (isAt_eq hL hs (by decide)) (fun hp => ?_) fun _ => simpleExpression_parallel hL hb hs
  refine .bind (parenthisedExpression_parallel hL hb hs hp) fun hparens hs => ?_
  exact afterParens_parallel hL hb hs hparens

theorem subpipeBranch_parallel (hs : L.Places s s') (hp : s.isAt .pipe = true) :
    L.Parallel true L.node (subpipeBranch below) (subpipeBranch below) s s' := by
  refine .bind (leaf_parallel hL hs hp) fun hopening hs => ?_
  refine .bind (hb.expression hs) fun hcapture hs => ?_
  refine .bind (expect_parallel hL hs (by decide)) fun hclosing hs => ?_
  refine .bind (branchBody_parallel hL hb hs) fun hbody hs => ?_
  exact .pure hs (L.branch _ (.cons hopening (.cons (L.withField _ hcapture)
    (.cons hclosing (.cons (L.withField _ hbody) .nil)))))

omit hb in
/-- Another branch shows by a comma and a bar, of which neither is a keyword. -/
theorem atNextBranch_eq (hs : L.Places s s') : atNextBranch s = atNextBranch s' :=
  hs.and_next_eq (f := fun o => o == some Token.comma) (g := fun o => o == some Token.pipe) rfl
    (hL.forall_stop rfl rfl rfl) (hL.forall_stop rfl rfl rfl)

/-- Behind the comma both runs are in front of a bar. -/
theorem nextBranch_parallel (hs : L.Places s s') (hnext : atNextBranch s = true) :
    L.Parallel true (List.Forall₂ L.node)
      (do
        let comma ← Rule.leaf Kind.comma
        return [comma, ← subpipeBranch below])
      (do
        let comma ← Rule.leaf Kind.comma
        return [comma, ← subpipeBranch below]) s s' := by
  obtain ⟨hcomma, hpipe⟩ := atNextBranch_iff.1 hnext
  refine .marked hs hcomma (hL.not_isLeftStop _) fun hs => ?_
  exact subpipeBranch_parallel hL hb hs (TokenStream.isAt_of_peek hpipe)

theorem subpipeDefault_parallel (hs : L.Places s s') :
    L.Parallel false (List.Forall₂ L.node) (subpipeDefault below) (subpipeDefault below) s s' := by
  refine .ite (isAt_eq hL hs (by decide)) (fun hp => ?_) fun _ => .pure hs .nil
  refine .bind (leaf_parallel hL hs hp) fun hcomma hs => ?_
  refine .ite (atCall_eq hL hs) (fun _ => ?_) fun _ => ?_
  · refine .bind (callExpression_parallel hL hb hs) fun hdefault hs => ?_
    exact .pure hs (.cons hcomma (.cons hdefault .nil))
  · refine .bind (simpleExpression_parallel hL hb hs) fun hdefault hs => ?_
    exact .pure hs (.cons hcomma (.cons hdefault .nil))

theorem subpipeExpression_parallel (hs : L.Places s s') (hp : s.isAt .pipe = true) :
    L.Parallel true L.node (subpipeExpression below) (subpipeExpression below) s s' := by
  refine .bind (subpipeBranch_parallel hL hb hs hp) fun hfirst hs => ?_
  refine .bind (.repeatWhile (fun h => by simp [atNextBranch, TokenStream.isAt_of_end h])
    (nextBranch_parallel hL hb) (atNextBranch_eq hL) hs) fun hmore hs => ?_
  refine .bind (subpipeDefault_parallel hL hb hs) fun hdefault hs => ?_
  exact .pure hs (L.branch _ (.cons hfirst (List.rel_append hmore hdefault)))

theorem pipeOperand_parallel (hs : L.Places s s') :
    L.Parallel true L.node (pipeOperand below) (pipeOperand below) s s' :=
  .ite (isAt_eq hL hs (by decide)) (subpipeExpression_parallel hL hb hs)
    fun _ => branchBody_parallel hL hb hs

/-- Each round begins with a semicolon, which both runs see or neither does. -/
theorem pipeChain_parallel (hs : L.Places s s') :
    L.Parallel true L.node (pipeChain below) (pipeChain below) s s' := by
  refine .bind (pipeOperand_parallel hL hb hs) fun hfirst hs => .iterate
    (fun h => by rw [TokenStream.isAt_of_end h]; rfl) (fun hs hp hleft => ?_)
    (fun hs => by rw [isAt_eq hL hs (by decide)]) hs hfirst
  refine .bind (leaf_parallel hL hs (by simpa using hp)) fun hsemicolon hs => ?_
  refine .bind (pipeOperand_parallel hL hb hs) fun hright hs => ?_
  exact .pure hs (L.branch _ (.cons (L.withField _ hleft)
    (.cons hsemicolon (.cons (L.withField _ hright) .nil))))

end Rules

omit hL in
/-- No operand begins with the keyword of a declaration. -/
theorem signed_keyword (h : ∃ t ∈ keywords, s.peek = some t) :
    ∃ e, signed below s = .error e ∧ e.IsAt s := by
  obtain ⟨t, ht, hp⟩ := h
  refine ⟨⟨s.span, ["expression"], s.text?⟩, ?_, rfl, rfl, List.cons_ne_nil _ _⟩
  simp only [keywords, List.mem_cons, List.not_mem_nil, or_false] at ht
  rcases ht with rfl | rfl | rfl <;>
    simp [signed, Signs.signed, signs, primary, Rule.peek, Rule.fail, Bind.bind, StateT.bind,
      Except.bind, hp, signForm?]

/-- The rules of every level do the same on both streams, and fail in front of a keyword. -/
theorem level_parallel (n : Nat) : (level n).Parallel L := by
  refine Nested.level_forall (P := Below.Parallel L) ?_ (fun below hb => ?_) n
  · refine ⟨⟨.tooDeep, .tooDeep, .tooDeep⟩, fun {s} _ => ?_⟩
    exact ⟨.nestedTooDeeply s.span s.text?, rfl, rfl, rfl, List.cons_ne_nil _ _⟩
  · exact ⟨⟨pipeChain_parallel hL hb, typeReference_parallel hL hb, signed_parallel hL hb⟩,
      signed_keyword⟩

theorem top_parallel : top.Parallel L := level_parallel hL _

/-! ## Statements -/

/-- The parameters of a declaration are read alike. -/
theorem declaredParams_parallel (hs : L.Places s s') :
    L.Parallel false (List.Forall₂ L.node) declaredParams declaredParams s s' := by
  refine .ite (atNamedParam_eq hL hs) (fun _ => ?_) fun _ => .pure hs .nil
  refine .bind (paramList_parallel hL (top_parallel hL) hs) fun hparams hs => ?_
  exact .pure hs (.cons (L.withField _ hparams) .nil)

/-- The keyword of a declaration is taken in front, where the left stream still has it. -/
theorem declaration_parallel {t : Token} {kind keyword : Kind} (hs : L.Places s s')
    (hp : s.peek = some t) :
    L.Parallel true L.node (declaration kind keyword) (declaration kind keyword) s s' := by
  refine .bind (.leaf hs hp (hL.not_isLeftStop t)) fun hkeyword hs => ?_
  refine .bind ((top_parallel hL).typeIdentifier hs) fun hname hs => ?_
  refine .bind (declaredParams_parallel hL hs) fun hparams hs => ?_
  exact .pure hs (L.branch _ (.cons hkeyword (.cons (L.withField _ hname) hparams)))

theorem onType_parallel (hs : L.Places s s') :
    L.Parallel false (List.Forall₂ L.node) onType onType s s' := by
  refine .ite (atType_eq hL hs) (fun _ => ?_) fun _ => .pure hs .nil
  refine .bind ((top_parallel hL).typeIdentifier hs) fun htype hs => ?_
  exact .pure hs (.cons (L.withField _ htype) .nil)

/-- Behind the keyword, all parts of a function are read alike. -/
theorem functionDeclaration_parallel {t : Token} (hs : L.Places s s') (hp : s.peek = some t) :
    L.Parallel true L.node functionDeclaration functionDeclaration s s' := by
  refine .bind (.leaf hs hp (hL.not_isLeftStop t)) fun hkeyword hs => ?_
  refine .bind (onType_parallel hL hs) fun htype hs => ?_
  refine .bind (fieldIdentifier_parallel hL hs) fun hname hs => ?_
  refine .bind (declaredParams_parallel hL hs) fun hparams hs => ?_
  refine .bind ((top_parallel hL).typeIdentifier hs) fun hresult hs => ?_
  refine .bind ((top_parallel hL).expression hs) fun hbody hs => ?_
  exact .pure hs (L.branch _ (.cons hkeyword (List.rel_append
    (List.rel_append htype (.cons (L.withField _ hname) hparams))
    (.cons (L.withField _ hresult) (.cons (L.withField _ hbody) .nil)))))

/-- Whether a dot ends a declaration here. -/
def atDeclarationEnd (s : TokenStream Token) : Bool := s.isAt .dot && s.advance.atLineStart

/-- The end of a declaration is read alike if both runs see it or neither does. -/
theorem declarationEnd_parallel (hs : L.Places s s')
    (hends : atDeclarationEnd s = atDeclarationEnd s') :
    L.Parallel true L.node declarationEnd declarationEnd s s' :=
  .ite hends (fun hp => leaf_parallel hL hs (Bool.and_eq_true _ _ ▸ hp).1)
    fun _ => .fail hs (List.cons_ne_nil _ _)

/-- A declaration is read alike, if its end is seen on both sides or on none. -/
theorem ended_parallel {r : Rule Token RawNode} (hr : L.Parallel true L.node r r s s')
    (hends : ∀ {node t t'}, r s = .ok (node, t) → L.Moves true s s' t t' →
      atDeclarationEnd t = atDeclarationEnd t') :
    L.Parallel true (List.Forall₂ L.node) (ended r) (ended r) s s' :=
  .bind_of_eq hr fun hok hdeclaration hm =>
    .bind (declarationEnd_parallel hL hm.places (hends hok hm)) fun hending hs =>
      .pure hs (.cons hdeclaration (.cons hending .nil))

/-- A statement is read alike from streams that are alike, if the left one has not ended and a
    declaration ends in both or in none. -/
theorem statement_parallel_of_ends {t : Token} (hs : L.Places s s') (hp : s.peek = some t)
    (hends : ∀ {r node t t'}, statement s = ended r s → r s = .ok (node, t) →
      L.Moves true s s' t t' → atDeclarationEnd t = atDeclarationEnd t') :
    L.Parallel true (List.Forall₂ L.node) statement statement s s' := by
  refine .peek_of_eq hs hp (hL.not_isLeftStop t) ?_
  split
  case h_1 ht =>
    cases ht
    exact ended_parallel hL (declaration_parallel hL hs hp)
      (hends (by rw [statement, Rule.peek_bind, hp]))
  case h_2 ht =>
    cases ht
    exact ended_parallel hL (declaration_parallel hL hs hp)
      (hends (by rw [statement, Rule.peek_bind, hp]))
  case h_3 ht =>
    cases ht
    exact ended_parallel hL (functionDeclaration_parallel hL hs hp)
      (hends (by rw [statement, Rule.peek_bind, hp]))
  case h_4 =>
    exact .bind ((top_parallel hL).expression hs) fun hnode hs => .pure hs (.cons hnode .nil)

end Bounded

section Lined

variable (hL : Lined L)
include hL

/-- Lines start at the same places, since a stop of the right stream starts a line as the end of the
    left one does. -/
theorem atLineStart_eq (hs : L.Places s s') : s.atLineStart = s'.atLineStart := by
  rw [TokenStream.atLineStart_eq, TokenStream.atLineStart_eq]
  unfold Places at hs
  generalize s.upcoming = left at hs
  generalize s'.upcoming = right at hs
  cases hs with
  | cons hlike _ => simp [hL.alike hlike]
  | ends hleft hright =>
    cases left with
    | cons l ls => exact absurd (hleft l rfl) (hL.left l)
    | nil =>
      cases right with
      | nil => rfl
      | cons l' ls' => simp [hL.line l' (hright l' rfl)]

/-- A dot ends a declaration in both streams or in none, since their lines break alike. -/
theorem atDeclarationEnd_eq (hs : L.Places s s') : atDeclarationEnd s = atDeclarationEnd s' :=
  hs.and_eq (f := fun o => o == some Token.dot) rfl (hL.forall_stop rfl rfl rfl)
    fun _ _ _ _ hnext => atLineStart_eq hL hnext

/-- A statement is read alike from streams that are alike, if the left one has not ended. -/
theorem statement_parallel {t : Token} (hs : L.Places s s') (hp : s.peek = some t) :
    L.Parallel true (List.Forall₂ L.node) statement statement s s' :=
  statement_parallel_of_ends hL.toBounded hs hp fun _ _ hm => atDeclarationEnd_eq hL hm.places

end Lined

end GrammarTools.Simpl
