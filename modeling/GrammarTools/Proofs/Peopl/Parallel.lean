import GrammarTools.Proofs.Parallel
import GrammarTools.Proofs.Peopl.Reading
import GrammarTools.Proofs.Peopl.Steps

/-!
# Parallel runs of the rules of PeoPl

Between one pair of dots and the next, the rules of PeoPl can not tell two streams
apart that look alike: no rule for the inside of a statement takes two dots, and
what a rule does in front of two dots it does at the end as well.

Each rule is followed through once on two streams, and the rules that stand
inside themselves by induction on their level (`level_parallel`).
-/

namespace GrammarTools.Peopl

open Likeness

variable {L : Likeness Token} {below : Below} {s s' : TokenStream Token}

variable (hL : ∀ t, L.IsStop t → t = .dotDot)
include hL

/-- The only token that can stop a run is a pair of dots. -/
theorem not_isLeftStop {t : Token} (ht : t ≠ .dotDot) : ¬ L.IsLeftStop t :=
  fun ⟨l, hl, h⟩ => ht (hL t ⟨l, .inl hl, h⟩)

/-- For any other token, both streams are in front of it or neither is. -/
theorem isAt_eq {t : Token} (hs : L.Places s s') (ht : t ≠ .dotDot) : s.isAt t = s'.isAt t :=
  hs.isAt_eq fun h => ht (hL t h)

/-- What depends on the next token alone is the same, if two dots and the end make no
    difference. -/
theorem eq_of_peek {γ : Type} {g : TokenStream Token → γ} {c : γ} (hs : L.Places s s')
    (hg : ∀ {s s'}, s.peek = s'.peek → g s = g s') (hend : ∀ {s}, s.peek = none → g s = c)
    (hdots : ∀ {s}, s.peek = some .dotDot → g s = c) : g s = g s' := by
  have hstop : ∀ {s : TokenStream Token}, (∀ t, s.peek = some t → L.IsStop t) → g s = c := by
    intro s h
    cases hp : s.peek with
    | none => exact hend hp
    | some t =>
      obtain rfl := hL t (h t hp)
      exact hdots hp
  rcases hs.peek_cases with h | ⟨hleft, hright⟩
  · exact hg h
  · rw [hstop hleft, hstop hright]

/-! ## Signs and names -/

/-- A token that is no pair of dots is taken on both sides. -/
theorem leaf_parallel {t : Token} {kind : KindId} (hs : L.Places s s') (hp : s.isAt t = true)
    (ht : t ≠ .dotDot) : L.Parallel true L.node (Rule.leaf kind) (Rule.leaf kind) s s' :=
  .leaf hs (TokenStream.peek_of_isAt hp) (not_isLeftStop hL ht)

/-- A token that is no pair of dots is found on both sides or missing on both. -/
theorem expect_parallel {t : Token} {kind : KindId} {description : String} (hs : L.Places s s')
    (ht : t ≠ .dotDot) : L.Parallel true L.node (Rule.expect t kind description)
      (Rule.expect t kind description) s s' :=
  .expect hs fun h => ht (hL t h)

/-- A name is no pair of dots, so both streams see it or neither does. -/
theorem atArgumentName_eq (hs : L.Places s s') : atArgumentName s = atArgumentName s' :=
  hs.peek_eq (f := fun o => o.any isArgumentName) fun t ht => by rw [hL t ht]; rfl

/-- Whether an argument comes shows by two tokens. The second is asked for only behind a name, where
    both streams have moved on alike. -/
theorem atNamedParam_eq (hs : L.Places s s') : atNamedParam s = atNamedParam s' :=
  hs.and_next_eq (f := fun o => o.any isArgumentName) (g := fun o => o == some .colon) rfl
    (fun t ht => by rw [hL t ht]; rfl) fun t ht => by rw [hL t ht]; rfl

omit hL in
theorem atNamedParam_of_end (h : s.upcoming = []) : atNamedParam s = false := by
  simp [atNamedParam, atArgumentName, TokenStream.peek, TokenStream.peekNth, h]

/-- A name is taken on both sides, or missing on both. -/
theorem argumentName_parallel (hs : L.Places s s') :
    L.Parallel true L.node argumentName argumentName s s' := by
  refine .ite (atArgumentName_eq hL hs) (fun h => ?_) fun _ => .fail hs (List.cons_ne_nil _ _)
  obtain ⟨t, ht, hp⟩ := peek_of_atArgumentName h
  refine .leaf hs hp (not_isLeftStop hL ?_)
  rintro rfl
  simp at ht

theorem colon_parallel (hs : L.Places s s') : L.Parallel true L.node colon colon s s' :=
  expect_parallel hL hs (by decide)

/-- A comma is taken on both sides, or on neither. -/
theorem optionalComma_parallel (hs : L.Places s s') :
    L.Parallel false (List.Forall₂ L.node) optionalComma optionalComma s s' := by
  refine .ite (isAt_eq hL hs (by decide)) (fun h => ?_) fun _ => .pure hs .nil
  refine .bind (leaf_parallel hL hs h (by decide)) fun hcomma hs => ?_
  exact .pure hs (.cons hcomma .nil)

/-- A token in front of a node. -/
theorem marked_parallel {t : Token} {kind : KindId} {r : Rule Token RawNode}
    (ht : t ≠ .dotDot) (hr : ∀ {s s'}, L.Places s s' → L.Parallel true L.node r r s s')
    (hs : L.Places s s') (hp : s.isAt t = true) :
    L.Parallel true (List.Forall₂ L.node)
      (do
        let mark ← Rule.leaf kind
        return [mark, ← r])
      (do
        let mark ← Rule.leaf kind
        return [mark, ← r]) s s' :=
  .marked hs (TokenStream.peek_of_isAt hp) (not_isLeftStop hL ht) hr

/-- Nodes with a token in front of each. -/
theorem repeatMarked_parallel {t : Token} {kind : KindId} {r : Rule Token RawNode}
    (ht : t ≠ .dotDot) (hr : ∀ {s s'}, L.Places s s' → L.Parallel true L.node r r s s')
    (hs : L.Places s s') :
    L.Parallel false (List.Forall₂ L.node)
      (Rule.repeatWhile (·.isAt t) do
        let mark ← Rule.leaf kind
        return [mark, ← r])
      (Rule.repeatWhile (·.isAt t) do
        let mark ← Rule.leaf kind
        return [mark, ← r]) s s' :=
  .repeatWhile TokenStream.isAt_of_end (marked_parallel hL ht hr) (fun hs => isAt_eq hL hs ht) hs

section Rules

variable (hb : below.Parallel L)
include hb

/-! ## Types -/

/-- Types between commas are read alike. -/
theorem typeIdentifiers_parallel (hs : L.Places s s') :
    L.Parallel true (List.Forall₂ L.node) (typeIdentifiers below) (typeIdentifiers below) s s' := by
  refine .bind (hb.typeIdentifier hs) fun hfirst hs => ?_
  refine .bind (repeatMarked_parallel hL (by decide) hb.typeIdentifier hs) fun hmore hs => ?_
  exact .pure hs (.cons hfirst hmore)

/-- Type arguments are read alike from their bracket on. -/
theorem typeArguments_parallel (hs : L.Places s s') (hp : s.isAt .less = true) :
    L.Parallel true L.node (typeArguments below) (typeArguments below) s s' := by
  refine .bind (leaf_parallel hL hs hp (by decide)) fun hopening hs => ?_
  refine .bind (typeIdentifiers_parallel hL hb hs) fun htypes hs => ?_
  refine .bind (expect_parallel hL hs (by decide)) fun hclosing hs => ?_
  exact .pure hs (L.branch _ (.cons hopening (List.rel_append htypes (.cons hclosing .nil))))

/-- The name of a type is read alike, with or without arguments. -/
theorem flatNominalType_parallel (hs : L.Places s s') :
    L.Parallel true L.node (flatNominalType below) (flatNominalType below) s s' := by
  refine .bind (expect_parallel hL hs (by decide)) fun hname hs => ?_
  refine .ite (isAt_eq hL hs (by decide)) (fun hp => ?_) fun _ => ?_
  · refine .bind (typeArguments_parallel hL hb hs hp) fun harguments hs => ?_
    exact .pure hs (L.branch _ (.cons (L.withField _ hname)
      (.cons (L.withField _ harguments) .nil)))
  · exact .pure hs (L.branch _ (.cons (L.withField _ hname) .nil))

/-- Both runs see the same double colons, so they read the same names. -/
theorem nominalType_parallel (hs : L.Places s s') :
    L.Parallel true L.node (nominalType below) (nominalType below) s s' := by
  refine .bind (flatNominalType_parallel hL hb hs) fun hfirst hs => ?_
  refine .bind (repeatMarked_parallel hL (by decide) (flatNominalType_parallel hL hb) hs) fun hmore
    hs => ?_
  exact .pure hs (L.branch _ (.cons hfirst hmore))

/-- A tuple type is read alike from its bracket on. -/
theorem tupleStructuralType_parallel (hs : L.Places s s') (hp : s.isAt .openBracket = true) :
    L.Parallel true L.node (tupleStructuralType below) (tupleStructuralType below) s s' := by
  refine .bind (leaf_parallel hL hs hp (by decide)) fun hopening hs => ?_
  refine .bind (typeIdentifiers_parallel hL hb hs) fun htypes hs => ?_
  refine .bind (expect_parallel hL hs (by decide)) fun hclosing hs => ?_
  exact .pure hs (L.branch _ (.cons hopening (List.rel_append htypes (.cons hclosing .nil))))

/-- The types of the inputs end on both sides at once. -/
theorem inputTypes_parallel (hs : L.Places s s') :
    L.Parallel false (List.Forall₂ L.node) (inputTypes below) (inputTypes below) s s' := by
  refine .ite (isAt_eq hL hs (by decide)) (fun _ => .pure hs .nil) fun _ => ?_
  refine .bind (typeIdentifiers_parallel hL hb hs) fun htypes hs => ?_
  exact .pure hs (List.rel_map (fun _ _ h => L.withField _ h) htypes)

/-- A function type is read alike from its brace on. -/
theorem lambdaStructuralType_parallel (hs : L.Places s s') (hp : s.isAt .openBrace = true) :
    L.Parallel true L.node (lambdaStructuralType below) (lambdaStructuralType below) s s' := by
  refine .bind (leaf_parallel hL hs hp (by decide)) fun hopening hs => ?_
  refine .bind (inputTypes_parallel hL hb hs) fun hinputs hs => ?_
  refine .bind (expect_parallel hL hs (by decide)) fun hclosing hs => ?_
  refine .bind (expect_parallel hL hs (by decide)) fun harrow hs => ?_
  refine .bind (hb.typeIdentifier hs) fun hresult hs => ?_
  exact .pure hs (L.branch _ (.cons hopening (List.rel_append hinputs
    (.cons hclosing (.cons harrow (.cons (L.withField _ hresult) .nil))))))

/-- A type is picked by the next token; two dots pick none, as the end does not. -/
theorem typeReference_parallel (hs : L.Places s s') :
    L.Parallel true L.node (typeReference below) (typeReference below) s s' := by
  refine .peek hs (fun t ht => by rw [hL t ht]) (fun t ht => by rw [hL t ht]) fun o ho => ?_
  have hinner : ∀ {r : Rule Token RawNode}, L.Parallel true L.node r r s s' →
      L.Parallel true L.node (do return .branch Kind.typeIdentifier [← r])
        (do return .branch Kind.typeIdentifier [← r]) s s' := fun hr =>
    .bind hr fun hnode hs => .pure hs (L.branch _ (.cons hnode .nil))
  split
  · exact hinner (.leaf hs (ho _ rfl).1 (ho _ rfl).2)
  · exact hinner (.leaf hs (ho _ rfl).1 (ho _ rfl).2)
  · exact hinner (nominalType_parallel hL hb hs)
  · exact hinner (lambdaStructuralType_parallel hL hb hs (TokenStream.isAt_of_peek (ho _ rfl).1))
  · exact hinner (tupleStructuralType_parallel hL hb hs (TokenStream.isAt_of_peek (ho _ rfl).1))
  · exact hinner (.fail hs (List.cons_ne_nil _ _))

/-! ## Operands -/

omit hb in
/-- Two dots are no operator, so operands are extended alike. -/
theorem operatorForm?_of_stop (t : Token) (ht : L.IsStop t) : operators.form? t = none := by
  rw [hL t ht]
  rfl

/-- What extends like operands makes like nodes. -/
theorem extend_parallel {left left' : RawNode} (hs : L.Places s s') (hleft : L.node left left') :
    L.Parallel false L.node (operators.extend below.unary left)
      (operators.extend below.unary left') s s' :=
  .extend (operatorForm?_of_stop hL) hb.unary hs hleft

/-- A simple expression is read alike by its first operand and its operators. -/
theorem simpleExpression_parallel (hs : L.Places s s') :
    L.Parallel true L.node (simpleExpression below) (simpleExpression below) s s' :=
  .expression (operatorForm?_of_stop hL) hb.unary hs

/-- A tuple is read alike from its bracket on. -/
theorem tupleLiteral_parallel (hs : L.Places s s') (hp : s.isAt .openBracket = true) :
    L.Parallel true L.node (tupleLiteral below) (tupleLiteral below) s s' := by
  refine .bind (leaf_parallel hL hs hp (by decide)) fun hopening hs => ?_
  refine .bind (hb.expression hs) fun hfirst hs => ?_
  refine .bind (repeatMarked_parallel hL (by decide) hb.expression hs) fun hmore hs => ?_
  refine .bind (expect_parallel hL hs (by decide)) fun hclosing hs => ?_
  exact .pure hs (L.branch _ (.cons hopening (.cons hfirst
    (List.rel_append hmore (.cons hclosing .nil)))))

/-- An expression in parentheses is read alike at the level below. -/
theorem parenthisizedExpression_parallel (hs : L.Places s s') (hp : s.isAt .openParen = true) :
    L.Parallel true L.node (parenthisizedExpression below) (parenthisizedExpression below)
      s s' := by
  refine .bind (leaf_parallel hL hs hp (by decide)) fun hopening hs => ?_
  refine .bind (hb.expression hs) fun hexpression hs => ?_
  refine .bind (expect_parallel hL hs (by decide)) fun hclosing hs => ?_
  exact .pure hs (L.branch _ (.cons hopening (.cons hexpression (.cons hclosing .nil))))

/-- An expression in braces is read alike at the level below. -/
theorem lambdaExpression_parallel (hs : L.Places s s') (hp : s.isAt .openBrace = true) :
    L.Parallel true L.node (lambdaExpression below) (lambdaExpression below) s s' := by
  refine .bind (leaf_parallel hL hs hp (by decide)) fun hopening hs => ?_
  refine .bind (hb.expression hs) fun hexpression hs => ?_
  refine .bind (expect_parallel hL hs (by decide)) fun hclosing hs => ?_
  exact .pure hs (L.branch _ (.cons hopening (.cons hexpression (.cons hclosing .nil))))

omit hL hb in
/-- A truth value is a leaf in a node, on both sides. -/
theorem boolLiteral_parallel {t : Token} {kind : Kind} (hs : L.Places s s') (hp : s.peek = some t)
    (ht : ¬ L.IsLeftStop t) : L.Parallel true L.node (boolLiteral kind) (boolLiteral kind) s s' :=
  .bind (.leaf hs hp ht) fun htoken hs => .pure hs (L.branch _ (.cons htoken .nil))

/-- A type is refused on both sides or on neither, since two dots are no suffix. -/
theorem typeOperand_parallel (bareType : Bool) (hs : L.Places s s') :
    L.Parallel true L.node (typeOperand below bareType) (typeOperand below bareType) s s' := by
  refine .bind (nominalType_parallel hL hb hs) fun htype hs => .ite ?_ (fun _ => .pure hs htype)
    fun _ => .fail hs (List.cons_ne_nil _ _)
  rw [isAt_eq hL hs (by decide), isAt_eq hL hs (by decide)]

/-- An operand is picked by the next token; two dots pick none, as the end does not. -/
theorem primary_parallel (bareType : Bool) (hs : L.Places s s') :
    L.Parallel true L.node (primary below bareType) (primary below bareType) s s' := by
  refine .peek hs (fun t ht => by rw [hL t ht]) (fun t ht => by rw [hL t ht]) fun o ho => ?_
  split
  · exact .leaf hs (ho _ rfl).1 (ho _ rfl).2
  · exact .leaf hs (ho _ rfl).1 (ho _ rfl).2
  · exact .numeral hs (ho _ rfl).1 (ho _ rfl).2
  · exact .leaf hs (ho _ rfl).1 (ho _ rfl).2
  · exact boolLiteral_parallel hs (ho _ rfl).1 (ho _ rfl).2
  · exact boolLiteral_parallel hs (ho _ rfl).1 (ho _ rfl).2
  · exact .leaf hs (ho _ rfl).1 (ho _ rfl).2
  · exact .leaf hs (ho _ rfl).1 (ho _ rfl).2
  · exact tupleLiteral_parallel hL hb hs (TokenStream.isAt_of_peek (ho _ rfl).1)
  · exact parenthisizedExpression_parallel hL hb hs (TokenStream.isAt_of_peek (ho _ rfl).1)
  · exact lambdaExpression_parallel hL hb hs (TokenStream.isAt_of_peek (ho _ rfl).1)
  · exact typeOperand_parallel hL hb bareType hs
  · exact .fail hs (List.cons_ne_nil _ _)

/-- An argument is read alike by its parts. -/
theorem callParam_parallel (hs : L.Places s s') :
    L.Parallel true L.node (callParam below) (callParam below) s s' := by
  refine .bind (argumentName_parallel hL hs) fun hname hs => ?_
  refine .bind (colon_parallel hL hs) fun hcolon hs => ?_
  refine .bind (simpleExpression_parallel hL hb hs) fun hvalue hs => ?_
  refine .bind (optionalComma_parallel hL hs) fun hcomma hs => ?_
  exact .pure hs (L.branch _ (.cons (L.withField _ hname)
    (.cons hcolon (.cons (L.withField _ hvalue) hcomma))))

omit hb in
/-- Nodes that begin with a name and a colon each. -/
theorem repeatNamed_parallel {r : Rule Token RawNode}
    (hr : ∀ {s s'}, L.Places s s' → L.Parallel true L.node r r s s') (hs : L.Places s s') :
    L.Parallel false (List.Forall₂ L.node) (Rule.repeatWhile atNamedParam do return [← r])
      (Rule.repeatWhile atNamedParam do return [← r]) s s' :=
  .repeatEach (atNamedParam_eq hL) atNamedParam_of_end hr hs

/-- A row of arguments ends on both sides at once. -/
theorem callParams_parallel (hs : L.Places s s') :
    L.Parallel false (List.Forall₂ L.node) (callParams below) (callParams below) s s' := by
  refine .ite (atNamedParam_eq hL hs) (fun _ => ?_) fun _ => .pure hs .nil
  refine .bind (repeatNamed_parallel hL (callParam_parallel hL hb) hs) fun hparams hs => ?_
  exact .pure hs (.cons (L.withField _ (L.branch _ hparams)) .nil)

omit hb in
/-- Two dots are no suffix, so both runs see the same suffix or none. -/
theorem suffix?_eq (hs : L.Places s s') : suffix? s = suffix? s' :=
  eq_of_peek hL hs (fun h => by rw [suffix?, suffix?, h])
    (fun h => by rw [suffix?, h]) (fun h => by rw [suffix?, h])

omit hL hb in
/-- A suffix shows by a parenthesis or by a single dot. -/
theorem exists_peek_of_suffix? {suffix : Suffix} (h : suffix? s = some suffix) :
    (suffix = .call ∧ s.isAt .openParen = true) ∨ (suffix = .access ∧ s.isAt .dot = true) := by
  unfold suffix? at h
  split at h
  · exact .inl ⟨(Option.some.inj h).symm, TokenStream.isAt_of_peek ‹_›⟩
  · exact .inr ⟨(Option.some.inj h).symm, TokenStream.isAt_of_peek ‹_›⟩
  · cases h

/-- A like operand with a like suffix is a like node. -/
theorem withSuffix_parallel {suffix : Suffix} {operand operand' : RawNode} (hs : L.Places s s')
    (hsuffix : suffix? s = some suffix) (hoperand : L.node operand operand') :
    L.Parallel true L.node (withSuffix below suffix operand) (withSuffix below suffix operand')
      s s' := by
  rcases exists_peek_of_suffix? hsuffix with ⟨rfl, hp⟩ | ⟨rfl, hp⟩
  · refine .bind (leaf_parallel hL hs hp (by decide)) fun hopening hs => ?_
    refine .bind (callParams_parallel hL hb hs) fun hparams hs => ?_
    refine .bind (expect_parallel hL hs (by decide)) fun hclosing hs => ?_
    exact .pure hs (L.branch _ (.cons (L.withField _ hoperand)
      (.cons hopening (List.rel_append hparams (.cons hclosing .nil)))))
  · refine .bind (leaf_parallel hL hs hp (by decide)) fun hdot hs => ?_
    refine .bind (argumentName_parallel hL hs) fun hname hs => ?_
    exact .pure hs (L.branch _ (.cons hoperand (.cons hdot (.cons hname .nil))))

/-- Suffixes end on both sides at once. -/
theorem withSuffixes_parallel {operand operand' : RawNode} (hs : L.Places s s')
    (hoperand : L.node operand operand') :
    L.Parallel false L.node (withSuffixes below operand) (withSuffixes below operand') s s' :=
  .iterate (fun h => by simp [suffix?, TokenStream.peek, TokenStream.peekNth, h])
    (withSuffix_parallel hL hb) (suffix?_eq hL) hs hoperand

/-- An operand with its suffixes is read alike. -/
theorem suffixed_parallel (bareType : Bool) (hs : L.Places s s') :
    L.Parallel true L.node (suffixed below bareType) (suffixed below bareType) s s' :=
  .bind (primary_parallel hL hb bareType hs) fun hoperand hs =>
    withSuffixes_parallel hL hb hs hoperand

/-- Two dots are no sign, so both runs read the same signs. -/
theorem signed_parallel (hs : L.Places s s') :
    L.Parallel true L.node (signed below) (signed below) s s' :=
  .signed (fun t ht => by rw [hL t ht]; rfl) (suffixed_parallel hL hb false) hb.unary hs

/-! ## Expressions -/

/-- Whether a first capture begins with a type is the same on both sides. -/
theorem firstCapture_parallel (hs : L.Places s s') :
    L.Parallel true L.node (firstCapture below) (firstCapture below) s s' := by
  refine .ite (isAt_eq hL hs (by decide)) (fun _ => ?_) fun _ => simpleExpression_parallel hL hb hs
  exact .bind (suffixed_parallel hL hb true hs) fun hoperand hs => extend_parallel hL hb hs hoperand

/-- Captures are read alike, with as many commas. -/
theorem captureGroup_parallel (hs : L.Places s s') :
    L.Parallel true L.node (captureGroup below) (captureGroup below) s s' := by
  refine .bind (firstCapture_parallel hL hb hs) fun hfirst hs => ?_
  refine .bind (repeatMarked_parallel hL (by decide) (simpleExpression_parallel hL hb) hs) fun hmore
    hs => ?_
  exact .pure hs (L.branch _ (.cons hfirst hmore))

/-- Behind parentheses both runs see a caret, or neither does. -/
theorem afterParens_parallel {parens parens' : RawNode} (hs : L.Places s s')
    (hparens : L.node parens parens') :
    L.Parallel false L.node (afterParens below parens) (afterParens below parens') s s' := by
  refine .ite (isAt_eq hL hs (by decide)) (fun hp => ?_) fun _ => ?_
  · refine .bind (leaf_parallel hL hs hp (by decide)) fun hcaret hs => ?_
    exact .pure hs (L.branch _ (.cons hparens (.cons hcaret .nil)))
  · refine .bind (withSuffixes_parallel hL hb hs hparens) fun hoperand hs => ?_
    exact extend_parallel hL hb hs hoperand

/-- The body of a branch is a loop on both sides, or on neither. -/
theorem branchBody_parallel (hs : L.Places s s') :
    L.Parallel true L.node (branchBody below) (branchBody below) s s' := by
  refine .ite (isAt_eq hL hs (by decide)) (fun hp => ?_) fun _ => simpleExpression_parallel hL hb hs
  refine .bind (parenthisizedExpression_parallel hL hb hs hp) fun hparens hs => ?_
  exact afterParens_parallel hL hb hs hparens

/-- A branch is read alike from its bar on. -/
theorem branchExpression_parallel (hs : L.Places s s') (hp : s.isAt .pipe = true) :
    L.Parallel true L.node (branchExpression below) (branchExpression below) s s' := by
  refine .bind (leaf_parallel hL hs hp (by decide)) fun hopening hs => ?_
  refine .bind (captureGroup_parallel hL hb hs) fun hcaptures hs => ?_
  refine .bind (expect_parallel hL hs (by decide)) fun hclosing hs => ?_
  refine .bind (branchBody_parallel hL hb hs) fun hbody hs => ?_
  exact .pure hs (L.branch _ (.cons hopening (.cons (L.withField _ hcaptures)
    (.cons hclosing (.cons (L.withField _ hbody) .nil)))))

omit hb in
/-- Another branch shows by a comma and a bar, of which neither is a pair of dots. -/
theorem atNextBranch_eq (hs : L.Places s s') : atNextBranch s = atNextBranch s' :=
  hs.and_next_eq (f := fun o => o == some Token.comma) (g := fun o => o == some Token.pipe) rfl
    (fun t ht => by rw [hL t ht]; rfl) fun t ht => by rw [hL t ht]; rfl

/-- Behind the comma both runs are in front of a bar. -/
theorem nextBranch_parallel (hs : L.Places s s') (hnext : atNextBranch s = true) :
    L.Parallel true (List.Forall₂ L.node)
      (do
        let comma ← Rule.leaf Kind.comma
        return [comma, ← branchExpression below])
      (do
        let comma ← Rule.leaf Kind.comma
        return [comma, ← branchExpression below]) s s' := by
  obtain ⟨hcomma, hpipe⟩ := atNextBranch_iff.1 hnext
  refine .marked hs hcomma (not_isLeftStop hL (by decide)) fun hs => ?_
  exact branchExpression_parallel hL hb hs (TokenStream.isAt_of_peek hpipe)

/-- A default is read on both sides, or on neither. -/
theorem branchDefault_parallel (hs : L.Places s s') :
    L.Parallel false (List.Forall₂ L.node) (branchDefault below) (branchDefault below) s s' :=
  .ite (isAt_eq hL hs (by decide))
    (fun hp => .weaken (marked_parallel hL (by decide) (simpleExpression_parallel hL hb) hs hp))
    fun _ => .pure hs .nil

/-- Branches are read alike, with as many of them and with or without a default. -/
theorem branchedExpression_parallel (hs : L.Places s s') (hp : s.isAt .pipe = true) :
    L.Parallel true L.node (branchedExpression below) (branchedExpression below) s s' := by
  refine .bind (branchExpression_parallel hL hb hs hp) fun hfirst hs => ?_
  refine .bind (.repeatWhile (fun h => by simp [atNextBranch, TokenStream.isAt_of_end h])
    (nextBranch_parallel hL hb) (atNextBranch_eq hL) hs) fun hmore hs => ?_
  refine .bind (branchDefault_parallel hL hb hs) fun hdefault hs => ?_
  exact .pure hs (L.branch _ (.cons hfirst (List.rel_append hmore hdefault)))

/-- A step has branches on both sides, or on neither. -/
theorem pipeOperand_parallel (hs : L.Places s s') :
    L.Parallel true L.node (pipeOperand below) (pipeOperand below) s s' :=
  .ite (isAt_eq hL hs (by decide)) (branchedExpression_parallel hL hb hs)
    fun _ => simpleExpression_parallel hL hb hs

omit hb in
/-- Two dots join no steps, so both runs see the same operator or none. -/
theorem pipeKind?_eq (hs : L.Places s s') : pipeKind? s = pipeKind? s' :=
  eq_of_peek hL hs (fun h => by rw [pipeKind?, pipeKind?, h])
    (fun h => by rw [pipeKind?, h]) (fun h => by rw [pipeKind?, h])

omit hL hb in
/-- What joins two steps shows by one token, which is no pair of dots. -/
theorem exists_peek_of_pipeKind? {kind : Kind} (h : pipeKind? s = some kind) :
    ∃ t, s.isAt t = true ∧ t ≠ .dotDot := by
  unfold pipeKind? at h
  split at h
  · exact ⟨.question, TokenStream.isAt_of_peek ‹_›, by decide⟩
  · exact ⟨.semicolon, TokenStream.isAt_of_peek ‹_›, by decide⟩
  · cases h

/-- Chains are read alike, with as many steps. -/
theorem pipeChain_parallel (hs : L.Places s s') :
    L.Parallel true L.node (pipeChain below) (pipeChain below) s s' := by
  refine .bind (pipeOperand_parallel hL hb hs) fun hfirst hs => .iterate
    (fun h => by simp [pipeKind?, TokenStream.peek, TokenStream.peekNth, h])
    (fun hs hkind hleft => ?_) (pipeKind?_eq hL) hs hfirst
  obtain ⟨t, hp, ht⟩ := exists_peek_of_pipeKind? hkind
  refine .bind (leaf_parallel hL hs hp ht) fun htoken hs => ?_
  refine .bind (pipeOperand_parallel hL hb hs) fun hright hs => ?_
  exact .pure hs (L.branch _ (.cons (L.withField _ hleft)
    (.cons (L.withField _ (L.branch _ (.cons htoken .nil))) (.cons (L.withField _ hright) .nil))))

end Rules

/-- The rules of every level do the same on both streams. -/
theorem level_parallel (n : Nat) : (level n).Parallel L :=
  Nested.level_forall ⟨.tooDeep, .tooDeep, .tooDeep⟩ (fun _ hb =>
    ⟨pipeChain_parallel hL hb, typeReference_parallel hL hb, signed_parallel hL hb⟩) n

theorem top_parallel : top.Parallel L := level_parallel hL _

/-! ## Statements -/

/-- A default value is read on both sides, or on neither. -/
theorem defaultValue_parallel (hs : L.Places s s') :
    L.Parallel false (List.Forall₂ L.node) defaultValue defaultValue s s' := by
  refine .ite (isAt_eq hL hs (by decide)) (fun hp => ?_) fun _ => .pure hs .nil
  refine .bind (leaf_parallel hL hs hp (by decide)) fun hopening hs => ?_
  refine .bind (simpleExpression_parallel hL (top_parallel hL) hs) fun hvalue hs => ?_
  refine .bind (expect_parallel hL hs (by decide)) fun hclosing hs => ?_
  exact .pure hs (.cons hopening (.cons (L.withField _ hvalue) (.cons hclosing .nil)))

/-- A parameter is read alike by its parts. -/
theorem paramDefinition_parallel (hs : L.Places s s') :
    L.Parallel true L.node paramDefinition paramDefinition s s' := by
  refine .bind (argumentName_parallel hL hs) fun hname hs => ?_
  refine .bind (colon_parallel hL hs) fun hcolon hs => ?_
  refine .bind ((top_parallel hL).typeIdentifier hs) fun htype hs => ?_
  refine .bind (defaultValue_parallel hL hs) fun hvalue hs => ?_
  refine .bind (optionalComma_parallel hL hs) fun hcomma hs => ?_
  exact .pure hs (L.branch _ (.cons (L.withField _ hname)
    (.cons hcolon (.cons (L.withField _ htype) (List.rel_append hvalue hcomma)))))

/-- A row of parameters ends on both sides at once. -/
theorem paramList_parallel (hs : L.Places s s') :
    L.Parallel false (List.Forall₂ L.node) paramList paramList s s' := by
  refine .ite (atNamedParam_eq hL hs) (fun _ => ?_) fun _ => .pure hs .nil
  refine .bind (repeatNamed_parallel hL (paramDefinition_parallel hL) hs) fun hparams hs => ?_
  exact .pure hs (.cons (L.withField _ (L.branch _ hparams)) .nil)

/-- Behind like names, like types with parameters are read. -/
theorem simpleTypeDefinition_parallel {name name' : RawNode} (hs : L.Places s s')
    (hname : L.node name name') :
    L.Parallel false L.node (simpleTypeDefinition name) (simpleTypeDefinition name') s s' :=
  .bind (paramList_parallel hL hs) fun hparams hs =>
    .pure hs (L.branch _ (.cons (L.withField _ hname) hparams))

/-- Behind like names, like cases are read, and as many of them. -/
theorem enumTypeDefinition_parallel {name name' : RawNode} (hs : L.Places s s')
    (hname : L.node name name') :
    L.Parallel false L.node (enumTypeDefinition name) (enumTypeDefinition name') s s' := by
  refine .bind (.repeatWhile TokenStream.isAt_of_end (fun hs _ => ?_)
    (fun hs => isAt_eq hL hs (by decide)) hs) fun hcases hs => ?_
  · refine .bind (nominalType_parallel hL (top_parallel hL) hs) fun hcase hs => ?_
    refine .bind (simpleTypeDefinition_parallel hL hs hcase) fun hcase hs => ?_
    exact .pure hs (.cons (L.withField _ hcase) .nil)
  · exact .pure hs (L.branch _ (.cons (L.withField _ hname) hcases))

/-- A type has cases on both sides, or on neither. -/
theorem typeDefinition_parallel (hs : L.Places s s') (hp : s.isAt .typeKeyword = true) :
    L.Parallel true L.node typeDefinition typeDefinition s s' := by
  refine .bind (leaf_parallel hL hs hp (by decide)) fun hkeyword hs => ?_
  refine .bind (nominalType_parallel hL (top_parallel hL) hs) fun hname hs => ?_
  refine .ite (isAt_eq hL hs (by decide)) (fun _ => ?_) fun _ => ?_
  · refine .bind (enumTypeDefinition_parallel hL hs hname) fun hdefinition hs => ?_
    exact .pure hs (L.branch _ (.cons hkeyword (.cons hdefinition .nil)))
  · refine .bind (simpleTypeDefinition_parallel hL hs hname) fun hdefinition hs => ?_
    exact .pure hs (L.branch _ (.cons hkeyword (.cons hdefinition .nil)))

/-- There is a first module on both sides, or on neither. -/
theorem firstModule_parallel (hs : L.Places s s') :
    L.Parallel false (List.Forall₂ L.node) firstModule firstModule s s' := by
  refine .ite (isAt_eq hL hs (by decide)) (fun _ => ?_) fun _ => .pure hs .nil
  refine .bind (nominalType_parallel hL (top_parallel hL) hs) fun hmodule hs => ?_
  exact .pure hs (.cons hmodule .nil)

/-- A namespace is read alike from its keyword on. -/
theorem namespaceState_parallel (hs : L.Places s s') (hp : s.isAt .namespaceKeyword = true) :
    L.Parallel true L.node namespaceState namespaceState s s' := by
  refine .bind (leaf_parallel hL hs hp (by decide)) fun hkeyword hs => ?_
  refine .bind (expect_parallel hL hs (by decide)) fun hopening hs => ?_
  refine .bind (firstModule_parallel hL hs) fun hfirst hs => ?_
  refine .bind (repeatMarked_parallel hL (by decide) (nominalType_parallel hL (top_parallel hL)) hs)
    fun hmore hs => ?_
  refine .bind (expect_parallel hL hs (by decide)) fun hclosing hs => ?_
  exact .pure hs (L.branch _ (.cons hkeyword (.cons hopening
    (List.rel_append (List.rel_append hfirst hmore) (.cons hclosing .nil)))))

/-- Behind like scopes, like named values are read. -/
theorem constantsStatement_parallel {scope scope' : List RawNode} (hs : L.Places s s')
    (hscope : List.Forall₂ L.node scope scope') :
    L.Parallel true L.node (constantsStatement scope) (constantsStatement scope') s s' := by
  refine .bind (argumentName_parallel hL hs) fun hname hs => ?_
  refine .bind (expect_parallel hL hs (by decide)) fun hequals hs => ?_
  refine .bind (simpleExpression_parallel hL (top_parallel hL) hs) fun hvalue hs => ?_
  exact .pure hs (L.branch _ (List.rel_append hscope
    (.cons hname (.cons hequals (.cons hvalue .nil)))))

/-- The type of the input is read on both sides, or on neither. -/
theorem inputType_parallel (hs : L.Places s s') :
    L.Parallel false (List.Forall₂ L.node) inputType inputType s s' := by
  refine .ite (isAt_eq hL hs (by decide)) (fun hp => ?_) fun _ => .pure hs .nil
  refine .bind (leaf_parallel hL hs hp (by decide)) fun hopening hs => ?_
  refine .bind ((top_parallel hL).typeIdentifier hs) fun htype hs => ?_
  refine .bind (expect_parallel hL hs (by decide)) fun hclosing hs => ?_
  exact .pure hs (.cons hopening (.cons (L.withField _ htype) (.cons hclosing .nil)))

/-- The type that a function belongs to is read on both sides, or on neither. -/
theorem functionScope_parallel (hs : L.Places s s') :
    L.Parallel false (List.Forall₂ L.node) functionScope functionScope s s' := by
  refine .ite (isAt_eq hL hs (by decide)) (fun _ => ?_) fun _ => .pure hs .nil
  refine .bind (nominalType_parallel hL (top_parallel hL) hs) fun htype hs => ?_
  refine .bind (expect_parallel hL hs (by decide)) fun hdot hs => ?_
  exact .pure hs (.cons (L.withField _ htype) (.cons (L.withField _ hdot) .nil))

/-- Behind the keyword, all parts of a function are read alike. -/
theorem functionDefinition_parallel (hs : L.Places s s') (hp : s.isAt .funcKeyword = true) :
    L.Parallel true L.node functionDefinition functionDefinition s s' := by
  refine .bind (leaf_parallel hL hs hp (by decide)) fun hkeyword hs => ?_
  refine .bind (inputType_parallel hL hs) fun hinput hs => ?_
  refine .bind (functionScope_parallel hL hs) fun hscope hs => ?_
  refine .bind (argumentName_parallel hL hs) fun hname hs => ?_
  refine .bind (expect_parallel hL hs (by decide)) fun hopening hs => ?_
  refine .bind (paramList_parallel hL hs) fun hparams hs => ?_
  refine .bind (expect_parallel hL hs (by decide)) fun hclosing hs => ?_
  refine .bind (expect_parallel hL hs (by decide)) fun harrow hs => ?_
  refine .bind ((top_parallel hL).typeIdentifier hs) fun houtput hs => ?_
  refine .bind ((top_parallel hL).expression hs) fun hbody hs => ?_
  refine .pure hs (L.branch _ ?_)
  have hresult := List.Forall₂.cons (L.withField Field.params hclosing) (.cons harrow
    (.cons (L.withField Field.outputType houtput) (.cons (L.withField Field.body hbody) .nil)))
  have hnamed := List.Forall₂.cons (L.withField Field.name hname)
    (.cons (L.withField Field.params hopening) hparams)
  exact .cons hkeyword (List.rel_append (List.rel_append (List.rel_append hinput hscope) hnamed)
    hresult)

/-- What begins with a type is told by the token behind it, where two dots are an error as the end
    is. -/
theorem scopedStatement_parallel (hs : L.Places s s') :
    L.Parallel true L.node scopedStatement scopedStatement s s' := by
  refine .bind (nominalType_parallel hL (top_parallel hL) hs) fun htype hs => ?_
  refine .peek hs (fun t ht => by rw [hL t ht]) (fun t ht => by rw [hL t ht]) fun o ho => ?_
  split
  · refine .bind (.leaf hs (ho _ rfl).1 (ho _ rfl).2) fun hequals hs => ?_
    refine .bind (nominalType_parallel hL (top_parallel hL) hs) fun himplementation hs => ?_
    exact .pure hs (L.branch _ (.cons htype (.cons hequals (.cons himplementation .nil))))
  · refine .bind (.leaf hs (ho _ rfl).1 (ho _ rfl).2) fun hdot hs => ?_
    exact (constantsStatement_parallel hL hs (.cons htype (.cons hdot .nil))).weaken
  · exact .fail hs (List.cons_ne_nil _ _)

/-- A statement up to its two dots is read alike from streams that are alike. -/
theorem openStatement_parallel (hs : L.Places s s') :
    L.Parallel true L.node openStatement openStatement s s' := by
  refine .peek hs (fun t ht => by rw [hL t ht]) (fun t ht => by rw [hL t ht]) fun o ho => ?_
  split
  · exact namespaceState_parallel hL hs (TokenStream.isAt_of_peek (ho _ rfl).1)
  · exact typeDefinition_parallel hL hs (TokenStream.isAt_of_peek (ho _ rfl).1)
  · exact functionDefinition_parallel hL hs (TokenStream.isAt_of_peek (ho _ rfl).1)
  · exact scopedStatement_parallel hL hs
  · exact constantsStatement_parallel hL hs .nil
  · exact constantsStatement_parallel hL hs .nil
  · exact .fail hs (List.cons_ne_nil _ _)

end GrammarTools.Peopl
