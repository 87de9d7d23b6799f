import GrammarTools.Proofs.Peopl.Layout
import GrammarTools.Proofs.Peopl.Reading
import GrammarTools.Proofs.Simpl.Layout
import GrammarTools.Proofs.Simpl.Reading

/-!
# How operators bind

In the trees of both languages an operator binds no tighter than the operators
joined to its left, and looser than those joined to its right. No sign stands in
front of joined operands, and steps are joined to the left. In PeoPl calls and
accesses bind tighter than all of these (`parse_isCanonical`).

All this shows in how the nodes below a node are laid out, and the trees of both
languages conform to the layouts. What is read behind an operand settles the
tree: it is the only ranked one of the same operands and operators
(`Operators.BuildsRanked`).
-/

namespace GrammarTools

variable {τ : Type}

/-- Operators bind as they should in a tree. -/
structure OperatorNodes.IsCanonical (ops : OperatorNodes τ) (root : RawNode) : Prop where
  binary : ∀ n ∈ root.preorder, n.kind = ops.binary → ops.IsRanked n.children
  unary : ∀ n ∈ root.preorder, n.kind = ops.unary → ∃ operator operand,
    n.children = [operator, operand] ∧ operator.field = some ops.operator ∧
      operand.field = some ops.operand ∧ operand.kind ≠ ops.binary
  pipe : ∀ n ∈ root.preorder, n.kind = ops.pipe → ∃ left token right,
    n.children = [left, token, right] ∧ left.field = some ops.left ∧
      right.field = some ops.right ∧ right.kind ≠ ops.pipe

/-- Calls and accesses bind tighter than signs, operators and semicolons in a tree. -/
def Peopl.BindsSuffixes (root : RawNode) : Prop :=
  ∀ n ∈ root.preorder, n.kind = Kind.callExpression ∨ n.kind = Kind.accessExpression →
    ∃ first more, n.children = first :: more ∧
      (n.kind = Kind.callExpression → first.field = some Field.command.id) ∧
      first.kind ∉ [Kind.unaryExpression.id, Kind.binaryExpression.id, Kind.pipedExpression.id]

/-- Whatever operand comes first and whatever operators and operands follow, there is one ranked
    tree of them, and this is built wherever they are read. -/
def Operators.BuildsRanked (ops : Operators τ) (operand : Rule τ RawNode) : Prop :=
  ∀ first items, ∃ t : OperatorTree, (t.first = first ∧ t.rest = items ∧ t.IsRanked) ∧
    (∀ t' : OperatorTree, t'.first = first ∧ t'.rest = items ∧ t'.IsRanked → t' = t) ∧
    ∀ s s', ops.Chain operand s items s' → ops.upcoming? s' = none →
      ops.extend operand first s = .ok (ops.treeNode t, s')

theorem Operators.buildsRanked {ops : Operators τ} {operand : Rule τ RawNode}
    (hahead : ∀ {s node s'}, operand s = .ok (node, s') → s'.IsAhead s) :
    ops.BuildsRanked operand := fun first items => by
  obtain ⟨t, ⟨rfl, rfl, hranked⟩, hunique⟩ := OperatorTree.existsUnique_isRanked first items
  exact ⟨t, ⟨rfl, rfl, hranked⟩, hunique, fun s s' h hs' =>
    extend_of_chain hahead hranked h hs'⟩

/-! ## Canonical trees -/

namespace Schema

variable {κ φ : Type} {S : Schema τ κ φ} {root : RawNode} {unary pipe : κ}

/-- Operators bind as they should in trees that conform to a schema in which no sign stands in
    front of joined operands, and no joined steps stand to the right of a step. -/
theorem isCanonical (hunary : S.operators.unary = S.kindId unary)
    (hpipe : S.operators.pipe = S.kindId pipe)
    {signs operands lefts tokens rights : List κ} {operator operand left right : φ}
    {token : Option φ}
    (hsigned : S.layout unary = .part operator signs ++ .part operand operands)
    (hpiped : S.layout pipe = .part left lefts ++ .one tokens token ++ .part right rights)
    (hfields : S.fieldId operator = S.operators.operator ∧
      S.fieldId operand = S.operators.operand ∧ S.fieldId left = S.operators.left ∧
        S.fieldId right = S.operators.right)
    (hoperands : ∀ kind ∈ operands, S.kindId kind ≠ S.operators.binary)
    (hrights : ∀ kind ∈ rights, S.kindId kind ≠ S.operators.pipe)
    (h : ∀ n ∈ root.preorder, S.Allows n) : S.operators.IsCanonical root where
  -- For binary expressions this is part of what the schema allows; the other two are cut into
  -- their parts.
  binary n hn hk := (h n hn).2 hk
  unary n hn hk := by
    have hfits := (h n hn).fits (hk.trans hunary)
    rw [hsigned] at hfits
    obtain ⟨_, _, hc, hfront, hback⟩ := hfits.exists_of_seq
    obtain ⟨a, rfl, ha, -⟩ := hfront.exists_of_one
    obtain ⟨b, rfl, hb, kind, hkind, hid⟩ := hback.exists_of_one
    exact ⟨a, b, hc, ha.trans (congrArg some hfields.1), hb.trans (congrArg some hfields.2.1),
      hid ▸ hoperands kind hkind⟩
  pipe n hn hk := by
    have hfits := (h n hn).fits (hk.trans hpipe)
    rw [hpiped] at hfits
    obtain ⟨_, _, hc, hfront, hback⟩ := hfits.exists_of_seq
    obtain ⟨_, _, rfl, hleft, htoken⟩ := hfront.exists_of_seq
    obtain ⟨a, rfl, ha, -⟩ := hleft.exists_of_one
    obtain ⟨b, rfl, -⟩ := htoken.exists_of_one
    obtain ⟨c, rfl, hright, kind, hkind, hid⟩ := hback.exists_of_one
    exact ⟨a, b, c, hc, ha.trans (congrArg some hfields.2.2.1),
      hright.trans (congrArg some hfields.2.2.2), hid ▸ hrights kind hkind⟩

end Schema

theorem Simpl.isCanonical_parse (source : String) : operatorNodes.IsCanonical
    ((grammar.parse source).root.without Kind.comment) :=
  schema.isCanonical rfl rfl rfl rfl ⟨rfl, rfl, rfl, rfl⟩ (by decide)
    (by decide) (grammar_conforms.allows_parse grammar_isProgressive grammar_isFaithful
      (by decide) source)

namespace Peopl

theorem isCanonical_parse (source : String) : operatorNodes.IsCanonical
    ((grammar.parse source).root.without Kind.comment) :=
  schema.isCanonical rfl rfl rfl rfl ⟨rfl, rfl, rfl, rfl⟩ (by decide)
    (by decide) (grammar_conforms.allows_parse grammar_isProgressive grammar_isFaithful
      (by decide) source)

/-- What stands in front of a suffix is an atom or a type. -/
theorem bindsSuffixes_of_allows {root : RawNode} (h : ∀ n ∈ root.preorder, schema.Allows n) :
    BindsSuffixes root := by
  have hatoms : ∀ kind ∈ Kind.nominalType :: Kind.atoms, kind.id ∉
      [Kind.unaryExpression.id, Kind.binaryExpression.id, Kind.pipedExpression.id] := by decide
  intro n hn hk
  rcases hk with hk | hk
  · have hfits := (h n hn).fits hk
    obtain ⟨_, _, hc, hfits, -⟩ := hfits.exists_of_seq
    obtain ⟨_, _, rfl, hfits, -⟩ := hfits.exists_of_seq
    obtain ⟨_, _, rfl, hfits, -⟩ := hfits.exists_of_seq
    obtain ⟨first, rfl, hfield, kind, hkind, hid⟩ := hfits.exists_of_one
    exact ⟨first, _, hc, fun _ => hfield, hid ▸ hatoms kind hkind⟩
  · have hfits := (h n hn).fits hk
    obtain ⟨_, _, hc, hfits, -⟩ := hfits.exists_of_seq
    obtain ⟨_, _, rfl, hfits, -⟩ := hfits.exists_of_seq
    obtain ⟨first, rfl, -, kind, hkind, hid⟩ := hfits.exists_of_one
    refine ⟨first, _, hc, fun hcall => ?_, hid ▸ hatoms kind hkind⟩
    rw [hk] at hcall
    exact absurd hcall (by decide)

end Peopl

/-! ## Canonical structure -/

/-- Operators, signs, suffixes and steps bind as they should in the trees of both parsers, and
    operands are joined to the only ranked tree of them. -/
theorem parse_isCanonical (source : String) :
    Simpl.operatorNodes.IsCanonical
        ((Simpl.grammar.parse source).root.without Simpl.Kind.comment) ∧
    Peopl.operatorNodes.IsCanonical
        ((Peopl.grammar.parse source).root.without Peopl.Kind.comment) ∧
    Peopl.BindsSuffixes ((Peopl.grammar.parse source).root.without Peopl.Kind.comment) ∧
    ∀ n, Simpl.operators.BuildsRanked (Simpl.level n).unary ∧
      Peopl.operators.BuildsRanked (Peopl.level n).unary := by
  refine ⟨Simpl.isCanonical_parse source, Peopl.isCanonical_parse source,
    Peopl.bindsSuffixes_of_allows (Peopl.grammar_conforms.allows_parse
      Peopl.grammar_isProgressive Peopl.grammar_isFaithful (by decide) source), fun n => ⟨?_, ?_⟩⟩
  · exact Operators.buildsRanked fun h =>
      ((Simpl.level_reads n).unary h).between.isAhead Simpl.productions_isSolid rfl
  · exact Operators.buildsRanked fun h =>
      ((Peopl.level_reads n).unary h).between.isAhead Peopl.productions_isSolid rfl

end GrammarTools
