import GrammarTools.Proofs.Peopl.Layout

/-!
# Where the types of PeoPl stand

A type stands in a declaration, inside another type, in front of a suffix, or at
the start of a capture. What a capture starts with goes on like any other
expression, so operators may join a type at the start of a capture to operands
behind it (`types_stand`). The type is then the left operand of the first
operator, which is the only place where an operator has a type
(`capture_joins_type`).
-/

namespace GrammarTools.Peopl

/-- The places where a type stands, by the kind of the node above it, the part that the type fills
    and the nodes in front of it. -/
inductive TypePlace : Kind → Option Field → List RawNode → Prop
  /-- In a declaration or inside another type. -/
  | declared {kind : Kind} {part : Option Field} {before : List RawNode} :
      kind ∈ [Kind.typeIdentifier, .namespaceState, .implementationStatement,
        .simpleTypeDefinition, .enumTypeDefinition] → TypePlace kind part before
  /-- The type that a function belongs to. -/
  | scope {before : List RawNode} : TypePlace .functionDefinition (some .scope) before
  /-- What a call calls. -/
  | command {before : List RawNode} : TypePlace .callExpression (some .command) before
  /-- The type of a constant, what an access reads, and the first capture. -/
  | first {kind : Kind} {part : Option Field} :
      kind ∈ [Kind.constantsStatement, .accessExpression, .captureGroup] → TypePlace kind part []

/-- The left operand of an operator. -/
def IsLeftOperand (kind : Kind) (part : Option Field) : Prop :=
  kind = .binaryExpression ∧ part = some .left

/-- The nodes of a sort stand in some places only, which are given by the kind of the node above,
    the part that the node fills and the nodes in front of it. -/
def StandAt (root : RawNode) (sort : RawNode → Prop)
    (place : Kind → Option Field → List RawNode → Prop) : Prop :=
  ∀ parent ∈ root.preorder, ∀ before child after, parent.children = before ++ child :: after →
    sort child → ∃ kind part, parent.kind = kind.id ∧ child.field = part.map Field.id ∧
      place kind part before

/-- A type. -/
def IsType (node : RawNode) : Prop := node.kind = Kind.nominalType.id

/-- Joined operands that begin with a type. -/
def BeginsWithType (node : RawNode) : Prop :=
  node.kind = Kind.binaryExpression.id ∧ IsType (operatorNodes.firstOperand node)

/-! ## Slots -/

/-- The slots that take types. -/
theorem slots_nominalType (kind : Kind) : ∀ slot ∈ (layout kind).slots,
    .nominalType ∈ slot.1 →
      kind ∈ [Kind.typeIdentifier, .namespaceState, .implementationStatement,
        .simpleTypeDefinition, .enumTypeDefinition] ∨
      kind = .functionDefinition ∧ slot.2 = some .scope ∨
      kind = .callExpression ∧ slot.2 = some .command ∨
      kind ∈ [Kind.constantsStatement, .accessExpression, .captureGroup] ∧
        slot ∉ (layout kind).laterSlots ∨
      kind = .binaryExpression ∧ slot.2 = some .left := by
  cases kind <;> decide

/-- The slots that take joined operands that begin with a type. -/
theorem slots_joined (kind : Kind) : ∀ slot ∈ (layout kind).slots,
    .binaryExpression ∈ slot.1 → .nominalType ∈ slot.1 →
      kind = .captureGroup ∧ slot ∉ (layout kind).laterSlots ∨
      kind = .binaryExpression ∧ slot.2 = some .left := by
  cases kind <;> decide

/-- What stands below a node that is laid out as its kind says fits a slot of the kind. -/
theorem exists_slot_of_allows {parent child : RawNode} {before after : List RawNode}
    (h : schema.Allows parent) (hc : parent.children = before ++ child :: after) :
    ∃ kind, parent.kind = Kind.id kind ∧ ∃ slot ∈ (layout kind).slots,
      child.field = slot.2.map Field.id ∧
      (∀ own, child.kind = Kind.id own → own ∈ slot.1) ∧
      (∀ first, (operatorNodes.firstOperand child).kind = Kind.id first → first ∈ slot.1) ∧
      (slot ∉ (layout kind).laterSlots → before = []) := by
  obtain ⟨⟨kind, hk, hfits⟩, -⟩ := h
  obtain ⟨slot, hslot, hchild, hlater⟩ := hfits.exists_slot hc
  refine ⟨kind, hk, slot, hslot, ?_⟩
  cases hchild with
  | one hkind hid hfield hfirst hfirstId =>
    refine ⟨hfield, fun own hown => ?_, fun first hown => ?_, fun hnot => ?_⟩
    · exact Kind.id_injective (hid.symm.trans hown) ▸ hkind
    · exact Kind.id_injective (hfirstId.symm.trans hown) ▸ hfirst
    · exact Classical.byContradiction fun hne => hnot (hlater hne)

/-! ## Trees -/

variable {root : RawNode}

theorem types_stand_of_allows (h : ∀ n ∈ root.preorder, schema.Allows n) :
    StandAt root IsType fun kind part before =>
      TypePlace kind part before ∨ IsLeftOperand kind part := by
  intro parent hp before child after hc htype
  obtain ⟨kind, hk, ⟨kinds, part⟩, hslot, hfield, hown, -, hlater⟩ :=
    exists_slot_of_allows (h parent hp) hc
  refine ⟨kind, part, hk, hfield, ?_⟩
  -- The slots that take types leave a few places only.
  rcases slots_nominalType kind _ hslot (hown _ htype) with
    hkind | ⟨rfl, rfl⟩ | ⟨rfl, rfl⟩ | ⟨hkind, hnot⟩ | hleft
  · exact .inl (.declared hkind)
  · exact .inl .scope
  · exact .inl .command
  · obtain rfl := hlater hnot
    exact .inl (.first hkind)
  · exact .inr hleft

theorem joinedTypes_stand_of_allows (h : ∀ n ∈ root.preorder, schema.Allows n) :
    StandAt root BeginsWithType fun kind part before =>
      kind = .captureGroup ∧ before = [] ∨ IsLeftOperand kind part := by
  intro parent hp before child after hc hjoined
  obtain ⟨kind, hk, ⟨kinds, part⟩, hslot, hfield, hown, hfirst, hlater⟩ :=
    exists_slot_of_allows (h parent hp) hc
  refine ⟨kind, part, hk, hfield, ?_⟩
  rcases slots_joined kind _ hslot (hown _ hjoined.1) (hfirst _ hjoined.2) with
    ⟨hkind, hnot⟩ | hleft
  · exact .inl ⟨hkind, hlater hnot⟩
  · exact .inr hleft

/-- Types stand in their places, or to the left of an operator. What such an operator joins is the
    first capture of a branch, or stands in turn to the left of an operator. -/
theorem types_stand (source : String) :
    StandAt ((grammar.parse source).root.without Kind.comment) IsType
        (fun kind part before => TypePlace kind part before ∨ IsLeftOperand kind part) ∧
      StandAt ((grammar.parse source).root.without Kind.comment) BeginsWithType
        (fun kind part before =>
          kind = .captureGroup ∧ before = [] ∨ IsLeftOperand kind part) := by
  have hall := grammar_conforms.allows_parse grammar_isProgressive grammar_isFaithful (by decide)
    source
  exact ⟨types_stand_of_allows hall, joinedTypes_stand_of_allows hall⟩

/-- An operator joins the type that a capture begins with. -/
theorem capture_joins_type : ¬ ∀ source : String,
    StandAt ((grammar.parse source).root.without Kind.comment) IsType TypePlace := by
  intro h
  have hjoined : ((grammar.parse "a = (|Foo + x| 1)..").root.without Kind.comment).preorder.any
      (fun n => n.kind == Kind.binaryExpression.id &&
        n.children.head?.any (fun left => left.kind == Kind.nominalType.id)) = true := by
    cbv
  obtain ⟨parent, hp, hparent⟩ := List.any_eq_true.1 hjoined
  obtain ⟨hbinary, hhead⟩ := Bool.and_eq_true_iff.1 hparent
  obtain ⟨child, hchild, htype⟩ := Option.any_eq_true .. |>.1 hhead
  obtain ⟨after, hc⟩ := List.head?_eq_some_iff.1 hchild
  obtain ⟨kind, part, hk, -, hplace⟩ := h _ parent hp [] child after hc (eq_of_beq htype)
  obtain rfl := Kind.id_injective (hk.symm.trans (eq_of_beq hbinary))
  cases hplace with
  | declared hkind | first hkind => exact absurd hkind (by decide)

end GrammarTools.Peopl
