import GrammarTools.Highlight
import GrammarTools.Proofs.Rebuilding

/-!
# What nodes are shown as

How a node is shown depends on three names only, that of its kind, that of the
kind above and that of its field (`Language.tokenType?`). So what is shown of a
source can be read off the raw tree (`RawNode.shown`): a node that some rule
captures is shown as a whole, and of any other node what is shown of the nodes
below it. The walk over the array of a tree finds the same (`Highlight.tokens_ofOutput`).
-/

namespace GrammarTools

/-! ## Captures -/

/-- The name of a type means that type. -/
theorem TokenType.ofCapture?_captureName (t : TokenType) :
    TokenType.ofCapture? t.captureName = some t := by
  rw [ofCapture?, ofReversed?, List.reverse_reverse, String.ofList_toList,
    named?_eq_some_iff.2 rfl]

/-- Whether a rule fits a node, by the name of the kind above, of the field and of the kind. -/
def HighlightRule.fitsNames (rule : HighlightRule) (above field : Option String) (kind : String) :
    Bool :=
  rule.kind == kind && (rule.field.isNone || field == rule.field) &&
    (rule.parent.isNone || above == rule.parent)

namespace Language

variable {l : Language} {above : Option KindId} {field : Option FieldId} {kind : KindId}
  {t : TokenType}

/-- The name that nodes of a kind have. -/
def nameOf (l : Language) (kind : KindId) : String := (l.kindName? kind).getD errorKindName

/-- What a node is shown as, by the kind above, the field and the kind. -/
def tokenType? (l : Language) (above : Option KindId) (field : Option FieldId) (kind : KindId) :
    Option TokenType :=
  (l.definition.highlights.find?
    (·.fitsNames (above.map l.nameOf) (field.bind l.fieldName?) (l.nameOf kind))).bind
      fun rule => TokenType.ofCapture? rule.capture

/-- A language whose rules all capture nodes as something. -/
def IsMeaningful (l : Language) : Prop :=
  ∀ rule ∈ l.definition.highlights, ∃ t : TokenType, rule.capture = t.captureName

/-- The rule by which a node is shown. -/
theorem exists_rule (h : l.tokenType? above field kind = some t) :
    ∃ rule ∈ l.definition.highlights, rule.kind = l.nameOf kind ∧
      TokenType.ofCapture? rule.capture = some t := by
  obtain ⟨rule, hfind, hcapture⟩ := Option.bind_eq_some_iff.1 h
  have hfits := List.find?_some hfind
  simp only [HighlightRule.fitsNames, Bool.and_eq_true, beq_iff_eq] at hfits
  exact ⟨rule, List.mem_of_find?_eq_some hfind, hfits.1.1, hcapture⟩

/-- Whether some rule fits a node, by the kind above, the field and the kind. -/
def hasRule (l : Language) (above : Option KindId) (field : Option FieldId) (kind : KindId) :
    Bool :=
  l.definition.highlights.any
    (·.fitsNames (above.map l.nameOf) (field.bind l.fieldName?) (l.nameOf kind))

/-- Whether some rule fits all nodes of a kind. -/
def showsKind (l : Language) (kind : KindId) : Bool :=
  l.definition.highlights.any fun rule =>
    rule.kind == l.nameOf kind && rule.field.isNone && rule.parent.isNone

theorem hasRule_of_showsKind (h : l.showsKind kind) (above : Option KindId)
    (field : Option FieldId) : l.hasRule above field kind := by
  obtain ⟨rule, hrule, hfits⟩ := List.any_eq_true.1 h
  simp only [Bool.and_eq_true] at hfits
  obtain ⟨⟨hkind, hfield⟩, hparent⟩ := hfits
  refine List.any_eq_true.2 ⟨rule, hrule, ?_⟩
  rw [HighlightRule.fitsNames, hkind, hfield, hparent]
  rfl

/-- A node is shown if some rule fits it. -/
theorem isSome_tokenType? (hl : l.IsMeaningful) (h : l.hasRule above field kind) :
    (l.tokenType? above field kind).isSome := by
  have hsome : (l.definition.highlights.find?
      (·.fitsNames (above.map l.nameOf) (field.bind l.fieldName?) (l.nameOf kind))).isSome :=
    List.find?_isSome.2 (List.any_eq_true.1 h)
  obtain ⟨rule, hrule⟩ := Option.isSome_iff_exists.1 hsome
  obtain ⟨t, ht⟩ := hl rule (List.mem_of_find?_eq_some hrule)
  rw [tokenType?, hrule, Option.bind_some, ht, TokenType.ofCapture?_captureName]
  rfl

/-- Whether some rule is for nodes of a kind. -/
def hasRuleFor (l : Language) (kind : KindId) : Bool :=
  l.definition.highlights.any (·.kind == l.nameOf kind)

/-- A node of a kind that no rule is for is not shown. -/
theorem tokenType?_eq_none (h : l.hasRuleFor kind = false) (above : Option KindId)
    (field : Option FieldId) : l.tokenType? above field kind = none := by
  refine Option.eq_none_iff_forall_ne_some.2 fun t ht => ?_
  obtain ⟨rule, hrule, hkind, -⟩ := exists_rule ht
  have := List.any_eq_false.1 h rule hrule
  rw [hkind, beq_self_eq_true] at this
  exact this rfl

end Language

/-! ## Raw trees -/

namespace RawNode

mutual

/-- What is shown of a node and of all below it, where `above` is the kind of the node above. -/
def shown (l : Language) (above : Option KindId) : RawNode → List HighlightToken
  | ⟨kind, field, span, children⟩ =>
    match l.tokenType? above field kind with
    | some t => if span.start = span.stop then [] else [⟨t, span⟩]
    | none => shownAll l (some kind) children

/-- What is shown of some nodes. -/
def shownAll (l : Language) (above : Option KindId) : List RawNode → List HighlightToken
  | [] => []
  | node :: rest => shown l above node ++ shownAll l above rest

end

variable {l : Language} {above : Option KindId}

theorem shown_of_some (node : RawNode) {t : TokenType}
    (h : l.tokenType? above node.field node.kind = some t) :
    node.shown l above = if node.span.start = node.span.stop then [] else [⟨t, node.span⟩] := by
  cases node
  rw [shown, h]

theorem shown_of_none (node : RawNode) (h : l.tokenType? above node.field node.kind = none) :
    node.shown l above = shownAll l (some node.kind) node.children := by
  cases node
  rw [shown, h]

theorem shownAll_eq_flatMap (nodes : List RawNode) :
    shownAll l above nodes = nodes.flatMap (shown l above) := by
  induction nodes with
  | nil => rfl
  | cons node rest ih => rw [shownAll, ih, List.flatMap_cons]

end RawNode

/-! ## Trees -/

variable {tree : Tree}

/-- A node that stands in the array below a node of a kind. -/
def Tree.StandsBelow (tree : Tree) (id : NodeId) (entry : Option KindId × RawNode) : Prop :=
  ∃ parent, tree.Stands parent id entry.2 ∧
    parent.map (fun p => (Node.mk tree p).data.kind) = entry.1

/-- What a node of the array is shown as. -/
theorem Tree.StandsBelow.tokenType?_eq {id : NodeId} {entry : Option KindId × RawNode}
    (h : tree.StandsBelow id entry) :
    (Node.mk tree id).tokenType? tree.language.definition.highlights =
      tree.language.tokenType? entry.1 entry.2.field entry.2.kind := by
  obtain ⟨parent, hstands, habove⟩ := h
  have hparent : (Node.mk tree id).parent?.map Node.kind = entry.1.map tree.language.nameOf := by
    rw [← habove, Node.parent?, hstands.data_eq, Option.map_map, Option.map_map]
    rfl
  have hfield : (Node.mk tree id).fieldName? = entry.2.field.bind tree.language.fieldName? := by
    rw [Node.fieldName?, hstands.data_eq]
  have hkind : (Node.mk tree id).kind = tree.language.nameOf entry.2.kind := by
    rw [Node.kind, hstands.data_eq]
    rfl
  have hfits : ∀ rule : HighlightRule, rule.fits (Node.mk tree id) =
      rule.fitsNames (entry.1.map tree.language.nameOf)
        (entry.2.field.bind tree.language.fieldName?) (tree.language.nameOf entry.2.kind) := by
    intro rule
    rw [HighlightRule.fits, hparent, hfield, hkind, HighlightRule.fitsNames]
  simp only [Node.tokenType?, hfits, Language.tokenType?]

namespace Highlight

/-- A walk over some nodes that stand in the array finds what is shown of them. -/
theorem tokensFrom_eq {ids : List NodeId} {entries : List (Option KindId × RawNode)}
    (found : List HighlightToken) {bound : Nat}
    (h : List.Forall₂ tree.StandsBelow ids entries)
    (hb : RawNode.sizeAll (entries.map Prod.snd) ≤ bound) :
    tokensFrom tree bound found ids =
      found.reverse ++ entries.flatMap fun entry => entry.2.shown tree.language entry.1 := by
  -- Every node is looked at once at most, so the bound need only reach their number.
  induction bound generalizing found ids entries with
  | zero =>
    cases h with
    | nil => simp [tokensFrom]
    | @cons _ entry _ rest =>
      have := entry.2.size_pos
      rw [List.map_cons, RawNode.sizeAll] at hb
      omega
  | succ bound ih =>
    cases h with
    | nil => simp [tokensFrom]
    | @cons id entry ids rest hfirst hrest =>
      have htype := hfirst.tokenType?_eq
      obtain ⟨above, node⟩ := entry
      simp only [List.map_cons, RawNode.sizeAll, RawNode.size_eq] at hb
      obtain ⟨parent, hstands, -⟩ := hfirst
      have hspan : (Node.mk tree id).span = node.span := by
        rw [Node.span, hstands.data_eq]
      have hrestle : RawNode.sizeAll (rest.map Prod.snd) ≤ bound := by
        omega
      rw [tokensFrom, List.flatMap_cons]
      dsimp only
      rw [htype, hspan]
      split
      · rename_i t ht
        rw [RawNode.shown_of_some node ht]
        split
        · rw [ih _ hrest hrestle, List.nil_append]
        · rw [ih _ hrest hrestle, List.reverse_cons, List.append_assoc]
      · -- The children wait in the place of the node.
        rename_i hnone
        have hchildren : List.Forall₂ tree.StandsBelow (RawNode.ids (id + 1) node.children)
            (node.children.map fun child => (some node.kind, child)) := by
          refine List.forall₂_map_right_iff.2 (hstands.children.imp fun _ _ hchild => ?_)
          refine ⟨some id, hchild, ?_⟩
          rw [Option.map_some, hstands.data_eq]
        have hsize : RawNode.sizeAll (((node.children.map fun child => (some node.kind, child)) ++
            rest).map Prod.snd) ≤ bound := by
          rw [List.map_append, RawNode.sizeAll_append, List.map_map]
          simp only [Function.comp_def, List.map_id']
          omega
        rw [hstands.data_eq, ih _ (List.rel_append hchildren hrest) hsize, List.flatMap_append,
          RawNode.shown_of_none node hnone, RawNode.shownAll_eq_flatMap, List.flatMap_map]

/-- The tokens of a tree are what is shown of its raw tree, put in order. -/
theorem tokens_ofOutput (language : Language) (source : String) (output : ParseOutput) :
    tokens (.ofOutput language source output) =
      (output.root.shown language none).mergeSort fun a b => a.span.start ≤ b.span.start := by
  have hstands := Tree.stands_root language source output
  have hle : RawNode.sizeAll [output.root] ≤ (Tree.ofOutput language source output).nodes.size := by
    have := hstands.le_size
    simp only [RawNode.sizeAll]
    omega
  have hentry : (Tree.ofOutput language source output).StandsBelow 0 (none, output.root) :=
    ⟨none, hstands, rfl⟩
  have hroot : (Tree.ofOutput language source output).root.id = 0 := rfl
  rw [tokens, hroot, tokensFrom_eq [] (.cons hentry .nil) hle]
  simp [Tree.ofOutput]

end Highlight

end GrammarTools
