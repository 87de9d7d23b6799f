import GrammarTools.Proofs.Peopl.Layout
import GrammarTools.Proofs.Reporting
import GrammarTools.Proofs.Shown
import GrammarTools.Proofs.Simpl.Layout

/-!
# Highlighted sources

Every token of a source that stands in no error is shown, and shown once: the
parts of a source that are shown do not overlap, and a token in an error is in
none of them (`tokens_arePartition`).

A token is shown because some rule of the language fits it wherever the schema
lets it stand, unless the node above it is shown as a whole (`Schema.Captures`).
Errors stand right below the root, and neither is shown. What is shown as a whole
in PeoPl has only one token in it, so every comment is shown.
-/

namespace GrammarTools

open RawNode HighlightToken

variable {τ κ φ : Type} {l : Language} {node : RawNode} {nodes : List RawNode} {comment : KindId}
  {marks : List Mark}

namespace RawNode

mutual

theorem mem_below : (node : RawNode) → ∀ n ∈ node.preorder, ∀ child ∈ n.children,
    child ∈ preorderAll node.children
  | ⟨kind, field, span, children⟩, n, hn, child, hchild => by
    rw [preorder_eq] at hn
    rcases List.mem_cons.1 hn with rfl | hn
    · exact (sublist_preorderAll _).subset hchild
    · exact mem_belowAll children n hn child hchild

/-- What is right below a node is below all that the node is below. -/
theorem mem_belowAll : (nodes : List RawNode) → ∀ n ∈ preorderAll nodes, ∀ child ∈ n.children,
    child ∈ preorderAll nodes
  | [], n, hn, _, _ => nomatch hn
  | node :: rest, n, hn, child, hchild => by
    rw [preorderAll] at hn
    rw [preorderAll]
    rcases List.mem_append.1 hn with hn | hn
    · rw [preorder_eq node, List.cons_append]
      exact List.mem_cons_of_mem _ (List.mem_append_left _ (mem_below node n hn child hchild))
    · exact List.mem_append_right _ (mem_belowAll rest n hn child hchild)

end

mutual

theorem exists_of_mem_without {kind : KindId} : (node : RawNode) →
    ∀ n ∈ (node.without kind).preorder, ∃ m ∈ node.preorder, m.without kind = n
  | ⟨own, field, span, children⟩, n, hn => by
    rw [preorder_eq, children_without] at hn
    rw [preorder_eq]
    rcases List.mem_cons.1 hn with rfl | hn
    · exact ⟨_, List.mem_cons_self, rfl⟩
    · obtain ⟨m, hm, heq⟩ := exists_of_mem_withoutAll children n hn
      exact ⟨m, List.mem_cons_of_mem _ hm, heq⟩

/-- What is left of some nodes when those of a kind are taken out was there before. -/
theorem exists_of_mem_withoutAll {kind : KindId} : (nodes : List RawNode) →
    ∀ n ∈ preorderAll (withoutAll kind nodes), ∃ m ∈ preorderAll nodes, m.without kind = n
  | [], n, hn => nomatch hn
  | node :: rest, n, hn => by
    have hrest : ∀ n ∈ preorderAll (withoutAll kind rest),
        ∃ m ∈ preorderAll (node :: rest), m.without kind = n := fun n hn => by
      obtain ⟨m, hm, heq⟩ := exists_of_mem_withoutAll rest n hn
      exact ⟨m, List.mem_append_right _ hm, heq⟩
    rw [withoutAll] at hn
    split at hn
    · exact hrest n hn
    · rcases List.mem_append.1 hn with hn | hn
      · obtain ⟨m, hm, heq⟩ := exists_of_mem_without node n hn
        exact ⟨m, List.mem_append_left _ hm, heq⟩
      · exact hrest n hn

end

/-- What is hidden without the nodes of one kind is hidden with them. -/
theorem isHidden_of_withoutAll {hides : KindId → Bool} (kind : KindId) {s : Span}
    (h : isHidden hides (withoutAll kind nodes) s = true) : isHidden hides nodes s = true := by
  obtain ⟨n, hn, hcovers⟩ := List.any_eq_true.1 h
  obtain ⟨m, hm, rfl⟩ := exists_of_mem_withoutAll nodes n hn
  rw [kind_without, span_without] at hcovers
  exact List.any_eq_true.2 ⟨m, hm, hcovers⟩

end RawNode

/-! ## Schemas -/

/-- A language that shows every token where a schema lets it stand, unless the node above is shown
    as a whole, and shows neither the root nor errors. -/
structure Schema.Captures (S : Schema τ κ φ) (l : Language) (root : κ) : Prop where
  leaf : ∀ kind, (∀ above field, (l.tokenType? above field (S.kindId kind)).isSome) ∨
    ∀ slot ∈ (S.layout kind).slots, ∀ own ∈ slot.1, (S.layout own).isLeaf → S.kindId own ≠ .error →
      (l.tokenType? (some (S.kindId kind)) (slot.2.map S.fieldId) (S.kindId own)).isSome
  error : ∀ above field, l.tokenType? above field .error = none
  root : ∀ above field, l.tokenType? above field (S.kindId root) = none

/-- Whether every token that may stand below a node of a kind has a rule, unless all nodes of the
    kind have one. -/
def Schema.hasRules (S : Schema τ κ φ) (l : Language) (kind : κ) : Bool :=
  l.showsKind (S.kindId kind) || (S.layout kind).slots.all fun slot => slot.1.all fun own =>
    !(S.layout own).isLeaf || S.kindId own == .error ||
      l.hasRule (some (S.kindId kind)) (slot.2.map S.fieldId) (S.kindId own)

/-- What the rules of a language must be for all tokens to be shown. -/
theorem Schema.captures_of_hasRules {S : Schema τ κ φ} {root : κ} (hl : l.IsMeaningful)
    (hrules : ∀ kind, S.hasRules l kind) (herror : l.hasRuleFor .error = false)
    (hroot : l.hasRuleFor (S.kindId root) = false) : S.Captures l root where
  leaf kind := by
    refine (Bool.or_eq_true_iff.1 (hrules kind)).imp (fun h above field => ?_)
      fun h slot hslot own hown hleaf he => ?_
    · exact Language.isSome_tokenType? hl (Language.hasRule_of_showsKind h above field)
    · have hany := List.all_eq_true.1 (List.all_eq_true.1 h slot hslot) own hown
      rw [hleaf, beq_false_of_ne he] at hany
      exact Language.isSome_tokenType? hl hany
  error := Language.tokenType?_eq_none herror
  root := Language.tokenType?_eq_none hroot

/-- Whether a node of a kind is a token, or has a token below it and no more. -/
def Schema.isToken (S : Schema τ κ φ) (kind : κ) : Bool :=
  match S.layout kind with
  | .nothing => true
  | .one kinds _ => kinds.all fun own => (S.layout own).isNothing && S.kindId own != .error
  | _ => false

/-- What fits nothing is nothing. -/
theorem Schema.Fits.eq_nil {S : Schema τ κ φ} {p : Layout κ φ} (h : S.Fits p nodes)
    (hp : p.isNothing) : nodes = [] := by
  cases h with
  | nothing => rfl
  | _ => cases hp

/-- A leaf records a single mark. -/
theorem Records.exists_mark (h : Records comment node marks) (he : node.kind ≠ .error)
    (hc : node.children = []) : ∃ m, marks = [m] := by
  cases h with
  | token => exact ⟨_, rfl⟩
  | comment => exact ⟨_, rfl⟩
  | branch _ hchildren hf =>
    obtain rfl := hc
    cases hchildren
    exact absurd rfl hf.ne_nil
  | error => exact absurd rfl he

/-- A node over a leaf alone records what the leaf does. -/
theorem Records.exists_mark_of_single {child : RawNode} (h : Records comment node marks)
    (hk : node.kind ≠ .error) (hchild : node.children = [child]) (he : child.kind ≠ .error)
    (hc : child.children = []) : ∃ m, marks = [m] := by
  cases h with
  | token => cases hchild
  | comment => cases hchild
  | branch _ hchildren _ =>
    obtain rfl := hchild
    cases hchildren with
    | cons hown hrest =>
      cases hrest
      obtain ⟨m, rfl⟩ := hown.exists_mark he hc
      exact ⟨m, rfl⟩
  | error => exact absurd rfl hk

namespace Grammar.Conforms

variable {g : Grammar τ} {S : Schema τ κ φ} {items : List κ} {root : κ}
  (hg : g.IsProgressive) (hf : g.IsFaithful) (hroot : g.root.isPlain g.comment)
  (hcomment : g.comment ≠ .error) (source : String)

section without

include hg hf hroot hcomment

/-- A node that is no comment is still there when the comments are left out. -/
theorem mem_without {n : RawNode} (hn : n ∈ (g.parse source).root.preorder)
    (hk : n.kind ≠ g.comment) :
    n.without g.comment ∈ ((g.parse source).root.without g.comment).preorder := by
  have hlossless := Grammar.isLossless_parse hg hf hroot hcomment source
  exact RawNode.mem_preorder_without _ (fun m hm hmk => (hlossless.comment_leaf m hm hmk).1) n hn hk

theorem mem_without_below {n : RawNode} (hn : n ∈ preorderAll (g.parse source).root.children)
    (hk : n.kind ≠ g.comment) :
    n.without g.comment ∈ preorderAll ((g.parse source).root.without g.comment).children := by
  have hlossless := Grammar.isLossless_parse hg hf hroot hcomment source
  rw [RawNode.children_without]
  exact RawNode.mem_preorderAll_withoutAll _ (fun m hm hmk => (hlossless.comment_leaf m
    (RawNode.mem_preorder_of_below hm) hmk).1) n hn hk

end without

variable (h : g.Conforms S items root)
include h hg hf hroot hcomment

/-- A token stands below its node where the schema lets it stand. -/
theorem exists_slot_of_leaf {n child : RawNode} (hn : n ∈ (g.parse source).root.preorder)
    (hk : n.kind ≠ g.comment) (hchild : child ∈ n.children) (hleaf : child.children = [])
    (hplain : child.kind.isPlain g.comment) :
    ∃ kind, n.kind = S.kindId kind ∧ ∃ slot ∈ (S.layout kind).slots, ∃ own ∈ slot.1,
      child.kind = S.kindId own ∧ child.field = slot.2.map S.fieldId ∧
        (S.layout own).isLeaf := by
  have hbelow := RawNode.mem_below _ n hn child hchild
  have hlt := (g.isWellNested_parse hg hf source).lt child hbelow
  have hcommentless := KindId.ne_comment_of_isPlain hplain
  obtain ⟨⟨kind, hkind, hfits⟩, -⟩ := h.allows_parse hg hf hcomment source _
    (mem_without hg hf hroot hcomment source hn hk)
  rw [RawNode.kind_without] at hkind
  have hmem := RawNode.mem_withoutAll hchild hcommentless
  rw [← RawNode.children_without] at hmem
  -- The schema speaks of the tree without its comments, where the token has kept its place.
  obtain ⟨before, after, heq⟩ := List.append_of_mem hmem
  obtain ⟨slot, hslot, hfits, -⟩ := hfits.exists_slot heq
  obtain ⟨_, hsingle, hfield, own, hown, hownId⟩ := hfits.exists_of_one
  obtain rfl := (List.cons.inj hsingle).1
  rw [RawNode.kind_without] at hownId
  rw [RawNode.field_without] at hfield
  have hnil : (child.without g.comment).children = [] := by
    rw [RawNode.children_without, hleaf, RawNode.withoutAll]
  refine ⟨kind, hkind, slot, hslot, own, hown, hownId, hfield, ?_⟩
  rcases h.endsWell_parse hg hf hcomment source _
    (mem_without_below hg hf hroot hcomment source hbelow hcommentless) hnil with
    hempty | ⟨other, hother, hends⟩
  · rw [RawNode.span_without] at hempty
    rw [hempty] at hlt
    exact absurd hlt (Nat.lt_irrefl 0)
  · rw [RawNode.kind_without] at hother
    exact S.kindId_injective (hother.symm.trans hownId) ▸ hends

/-- In a parsed tree, each node is shown as a whole or shows the tokens right below it. -/
theorem showsBelow_parse {l : Language} (hS : S.Captures l root) :
    ∀ n ∈ (g.parse source).root.preorder, l.ShowsBelow g.comment n := by
  intro n hn
  by_cases hk : n.kind = g.comment
  · have hlossless := Grammar.isLossless_parse hg hf hroot hcomment source
    refine .inr fun child hchild => ?_
    rw [(hlossless.comment_leaf n hn hk).1] at hchild
    cases hchild
  by_cases hall : ∀ above field, (l.tokenType? above field n.kind).isSome
  · exact .inl hall
  refine .inr fun child hchild hleaf hplain => ?_
  obtain ⟨kind, hkind, slot, hslot, own, hown, hownId, hfield, hends⟩ :=
    exists_slot_of_leaf hg hf hroot hcomment source h hn hk hchild hleaf hplain
  have hslots := (hS.leaf kind).resolve_left (hkind ▸ hall)
  rw [hkind, hfield, hownId]
  exact hslots slot hslot own hown hends (hownId ▸ KindId.ne_error_of_isPlain hplain)

/-- A node of a kind of tokens covers one token. -/
theorem exists_token {n : RawNode} (hn : n ∈ preorderAll (g.parse source).root.children)
    (hplain : n.kind.isPlain g.comment) {kind : κ} (hkind : n.kind = S.kindId kind)
    (htoken : S.isToken kind) :
    ∃ m ∈ g.lexicon.marks source, m.isComment = false ∧ m.span = n.span := by
  have hbelow := mem_without_below hg hf hroot hcomment source hn
    (KindId.ne_comment_of_isPlain hplain)
  have hrecords := (run_statements hg (.ofLexemes (g.lexicon.lex source).lexemes
    (Text.byteLength source.toList))).records hf (g.lexicon.ordered_lexemes source)
  have htokens := Mark.ofLexemes_eq_filter (g.lexicon.tokens_marks source)
  have hlays := h.lays (run_statements hg (.ofLexemes (g.lexicon.lex source).lexemes
    (Text.byteLength source.toList)))
  rw [without_parse hg hf hcomment] at hbelow
  rw [TokenStream.ofLexemes, htokens] at hrecords
  obtain ⟨own, hown, hnode⟩ := hrecords.exists_of_mem_preorderAll hbelow
  -- Without its comments, the node records what its only token does.
  obtain ⟨m, rfl⟩ : ∃ m, own = [m] := by
    have hfits := (hlays.allows _ hbelow).fits ((RawNode.kind_without _ _).trans hkind)
    have he : (n.without g.comment).kind ≠ .error := by
      rw [RawNode.kind_without]
      exact KindId.ne_error_of_isPlain hplain
    unfold Schema.isToken at htoken
    split at htoken
    · rename_i hnothing
      exact hnode.exists_mark he (hfits.eq_nil (by rw [hnothing]; rfl))
    · rename_i kinds field hone
      rw [hone] at hfits
      obtain ⟨child, hchild, -, own, hmem, hchildId⟩ := hfits.exists_of_one
      have hinner := RawNode.mem_belowAll _ _ hbelow child (hchild ▸ List.mem_singleton_self _)
      have hown := List.all_eq_true.1 htoken own hmem
      rw [Bool.and_eq_true, bne_iff_ne] at hown
      exact hnode.exists_mark_of_single he hchild (hchildId ▸ hown.2)
        (((hlays.allows _ hinner).fits hchildId).eq_nil hown.1)
    · cases htoken
  obtain ⟨hm, hmtoken⟩ := List.mem_filter.1 (hown.subset List.mem_cons_self)
  refine ⟨m, hm, by simpa using hmtoken, ?_⟩
  rw [(Mark.Frames.singleton m).eq hnode.frames, RawNode.span_without]

end Grammar.Conforms

/-! ## Sources -/

/-- Every lexeme has a mark, which is that of no comment. -/
theorem Lexicon.exists_mark (lexicon : Lexicon τ) {source : String} {lexeme : Lexeme τ}
    (h : lexeme ∈ (lexicon.lex source).lexemes) :
    ∃ m ∈ lexicon.marks source, m.isComment = false ∧ m.span = lexeme.span := by
  have hmem := List.mem_map_of_mem (f := Lexeme.span) h
  rw [← lexicon.tokens_marks] at hmem
  obtain ⟨m, hm, hspan⟩ := List.mem_map.1 hmem
  obtain ⟨hm, htoken⟩ := List.mem_filter.1 hm
  exact ⟨m, hm, by simpa using htoken, hspan⟩

/-- What is shown of a source stands one part behind the other, and each token of the source is in
    one of the parts, unless it is in an error, and then it is in none. -/
structure Highlight.IsPartition (tokens : List HighlightToken) (source : List Char)
    (lexemes : List (Lexeme τ)) (errors : List RawNode) : Prop where
  increasing : tokens.Pairwise fun a b => a.span.start < b.span.start
  apart : tokens.Pairwise fun a b => a.span.stop ≤ b.span.start
  lt : ∀ t ∈ tokens, t.span.start < t.span.stop
  within : ∀ t ∈ tokens, t.span.stop ≤ Text.byteLength source
  boundary : ∀ t ∈ tokens,
    Text.IsBoundary source t.span.start ∧ Text.IsBoundary source t.span.stop
  shown : ∀ lexeme ∈ lexemes, (∀ n ∈ errors, ¬ n.span.covers lexeme.span) →
    ∃! t, t ∈ tokens ∧ t.span.covers lexeme.span
  hidden : ∀ lexeme ∈ lexemes, (∃ n ∈ errors, n.span.covers lexeme.span) →
    ∀ t ∈ tokens, ¬ t.span.covers lexeme.span

namespace Grammar

variable {g : Grammar τ} {S : Schema τ κ φ} {items : List κ} {root : κ} (hg : g.IsProgressive)
  (hf : g.IsFaithful) (hroot : g.root.isPlain g.comment) (hcomment : g.comment ≠ .error)
  (hS : S.Captures l root) (source : String)

section

include hg hf hroot hcomment hS

/-- Nothing that is shown covers a token in an error. -/
theorem not_covers_of_error {lexeme : Lexeme τ} (hlexeme : lexeme ∈ (g.lexicon.lex source).lexemes)
    {e : RawNode} (he : e ∈ (g.parse source).root.children) (hkind : e.kind = .error)
    (hc : e.span.covers lexeme.span) {t : HighlightToken}
    (ht : t ∈ shownAll l (some g.root) (g.parse source).root.children) :
    ¬ t.span.covers lexeme.span := by
  intro hshown
  have hnested := g.isWellNested_parse hg hf source
  have hlossless := g.isLossless_parse hg hf hroot hcomment source
  have ho := g.lexicon.marks_ordered source
  obtain ⟨m, hm, htoken, hspan⟩ := g.lexicon.exists_mark hlexeme
  have hlt := hspan ▸ ho.lt m hm
  have hin := mem_shown_of_covers hnested.nestAll he ht hlt hc hshown
  have hnone : l.tokenType? (some g.root) e.field e.kind = none := hkind ▸ hS.error _ _
  rw [shown_of_none e hnone] at hin
  -- All that is shown of an error are its comments.
  obtain ⟨child, hchild, hcovers⟩ := covers_shownAll _ (hnested.nestAll.below he) t hin
  have hmem : e ∈ (g.parse source).root.preorder :=
    RawNode.mem_preorder_of_below ((sublist_preorderAll _).subset he)
  have hchildMem : child ∈ (g.parse source).root.preorder :=
    RawNode.mem_preorder_of_below (RawNode.mem_below _ e hmem child hchild)
  have hcommentSpan : child.span ∈ Mark.comments (g.lexicon.marks source) := by
    rw [g.lexicon.comments_marks, ← hlossless.comments]
    exact List.mem_map_of_mem (List.mem_filter.2 ⟨hchildMem,
      decide_eq_true (hlossless.errors e hmem hkind child hchild)⟩)
  obtain ⟨c, hcmem, hcspan⟩ := List.mem_map.1 hcommentSpan
  obtain ⟨hcmem, hiscomment⟩ := List.mem_filter.1 hcmem
  have hboth := Span.covers_iff.1 (Span.covers_trans hcovers hshown)
  rw [← hcspan, ← hspan] at hboth
  have hltm := ho.lt m hm
  exact ho.not_overlap hcmem hiscomment hm htoken (by omega) (by omega)

end

section Conforms

variable (h : g.Conforms S items root)
include hg hf hS h

/-- What is shown of a source is what is shown below its root, in this order. -/
theorem tokens_eq (hparse : l.definition.parse = g.parse) : Highlight.tokens (Tree.parse l source) =
    shownAll l (some g.root) (g.parse source).root.children := by
  have hnested := g.isWellNested_parse hg hf source
  have hkind : (g.parse source).root.kind = g.root := by
    obtain ⟨children, hroot, -⟩ := records_parse hg hf source
    rw [hroot]
    rfl
  have hnone : l.tokenType? none (g.parse source).root.field (g.parse source).root.kind = none := by
    rw [hkind, ← h.root_id]
    exact hS.root _ _
  rw [Tree.parse, hparse, Highlight.tokens_ofOutput, shown_of_none _ hnone, hkind]
  refine List.mergeSort_of_pairwise ((pairwise_shownAll _ hnested.nestAll).imp_of_mem
    fun {a b} ha _ hab => decide_eq_true ?_)
  obtain ⟨n, hn, -, hspan, -⟩ := exists_of_mem_shownAll _ a ha
  have hlt := hnested.lt n hn
  rw [hspan] at hlt
  omega

include hroot hcomment

/-- A token that is in no error is shown. -/
theorem exists_shown {lexeme : Lexeme τ} (hlexeme : lexeme ∈ (g.lexicon.lex source).lexemes)
    (hno : ∀ n ∈ (g.parse source).root.errors, ¬ n.span.covers lexeme.span) :
    ∃ t ∈ shownAll l (some g.root) (g.parse source).root.children, t.span.covers lexeme.span := by
  have hshown := Conforms.showsBelow_parse hg hf hroot hcomment source h hS
  obtain ⟨children, hparse, hrecords⟩ := records_parse hg hf source
  rw [hparse, RawNode.branchAt] at hno hshown ⊢
  rw [RawNode.preorder_eq, List.forall_mem_cons] at hshown
  obtain ⟨m, hm, htoken, hspan⟩ := g.lexicon.exists_mark hlexeme
  have htop := hshown.1.resolve_left fun hall => by
    have := hall none none
    rw [← h.root_id, hS.root] at this
    cases this
  have hin := hrecords.isShownIn (g.lexicon.marks_ordered source) htop hshown.2 hm htoken
  rw [hspan] at hin
  refine hin.resolve_right ?_
  rintro ⟨n, hn, he, hc⟩
  exact hno n (List.mem_filter.2 ⟨RawNode.mem_preorder_of_below hn, he⟩) hc

/-- The tokens of a source are shown, save those in errors. -/
theorem isPartition_tokens (hparse : l.definition.parse = g.parse)
    (herrors : (g.parse source).root.errors = (g.parse source).root.children.filter isError) :
    Highlight.IsPartition (Highlight.tokens (Tree.parse l source)) source.toList
      (g.lexicon.lex source).lexemes (g.parse source).root.errors := by
  have hnested := g.isWellNested_parse hg hf source
  have hapart : (shownAll l (some g.root) (g.parse source).root.children).Pairwise
      fun a b => a.span.stop ≤ b.span.start := pairwise_shownAll _ hnested.nestAll
  have hnodes : ∀ t ∈ shownAll l (some g.root) (g.parse source).root.children,
      ∃ n ∈ preorderAll (g.parse source).root.children, n.span = t.span := fun t ht => by
    obtain ⟨n, hn, -, hspan, -⟩ := exists_of_mem_shownAll _ t ht
    exact ⟨n, hn, hspan⟩
  have hlt : ∀ t ∈ shownAll l (some g.root) (g.parse source).root.children,
      t.span.start < t.span.stop := fun t ht => by
    obtain ⟨n, hn, hspan⟩ := hnodes t ht
    exact hspan ▸ hnested.lt n hn
  rw [tokens_eq hg hf hS source h hparse]
  refine ⟨hapart.imp_of_mem fun {a b} ha _ hab => Nat.lt_of_lt_of_le (hlt a ha) hab, hapart, hlt,
    fun t ht => ?_, fun t ht => ?_, fun lexeme hlexeme hno => ?_, fun lexeme hlexeme he t ht => ?_⟩
  · obtain ⟨n, hn, hspan⟩ := hnodes t ht
    exact hspan ▸ hnested.stop_le n hn
  · obtain ⟨n, hn, hspan⟩ := hnodes t ht
    exact hspan ▸ hnested.boundary n hn
  · obtain ⟨t, ht, hc⟩ := exists_shown hg hf hroot hcomment hS source h hlexeme hno
    refine ⟨t, ⟨ht, hc⟩, fun u ⟨hu, hcu⟩ => ?_⟩
    obtain ⟨m, hm, -, hspan⟩ := g.lexicon.exists_mark hlexeme
    have hltm := (g.lexicon.marks_ordered source).lt m hm
    -- Two parts that cover the same token overlap.
    have hc := Span.covers_iff.1 hc
    have hcu := Span.covers_iff.1 hcu
    rw [hspan] at hltm
    exact Span.eq_of_overlap hapart hu ht (by omega) (by omega)
  · obtain ⟨e, he, hc⟩ := he
    rw [herrors, List.mem_filter] at he
    exact not_covers_of_error hg hf hroot hcomment hS source hlexeme he.1
      (by simpa [isError] using he.2) hc ht

/-- What is shown as a comment are the comments of the source, save those in nodes that are shown as
    a whole, if nothing else that is shown has more than a token in it. -/
theorem commentsOf_tokens_of_hides (hparse : l.definition.parse = g.parse)
    (hl : l.ShowsComments g.comment) {hides : KindId → Bool} (hh : l.Hides g.comment hides)
    (hsingle : ∀ kind, l.hasRuleFor (S.kindId kind) = false ∨ S.isToken kind ∨
      hides (S.kindId kind)) :
    commentsOf (Highlight.tokens (Tree.parse l source)) =
      (g.lexicon.lex source).comments.filter
        (!isHidden hides (g.parse source).root.children ·) := by
  -- A node with a rule is a token or hides what is in it, so no comment is shown as a part of it.
  have htokens : ∀ n ∈ preorderAll (g.parse source).root.children, n.kind.isPlain g.comment →
      (∀ above field, l.tokenType? above field n.kind = none) ∨
        (∃ m ∈ g.lexicon.marks source, m.isComment = false ∧ m.span = n.span) ∨ hides n.kind := by
    intro n hn hplain
    obtain ⟨⟨kind, hkind, -⟩, -⟩ := h.allows_parse hg hf hcomment source _
      (Conforms.mem_without hg hf hroot hcomment source (RawNode.mem_preorder_of_below hn)
        (KindId.ne_comment_of_isPlain hplain))
    rw [RawNode.kind_without] at hkind
    exact (hsingle kind).imp (fun hnone => hkind ▸ Language.tokenType?_eq_none hnone)
      (Or.imp (Conforms.exists_token hg hf hroot hcomment source h hn hplain hkind)
        fun hhides => hkind ▸ hhides)
  rw [tokens_eq hg hf hS source h hparse]
  obtain ⟨children, hroot', hrecords⟩ := records_parse hg hf source
  rw [hroot'] at htokens ⊢
  rw [← g.lexicon.comments_marks]
  exact hrecords.commentsOf_shownAll hl hh (g.lexicon.marks_ordered source) (.refl _) htokens

/-- What is shown as a comment are the comments of the source, if nothing else that is shown has
    more than a token in it. -/
theorem commentsOf_tokens (hparse : l.definition.parse = g.parse)
    (hl : l.ShowsComments g.comment)
    (hsingle : ∀ kind, l.hasRuleFor (S.kindId kind) = false ∨ S.isToken kind) :
    commentsOf (Highlight.tokens (Tree.parse l source)) = (g.lexicon.lex source).comments := by
  have hnothing : l.Hides g.comment fun _ => false := ⟨nofun, rfl⟩
  rw [commentsOf_tokens_of_hides hg hf hroot hcomment hS source h hparse hl hnothing
    fun kind => (hsingle kind).imp_right .inl]
  simp [isHidden]

end Conforms

end Grammar

/-! ## The languages -/

namespace Language

/-- Whether all captures mean something, and only those of comments mean comments. -/
def capturesAll (l : Language) : Bool :=
  l.definition.highlights.all fun rule => TokenType.all.any fun t =>
    rule.capture == t.captureName && (t != .comment || rule.kind == "comment")

/-- The capture of a rule, if all mean something. -/
theorem exists_captureName (h : l.capturesAll = true) {rule : HighlightRule}
    (hrule : rule ∈ l.definition.highlights) :
    ∃ t : TokenType, rule.capture = t.captureName ∧ (t = .comment → rule.kind = "comment") := by
  obtain ⟨t, -, ht⟩ := List.any_eq_true.1 (List.all_eq_true.1 h rule hrule)
  rw [Bool.and_eq_true, Bool.or_eq_true, bne_iff_ne, beq_iff_eq, beq_iff_eq] at ht
  exact ⟨t, ht.1, ht.2.neg_resolve_left⟩

/-- Where each capture is the name of a token type, all rules have a meaning. -/
theorem isMeaningful_of_capturesAll (h : l.capturesAll = true) : l.IsMeaningful := fun _ hrule =>
  (exists_captureName h hrule).imp fun _ h => h.1

/-- A name that only one entry of the table has is that of one kind. -/
theorem eq_of_nameOf {kind own : KindId} {name : String} (hname : name ≠ errorKindName)
    (honly : ∀ i : Fin l.definition.nodeKinds.length,
      l.definition.nodeKinds[i].name = name → i.1 = own.index.toNat)
    (h : l.nameOf kind = name) : kind = own := by
  rw [nameOf, kindName?] at h
  cases hentry : l.definition.nodeKinds[kind.index.toNat]? with
  | none =>
    rw [hentry] at h
    exact absurd h.symm hname
  | some entry =>
    obtain ⟨hlt, rfl⟩ := List.getElem?_eq_some_iff.1 hentry
    rw [hentry] at h
    have hindex := honly ⟨kind.index.toNat, hlt⟩ h
    cases kind
    exact congrArg KindId.mk (UInt16.toNat_inj.1 hindex)

/-- What the rules of a language must be for comments to be shown as such. -/
theorem showsComments_of_capturesAll (hcaptures : l.capturesAll = true)
    (hfirst : l.definition.highlights.head? = some (.ofKind "comment" "comment"))
    (hcomment : l.nameOf comment = "comment")
    (honly : ∀ i : Fin l.definition.nodeKinds.length,
      l.definition.nodeKinds[i].name = "comment" → i.1 = comment.index.toNat)
    (herror : ∀ above field, l.tokenType? above field .error = none) :
    l.ShowsComments comment where
  comments above field := by
    obtain ⟨rest, hrules⟩ := List.head?_eq_some_iff.1 hfirst
    rw [tokenType?, hrules, hcomment, List.find?_cons_of_pos rfl]
    exact TokenType.ofCapture?_captureName .comment
  only {above field kind} h := by
    obtain ⟨rule, hrule, hkind, hcapture⟩ := exists_rule h
    obtain ⟨t, ht, hmeans⟩ := exists_captureName hcaptures hrule
    rw [ht, TokenType.ofCapture?_captureName, Option.some.injEq] at hcapture
    exact eq_of_nameOf (by decide) honly (hkind.symm.trans (hmeans hcapture))
  error := herror

end Language

namespace Simpl

theorem Kind.mem_all (kind : Kind) : kind ∈ all := List.mem_of_getElem? (all_id kind)

theorem language_capturesAll : language.capturesAll = true := by decide

/-- The rules of the language and the layouts of the schema agree in what they show. -/
theorem schema_captures : schema.Captures language .sourceFile := by
  have hall : Kind.all.all (schema.hasRules language) = true := by decide +kernel
  exact Schema.captures_of_hasRules (Language.isMeaningful_of_capturesAll language_capturesAll)
    (fun kind => List.all_eq_true.1 hall kind kind.mem_all) (by decide) (by decide)

theorem language_showsComments : language.ShowsComments Kind.comment :=
  Language.showsComments_of_capturesAll language_capturesAll rfl rfl (by decide +kernel)
    schema_captures.error

/-- The tokens of a source in Simpl are shown, save those in errors. -/
theorem isPartition_tokens (source : String) :
    Highlight.IsPartition (Highlight.tokens (Tree.parse language source)) source.toList
      (lexicon.lex source).lexemes (grammar.parse source).root.errors := by
  obtain ⟨-, -, -, -, -, herrors⟩ := Grammar.exists_errors grammar_isProgressive source
    (grammar_reports (lexicon.isRow source)) (by decide) (by decide)
  exact Grammar.isPartition_tokens grammar_isProgressive grammar_isFaithful rfl (by decide)
    schema_captures source grammar_conforms rfl (RawNode.errors_eq_filter herrors)

end Simpl

namespace Peopl

theorem Kind.mem_all (kind : Kind) : kind ∈ all := List.mem_of_getElem? (all_id kind)

theorem language_capturesAll : language.capturesAll = true := by decide

/-- The rules of the language and the layouts of the schema agree in what they show. -/
theorem schema_captures : schema.Captures language .sourceFile := by
  have hall : Kind.all.all (schema.hasRules language) = true := by decide +kernel
  exact Schema.captures_of_hasRules (Language.isMeaningful_of_capturesAll language_capturesAll)
    (fun kind => List.all_eq_true.1 hall kind kind.mem_all) (by decide) (by decide)

theorem language_showsComments : language.ShowsComments Kind.comment :=
  Language.showsComments_of_capturesAll language_capturesAll rfl rfl (by decide +kernel)
    schema_captures.error

/-- In PeoPl, whatever has a rule is a token. -/
theorem isToken_of_hasRuleFor (kind : Kind) :
    language.hasRuleFor (schema.kindId kind) = false ∨ schema.isToken kind := by
  have hall : Kind.all.all (fun kind =>
      !language.hasRuleFor (schema.kindId kind) || schema.isToken kind) = true := by decide +kernel
  simpa using List.all_eq_true.1 hall kind kind.mem_all

/-- The tokens of a source in PeoPl are shown, save those in errors. -/
theorem isPartition_tokens (source : String) :
    Highlight.IsPartition (Highlight.tokens (Tree.parse language source)) source.toList
      (lexicon.lex source).lexemes (grammar.parse source).root.errors := by
  obtain ⟨-, -, -, -, -, herrors⟩ := Grammar.exists_errors grammar_isProgressive source
    (grammar_reports (lexicon.isRow source)) (by decide) (by decide)
  exact Grammar.isPartition_tokens grammar_isProgressive grammar_isFaithful rfl (by decide)
    schema_captures source grammar_conforms rfl (RawNode.errors_eq_filter herrors)

end Peopl

/-- What is shown of a source in either language stands one part behind the other. Each token is in
    one of the parts, unless it is in an error. In PeoPl the comments are shown, and nothing else
    is shown as a comment. -/
theorem tokens_arePartition (source : String) :
    Highlight.IsPartition (Highlight.tokens (Tree.parse Simpl.language source)) source.toList
      (Simpl.lexicon.lex source).lexemes (Simpl.grammar.parse source).root.errors ∧
    Highlight.IsPartition (Highlight.tokens (Tree.parse Peopl.language source)) source.toList
      (Peopl.lexicon.lex source).lexemes (Peopl.grammar.parse source).root.errors ∧
    commentsOf (Highlight.tokens (Tree.parse Peopl.language source)) =
      (Peopl.lexicon.lex source).comments :=
  ⟨Simpl.isPartition_tokens source, Peopl.isPartition_tokens source,
    Grammar.commentsOf_tokens Peopl.grammar_isProgressive Peopl.grammar_isFaithful rfl (by decide)
      Peopl.schema_captures source Peopl.grammar_conforms rfl Peopl.language_showsComments
      Peopl.isToken_of_hasRuleFor⟩

/-! ## Comments -/

namespace Simpl

theorem language_hides : language.Hides Kind.comment (· == Kind.typeIdentifier) where
  shown kind hkind above field := by
    obtain rfl := eq_of_beq hkind
    exact Language.isSome_tokenType? (Language.isMeaningful_of_capturesAll language_capturesAll)
      (Language.hasRule_of_showsKind (by decide) above field)
  comment := by decide

/-- In Simpl, whatever has a rule is a token or a type. -/
theorem isToken_of_hasRuleFor (kind : Kind) :
    language.hasRuleFor (schema.kindId kind) = false ∨ schema.isToken kind ∨
      (schema.kindId kind == Kind.typeIdentifier) := by
  have hall : Kind.all.all (fun kind => !language.hasRuleFor (schema.kindId kind) ||
      (schema.isToken kind || schema.kindId kind == Kind.typeIdentifier)) = true := by
    decide +kernel
  simpa using List.all_eq_true.1 hall kind kind.mem_all

end Simpl

/-- In PeoPl the comments are shown. In Simpl they are, save those inside the type of a function,
    which is shown as a whole. -/
theorem commentsOf_tokens_languages (source : String) :
    commentsOf (Highlight.tokens (Tree.parse Peopl.language source)) =
      (Peopl.lexicon.lex source).comments ∧
    commentsOf (Highlight.tokens (Tree.parse Simpl.language source)) =
      (Simpl.lexicon.lex source).comments.filter fun span =>
        !(Simpl.grammar.parse source).root.preorder.any fun n =>
          n.kind == Simpl.Kind.typeIdentifier && n.span.covers span := by
  have hsimpl := Grammar.commentsOf_tokens_of_hides Simpl.grammar_isProgressive
    Simpl.grammar_isFaithful rfl (by decide) Simpl.schema_captures source Simpl.grammar_conforms rfl
    Simpl.language_showsComments Simpl.language_hides Simpl.isToken_of_hasRuleFor
  refine ⟨Grammar.commentsOf_tokens Peopl.grammar_isProgressive Peopl.grammar_isFaithful rfl
    (by decide) Peopl.schema_captures source Peopl.grammar_conforms rfl
    Peopl.language_showsComments Peopl.isToken_of_hasRuleFor, hsimpl.trans ?_⟩
  have hroot : ((Simpl.grammar.parse source).root.kind == Simpl.Kind.typeIdentifier) = false := by
    obtain ⟨children, hroot, -⟩ := Grammar.records_parse Simpl.grammar_isProgressive
      Simpl.grammar_isFaithful source
    rw [hroot]
    rfl
  refine List.filter_congr fun span _ => ?_
  rw [RawNode.preorder_eq, List.any_cons, hroot, Bool.false_and, Bool.false_or, isHidden]

/-- A comment among the parameters of a type is not shown as one. -/
theorem Simpl.comment_hidden_in_type :
    commentsOf (Highlight.tokens
      (Tree.parse Simpl.language "type P f: \x7b** c\na: Int\x7d Int.\n")) = [] ∧
    (Simpl.lexicon.lex "type P f: \x7b** c\na: Int\x7d Int.\n").comments = [⟨11, 15⟩] := by
  have hcomments : (Simpl.grammar.lexicon.lex
      "type P f: \x7b** c\na: Int\x7d Int.\n").comments = [⟨11, 15⟩] := by cbv
  refine ⟨?_, hcomments⟩
  have hhidden : isHidden (· == Simpl.Kind.typeIdentifier) (Simpl.grammar.parse
      "type P f: \x7b** c\na: Int\x7d Int.\n").root.children ⟨11, 15⟩ = true := by
    refine isHidden_of_withoutAll Simpl.grammar.comment ?_
    rw [← children_without, Grammar.without_parse Simpl.grammar_isProgressive
      Simpl.grammar_isFaithful (by decide)]
    cbv
  rw [Grammar.commentsOf_tokens_of_hides Simpl.grammar_isProgressive Simpl.grammar_isFaithful rfl
    (by decide) Simpl.schema_captures _ Simpl.grammar_conforms rfl Simpl.language_showsComments
    Simpl.language_hides Simpl.isToken_of_hasRuleFor, hcomments]
  simp [hhidden]

end GrammarTools
