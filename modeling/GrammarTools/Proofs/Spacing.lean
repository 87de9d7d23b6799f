import GrammarTools.Proofs.Peopl.Splice
import GrammarTools.Proofs.Simpl.Splice

/-!
# Space between tokens

Two sources may have the same tokens with other space and other comments between
them. Rules ask for the tokens and their texts, and never where a token stands. So
the two runs build trees of the same shape, in which nodes with the same part reach
from the same token to the same token, and they find the same errors at the same
tokens (`Grammar.sameSyntax`). A grammar that also asks which tokens begin a line is
to be given sources that agree in this as well.

The offsets differ, and so the errors are put in order by numbers that differ. But in
both sources a token of a higher number starts further on, and the end of the source
comes last; so the order is the same (`SyntaxError.SamePlace.start_le_iff`).
-/

namespace GrammarTools

variable {τ : Type}

/-! ## Rows with the same tokens -/

/-- Tokens of two sources that are the same one by one. -/
structure Lexeme.IsRespaced (ls ls' : List (Lexeme τ)) : Prop where
  tokens : ls.map (fun l => (l.token, l.text)) = ls'.map fun l => (l.token, l.text)
  left : Mark.Ordered (Mark.ofLexemes ls)
  right : Mark.Ordered (Mark.ofLexemes ls')

/-- A span from the start of one token to the end of another. -/
structure Span.Reaches (span : Span) (ls : List (Lexeme τ)) (i j : Nat) : Prop where
  start : ls[i]?.map (·.span.start) = some span.start
  stop : ls[j]?.map (·.span.stop) = some span.stop

/-- Spans over the same tokens of two sources. -/
structure Span.SameTokens (ls ls' : List (Lexeme τ)) (a b : Span) : Prop where
  exists_reaches : ∃ i j, i ≤ j ∧ a.Reaches ls i j
  reaches_iff : ∀ i j, a.Reaches ls i j ↔ b.Reaches ls' i j

section ordered

variable {ls : List (Lexeme τ)} (ho : Mark.Ordered (Mark.ofLexemes ls))
include ho

/-- Of two lexemes in order, the first ends before the second starts. -/
theorem Mark.Ordered.stop_le_start {i j : Nat} {l m : Lexeme τ} (hl : ls[i]? = some l)
    (hm : ls[j]? = some m) (hij : i < j) : l.span.stop ≤ m.span.start := by
  obtain ⟨hi, rfl⟩ := List.getElem?_eq_some_iff.1 hl
  obtain ⟨hj, rfl⟩ := List.getElem?_eq_some_iff.1 hm
  have hpairwise := List.pairwise_map.1 ho.pairwise
  exact List.pairwise_iff_getElem.1 hpairwise i j hi hj hij

/-- A token of a higher number starts and ends further on. -/
theorem Mark.Ordered.le_iff {i j : Nat} {l m : Lexeme τ} (hl : ls[i]? = some l)
    (hm : ls[j]? = some m) : (l.span.start ≤ m.span.start ↔ i ≤ j) ∧
      (l.span.stop ≤ m.span.stop ↔ i ≤ j) := by
  have hlt := ho.lexeme_lt (List.mem_of_getElem? hl)
  have hlt' := ho.lexeme_lt (List.mem_of_getElem? hm)
  rcases Nat.lt_trichotomy i j with h | rfl | h
  · have := ho.stop_le_start hl hm h
    omega
  · obtain rfl : l = m := Option.some.inj (hl.symm.trans hm)
    simp
  · have := ho.stop_le_start hm hl h
    omega

/-- Starts of lexemes are in the order of their numbers. -/
theorem Mark.Ordered.start_le_iff {i j : Nat} {l m : Lexeme τ} (hl : ls[i]? = some l)
    (hm : ls[j]? = some m) : l.span.start ≤ m.span.start ↔ i ≤ j :=
  (ho.le_iff hl hm).1

theorem Mark.Ordered.stop_le_iff {i j : Nat} {l m : Lexeme τ} (hl : ls[i]? = some l)
    (hm : ls[j]? = some m) : l.span.stop ≤ m.span.stop ↔ i ≤ j :=
  (ho.le_iff hl hm).2

end ordered

namespace Span.Reaches

variable {ls : List (Lexeme τ)} (ho : Mark.Ordered (Mark.ofLexemes ls)) {a b : Span}
  {i j i' j' : Nat}

/-- A span that reaches from one lexeme to another starts and ends with them. -/
theorem exists_lexemes (h : a.Reaches ls i j) : ∃ l m, ls[i]? = some l ∧ ls[j]? = some m ∧
    l.span.start = a.start ∧ m.span.stop = a.stop := by
  obtain ⟨l, hl, hstart⟩ := Option.map_eq_some_iff.1 h.start
  obtain ⟨m, hm, hstop⟩ := Option.map_eq_some_iff.1 h.stop
  exact ⟨l, m, hl, hm, hstart, hstop⟩

include ho in
/-- A span reaches from one lexeme to one other only. -/
theorem unique (h : a.Reaches ls i j) (h' : a.Reaches ls i' j') : i = i' ∧ j = j' := by
  obtain ⟨l, m, hl, hm, hstart, hstop⟩ := h.exists_lexemes
  obtain ⟨l', m', hl', hm', hstart', hstop'⟩ := h'.exists_lexemes
  have := ho.start_le_iff hl hl'
  have := ho.start_le_iff hl' hl
  have := ho.stop_le_iff hm hm'
  have := ho.stop_le_iff hm' hm
  omega

include ho in
/-- Merged spans reach from the first to the last of their lexemes. -/
theorem merge (h : a.Reaches ls i j) (h' : b.Reaches ls i' j') :
    (a.merge b).Reaches ls (min i i') (max j j') := by
  obtain ⟨l, m, hl, hm, hstart, hstop⟩ := h.exists_lexemes
  obtain ⟨l', m', hl', hm', hstart', hstop'⟩ := h'.exists_lexemes
  -- The lower offset is that of the token with the lower number.
  have hstarts := ho.start_le_iff hl hl'
  have hstops := ho.stop_le_iff hm hm'
  constructor
  · rcases Nat.le_total i i' with hle | hle
    · rw [Nat.min_eq_left hle, hl, Span.merge, Nat.min_eq_left (by omega), ← hstart]
      rfl
    · have := ho.start_le_iff hl' hl
      rw [Nat.min_eq_right hle, hl', Span.merge, Nat.min_eq_right (by omega), ← hstart']
      rfl
  · rcases Nat.le_total j j' with hle | hle
    · rw [Nat.max_eq_right hle, hm', Span.merge, Nat.max_eq_right (by omega), ← hstop']
      rfl
    · have := ho.stop_le_iff hm' hm
      rw [Nat.max_eq_left hle, hm, Span.merge, Nat.max_eq_left (by omega), ← hstop]
      rfl

end Span.Reaches

/-! ## Spans over the same tokens -/

variable {ls ls' : List (Lexeme τ)} (hrows : Lexeme.IsRespaced ls ls')
include hrows

namespace Lexeme.IsRespaced

/-- Tokens of the same number are the same, in a row with as many tokens. -/
theorem same {l l' : Lexeme τ} {i : Nat} (hl : ls[i]? = some l) (hl' : ls'[i]? = some l') :
    l.token = l'.token ∧ l.text = l'.text := by
  have hi := congrArg (·[i]?) hrows.tokens
  simpa [hl, hl'] using hi

/-- Rows that differ in spaces alone have as many lexemes. -/
theorem length_eq : ls.length = ls'.length := by
  simpa using congrArg List.length hrows.tokens

end Lexeme.IsRespaced

namespace Span.SameTokens

variable {a a' b b' : Span}

/-- Spans that reach from and to the same numbers hold the same tokens. -/
theorem of_reaches {i j : Nat} (hij : i ≤ j) (h : a.Reaches ls i j) (h' : b.Reaches ls' i j) :
    SameTokens ls ls' a b := by
  refine ⟨⟨i, j, hij, h⟩, fun i' j' => ⟨fun hreach => ?_, fun hreach => ?_⟩⟩
  · obtain ⟨rfl, rfl⟩ := h.unique hrows.left hreach
    exact h'
  · obtain ⟨rfl, rfl⟩ := h'.unique hrows.right hreach
    exact h

theorem lexeme {l l' : Lexeme τ} {i : Nat} (hl : ls[i]? = some l) (hl' : ls'[i]? = some l') :
    SameTokens ls ls' l.span l'.span :=
  of_reaches hrows (Nat.le_refl i) ⟨by rw [hl]; rfl, by rw [hl]; rfl⟩
    ⟨by rw [hl']; rfl, by rw [hl']; rfl⟩

/-- Merging keeps to the same tokens. -/
theorem merge (h : SameTokens ls ls' a a') (h' : SameTokens ls ls' b b') :
    SameTokens ls ls' (a.merge b) (a'.merge b') := by
  obtain ⟨i, j, hij, hreach⟩ := h.exists_reaches
  obtain ⟨i', j', hij', hreach'⟩ := h'.exists_reaches
  refine of_reaches hrows (by omega) (hreach.merge hrows.left hreach') ?_
  exact ((h.reaches_iff i j).1 hreach).merge hrows.right ((h'.reaches_iff i' j').1 hreach')

end Span.SameTokens

omit hrows

/-! ## Trees of the same shape -/

namespace RawNode

mutual

/-- Nodes of one kind and field whose spans are related, and so are those below. -/
inductive SameShape (r : Span → Span → Prop) : RawNode → RawNode → Prop
  | node {kind : KindId} {field : Option FieldId} {a b : Span} {children children' : List RawNode} :
      r a b → SameShapes r children children' →
        SameShape r ⟨kind, field, a, children⟩ ⟨kind, field, b, children'⟩

/-- Nodes that are of the same shape one by one. -/
inductive SameShapes (r : Span → Span → Prop) : List RawNode → List RawNode → Prop
  | nil : SameShapes r [] []
  | cons {n n' : RawNode} {nodes nodes' : List RawNode} : SameShape r n n' →
      SameShapes r nodes nodes' → SameShapes r (n :: nodes) (n' :: nodes')

end

variable {r : Span → Span → Prop} {n n' : RawNode} {nodes nodes' : List RawNode}

theorem SameShape.span (h : SameShape r n n') : r n.span n'.span := by
  cases h with
  | node hspan _ => exact hspan

/-- A field in front makes no difference to the shape. -/
theorem SameShape.withField (h : SameShape r n n') (field : FieldId) :
    SameShape r (n.withField field) (n'.withField field) := by
  cases h with
  | node hspan hchildren => exact .node hspan hchildren

/-- Solid nodes of one shape, one by one, make rows of one shape. -/
theorem SameShapes.of_forall₂
    (h : List.Forall₂ (fun n n' => n.IsSolid → SameShape r n n') nodes nodes')
    (hsolid : ∀ n ∈ nodes, n.IsSolid) : SameShapes r nodes nodes' := by
  induction h with
  | nil => exact .nil
  | cons hn _ ih =>
    exact .cons (hn (hsolid _ List.mem_cons_self))
      (ih fun n hmem => hsolid n (List.mem_cons_of_mem _ hmem))

/-- The last nodes of rows of one shape go together. -/
theorem SameShapes.exists_getLast (h : SameShapes r nodes nodes') (hne : nodes ≠ []) :
    ∃ n n', nodes.getLast? = some n ∧ nodes'.getLast? = some n' ∧ r n.span n'.span := by
  induction nodes generalizing nodes' with
  | nil => exact absurd rfl hne
  | cons n nodes ih =>
    cases h with
    | cons hn h =>
      cases h with
      | nil => exact ⟨n, _, rfl, rfl, hn.span⟩
      | cons hm h =>
        obtain ⟨last, last', hlast, hlast', hspan⟩ := ih (.cons hm h) (List.cons_ne_nil _ _)
        exact ⟨last, last', by rw [List.getLast?_cons_cons, hlast],
          by rw [List.getLast?_cons_cons, hlast'], hspan⟩

/-- The spans over nodes of the same shape are related, if merging keeps the relation. -/
theorem SameShapes.spanOf (h : SameShapes r nodes nodes')
    (hmerge : ∀ {a a' b b' : Span}, r a a' → r b b' → r (a.merge b) (a'.merge b'))
    (hne : nodes ≠ []) : r (spanOf nodes) (spanOf nodes') := by
  obtain ⟨last, last', hlast, hlast', hspan⟩ := h.exists_getLast hne
  cases h with
  | nil => exact absurd rfl hne
  | cons hn _ =>
    rw [RawNode.spanOf, RawNode.spanOf, hlast, hlast']
    exact hmerge hn.span hspan

end RawNode

/-! ## Runs -/

/-- Streams with the same tokens, set apart by other space. -/
def Likeness.respaced {ls ls' : List (Lexeme τ)} (hrows : Lexeme.IsRespaced ls ls') :
    Likeness τ where
  like l l' := ∃ i, ls[i]? = some l ∧ ls'[i]? = some l'
  leftStop _ := False
  rightStop _ := False
  node n n' := n.IsSolid → n.SameShape (Span.SameTokens ls ls') n'
  same := fun ⟨_, hl, hl'⟩ => hrows.same hl hl'
  leaf _ h _ := let ⟨_, hl, hl'⟩ := h; .node (.lexeme hrows hl hl') .nil
  branch {children children'} kind h := by
    intro hsolid
    have hchildren := RawNode.SameShapes.of_forall₂ h fun n hn => hsolid.of_mem_children hn
    exact .node (hchildren.spanOf (Span.SameTokens.merge hrows) hsolid.branch_ne_nil) hchildren
  withField field h hsolid := (h hsolid.of_withField).withField field

section respaced

variable {ls ls' : List (Lexeme τ)} {hrows : Lexeme.IsRespaced ls ls'}

/-- Nothing stops a run over streams that differ in spaces alone. -/
theorem Likeness.not_isStop_respaced (t : τ) : ¬ (Likeness.respaced hrows).IsStop t :=
  fun ⟨_, h, _⟩ => h.elim id id

/-- Rows that differ in spaces alone are alike throughout. -/
theorem Likeness.alike_respaced : (Likeness.respaced hrows).Alike ls ls' := by
  refine .of_forall₂ (List.forall₂_iff_get.2 ⟨hrows.length_eq, fun i hi hi' => ⟨i, ?_, ?_⟩⟩)
  · exact List.getElem?_eq_getElem hi
  · exact List.getElem?_eq_getElem hi'

/-- Both rows end at once, or the next tokens have the same number. -/
theorem Likeness.Places.respaced_cases {s s' : TokenStream τ}
    (h : (Likeness.respaced hrows).Places s s') : (s.upcoming = [] ∧ s'.upcoming = []) ∨
      ∃ (i : Nat) (l l' : Lexeme τ) (rest rest' : List (Lexeme τ)), s.upcoming = l :: rest ∧
        s'.upcoming = l' :: rest' ∧ ls[i]? = some l ∧ ls'[i]? = some l' := by
  unfold Likeness.Places at h
  generalize s.upcoming = left at h ⊢
  generalize s'.upcoming = right at h ⊢
  rw [Likeness.alike_iff_forall₂ (fun _ h => h) fun _ h => h] at h
  cases h with
  | nil => exact .inl ⟨rfl, rfl⟩
  | cons hlike _ =>
    obtain ⟨i, hl, hl'⟩ := hlike
    exact .inr ⟨i, _, _, _, _, rfl, rfl, hl, hl'⟩

end respaced

/-! ## Errors -/

/-- Errors that are the same at the same token, or at the ends of two sources. -/
structure SyntaxError.SamePlace (ls ls' : List (Lexeme τ)) (length length' : Nat)
    (e e' : SyntaxError) : Prop where
  expected : e.expected = e'.expected
  found : e.found = e'.found
  place : (∃ (i : Nat) (l l' : Lexeme τ), ls[i]? = some l ∧ ls'[i]? = some l' ∧ e.span = l.span ∧
      e'.span = l'.span ∧ e.found = some l.text) ∨
    (e.span = .empty length ∧ e'.span = .empty length' ∧ e.found = none)

/-- Lists put in order by corresponding questions correspond as before. -/
theorem forall₂_mergeSort {α β : Type} {r : α → β → Prop} {le : α → α → Bool}
    {le' : β → β → Bool} {as : List α} {bs : List β} (h : List.Forall₂ r as bs)
    (hle : ∀ {a a' b b'}, r a b → r a' b' → le a a' = le' b b') :
    List.Forall₂ r (as.mergeSort le) (bs.mergeSort le') := by
  have hpair : ∀ p ∈ as.zip bs, r p.1 p.2 := fun p hp => List.forall₂_zip h hp
  have hsort : ∀ p ∈ as.zip bs, ∀ q ∈ as.zip bs, le p.1 q.1 = le' p.2 q.2 := fun p hp q hq =>
    hle (hpair p hp) (hpair q hq)
  -- Both lists are put in order in one list of pairs.
  have hleft := List.map_mergeSort (f := Prod.fst) (r := fun p q => le p.1 q.1) (s := le)
    (l := as.zip bs) fun _ _ _ _ => rfl
  have hright := List.map_mergeSort (f := Prod.snd) (r := fun p q => le p.1 q.1) (s := le') hsort
  rw [List.map_fst_zip h.length_eq.le] at hleft
  rw [List.map_snd_zip h.length_eq.ge] at hright
  rw [← hleft, ← hright, List.forall₂_map_left_iff, List.forall₂_map_right_iff, List.forall₂_same]
  exact fun p hp => hpair p (List.mem_mergeSort.1 hp)

section SamePlace

variable {ls ls' : List (Lexeme τ)} {length length' : Nat} {e e' f f' : SyntaxError}

/-- Errors at the same places are in the same order on both sides. -/
theorem SyntaxError.SamePlace.start_le_iff (hrow : Lexeme.IsRow ls length)
    (hrow' : Lexeme.IsRow ls' length') (he : e.SamePlace ls ls' length length' e')
    (hf : f.SamePlace ls ls' length length' f') :
    e.span.start ≤ f.span.start ↔ e'.span.start ≤ f'.span.start := by
  have hlt : ∀ {ls : List (Lexeme τ)} {length i : Nat} {l : Lexeme τ}, Lexeme.IsRow ls length →
      ls[i]? = some l → l.span.start < length := fun hrow hl =>
    Nat.lt_of_lt_of_le (hrow.ordered.lexeme_lt (List.mem_of_getElem? hl))
      (hrow.stop_le _ (List.mem_of_getElem? hl))
  -- An error at the end of the source comes behind those at tokens.
  rcases he.place with ⟨i, l, l', hl, hl', hspan, hspan', -⟩ | ⟨hspan, hspan', -⟩ <;>
    rcases hf.place with ⟨j, m, m', hm, hm', hspanf, hspanf', -⟩ | ⟨hspanf, hspanf', -⟩ <;>
    rw [hspan, hspan', hspanf, hspanf']
  · rw [hrow.ordered.start_le_iff hl hm, hrow'.ordered.start_le_iff hl' hm']
  · exact iff_of_true (Nat.le_of_lt (hlt hrow hl)) (Nat.le_of_lt (hlt hrow' hl'))
  · exact iff_of_false (Nat.not_le.2 (hlt hrow hm)) (Nat.not_le.2 (hlt hrow' hm'))
  · exact iff_of_true (Nat.le_refl _) (Nat.le_refl _)

variable {hrows : Lexeme.IsRespaced ls ls'} {s s' : TokenStream τ}

/-- Errors of parallel runs are at the same places. -/
theorem Likeness.Errs.samePlace (h : (Likeness.respaced hrows).Errs s s' e e')
    (hend : s.endOffset = length) (hend' : s'.endOffset = length') :
    e.SamePlace ls ls' length length' e' := by
  obtain ⟨t, t', hm, he, he', hexpected⟩ := h
  rcases hm.places.respaced_cases with ⟨hu, hu'⟩ | ⟨i, l, l', rest, rest', hu, hu', hl, hl'⟩
  · have hends : t.atEnd = t'.atEnd := by rw [TokenStream.atEnd, TokenStream.atEnd, hu, hu']
    refine ⟨hexpected hends, ?_, .inr ⟨?_, ?_, ?_⟩⟩
    · rw [he.found, he'.found, TokenStream.text?, TokenStream.text?, hu, hu']
    · rw [he.span, TokenStream.span, hu, hm.left_end, hend]
    · rw [he'.span, TokenStream.span, hu', hm.right_end, hend']
    · rw [he.found, TokenStream.text?, hu]
      rfl
  · have hfound : e.found = some l.text := by
      rw [he.found, TokenStream.text?, hu]
      rfl
    refine ⟨hexpected (by rw [TokenStream.atEnd, TokenStream.atEnd, hu, hu']; rfl), ?_,
      .inl ⟨i, l, l', hl, hl', ?_, ?_, hfound⟩⟩
    · rw [hfound, (hrows.same hl hl').2, he'.found, TokenStream.text?, hu']
      rfl
    · rw [he.span, TokenStream.span, hu]
    · rw [he'.span, TokenStream.span, hu']

end SamePlace

/-! ## Sources -/

namespace Grammar

variable (g : Grammar τ)

/-- Two sources whose trees are the same without their comments, save for the offsets, and so are
    their errors. -/
structure SameSyntax (s t : String) : Prop where
  kind : (g.parse s).root.kind = (g.parse t).root.kind
  field : (g.parse s).root.field = (g.parse t).root.field
  children : RawNode.SameShapes
    (Span.SameTokens (g.lexicon.lex s).lexemes (g.lexicon.lex t).lexemes)
    ((g.parse s).root.without g.comment).children ((g.parse t).root.without g.comment).children
  errors : List.Forall₂ (SyntaxError.SamePlace (g.lexicon.lex s).lexemes (g.lexicon.lex t).lexemes
    (Text.byteLength s.toList) (Text.byteLength t.toList)) (g.parse s).errors (g.parse t).errors

variable {g}

/-- Sources with the same tokens have the same syntax. -/
theorem sameSyntax (hg : g.IsProgressive) (hf : g.IsFaithful) (hcomment : g.comment ≠ .error)
    {s t : String} {hrows : Lexeme.IsRespaced (g.lexicon.lex s).lexemes (g.lexicon.lex t).lexemes}
    (hrespects : g.Respects (.respaced hrows)) : g.SameSyntax s t := by
  let start : String → TokenStream τ := fun source =>
    .ofLexemes (g.lexicon.lex source).lexemes (Text.byteLength source.toList)
  obtain ⟨nodes', errors', u, u', hm, hdone, hnodes, herrors, hrun⟩ :=
    (run_statements hg (start s)).parallel hrespects
      (show (Likeness.respaced hrows).Places (start s) (start t) from Likeness.alike_respaced)
  -- The rows are as long as each other, so the right run is at its end as well.
  have hdone' : u'.atEnd = true := by
    rcases hm.places.respaced_cases with ⟨-, hu'⟩ | ⟨_, _, _, _, _, hu, -⟩
    · rw [TokenStream.atEnd, hu']
      rfl
    · rw [TokenStream.atEnd, hu] at hdone
      cases hdone
  obtain ⟨rfl, rfl⟩ := (run_statements hg (start t)).unique (by simpa using hrun (.done hdone'))
  have hsolid := (run_statements hg (start s)).isSolid hf (g.lexicon.ordered_lexemes s)
  have hkind : ∀ source : String, (g.parse source).root.kind = g.root ∧
      (g.parse source).root.field = none := fun source => by
    obtain ⟨children, hroot, -⟩ := records_parse hg hf source
    rw [hroot]
    exact ⟨rfl, rfl⟩
  refine ⟨?_, ?_, ?_, ?_⟩
  · rw [(hkind s).1, (hkind t).1]
  · rw [(hkind s).2, (hkind t).2]
  · rw [without_parse hg hf hcomment, without_parse hg hf hcomment]
    exact .of_forall₂ hnodes hsolid
  -- The errors are found alike, and put in order alike.
  · refine forall₂_mergeSort (herrors.imp fun e e' h => h.samePlace rfl rfl) fun he hf => ?_
    exact decide_eq_decide.2 (he.start_le_iff (g.lexicon.isRow s) (g.lexicon.isRow t) hf)

end Grammar

/-! ## Languages -/

/-- Sources with the same tokens and texts have rows that differ in spaces alone. -/
theorem Lexicon.isRespaced (lexicon : Lexicon τ) {s t : String}
    (h : (lexicon.lex s).lexemes.map (fun l => (l.token, l.text)) =
      (lexicon.lex t).lexemes.map fun l => (l.token, l.text)) :
    Lexeme.IsRespaced (lexicon.lex s).lexemes (lexicon.lex t).lexemes :=
  ⟨h, lexicon.ordered_lexemes s, lexicon.ordered_lexemes t⟩

/-- The grammar of PeoPl looks at tokens and texts alone. -/
theorem Peopl.respects_respaced {ls ls' : List (Lexeme Peopl.Token)}
    (hrows : Lexeme.IsRespaced ls ls') : Peopl.grammar.Respects (.respaced hrows) :=
  Peopl.grammar_respects Likeness.not_isStop_respaced (fun ⟨_, hl, hl'⟩ => .lexeme hrows hl hl')
    (.merge hrows) fun h _ => .node h .nil

/-- The lines of two sources break at the same tokens if they do so behind the first one. -/
theorem Lexicon.startsLine_eq (lexicon : Lexicon τ) {s t : String}
    (h : (lexicon.lex s).lexemes.tail.map Lexeme.startsLine =
      (lexicon.lex t).lexemes.tail.map Lexeme.startsLine) {i : Nat} {l l' : Lexeme τ}
    (hl : (lexicon.lex s).lexemes[i]? = some l) (hl' : (lexicon.lex t).lexemes[i]? = some l') :
    l.startsLine = l'.startsLine := by
  cases i with
  | zero =>
    rw [← List.head?_eq_getElem?] at hl hl'
    rw [lexicon.startsLine_of_mem_head? s l hl, lexicon.startsLine_of_mem_head? t l' hl']
  | succ i =>
    rw [← List.getElem?_tail] at hl hl'
    have hi := congrArg (·[i]?) h
    rw [List.getElem?_map, List.getElem?_map, hl, hl'] at hi
    exact Option.some.inj hi

/-- The grammar of Simpl looks at the starts of lines as well, which have to agree. -/
theorem Simpl.respects_respaced {ls ls' : List (Lexeme Simpl.Token)}
    (hrows : Lexeme.IsRespaced ls ls')
    (hlines : ∀ {i : Nat} {l l' : Lexeme Simpl.Token}, ls[i]? = some l → ls'[i]? = some l' →
      l.startsLine = l'.startsLine) :
    Simpl.grammar.Respects (.respaced hrows) :=
  Simpl.grammar_respects ⟨⟨fun _ h => h, nofun⟩, nofun, fun ⟨_, hl, hl'⟩ => hlines hl hl'⟩
    (fun ⟨_, hl, hl'⟩ => .lexeme hrows hl hl') (.merge hrows) fun h _ => .node h .nil

/-- Neither the space nor the comments between the tokens have a part in the syntax of a source,
    save that in Simpl lines have to break at the same tokens. -/
theorem parse_sameSyntax :
    (∀ s t : String, (Peopl.lexicon.lex s).lexemes.map (fun l => (l.token, l.text)) =
        (Peopl.lexicon.lex t).lexemes.map (fun l => (l.token, l.text)) →
      Peopl.grammar.SameSyntax s t) ∧
    ∀ s t : String, (Simpl.lexicon.lex s).lexemes.map (fun l => (l.token, l.text)) =
        (Simpl.lexicon.lex t).lexemes.map (fun l => (l.token, l.text)) →
      (Simpl.lexicon.lex s).lexemes.tail.map Lexeme.startsLine =
        (Simpl.lexicon.lex t).lexemes.tail.map Lexeme.startsLine →
      Simpl.grammar.SameSyntax s t := by
  constructor
  · intro s t htokens
    exact Grammar.sameSyntax Peopl.grammar_isProgressive Peopl.grammar_isFaithful (by decide)
      (Peopl.respects_respaced (Peopl.lexicon.isRespaced htokens))
  · intro s t htokens hlines
    exact Grammar.sameSyntax Simpl.grammar_isProgressive Simpl.grammar_isFaithful (by decide)
      (Simpl.respects_respaced (Simpl.lexicon.isRespaced htokens)
        (Simpl.lexicon.startsLine_eq hlines))

/-- A broken statement of PeoPl and one of Simpl, each with other space and a comment. -/
theorem parse_sameSyntax_comments :
    ((Peopl.lexicon.lex "a = (1..").lexemes.map (fun l => (l.token, l.text)) =
        (Peopl.lexicon.lex "a=** one\n( 1 ..").lexemes.map (fun l => (l.token, l.text)) ∧
      Peopl.grammar.SameSyntax "a = (1.." "a=** one\n( 1 ..") ∧
    (Simpl.lexicon.lex "type T.\n1").lexemes.map (fun l => (l.token, l.text)) =
        (Simpl.lexicon.lex " type  T. ** T\n\n1").lexemes.map (fun l => (l.token, l.text)) ∧
      (Simpl.lexicon.lex "type T.\n1").lexemes.tail.map Lexeme.startsLine =
        (Simpl.lexicon.lex " type  T. ** T\n\n1").lexemes.tail.map Lexeme.startsLine ∧
      Simpl.grammar.SameSyntax "type T.\n1" " type  T. ** T\n\n1" := by
  have hpeopl : (Peopl.lexicon.lex "a = (1..").lexemes.map (fun l => (l.token, l.text)) =
      (Peopl.lexicon.lex "a=** one\n( 1 ..").lexemes.map fun l => (l.token, l.text) := by cbv
  have hsimpl : (Simpl.lexicon.lex "type T.\n1").lexemes.map (fun l => (l.token, l.text)) =
      (Simpl.lexicon.lex " type  T. ** T\n\n1").lexemes.map fun l => (l.token, l.text) := by cbv
  have hlines : (Simpl.lexicon.lex "type T.\n1").lexemes.tail.map Lexeme.startsLine =
      (Simpl.lexicon.lex " type  T. ** T\n\n1").lexemes.tail.map Lexeme.startsLine := by cbv
  exact ⟨⟨hpeopl, parse_sameSyntax.1 _ _ hpeopl⟩, hsimpl, hlines,
    parse_sameSyntax.2 _ _ hsimpl hlines⟩

end GrammarTools
