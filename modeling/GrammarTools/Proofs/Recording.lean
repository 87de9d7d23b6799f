import GrammarTools.Proofs.Records
import GrammarTools.Proofs.Run

/-!
# What a parsed source records

The nodes that a rule builds record the tokens that it has taken
(`Spells.transcribes`), and so does the error that stands for tokens skipped
(`Transcribes.skipUntil`). A grammar whose statements and skips do so
(`Grammar.IsFaithful`) records all tokens of a source in one run
(`Grammar.Run.records`).

The comments are put in one by one, each between the marks in front of it and
the tokens that are still to follow. In the end the root records all marks of
the source (`Grammar.records_parse`).
-/

namespace GrammarTools

variable {τ : Type} {s s₁ s' : TokenStream τ} {comment : KindId} {nodes more : List RawNode}
  {marks : List Mark}

/-! ## Tokens -/

/-- The marks of some tokens. -/
def Mark.ofLexemes (lexemes : List (Lexeme τ)) : List Mark := lexemes.map fun l => ⟨l.span, false⟩

namespace Mark

variable {lexemes lexemes' : List (Lexeme τ)}

theorem ofLexemes_append :
    ofLexemes (lexemes ++ lexemes') = ofLexemes lexemes ++ ofLexemes lexemes' := by
  simp [ofLexemes]

theorem mem_ofLexemes {l : Lexeme τ} (hl : l ∈ lexemes) : ⟨l.span, false⟩ ∈ ofLexemes lexemes :=
  List.mem_map.2 ⟨l, hl, rfl⟩

theorem Ordered.lexeme_lt {l : Lexeme τ} (ho : Ordered (ofLexemes lexemes)) (hl : l ∈ lexemes) :
    l.span.start < l.span.stop :=
  ho.lt _ (mem_ofLexemes hl)

/-- The tokens in front of others are in order. -/
theorem Ordered.left (ho : Ordered (ofLexemes (lexemes ++ lexemes'))) :
    Ordered (ofLexemes lexemes) := by
  rw [ofLexemes_append] at ho
  exact ho.append_left

/-- The tokens behind others are in order. -/
theorem Ordered.right (ho : Ordered (ofLexemes (lexemes ++ lexemes'))) :
    Ordered (ofLexemes lexemes') := by
  rw [ofLexemes_append] at ho
  exact ho.append_right

theorem Ordered.behind {l : Lexeme τ} (ho : Ordered (ofLexemes (lexemes ++ l :: lexemes'))) :
    Ordered (ofLexemes lexemes') :=
  ho.right.sublist (List.sublist_cons_self _ _)

theorem leaves_ofLexemes : leaves comment (ofLexemes lexemes) = [] := by
  simp [leaves, comments, ofLexemes]

/-- The marks of the tokens among some marks. -/
theorem ofLexemes_eq_filter (h : tokens marks = lexemes.map Lexeme.span) :
    ofLexemes lexemes = marks.filter (!·.isComment) := by
  have hmap : ofLexemes lexemes = (lexemes.map Lexeme.span).map (⟨·, false⟩) := by
    simp [ofLexemes]
  rw [hmap, ← h, tokens, List.map_map]
  refine List.map_congr_left (fun m hm => ?_) |>.trans (List.map_id _)
  obtain ⟨span, isComment⟩ := m
  simpa using (List.mem_filter.1 hm).2

/-- A span over tokens goes from the first to the last. -/
theorem Frames.spanOver {span : Span} (h : Frames marks span)
    (ho : Ordered (marks ++ ofLexemes lexemes)) :
    Frames (marks ++ ofLexemes lexemes) (TokenStream.spanOver span lexemes) := by
  induction lexemes generalizing marks span with
  | nil => simpa [ofLexemes, TokenStream.spanOver] using h
  | cons l lexemes ih =>
    have hassoc : marks ++ ofLexemes (l :: lexemes) =
        marks ++ [⟨l.span, false⟩] ++ ofLexemes lexemes := List.append_cons ..
    rw [hassoc] at ho ⊢
    have hone := ho.append_left
    have hframes := h.append (.singleton ⟨l.span, false⟩)
    have hstart := hframes.start_le hone (m := ⟨l.span, false⟩) (by simp)
    have hstop : span.stop ≤ l.span.stop := by
      obtain ⟨front, last, rfl, hlast⟩ := h.exists_last
      have hgap : last.span.stop ≤ l.span.start :=
        hone.apart (c := ⟨l.span, false⟩) (by simp) List.mem_cons_self
      have hlt : l.span.start < l.span.stop := hone.lt ⟨l.span, false⟩ (by simp)
      omega
    refine ih ?_ ho
    simpa [Span.merge, Nat.min_eq_left hstart, Nat.max_eq_right hstop] using hframes

end Mark

/-- Nodes that record marks have the span that the marks frame. -/
theorem RecordsAll.frames_spanOf (h : RecordsAll comment nodes marks) (hn : nodes ≠ [])
    (ho : Mark.Ordered marks) : Mark.Frames marks (RawNode.spanOf nodes) := by
  have hfirst := List.head?_eq_some_head hn
  have hlast := List.getLast?_eq_some_getLast hn
  have hframes := h.frames hfirst hlast
  have hstart : (nodes.head hn).span.start ≤ (nodes.getLast hn).span.start :=
    h.le_start (fun m hm => hframes.start_le ho hm) (List.mem_of_getLast? hlast)
  have hstop : (nodes.head hn).span.stop ≤ (nodes.getLast hn).span.stop :=
    h.stop_le (fun m hm => hframes.le_stop ho hm) (List.mem_of_mem_head? hfirst)
  rw [RawNode.spanOf, hfirst, hlast]
  simpa [Span.merge, Nat.min_eq_left hstart, Nat.max_eq_right hstop] using hframes

/-- Nodes that record the tokens between two places, if these are in order. -/
def Transcribes (comment : KindId) (nodes : List RawNode) (s s' : TokenStream τ) : Prop :=
  ∃ lexemes, s.upcoming = lexemes ++ s'.upcoming ∧ (Mark.Ordered (Mark.ofLexemes lexemes) →
    RecordsAll comment nodes (Mark.ofLexemes lexemes))

namespace Transcribes

/-- Nodes in a row are transcribed from tokens in a row. -/
theorem append (h : Transcribes comment nodes s s₁) (h' : Transcribes comment more s₁ s') :
    Transcribes comment (nodes ++ more) s s' := by
  obtain ⟨lexemes, heq, h⟩ := h
  obtain ⟨lexemes', heq', h'⟩ := h'
  refine ⟨lexemes ++ lexemes', by rw [heq, heq', List.append_assoc], fun ho => ?_⟩
  rw [Mark.ofLexemes_append] at ho ⊢
  exact (h ho.append_left).append (h' ho.append_right)

theorem cons {node : RawNode} (h : Transcribes comment [node] s s₁)
    (h' : Transcribes comment more s₁ s') : Transcribes comment (node :: more) s s' :=
  h.append h'

/-- A leaf is transcribed from its token. -/
theorem leaf {t : τ} {kind : KindId} {field : Option FieldId} (hp : s.peek = some t)
    (hk : kind.isPlain comment) : Transcribes comment [⟨kind, field, s.span, []⟩] s s.advance := by
  obtain ⟨l, rest, hu, -, ha⟩ := TokenStream.exists_upcoming hp
  refine ⟨[l], by rw [hu, ha]; rfl, fun _ => .singleton ?_⟩
  rw [TokenStream.span, hu]
  exact .token hk

/-- An error records the tokens skipped. -/
theorem skipUntil (stop : τ → TokenStream τ → Bool) (hs : s.atEnd = false) :
    Transcribes comment [.error (s.skipUntil stop).1 []] s (s.skipUntil stop).2 := by
  cases hu : s.upcoming with
  | nil => simp [TokenStream.atEnd, hu] at hs
  | cons l rest =>
    obtain ⟨skipped, rest', hrest, heq⟩ := TokenStream.skipUntil_eq stop hu
    rw [heq]
    refine ⟨l :: skipped, by rw [hu, hrest]; rfl, fun ho => .singleton ?_⟩
    have hframes : Mark.Frames (Mark.ofLexemes (l :: skipped))
        (TokenStream.spanOver l.span skipped) := Mark.Frames.spanOver (.singleton _) ho
    have herror : Records comment (.error _ (Mark.leaves comment _)) _ := .error hframes
    rwa [Mark.leaves_ofLexemes] at herror

end Transcribes

/-- Nodes that spell tokens record them. -/
theorem Spells.transcribes (h : Spells comment nodes s s') : Transcribes comment nodes s s' := by
  induction h with
  | nil => exact ⟨[], rfl, fun _ => .nil⟩
  | leaf hp hk _ ih => exact (Transcribes.leaf hp hk).cons ih
  | branch hn hk _ _ ihc ih =>
    obtain ⟨lexemes, heq, hc⟩ := ihc
    exact Transcribes.cons ⟨lexemes, heq, fun ho =>
      .singleton (.branch hk (hc ho) ((hc ho).frames_spanOf hn ho))⟩ ih

/-! ## Runs -/

namespace Grammar

variable {g : Grammar τ}

/-- Statements record the tokens that they take, and so do skips. -/
structure IsFaithful (g : Grammar τ) : Prop where
  statement : ∀ {s nodes s'}, g.statement s = .ok (nodes, s') → Transcribes g.comment nodes s s'
  recover : ∀ {s}, s.atEnd = false → Transcribes g.comment (g.recover s).1 s (g.recover s).2

/-- A run records all tokens from a place on. -/
theorem Run.records (hg : g.IsFaithful) {errors : List SyntaxError} (h : g.Run s nodes errors)
    (ho : Mark.Ordered (Mark.ofLexemes s.upcoming)) :
    RecordsAll g.comment nodes (Mark.ofLexemes s.upcoming) := by
  have htranscribes : ∃ s', Transcribes g.comment nodes s s' ∧ s'.upcoming = [] := by
    clear ho
    induction h with
    | done hs => exact ⟨_, ⟨[], rfl, fun _ => .nil⟩, List.isEmpty_iff.1 hs⟩
    | statement _ hstatement _ ih =>
      obtain ⟨s', h, hend⟩ := ih
      exact ⟨s', (hg.statement hstatement).append h, hend⟩
    | broken hs _ hrecover _ ih =>
      obtain ⟨s', h, hend⟩ := ih
      have hskip := hg.recover hs
      rw [hrecover] at hskip
      exact ⟨s', hskip.append h, hend⟩
  obtain ⟨s', ⟨lexemes, heq, h⟩, hend⟩ := htranscribes
  rw [hend, List.append_nil] at heq
  rw [heq] at ho ⊢
  exact h ho

/-- Comments put into a root that records the tokens among some marks. -/
theorem records_addComments {front : List Mark} {root : RawNode}
    (ho : Mark.Ordered (front ++ marks))
    (h : RecordsAll g.comment root.children (front ++ marks.filter (!·.isComment))) :
    ∃ children, g.addComments root (Mark.comments marks) = root.withChildren children ∧
      RecordsAll g.comment children (front ++ marks) := by
  induction marks generalizing front root with
  | nil => exact ⟨root.children, root.withChildren_self.symm, h⟩
  | cons m marks ih =>
    rw [List.append_cons] at ho
    obtain ⟨span, isComment⟩ := m
    cases isComment with
    | false =>
      have h' := ih ho (by simpa using h)
      simpa [Mark.comments] using h'
    | true =>
      have hsub : (front ++ ⟨span, true⟩ :: marks.filter (!·.isComment)).Sublist
          (front ++ [⟨span, true⟩] ++ marks) := by
        rw [List.append_assoc]
        exact .append_left (.cons_cons _ List.filter_sublist) _
      obtain ⟨children, heq, h'⟩ := RecordsAll.insertExtra (ho.sublist hsub) h
      rw [List.append_cons] at h'
      have h'' := ih ho (show RecordsAll g.comment (root.withChildren children).children _ from h')
      simpa [Mark.comments, addComments, heq] using h''

/-- The root of a parsed source records its tokens and comments. -/
theorem records_parse (hg : g.IsProgressive) (hf : g.IsFaithful) (source : String) :
    ∃ children, (g.parse source).root =
        .branchAt g.root ⟨0, Text.byteLength source.toList⟩ children ∧
      RecordsAll g.comment children (g.lexicon.marks source) := by
  obtain ⟨nodes, errors, hrun, -, hroot⟩ := exists_run_parse hg source
  have ho : Mark.Ordered ([] ++ g.lexicon.marks source) := g.lexicon.marks_ordered source
  have htokens := Mark.ofLexemes_eq_filter (g.lexicon.tokens_marks source)
  have hnodes := hrun.records hf
  rw [TokenStream.ofLexemes, htokens] at hnodes
  rw [hroot, ← g.lexicon.comments_marks]
  exact records_addComments ho (hnodes (ho.sublist List.filter_sublist))

end Grammar

/-- The tokens of a source do not overlap. -/
theorem Lexicon.ordered_lexemes (lexicon : Lexicon τ) (source : String) :
    Mark.Ordered (Mark.ofLexemes (lexicon.lex source).lexemes) :=
  Mark.ofLexemes_eq_filter (lexicon.tokens_marks source) ▸
    (lexicon.marks_ordered source).sublist List.filter_sublist

end GrammarTools
