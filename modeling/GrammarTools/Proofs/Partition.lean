import GrammarTools.Proofs.Classes
import GrammarTools.Proofs.Lossless
import GrammarTools.Proofs.Separation

/-!
# Sources taken apart

Each segment of a source suits its role in front of the segments behind it
(`Segment.SuitAll`): a token and a comment belong to their class and are as long
as they can be, and a blank is only space. With the blanks left out, the tokens
and comments stand one behind the other, and what stands in front of, between and
behind them is only space (`lex_isPartition`).
-/

namespace GrammarTools

variable {τ : Type}

/-! ## Segments -/

theorem IsBlank.append {a b : List Char} (ha : IsBlank a) (hb : IsBlank b) : IsBlank (a ++ b) := by
  obtain ⟨xs, hxs, rfl⟩ := ha
  obtain ⟨ys, hys, rfl⟩ := hb
  exact ⟨xs ++ ys, List.forall_mem_append.2 ⟨hxs, hys⟩, List.flatten_append.symm⟩

theorem IsSkip.isBlank {text : List Char} (h : IsSkip text) : IsBlank text :=
  ⟨[text], List.forall_mem_singleton.2 h, by simp⟩

theorem isBlank_of_isGap {text : List Char} (h : ∀ c ∈ text, isGap c) : IsBlank text := by
  induction text with
  | nil => exact ⟨[], nofun, rfl⟩
  | cons c cs ih =>
    have hc : IsSkip [c] := .gap (Lexicon.isGap_iff.1 (h c List.mem_cons_self))
    exact hc.isBlank.append (ih fun d hd => h d (List.mem_cons_of_mem _ hd))

/-- A segment whose text is what its role says, in front of the rest. -/
def Segment.Suits (lexicon : Lexicon τ) (s : Segment τ) (rest : List Char) : Prop :=
  match s.role with
  | .blank => IsBlank s.text
  | .comment => IsComment s.text ∧ lexicon.IsLongest s.text rest
  | .token t => lexicon.Reads t s.text rest

/-- Segments that all suit what comes after them. -/
def Segment.SuitAll (lexicon : Lexicon τ) : List (Segment τ) → Prop
  | [] => True
  | s :: rest => s.Suits lexicon (textOf rest) ∧ SuitAll lexicon rest

namespace Lexicon

variable {lexicon : Lexicon τ}

/-- What is cut off is of the class that its role says, and is as long as it can be. -/
theorem segmentAt_suits (hl : lexicon.IsRegular) (c : Char) (cs : List Char) :
    (lexicon.segmentAt c cs).Suits lexicon (lexicon.afterSegment c cs) := by
  -- The cases are those of `roleAt`, in its order: each is tried where all before it have failed.
  unfold segmentAt afterSegment roleAt
  split
  case isTrue h =>
    simp only [Bool.and_eq_true, decide_eq_true_eq] at h
    obtain ⟨rfl, hopens⟩ := h
    have hcomment := reads_comment hl hopens
    refine ⟨?_, hcomment.2⟩
    simpa only [take_length_takeWhile] using hcomment.1
  case isFalse hcomment =>
  split
  case isTrue h =>
    simp only [Bool.and_eq_true, decide_eq_true_eq, List.isPrefixOf_iff_prefix] at h
    obtain ⟨rfl, rest, rfl⟩ := h
    exact IsSkip.join.isBlank
  case isFalse hjoin =>
  split
  case isTrue h =>
    simp only [Bool.and_eq_true, decide_eq_true_eq, List.isPrefixOf_iff_prefix] at h
    obtain ⟨rfl, rest, rfl⟩ := h
    exact IsSkip.joinReturn.isBlank
  case isFalse hreturn =>
  split
  case isTrue hgap =>
    refine isBlank_of_isGap ?_
    simp only [take_length_takeWhile]
    exact List.forall_mem_cons.2 ⟨hgap, fun d hd => List.mem_takeWhile_imp hd⟩
  case isFalse hgap =>
  split
  case h_1 hname => exact reads_name hl hname
  case h_2 hname =>
  split
  case isTrue hdigit => exact reads_number hl hdigit
  case isFalse hdigit =>
  split
  case isTrue hquote =>
    subst hquote
    dsimp only
    split
    case isTrue hlt => exact reads_string hl hlt
    case isFalse hlt => exact reads_unclosed (Nat.le_of_not_lt hlt)
  case isFalse hquote =>
  split
  case h_1 hmark => exact reads_mark hl hcomment hjoin hreturn hgap hname hdigit hquote hmark
  case h_2 hmark => exact reads_stray hl hcomment hjoin hreturn hgap hname hdigit hquote hmark

end Lexicon

/-! ## Sources -/

/-- The characters of a text that a span covers. -/
def Span.textIn (source : List Char) (s : Span) : List Char := Text.slice s.start s.stop source

/-- The characters of a text behind a span. -/
def Span.textBehind (source : List Char) (s : Span) : List Char :=
  Text.slice s.stop (Text.byteLength source) source

/-- The stretches in front of, between and behind some spans, from `start` up to `stop`. -/
def Span.gaps (start stop : Nat) : List Span → List Span
  | [] => [⟨start, stop⟩]
  | s :: rest => ⟨start, s.start⟩ :: gaps s.stop stop rest

/-- The spans of the tokens and comments, by where they start. -/
def Lexed.spans (lexed : Lexed τ) : List Span :=
  (lexed.lexemes.map Lexeme.span).merge lexed.comments Span.startsFirst

/-- Tokens and comments that take a source apart, each of them what a lexicon says it is, with
    nothing between them but blanks. -/
structure Lexed.IsPartition (lexed : Lexed τ) (lexicon : Lexicon τ) (source : List Char) :
    Prop where
  lt : ∀ span ∈ lexed.spans, span.start < span.stop
  increasing : lexed.spans.Pairwise fun a b => a.start < b.start
  apart : lexed.spans.Pairwise fun a b => a.stop ≤ b.start
  within : ∀ span ∈ lexed.spans, span.stop ≤ Text.byteLength source
  boundary : ∀ span ∈ lexed.spans,
    Text.IsBoundary source span.start ∧ Text.IsBoundary source span.stop
  gaps : ∀ gap ∈ Span.gaps 0 (Text.byteLength source) lexed.spans, IsBlank (gap.textIn source)
  token : ∀ l ∈ lexed.lexemes,
    lexicon.Reads l.token (l.span.textIn source) (l.span.textBehind source)
  keyword : ∀ l ∈ lexed.lexemes, ∀ entry ∈ lexicon.keywords,
    entry.1.toList = l.span.textIn source → l.token = entry.2
  comment : ∀ span ∈ lexed.comments,
    IsComment (span.textIn source) ∧ lexicon.IsLongest (span.textIn source) (span.textBehind source)

/-- A keyword is read as its own token. -/
theorem Lexicon.Reads.eq_of_keyword {lexicon : Lexicon τ} {t : τ} {text rest : List Char}
    (hl : lexicon.IsRegular) (h : lexicon.Reads t text rest) {entry : String × τ}
    (hmem : entry ∈ lexicon.keywords) (htext : entry.1.toList = text) : t = entry.2 := by
  subst htext
  have hhead := (hl.keyword entry hmem).1
  cases h with
  | known hbelongs _ =>
    generalize htext : entry.1.toList = text at hbelongs
    rw [htext] at hhead
    -- A keyword begins with a letter, so only a word could have its text.
    cases hbelongs with
    | keyword hother => rw [List.inj_on_of_nodup_map hl.distinct hmem hother htext]
    | name _ _ _ _ hnone => exact absurd htext (hnone entry hmem)
    | underscores _ hne hall =>
      obtain ⟨c, tail, rfl⟩ := List.exists_cons_of_ne_nil hne
      rw [hall c List.mem_cons_self] at hhead
      cases hhead
    | number hne hall =>
      obtain ⟨c, tail, rfl⟩ := List.exists_cons_of_ne_nil hne
      exact absurd (hall c List.mem_cons_self) (not_isDigit_of_isAlpha hhead)
    | fraction hne hall =>
      obtain ⟨c, tail, rfl⟩ := List.exists_cons_of_ne_nil hne
      exact absurd (hall c List.mem_cons_self) (not_isDigit_of_isAlpha hhead)
    | string => cases hhead
    | punctuation hmark =>
      have hmark := hl.punctuation _ hmark
      obtain ⟨c, hc, halpha⟩ := (Option.any_eq_true _ _).1 hhead
      rw [hc] at hmark
      exact absurd (isNameChar_of_isAlpha halpha) (isMarkChar_iff.1 hmark).2.1
  | stray _ htext _ hnone =>
    exact absurd (.inr (.inr ⟨_, .keyword hmem⟩)) (hnone entry.1.toList ⟨rest, by rw [htext]; rfl⟩)
  | unclosed _ htext =>
    rw [htext] at hhead
    cases hhead

namespace Segment

variable {lexicon : Lexicon τ} {segments : List (Segment τ)}

/-- The text in the span of a segment is the text of the segment. -/
theorem textIn_cons (front : List Char) (s : Segment τ) (rest : List (Segment τ)) :
    Span.textIn (front ++ textOf (s :: rest))
      ⟨Text.byteLength front, Text.byteLength front + Text.byteLength s.text⟩ = s.text := by
  have hslice := Text.slice_append front s.text (textOf rest)
  rwa [Text.byteLength_append, List.append_assoc, ← textOf_cons] at hslice

/-- The text behind the span of a segment is that of the segments behind it. -/
theorem textBehind_cons (front : List Char) (s : Segment τ) (rest : List (Segment τ)) :
    Span.textBehind (front ++ textOf (s :: rest))
      ⟨Text.byteLength front, Text.byteLength front + Text.byteLength s.text⟩ = textOf rest := by
  have hslice := Text.slice_append (front ++ s.text) (textOf rest) []
  rwa [List.append_nil, List.append_assoc, ← textOf_cons, Text.byteLength_append front s.text]
    at hslice

/-- Each lexeme is read where it stands, and none could be longer. -/
theorem SuitAll.reads (hs : SuitAll lexicon segments) (front : List Char) {startsLine : Bool}
    {l : Lexeme τ} (hl : l ∈ lexemesFrom (Text.byteLength front) startsLine segments) :
    lexicon.Reads l.token (l.span.textIn (front ++ textOf segments))
      (l.span.textBehind (front ++ textOf segments)) := by
  induction segments generalizing front startsLine with
  | nil => cases hl
  | cons s rest ih =>
    have ih : ∀ {startsLine},
        l ∈ lexemesFrom (Text.byteLength front + Text.byteLength s.text) startsLine rest → _ :=
      fun hl => ih hs.2 (front ++ s.text) (by rwa [Text.byteLength_append])
    rw [List.append_assoc, ← textOf_cons] at ih
    have hsuits := hs.1
    unfold lexemesFrom at hl
    unfold Suits at hsuits
    split at hl
    · exact ih hl
    · exact ih hl
    · rename_i hrole
      rcases List.mem_cons.1 hl with rfl | hl
      · rw [textIn_cons, textBehind_cons]
        simpa only [hrole] using hsuits
      · exact ih hl

/-- So is each comment. -/
theorem SuitAll.isComment (hs : SuitAll lexicon segments) (front : List Char) {span : Span}
    (hspan : span ∈ Mark.comments (marksFrom (Text.byteLength front) segments)) :
    IsComment (span.textIn (front ++ textOf segments)) ∧
      lexicon.IsLongest (span.textIn (front ++ textOf segments))
        (span.textBehind (front ++ textOf segments)) := by
  induction segments generalizing front with
  | nil => cases hspan
  | cons s rest ih =>
    have ih : span ∈ Mark.comments
        (marksFrom (Text.byteLength front + Text.byteLength s.text) rest) → _ :=
      fun hspan => ih hs.2 (front ++ s.text) (by rwa [Text.byteLength_append])
    rw [List.append_assoc, ← textOf_cons] at ih
    have hsuits := hs.1
    unfold marksFrom at hspan
    unfold Suits at hsuits
    split at hspan
    · exact ih hspan
    · rename_i hrole
      rcases List.mem_cons.1 hspan with rfl | hspan
      · rw [textIn_cons, textBehind_cons]
        simpa only [hrole] using hsuits
      · exact ih hspan
    · exact ih hspan

/-- Between the marks there is nothing but blanks. -/
theorem SuitAll.isBlank_gaps (hs : SuitAll lexicon segments) (front gap : List Char)
    (hgap : IsBlank gap) :
    ∀ g ∈ Span.gaps (Text.byteLength front) (Text.byteLength (front ++ gap ++ textOf segments))
        ((marksFrom (Text.byteLength (front ++ gap)) segments).map Mark.span),
      IsBlank (g.textIn (front ++ gap ++ textOf segments)) := by
  -- The gap behind the last token or comment grows with each blank.
  induction segments generalizing front gap with
  | nil =>
    intro g hg
    obtain rfl := List.mem_singleton.1 hg
    have hslice := Text.slice_append front gap []
    rw [List.append_nil] at hslice
    rwa [Span.textIn, show textOf ([] : List (Segment τ)) = [] from rfl, List.append_nil, hslice]
  | cons s rest ih =>
    have hsuits := hs.1
    have ih := fun front gap => ih hs.2 front gap
    unfold marksFrom
    unfold Suits at hsuits
    have htext : front ++ gap ++ textOf (s :: rest) = front ++ gap ++ s.text ++ textOf rest := by
      simp
    split
    case h_1 hrole =>
      simp only [hrole] at hsuits
      have ih := ih front (gap ++ s.text) (hgap.append hsuits)
      rw [← List.append_assoc, Text.byteLength_append _ s.text] at ih
      rwa [htext]
    all_goals
      have ih := ih (front ++ gap ++ s.text) [] ⟨[], nofun, rfl⟩
      rw [List.append_nil, Text.byteLength_append _ s.text] at ih
      rw [List.map_cons, Span.gaps, htext]
      refine List.forall_mem_cons.2 ⟨?_, ih⟩
      have hslice := Text.slice_append front gap (s.text ++ textOf rest)
      rw [← List.append_assoc] at hslice
      rwa [Span.textIn, hslice]

end Segment

namespace Lexicon

variable {lexicon : Lexicon τ}

/-- All that the lexer cuts off suits its class. -/
theorem segments_suitAll (hl : lexicon.IsRegular) (cs : List Char) :
    Segment.SuitAll lexicon (lexicon.segments cs) := by
  -- What is left behind a segment is shorter, but it is no tail of the list.
  induction h : cs.length using Nat.strongRecOn generalizing cs with
  | _ n ih =>
    cases cs with
    | nil => simp [segments, segmentsFrom, Segment.SuitAll]
    | cons c cs =>
      have hlt : (lexicon.afterSegment c cs).length < n := by
        have := lexicon.length_afterSegment_le c cs
        rw [← h, List.length_cons]
        omega
      have htext : Segment.textOf (lexicon.segments (lexicon.afterSegment c cs)) =
          lexicon.afterSegment c cs := by
        rw [segments, segmentsFrom_textOf]
        rfl
      rw [segments_cons]
      refine ⟨?_, ih _ hlt _ rfl⟩
      rw [htext]
      exact segmentAt_suits hl c cs

/-- A regular lexicon takes every source apart. -/
theorem isPartition_lex (hl : lexicon.IsRegular) (source : String) :
    (lexicon.lex source).IsPartition lexicon source.toList := by
  have ho := lexicon.marks_ordered source
  -- Tokens and comments, put in order, are the marks of the lexer.
  have hspans : (lexicon.lex source).spans = (lexicon.marks source).map Mark.span := by
    rw [Lexed.spans, ← tokens_marks, ← comments_marks, Mark.merge_tokens_comments ho]
  have hall := segments_suitAll hl source.toList
  have htext := lexicon.textOf_segments source
  have htoken : ∀ l ∈ (lexicon.lex source).lexemes,
      lexicon.Reads l.token (l.span.textIn source.toList) (l.span.textBehind source.toList) := by
    intro l hmem
    have hreads := hall.reads [] (lexicon.lexemes_lex source ▸ hmem)
    rwa [List.nil_append, htext] at hreads
  refine ⟨?_, ?_, ?_, ?_, ?_, ?_, htoken, fun l hmem entry hentry heq =>
    (htoken l hmem).eq_of_keyword hl hentry heq, ?_⟩
  · rw [hspans]
    exact List.forall_mem_map.2 ho.lt
  · rw [hspans, List.pairwise_map]
    exact ho.pairwise.imp_of_mem fun {a b} ha _ hab => Nat.lt_of_lt_of_le (ho.lt a ha) hab
  · rw [hspans, List.pairwise_map]
    exact ho.pairwise
  · rw [hspans]
    exact List.forall_mem_map.2 fun m hm => (lexicon.marks_boundary source hm).2.le
  · rw [hspans]
    exact List.forall_mem_map.2 fun m hm => lexicon.marks_boundary source hm
  · have hgaps := hall.isBlank_gaps [] [] ⟨[], nofun, rfl⟩
    rw [List.append_nil, List.nil_append, htext] at hgaps
    rw [hspans]
    exact hgaps
  · intro span hspan
    have hcomment := hall.isComment [] (lexicon.comments_marks source ▸ hspan)
    rwa [List.nil_append, htext] at hcomment

end Lexicon

/-- The lexers of both languages take every source apart. -/
theorem lex_isPartition (source : String) :
    (Simpl.lexicon.lex source).IsPartition Simpl.lexicon source.toList ∧
      (Peopl.lexicon.lex source).IsPartition Peopl.lexicon source.toList :=
  ⟨Lexicon.isPartition_lex Simpl.lexicon_isRegular source,
    Lexicon.isPartition_lex Peopl.lexicon_isRegular source⟩

end GrammarTools
