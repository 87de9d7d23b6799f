import GrammarTools.Lexicon
import GrammarTools.Proofs.Derivation
import Mathlib.Data.List.TakeWhile

/-!
# Tokens and comments in their places

The segments of a text leave nothing out, so the offset at which a segment
stands is the length of all text in front of it. The *marks* of a text are its
tokens and comments in the order in which they stand there
(`Lexicon.marks`): they are not empty, they do not overlap, and they begin and
end between two characters (`Lexicon.marks_placed`).

What else a token carries follows from the spans (`Lexicon.lexemes_eq_locate`):
its text is what stands there, and it starts a line if a line feed stands
between it and the token before. So the words of a grammar can be read off the
source (`Word.ofSource`).
-/

namespace GrammarTools

variable {τ : Type}

/-! ## Offsets -/

namespace Text

/-- Whether an offset lies in front of a character, or behind the last one. -/
def IsBoundary (cs : List Char) (offset : Nat) : Prop :=
  ∃ front back, cs = front ++ back ∧ byteLength front = offset

theorem IsBoundary.le {cs : List Char} {offset : Nat} (h : IsBoundary cs offset) :
    offset ≤ byteLength cs := by
  obtain ⟨front, back, rfl, rfl⟩ := h
  simp

/-- Behind as many bytes as a front has, a text is cut there. -/
theorem splitBytesFrom_byteLength (before front back : List Char) :
    splitBytesFrom before (byteLength front) (front ++ back) = (before.reverse ++ front, back) := by
  induction front generalizing before with
  | nil =>
    cases back with
    | nil => simp [splitBytesFrom]
    | cons c back =>
      have := c.utf8Size_pos
      simp [splitBytesFrom, Nat.not_le_of_gt this]
  | cons c front ih =>
    simp [splitBytesFrom, ih]

/-- A slice between the ends of two parts is what stands between them. -/
theorem slice_append (front middle back : List Char) :
    slice (byteLength front) (byteLength (front ++ middle)) (front ++ middle ++ back) = middle := by
  unfold slice splitBytes
  rw [List.append_assoc, splitBytesFrom_byteLength, byteLength_append, Nat.add_sub_cancel_left,
    splitBytesFrom_byteLength]
  rfl

/-- Every character has at least one byte. -/
theorem byteLength_pos {cs : List Char} (h : cs ≠ []) : 0 < byteLength cs := by
  cases cs with
  | nil => exact absurd rfl h
  | cons c cs =>
    have := c.utf8Size_pos
    simp only [byteLength_cons]
    omega

/-- An offset behind a part of a text cuts what comes after the part. -/
theorem IsBoundary.exists_middle {front rest : List Char} {offset : Nat}
    (h : IsBoundary (front ++ rest) offset) (hle : byteLength front ≤ offset) :
    ∃ middle back, rest = middle ++ back ∧ offset = byteLength (front ++ middle) := by
  obtain ⟨upTo, after, happend, rfl⟩ := h
  rcases List.append_eq_append_iff.1 happend with ⟨middle, rfl, hrest⟩ | ⟨beyond, rfl, hafter⟩
  · exact ⟨middle, after, hrest, rfl⟩
  · rcases eq_or_ne beyond [] with rfl | hne
    · exact ⟨[], rest, rfl, by simp⟩
    · have hpos := byteLength_pos hne
      rw [byteLength_append] at hle
      omega

end Text

/-! ## Marks -/

/-- A token or a comment in its place. -/
structure Mark where
  /-- Where it stands. -/
  span : Span
  /-- Whether it is a comment. -/
  isComment : Bool
deriving DecidableEq, Repr

namespace Mark

/-- The spans of the tokens among some marks. -/
def tokens (marks : List Mark) : List Span := (marks.filter (!·.isComment)).map span

/-- The spans of the comments among some marks. -/
def comments (marks : List Mark) : List Span := (marks.filter isComment).map span

/-- Marks that are not empty and stand one behind the other. -/
structure Ordered (marks : List Mark) : Prop where
  lt : ∀ m ∈ marks, m.span.start < m.span.stop
  pairwise : marks.Pairwise fun a b => a.span.stop ≤ b.span.start

@[simp] theorem tokens_append (a b : List Mark) : tokens (a ++ b) = tokens a ++ tokens b := by
  simp [tokens]

@[simp] theorem comments_append (a b : List Mark) :
    comments (a ++ b) = comments a ++ comments b := by
  simp [comments]

end Mark

/-! ## Segments -/

namespace Segment

/-- A segment has text, and no line feed if it is a comment. -/
structure IsProper (s : Segment τ) : Prop where
  text_ne_nil : s.text ≠ []
  comment : s.role = .comment → '\n' ∉ s.text

/-- The characters of some segments. -/
def textOf (segments : List (Segment τ)) : List Char := segments.flatMap text

@[simp] theorem textOf_cons (s : Segment τ) (rest : List (Segment τ)) :
    textOf (s :: rest) = s.text ++ textOf rest := by
  simp [textOf]

/-- The marks of segments that stand from an offset on. -/
def marksFrom : Nat → List (Segment τ) → List Mark
  | _, [] => []
  | offset, s :: rest =>
    let stop := offset + Text.byteLength s.text
    match s.role with
    | .blank => marksFrom stop rest
    | .comment => ⟨⟨offset, stop⟩, true⟩ :: marksFrom stop rest
    | .token _ => ⟨⟨offset, stop⟩, false⟩ :: marksFrom stop rest

/-- The tokens of segments that stand from an offset on, and whether a token there would be
    the first on its line. -/
def lexemesFrom : Nat → Bool → List (Segment τ) → List (Lexeme τ)
  | _, _, [] => []
  | offset, startsLine, s :: rest =>
    let stop := offset + Text.byteLength s.text
    match s.role with
    | .blank => lexemesFrom stop (startsLine || s.text.contains '\n') rest
    | .comment => lexemesFrom stop startsLine rest
    | .token t =>
      ⟨t, ⟨offset, stop⟩, String.ofList s.text, startsLine⟩ :: lexemesFrom stop false rest

/-- No mark starts before its segments do. -/
theorem le_start_of_mem_marksFrom {offset : Nat} {segments : List (Segment τ)} {m : Mark}
    (h : m ∈ marksFrom offset segments) : offset ≤ m.span.start := by
  induction segments generalizing offset with
  | nil => cases h
  | cons s rest ih =>
    unfold marksFrom at h
    split at h
    · exact Nat.le_of_add_right_le (ih h)
    all_goals
      rcases List.mem_cons.1 h with rfl | h
      · exact Nat.le_refl _
      · exact Nat.le_of_add_right_le (ih h)

/-- Marks of proper segments stand in order, as none of them is empty. -/
theorem marksFrom_ordered {segments : List (Segment τ)} (hs : ∀ s ∈ segments, s.IsProper)
    (offset : Nat) : Mark.Ordered (marksFrom offset segments) := by
  induction segments generalizing offset with
  | nil => exact ⟨by simp [marksFrom], .nil⟩
  | cons s rest ih =>
    have ih := ih (fun s h => hs s (List.mem_cons_of_mem _ h)) (offset + Text.byteLength s.text)
    have hpos := Text.byteLength_pos (hs s List.mem_cons_self).text_ne_nil
    unfold marksFrom
    split
    · exact ih
    all_goals
      refine ⟨fun m hm => ?_, .cons (fun m hm => le_start_of_mem_marksFrom hm) ih.pairwise⟩
      rcases List.mem_cons.1 hm with rfl | hm
      · exact Nat.lt_add_of_pos_right hpos
      · exact ih.lt m hm

/-- Marks start and end at boundaries of characters. -/
theorem marksFrom_boundary (front : List Char) {segments : List (Segment τ)} {m : Mark}
    (h : m ∈ marksFrom (Text.byteLength front) segments) :
    Text.IsBoundary (front ++ textOf segments) m.span.start ∧
      Text.IsBoundary (front ++ textOf segments) m.span.stop := by
  induction segments generalizing front with
  | nil => cases h
  | cons s rest ih =>
    have ih : m ∈ marksFrom (Text.byteLength front + Text.byteLength s.text) rest → _ := fun h =>
      ih (front ++ s.text) (by rwa [Text.byteLength_append])
    rw [textOf_cons, ← List.append_assoc]
    unfold marksFrom at h
    split at h
    · exact ih h
    all_goals
      rcases List.mem_cons.1 h with rfl | h
      · exact ⟨⟨front, s.text ++ textOf rest, by simp, rfl⟩,
          ⟨front ++ s.text, textOf rest, rfl, by simp⟩⟩
      · exact ih h

/-- Tokens are what their spans make of them, given the end of the token in front and what
    stands between. -/
theorem lexemesFrom_eq_locateFrom {segments : List (Segment τ)}
    (hs : ∀ s ∈ segments, s.IsProper) (front gap : List Char) {startsLine : Bool}
    {previous : Option Nat}
    (hp : (previous = none ∧ startsLine = true) ∨
      (previous = some (Text.byteLength front) ∧ startsLine = gap.contains '\n')) :
    lexemesFrom (Text.byteLength (front ++ gap)) startsLine segments =
      Lexeme.locateFrom (front ++ gap ++ textOf segments) previous
        ((lexemesFrom (Text.byteLength (front ++ gap)) startsLine segments).map
          fun l => (l.token, l.span)) := by
  -- The gap behind the last token grows with each segment that is skipped.
  induction segments generalizing front gap startsLine previous with
  | nil => rfl
  | cons s rest ih =>
    have hproper := hs s List.mem_cons_self
    have ih := @ih fun s h => hs s (List.mem_cons_of_mem _ h)
    have hlen : Text.byteLength (front ++ gap) + Text.byteLength s.text =
        Text.byteLength (front ++ (gap ++ s.text)) := by simp [Nat.add_assoc]
    have htext : front ++ gap ++ textOf (s :: rest) = front ++ (gap ++ s.text) ++ textOf rest := by
      simp
    cases hrole : s.role with
    | blank =>
      simp only [lexemesFrom, hrole]
      rw [hlen, htext]
      refine ih _ _ ?_
      rcases hp with ⟨rfl, rfl⟩ | ⟨rfl, rfl⟩ <;> simp
    | comment =>
      simp only [lexemesFrom, hrole]
      rw [hlen, htext]
      refine ih _ _ ?_
      rcases hp with ⟨rfl, rfl⟩ | ⟨rfl, rfl⟩ <;> simp [hproper.comment hrole]
    | token t =>
      have ih := ih (front ++ gap ++ s.text) [] (.inr ⟨rfl, (List.contains_nil).symm⟩)
      have hstop := Text.byteLength_append (front ++ gap) s.text
      have hslice := Text.slice_append (front ++ gap) s.text (textOf rest)
      rw [List.append_nil, hstop] at ih
      rw [hstop] at hslice
      simp only [lexemesFrom, hrole, List.map_cons, Lexeme.locateFrom, textOf_cons]
      rw [← List.append_assoc, ← ih, hslice]
      rcases hp with ⟨rfl, rfl⟩ | ⟨rfl, rfl⟩
      · rfl
      · have hgap := Text.slice_append front gap (s.text ++ textOf rest)
        rw [← List.append_assoc] at hgap
        simp only [hgap]

/-- The spans of lexemes are those of the marks that are no comments. -/
theorem map_span_lexemesFrom (offset : Nat) (startsLine : Bool) (segments : List (Segment τ)) :
    (lexemesFrom offset startsLine segments).map Lexeme.span =
      Mark.tokens (marksFrom offset segments) := by
  induction segments generalizing offset startsLine with
  | nil => rfl
  | cons s rest ih =>
    cases hs : s.role <;> simp [lexemesFrom, marksFrom, hs, ih, Mark.tokens]

end Segment

namespace Lexicon

open Segment

variable (lexicon : Lexicon τ)

/-- What the lexer has found behind some segments, in two words: its lexemes and its comments. -/
theorem foldl_add (segments : List (Segment τ)) (p : Progress τ) :
    (segments.foldl Progress.add p).lexemes =
        (lexemesFrom p.offset p.startsLine segments).reverse ++ p.lexemes ∧
      (segments.foldl Progress.add p).comments =
        (Mark.comments (marksFrom p.offset segments)).reverse ++ p.comments := by
  induction segments generalizing p with
  | nil => simp [lexemesFrom, marksFrom, Mark.comments]
  | cons s rest ih =>
    rw [List.foldl_cons, (ih _).1, (ih _).2]
    cases hs : s.role <;> simp [lexemesFrom, marksFrom, Progress.add, hs, Mark.comments]

/-- Nothing of a text is lost when it is cut into segments. -/
theorem segmentsFrom_textOf (before : List (Segment τ)) (cs : List Char) :
    textOf (lexicon.segmentsFrom before cs) = textOf before.reverse ++ cs := by
  fun_induction segmentsFrom lexicon before cs with
  | case1 before => simp
  | case2 before c cs ih =>
    rw [ih, List.reverse_cons, textOf, List.flatMap_append, List.append_assoc]
    simp [textOf, segmentAt_append_afterSegment]

/-- A comment goes up to the end of its line. -/
theorem roleAt_eq_comment {c : Char} {cs : List Char} (h : (lexicon.roleAt c cs).1 = .comment) :
    c = '*' ∧ (lexicon.roleAt c cs).2 = (cs.takeWhile (· != '\n')).length := by
  unfold roleAt at h ⊢
  split at h
  case isTrue hc =>
    simp only [Bool.and_eq_true, decide_eq_true_eq] at hc
    exact ⟨hc.1, by simp [hc]⟩
  case isFalse hc =>
    dsimp only at h
    repeat' split at h
    all_goals cases h

/-- Every segment takes at least one character. -/
theorem segmentAt_isProper (c : Char) (cs : List Char) :
    (lexicon.segmentAt c cs).IsProper := by
  refine ⟨by simp [segmentAt], fun h => ?_⟩
  obtain ⟨rfl, hn⟩ := lexicon.roleAt_eq_comment h
  have htake : cs.take (cs.takeWhile (· != '\n')).length = cs.takeWhile (· != '\n') :=
    (List.prefix_iff_eq_take.1 (List.takeWhile_prefix _)).symm
  simp only [segmentAt, hn, htake, List.mem_cons, not_or]
  exact ⟨by decide, fun hmem => by simpa using List.mem_takeWhile_imp hmem⟩

theorem segmentsFrom_isProper {before : List (Segment τ)} (cs : List Char)
    (hb : ∀ s ∈ before, s.IsProper) : ∀ s ∈ lexicon.segmentsFrom before cs, s.IsProper := by
  fun_induction segmentsFrom lexicon before cs with
  | case1 before => simpa using hb
  | case2 before c cs ih =>
    refine ih fun s hs => ?_
    rcases List.mem_cons.1 hs with rfl | hs
    · exact lexicon.segmentAt_isProper c cs
    · exact hb s hs

/-- The tokens and comments of a source. -/
def marks (source : String) : List Mark := marksFrom 0 (lexicon.segments source.toList)

/-- The lexemes of a source are those of its segments. -/
theorem lexemes_lex (source : String) :
    (lexicon.lex source).lexemes = lexemesFrom 0 true (lexicon.segments source.toList) := by
  simp [lex, arrange, foldl_add]

/-- The tokens among the marks of a source are those of the lexer. -/
theorem tokens_marks (source : String) :
    Mark.tokens (lexicon.marks source) = (lexicon.lex source).lexemes.map Lexeme.span := by
  rw [lexemes_lex, map_span_lexemesFrom, marks]

/-- The comments among the marks of a source are those of the lexer. -/
theorem comments_marks (source : String) :
    Mark.comments (lexicon.marks source) = (lexicon.lex source).comments := by
  simp [lex, arrange, foldl_add, marks]

theorem segments_isProper (source : String) :
    ∀ s ∈ lexicon.segments source.toList, s.IsProper :=
  lexicon.segmentsFrom_isProper _ (by simp)

/-- The segments of a source make up the source. -/
theorem textOf_segments (source : String) :
    textOf (lexicon.segments source.toList) = source.toList := by
  rw [segments, segmentsFrom_textOf]
  rfl

/-- Tokens and comments are not empty and do not overlap. -/
theorem marks_ordered (source : String) : Mark.Ordered (lexicon.marks source) :=
  marksFrom_ordered (lexicon.segments_isProper source) 0

/-- Tokens and comments begin and end between characters. -/
theorem marks_boundary (source : String) {m : Mark} (h : m ∈ lexicon.marks source) :
    Text.IsBoundary source.toList m.span.start ∧ Text.IsBoundary source.toList m.span.stop := by
  have := marksFrom_boundary [] h
  rwa [List.nil_append, textOf_segments] at this

/-- What a token carries follows from where it stands. -/
theorem lexemes_eq_locate (source : String) :
    (lexicon.lex source).lexemes =
      Lexeme.locate source ((lexicon.lex source).lexemes.map fun l => (l.token, l.span)) := by
  have h := lexemesFrom_eq_locateFrom (lexicon.segments_isProper source) [] [] (.inl ⟨rfl, rfl⟩)
  rw [List.nil_append, List.nil_append, textOf_segments] at h
  rw [lexemes_lex]
  exact h

end Lexicon

/-! ## Words -/

/-- The words that some tokens of a source make up. A token ends its line if a line feed
    stands behind it in front of the next token, or there is none. -/
def Word.ofSource (source : List Char) : List (Lexeme τ) → List (Word τ)
  | [] => []
  | l :: rest =>
    ⟨l.token, rest.head?.all fun next =>
      (Text.slice l.span.stop next.span.start source).contains '\n'⟩ :: ofSource source rest

/-- Where tokens stand is enough to tell the words of a source. -/
theorem Word.ofSource_locateFrom (source : List Char) (tokens : List (τ × Span))
    (previous : Option Nat) : Word.ofSource source (Lexeme.locateFrom source previous tokens) =
      Word.ofLexemes (Lexeme.locateFrom source previous tokens) := by
  induction tokens generalizing previous with
  | nil => rfl
  | cons x rest ih =>
    obtain ⟨t, span⟩ := x
    simp only [Lexeme.locateFrom, ofSource, ofLexemes, ih]
    cases rest <;> rfl

/-- The words of a source are those of its tokens. -/
theorem Word.ofSource_lex (lexicon : Lexicon τ) (source : String) :
    Word.ofSource source.toList (lexicon.lex source).lexemes =
      Word.ofLexemes (lexicon.lex source).lexemes := by
  rw [lexicon.lexemes_eq_locate]
  exact Word.ofSource_locateFrom _ _ _

end GrammarTools
