import GrammarTools.Proofs.Location
import Mathlib.Data.List.Induction

/-!
# Lines joined by a backslash

A backslash at the end of a line takes the line break away (`Join`). With as many
spaces in its place, a lexer finds the same tokens and comments at the same places
(`Join.lex_spaced`), unless two stars stand in front of it, which a space makes into
a comment. Only one thing may change: a token behind it starts a line because of
it, if there is no other line break in front of the token (`Join.IsOnlyBreak`).
-/

namespace GrammarTools

variable {τ : Type}

/-- Whether a segment is no token. -/
def Segment.isSkipped (s : Segment τ) : Bool :=
  match s.role with
  | .token _ => false
  | _ => true

/-- Whether a segment is a line break in front of the next token. -/
def Segment.breaksLine (s : Segment τ) : Bool :=
  match s.role with
  | .blank => s.text.contains '\n'
  | _ => false

/-- A backslash and the line break behind it, which a lexer skips, with the segments around. -/
structure Join (lexicon : Lexicon τ) (source : String) where
  /-- The segments in front. -/
  front : List (Segment τ)
  /-- The line break. -/
  ending : List Char
  /-- The segments behind. -/
  back : List (Segment τ)
  segments_eq : lexicon.segments source.toList = front ++ ⟨.blank, '\\' :: ending⟩ :: back

open Segment

namespace Join

variable {lexicon : Lexicon τ} {source : String} (j : Join lexicon source)

/-- As many spaces as the backslash and the line break have characters. -/
def gap : List Char := List.replicate (j.ending.length + 1) ' '

/-- The text with spaces in place of the backslash and the line break. -/
def spaced : String := String.ofList (textOf j.front ++ (j.gap ++ textOf j.back))

/-- Where the token in front ends. -/
def place : Nat := Text.byteLength (textOf (j.front.reverse.dropWhile isSkipped).reverse)

/-- A token stands behind, and there is no other line break between the tokens around. -/
structure IsOnlyBreak : Prop where
  front : ∀ s ∈ j.front.reverse.takeWhile isSkipped, s.role = .blank → '\n' ∉ s.text
  back : ∀ s ∈ j.back.takeWhile isSkipped, s.role = .blank → '\n' ∉ s.text
  token : ∃ s ∈ j.back, s.isSkipped = false

end Join

/-! ## Segments in front -/

namespace Lexicon

variable {lexicon : Lexicon τ} {p : Progress τ} {c d : Char} {cs x y : List Char}
  {front back : List (Segment τ)}

/-- A text is cut behind some segments as it is cut there alone. -/
theorem segments_eq_append (h : lexicon.segments cs = front ++ back) :
    cs = textOf front ++ textOf back ∧ lexicon.segments (textOf back) = back := by
  have htext : ∀ cs, textOf (lexicon.segments cs) = cs := lexicon.segmentsFrom_textOf []
  induction front generalizing cs with
  | nil =>
    obtain rfl : lexicon.segments cs = back := h
    rw [htext]
    exact ⟨rfl, rfl⟩
  | cons s front ih =>
    cases cs with
    | nil => simp [segments, segmentsFrom] at h
    | cons c cs =>
      rw [segments_cons, List.cons_append, List.cons.injEq] at h
      obtain ⟨rfl, h⟩ := h
      obtain ⟨hafter, hback⟩ := ih h
      refine ⟨?_, hback⟩
      rw [textOf_cons, List.append_assoc, ← hafter, segmentAt_append_afterSegment]

/-- A text that is taken up to behind a character has one in it that ends what is taken. -/
theorem exists_mem_of_length_takeWhile_le {q : Char → Bool} (hd : q d = true)
    (h : ((cs ++ d :: x).takeWhile q).length ≤ cs.length) : ∃ e ∈ cs, q e = false := by
  by_contra hall
  have hq : ∀ e ∈ cs, q e = true := fun e he => by
    by_contra hne
    exact hall ⟨e, he, Bool.eq_false_iff.2 hne⟩
  rw [List.takeWhile_append_of_pos hq, List.takeWhile_cons_of_pos hd, List.length_append,
    List.length_cons] at h
  omega

/-- A comment that ends in front of a character has its line break there. -/
theorem mem_of_comment_le (hd : d ≠ '\n') (hstar : ['*', ' '].isPrefixOf (cs ++ d :: x) = true)
    (hle : (lexicon.roleAt '*' (cs ++ d :: x)).2 ≤ cs.length) : '\n' ∈ cs := by
  have hrole : (lexicon.roleAt '*' (cs ++ d :: x)).2 =
      ((cs ++ d :: x).takeWhile (· != '\n')).length := by
    simp [roleAt, hstar]
  rw [hrole] at hle
  obtain ⟨e, he, hline⟩ := exists_mem_of_length_takeWhile_le (by simpa using hd) hle
  obtain rfl : e = '\n' := by simpa using hline
  exact he

/-- A string that ends in front of a character has its closing quote there. -/
theorem mem_of_quote_le (hd : d ≠ '"')
    (hle : (lexicon.roleAt '"' (cs ++ d :: x)).2 ≤ cs.length) : '"' ∈ cs := by
  have hbody : ((cs ++ d :: x).takeWhile (· != '"')).length ≤ cs.length := by
    rw [roleAt_quote] at hle
    split at hle
    · exact Nat.le_of_succ_le hle
    -- A string without a closing quote goes on to the end of the text.
    · simp only [List.length_append, List.length_cons] at hle
      omega
  obtain ⟨e, he, hclosing⟩ := exists_mem_of_length_takeWhile_le (by simpa using hd) hbody
  obtain rfl : e = '"' := by simpa using hclosing
  exact he

/-- What begins with a character in front of a backslash ends alike in front of a space, unless
    the space makes it into a comment. -/
theorem roleAt_space (hback : lexicon.IsSeparator '\\') (hspace : lexicon.IsSeparator ' ')
    (hgap : isGap c = false) (hstars : ¬ (c = '*' ∧ cs = ['*']))
    (hle : (lexicon.roleAt c (cs ++ '\\' :: x)).2 ≤ cs.length) (y : List Char) :
    lexicon.roleAt c (cs ++ ' ' :: y) = lexicon.roleAt c (cs ++ '\\' :: x) := by
  have hopens : ['*', ' '].isPrefixOf (cs ++ '\\' :: x) = ['*', ' '].isPrefixOf cs :=
    isPrefixOf_append_of_notMem (by decide) cs x
  have hcomment : c = '*' → ['*', ' '].isPrefixOf cs = true → '\n' ∈ cs := by
    rintro rfl hstar
    exact mem_of_comment_le (by decide) (hopens.trans hstar) hle
  have hquote : c = '"' → '"' ∈ cs := by
    rintro rfl
    exact mem_of_quote_le (by decide) hle
  have hstar : c = '*' → ['*', ' '].isPrefixOf (cs ++ ' ' :: y) = ['*', ' '].isPrefixOf cs := by
    rintro rfl
    rcases cs with - | ⟨e, - | ⟨f, cs⟩⟩
    · rfl
    -- With a star here, the space would open a comment.
    · have he : ('*' == e) = false := beq_eq_false_iff_ne.2 fun h => hstars ⟨rfl, by rw [h]⟩
      simp [List.isPrefixOf, he]
    · simp [List.isPrefixOf]
  rw [hspace.roleAt_append hgap hstar (fun hc h => .inr (hcomment hc h)) hquote
      (fun _ => .inl ⟨by decide, by decide⟩),
    hback.roleAt_append hgap (fun _ => hopens) (fun hc h => .inr (hcomment hc h)) hquote
      (fun _ => .inl ⟨by decide, by decide⟩)]

/-- The first segment of a text in front of a backslash is read alike in front of a space. -/
theorem behind_segmentAt_space (hback : lexicon.IsSeparator '\\') (hspace : lexicon.IsSeparator ' ')
    (hle : (lexicon.roleAt c (cs ++ '\\' :: x)).2 ≤ cs.length) (hstars : ¬ (c = '*' ∧ cs = ['*']))
    (p : Progress τ) (y : List Char) : lexicon.behind p (c :: (cs ++ ' ' :: y)) =
      lexicon.behind (p.add (lexicon.segmentAt c (cs ++ '\\' :: x)))
        (cs.drop (lexicon.roleAt c (cs ++ '\\' :: x)).2 ++ ' ' :: y) := by
  rw [segmentAt, List.take_append_of_le_length hle]
  cases hgap : isGap c with
  | false =>
    have hrole := roleAt_space hback hspace hgap hstars hle y
    rw [behind_cons, segmentAt, afterSegment, hrole, List.take_append_of_le_length hle,
      List.drop_append_of_le_length hle]
  | true =>
    -- The blanks in front of the space make up one segment with it.
    have htake : (cs ++ '\\' :: x).takeWhile isGap = cs.takeWhile isGap :=
      takeWhile_append_of_neg (by decide) cs x
    have htaken := List.prefix_iff_eq_take.1 (List.takeWhile_prefix (l := cs) isGap)
    rw [roleAt_of_isGap hgap, htake, ← htaken]
    have hblank : ∀ d ∈ c :: cs.takeWhile isGap, isGap d = true := fun d hd => by
      rcases List.mem_cons.1 hd with rfl | hd
      · exact hgap
      · exact List.mem_takeWhile_imp hd
    have hsplit : c :: (cs ++ ' ' :: y) = (c :: cs.takeWhile isGap) ++
        (cs.drop (cs.takeWhile isGap).length ++ ' ' :: y) := by
      have hcs := List.take_append_drop (cs.takeWhile isGap).length cs
      rw [← htaken] at hcs
      rw [List.cons_append, ← List.append_assoc, hcs]
    rw [hsplit, behind_gap hblank]

/-- The segments of a text in front of a backslash are read alike in front of a space. -/
theorem behind_space (hback : lexicon.IsSeparator '\\') (hspace : lexicon.IsSeparator ' ')
    (h : lexicon.segments (textOf front ++ '\\' :: x) = front ++ back)
    (hstars : ¬ ['*', '*'] <:+ textOf front) (p : Progress τ) (y : List Char) :
    lexicon.behind p (textOf front ++ ' ' :: y) =
      lexicon.behind (front.foldl Progress.add p) (' ' :: y) := by
  induction front generalizing p with
  | nil => rfl
  | cons s front ih =>
    have hfront : ¬ ['*', '*'] <:+ textOf front := fun hsuffix =>
      hstars (hsuffix.trans (by simp))
    -- The text begins with its first segment, which ends in front of the backslash.
    obtain ⟨c, cs', hcs⟩ : ∃ c cs', textOf (s :: front) ++ '\\' :: x = c :: cs' :=
      List.exists_cons_of_ne_nil (by simp)
    rw [hcs, segments_cons, List.cons_append, List.cons.injEq] at h
    obtain ⟨rfl, h⟩ := h
    have hsplit := lexicon.segmentAt_append_afterSegment c cs'
    have hafter : lexicon.afterSegment c cs' = textOf front ++ '\\' :: x := by
      rw [← hcs, textOf_cons, List.append_assoc] at hsplit
      exact List.append_cancel_left hsplit
    obtain ⟨body, hbody⟩ : ∃ body, cs'.take (lexicon.roleAt c cs').2 = body := ⟨_, rfl⟩
    have htext : textOf (lexicon.segmentAt c cs' :: front) = c :: (body ++ textOf front) := by
      rw [textOf_cons, segmentAt, hbody, List.cons_append]
    have hlength : (lexicon.roleAt c cs').2 = body.length := by
      rw [← hbody, List.length_take_of_le (lexicon.roleAt_le c cs')]
    obtain rfl : cs' = body ++ textOf front ++ '\\' :: x := by
      rw [htext, List.cons_append, List.cons.injEq] at hcs
      exact hcs.2.symm
    rw [hafter] at h
    rw [htext, List.cons_append, behind_segmentAt_space hback hspace ?_ ?_, hlength,
      List.drop_left, List.foldl_cons]
    · exact ih h hfront _
    · rw [hlength, List.length_append]
      exact Nat.le_add_right ..
    · rintro ⟨rfl, hstar⟩
      rw [htext, hstar] at hstars
      exact hstars (List.suffix_refl _)

/-- What is not skipped is a token. -/
theorem exists_token_of_isSkipped {s : Segment τ} (h : s.isSkipped = false) :
    ∃ t, s.role = .token t := by
  cases hs : s.role with
  | token t => exact ⟨t, rfl⟩
  | blank | comment => simp [isSkipped, hs] at h

theorem breaksLine_eq_false {s : Segment τ} :
    s.breaksLine = false ↔ (s.role = .blank → '\n' ∉ s.text) := by
  cases hs : s.role <;> simp [breaksLine, hs]

/-- What is skipped adds no lexeme, but may break the line. -/
theorem add_of_isSkipped {s : Segment τ} (h : s.isSkipped = true) (p : Progress τ) :
    (p.add s).lexemes = p.lexemes ∧ (p.add s).startsLine = (p.startsLine || s.breaksLine) := by
  cases hs : s.role with
  | token t => simp [isSkipped, hs] at h
  | blank | comment => simp [Progress.add, breaksLine, hs]

/-- What is skipped moves the lexemes behind it on. -/
theorem lexemesFrom_of_isSkipped {s : Segment τ} (h : s.isSkipped = true) (offset : Nat)
    (startsLine : Bool) : lexemesFrom offset startsLine (s :: back) =
      lexemesFrom (offset + Text.byteLength s.text) (startsLine || s.breaksLine) back := by
  cases hs : s.role with
  | token t => simp [isSkipped, hs] at h
  | blank | comment => simp [lexemesFrom, breaksLine, hs]

/-- What has been read in front of a token that starts no line: another token, and no line break
    behind it. -/
theorem exists_head?_of_not_startsLine (h : (front.foldl Progress.add .start).startsLine = false) :
    (∀ s ∈ front.reverse.takeWhile isSkipped, s.role = .blank → '\n' ∉ s.text) ∧
      ∃ l : Lexeme τ, (front.foldl Progress.add .start).lexemes.head? = some l ∧
        l.span.stop = Text.byteLength (textOf (front.reverse.dropWhile isSkipped).reverse) := by
  -- The induction takes segments off the end, where the gap in front of the next token is.
  induction front using List.reverseRecOn with
  | nil => cases h
  | append_singleton front s ih =>
    have hadd : (front ++ [s]).foldl Progress.add .start =
        (front.foldl Progress.add .start : Progress τ).add s := by simp
    rw [hadd] at h ⊢
    rw [List.reverse_append, List.reverse_singleton, List.singleton_append]
    cases hs : s.isSkipped with
    | false =>
      have htoken : ¬ s.isSkipped = true := Bool.eq_false_iff.1 hs
      obtain ⟨t, ht⟩ := exists_token_of_isSkipped hs
      have hoffset := offset_foldl_add (front ++ [s]) (.start : Progress τ)
      rw [hadd, Progress.add, ht] at hoffset
      rw [List.takeWhile_cons_of_neg htoken, List.dropWhile_cons_of_neg htoken, List.reverse_cons,
        List.reverse_reverse]
      exact ⟨by simp, _, by rw [Progress.add, ht]; rfl, hoffset.trans (Nat.zero_add _)⟩
    | true =>
      obtain ⟨hlexemes, hstarts⟩ := add_of_isSkipped hs (front.foldl .add .start)
      rw [hstarts, Bool.or_eq_false_iff] at h
      obtain ⟨hgap, hlast⟩ := ih h.1
      rw [hlexemes, List.takeWhile_cons_of_pos hs, List.dropWhile_cons_of_pos hs]
      exact ⟨List.forall_mem_cons.2 ⟨breaksLine_eq_false.1 h.2, hgap⟩, hlast⟩

/-- A line break makes a difference to the next token alone, if no other one is in front of it. -/
theorem lexemesFrom_false (offset : Nat) (back : List (Segment τ)) :
    lexemesFrom offset false back = lexemesFrom offset true back ∨
      (∀ s ∈ back.takeWhile isSkipped, s.role = .blank → '\n' ∉ s.text) ∧
        (∃ s ∈ back, s.isSkipped = false) ∧
        ∃ l rest, lexemesFrom offset true back = l :: rest ∧ l.startsLine = true ∧
          lexemesFrom offset false back = { l with startsLine := false } :: rest := by
  induction back generalizing offset with
  | nil => exact .inl rfl
  | cons s back ih =>
    cases hs : s.isSkipped with
    | false =>
      obtain ⟨t, ht⟩ := exists_token_of_isSkipped hs
      rw [List.takeWhile_cons_of_neg (Bool.eq_false_iff.1 hs)]
      simp only [lexemesFrom, ht]
      exact .inr ⟨by simp, ⟨s, List.mem_cons_self, hs⟩, _, _, rfl, rfl, rfl⟩
    | true =>
      rw [List.takeWhile_cons_of_pos hs, lexemesFrom_of_isSkipped hs, lexemesFrom_of_isSkipped hs,
        Bool.true_or, Bool.false_or]
      cases hline : s.breaksLine with
      -- A second line break makes the first one needless.
      | true => exact .inl rfl
      | false =>
        rcases ih (offset + Text.byteLength s.text) with hsame | ⟨hgap, ⟨s', hmem, htoken⟩, hrest⟩
        · exact .inl hsame
        · exact .inr ⟨List.forall_mem_cons.2 ⟨breaksLine_eq_false.1 hline, hgap⟩,
            ⟨s', List.mem_cons_of_mem _ hmem, htoken⟩, hrest⟩

/-- What a lexer finds in a text, where some blanks and segments are read in a given state. -/
theorem lex_of_behind {text : List Char} {whole : String} (h : lexicon.behind .start whole.toList =
      back.foldl .add (p.add ⟨.blank, text⟩)) :
    (lexicon.lex whole).lexemes = p.lexemes.reverse ++ lexemesFrom
        (p.offset + Text.byteLength text) (p.startsLine || text.contains '\n') back ∧
      (lexicon.lex whole).comments = p.comments.reverse ++ Mark.comments
        (marksFrom (p.offset + Text.byteLength text) back) := by
  obtain ⟨hlexemes, hcomments⟩ := lexicon.behind_start whole
  obtain ⟨hl, hc⟩ := foldl_add back (p.add ⟨.blank, text⟩)
  rw [h, hl] at hlexemes
  rw [h, hc] at hcomments
  constructor
  · rw [← List.reverse_reverse (lexicon.lex whole).lexemes, ← hlexemes, List.reverse_append,
      List.reverse_reverse]
    rfl
  · rw [← List.reverse_reverse (lexicon.lex whole).comments, ← hcomments, List.reverse_append,
      List.reverse_reverse]
    rfl

/-- A blank that begins with a backslash is the backslash and a line break. -/
theorem take_of_backslash (h : (lexicon.roleAt '\\' cs).1 = .blank) :
    cs.take (lexicon.roleAt '\\' cs).2 = ['\n'] ∨
      cs.take (lexicon.roleAt '\\' cs).2 = ['\r', '\n'] := by
  by_cases hline : ['\n'].isPrefixOf cs = true
  · obtain ⟨rest, rfl⟩ := List.isPrefixOf_iff_prefix.1 hline
    exact .inl (by simp [roleAt])
  by_cases hreturn : ['\r', '\n'].isPrefixOf cs = true
  · obtain ⟨rest, rfl⟩ := List.isPrefixOf_iff_prefix.1 hreturn
    exact .inr (by simp [roleAt, List.isPrefixOf])
  -- Without a line break behind it a backslash is a token.
  have hname : lexicon.nameAt '\\' cs = none := by
    simp [nameAt, Char.isAlpha, Char.isUpper, Char.isLower]
  have hgap : isGap '\\' = false := by decide
  have hdigit : Char.isDigit '\\' = false := by decide
  simp only [roleAt, hline, hreturn, hname, hgap, hdigit, Bool.and_false, Bool.false_eq_true,
    if_false] at h
  rw [if_neg (by simp), if_neg (by decide)] at h
  split at h <;> cases h

end Lexicon

namespace Join

variable {lexicon : Lexicon τ} {source : String} (j : Join lexicon source)

/-- The join is cut off as a blank of its own, whatever stands behind it. -/
theorem segments_back : source.toList = textOf j.front ++ '\\' :: (j.ending ++ textOf j.back) ∧
    lexicon.segments ('\\' :: (j.ending ++ textOf j.back)) =
      ⟨.blank, '\\' :: j.ending⟩ :: j.back ∧
    lexicon.segments (textOf j.back) = j.back := by
  obtain ⟨hsource, hjoin⟩ := Lexicon.segments_eq_append j.segments_eq
  have hwhole : lexicon.segments source.toList =
      (j.front ++ [⟨.blank, '\\' :: j.ending⟩]) ++ j.back := by
    rw [j.segments_eq, List.append_assoc]
    rfl
  obtain ⟨-, hback⟩ := Lexicon.segments_eq_append hwhole
  rw [textOf_cons] at hsource hjoin
  exact ⟨hsource, hjoin, hback⟩

/-- A join ends in a line feed, perhaps with a carriage return. -/
theorem ending_eq : j.ending = ['\n'] ∨ j.ending = ['\r', '\n'] := by
  have hjoin := j.segments_back.2.1
  rw [Lexicon.segments_cons, List.cons.injEq, Lexicon.segmentAt, Segment.mk.injEq,
    List.cons.injEq] at hjoin
  obtain ⟨⟨hrole, -, htake⟩, -⟩ := hjoin
  rw [← htake]
  exact Lexicon.take_of_backslash hrole

/-- The spaces put in place of a join have as many bytes, but break no line. -/
theorem gap_like_ending : Text.byteLength j.gap = Text.byteLength ('\\' :: j.ending) ∧
    ('\\' :: j.ending).contains '\n' = true ∧ j.gap.contains '\n' = false := by
  unfold gap
  rcases j.ending_eq with h | h <;> rw [h] <;> decide

theorem byteLength_spaced :
    Text.byteLength j.spaced.toList = Text.byteLength source.toList := by
  rw [spaced, String.toList_ofList, j.segments_back.1, ← List.cons_append]
  simp only [Text.byteLength_append, j.gap_like_ending.1]

/-- The lexer passes the join as a blank that breaks the line. -/
theorem behind_source : lexicon.behind .start source.toList =
    j.back.foldl .add ((j.front.foldl .add .start : Lexicon.Progress τ).add
      ⟨.blank, '\\' :: j.ending⟩) := by
  rw [Lexicon.behind, j.segments_eq, List.foldl_append, List.foldl_cons]

section spaced

variable (hback : lexicon.IsSeparator '\\') (hspace : lexicon.IsSeparator ' ')
  (hstars : ¬ ['*', '*'] <:+ textOf j.front)
include hback hspace hstars

/-- It passes the spaces as a blank that does not. -/
theorem behind_spaced : lexicon.behind .start j.spaced.toList =
    j.back.foldl .add ((j.front.foldl .add .start : Lexicon.Progress τ).add ⟨.blank, j.gap⟩) := by
  obtain ⟨hsource, -, hsegments⟩ := j.segments_back
  have hgap : ∀ c ∈ j.gap, isGap c = true := fun c hc => by
    rw [List.eq_of_mem_replicate hc]
    decide
  have hspaced : j.spaced.toList = textOf j.front ++
      ' ' :: (List.replicate j.ending.length ' ' ++ textOf j.back) := by
    rw [spaced, String.toList_ofList, gap, List.replicate_succ, List.cons_append]
  rw [hspaced, Lexicon.behind_space hback hspace (hsource ▸ j.segments_eq) hstars,
    ← List.cons_append, ← List.replicate_succ, ← gap, Lexicon.behind_gap hgap, Lexicon.behind,
    hsegments]

/-- With spaces in place of a line break, the next token may start no line, and nothing else
    changes. -/
theorem lex_spaced : (lexicon.lex j.spaced).comments = (lexicon.lex source).comments ∧
    ((lexicon.lex j.spaced).lexemes = (lexicon.lex source).lexemes ∨
      j.IsOnlyBreak ∧ ∃ front l m back,
        (lexicon.lex source).lexemes = front ++ l :: m :: back ∧ l.span.stop = j.place ∧
          m.startsLine = true ∧ (lexicon.lex j.spaced).lexemes =
            front ++ l :: { m with startsLine := false } :: back) := by
  obtain ⟨hlength, hline, hnoline⟩ := j.gap_like_ending
  obtain ⟨hl, hc⟩ := Lexicon.lex_of_behind j.behind_source
  obtain ⟨hl', hc'⟩ := Lexicon.lex_of_behind (j.behind_spaced hback hspace hstars)
  rw [hline, Bool.or_true] at hl
  rw [hlength, hnoline, Bool.or_false] at hl'
  rw [hlength] at hc'
  refine ⟨hc'.trans hc.symm, ?_⟩
  generalize hoffset : Text.byteLength ('\\' :: j.ending) = length at hl hl'
  cases hread : (j.front.foldl Lexicon.Progress.add .start).startsLine with
  -- The next token starts a line in any case.
  | true => exact .inl (by rw [hl', hl, hread])
  | false =>
    -- A token stands in front, and no line break behind it.
    obtain ⟨hahead, l, hlast, hstop⟩ := Lexicon.exists_head?_of_not_startsLine hread
    obtain ⟨before, hbefore⟩ := List.head?_eq_some_iff.1 hlast
    rw [hread] at hl'
    rw [hbefore, List.reverse_cons, List.append_assoc] at hl hl'
    rcases Lexicon.lexemesFrom_false _ j.back with
      hsame | ⟨hbehind, htoken, m, rest, htrue, hstarts, hfalse⟩
    · exact .inl (by rw [hl', hl, hsame])
    · exact .inr ⟨⟨hahead, hbehind, htoken⟩, before.reverse, l, m, rest, by rw [hl, htrue]; rfl,
        hstop, hstarts, by rw [hl', hfalse]; rfl⟩

end spaced

end Join

end GrammarTools
