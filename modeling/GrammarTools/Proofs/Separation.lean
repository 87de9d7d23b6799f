import GrammarTools.Proofs.Shift
import Mathlib.Data.List.Find

/-!
# Texts on lines of their own

A text that goes on behind a line feed is cut up to there as it would be cut
without the rest (`Lexicon.roleAt_append`), unless a string has been left open in
front of the line feed, or a backslash joins the two lines. The line feed belongs
to the blank around it. So the lexer finds in the whole what it finds in the two
texts, that of the second one moved to the right (`Lexicon.lex_append`).
-/

namespace GrammarTools

variable {τ : Type}

/-! ## Segments in front of a separator -/

section takeWhile

variable {p : Char → Bool} {cs : List Char} {d : Char}

/-- Taking stops at the separator, so it makes no difference what follows it. -/
theorem takeWhile_append_of_neg (hp : p d = false) (cs rest : List Char) :
    (cs ++ d :: rest).takeWhile p = cs.takeWhile p := by
  rw [List.takeWhile_append, List.takeWhile_cons, hp]
  split
  · rw [if_neg Bool.false_ne_true, List.append_nil]
    exact (List.takeWhile_sublist _).eq_of_length ‹_› |>.symm
  · rfl

theorem dropWhile_append_of_neg (hp : p d = false) (cs rest : List Char) :
    (cs ++ d :: rest).dropWhile p = cs.dropWhile p ++ d :: rest := by
  rw [List.dropWhile_append, List.dropWhile_cons, hp]
  split
  · rename_i hempty
    rw [if_neg Bool.false_ne_true, List.isEmpty_iff.1 hempty, List.nil_append]
  · rfl

/-- Taking stops before the end, if there is something to stop at. -/
theorem length_takeWhile_lt {c : Char} (hc : c ∈ cs) (hp : p c = false) :
    (cs.takeWhile p).length < cs.length := by
  refine Nat.lt_of_le_of_ne (List.takeWhile_sublist _).length_le fun heq => ?_
  rw [← (List.takeWhile_sublist (p := p)).eq_of_length heq] at hc
  rw [List.mem_takeWhile_imp hc] at hp
  cases hp

/-- What is taken from the front of a text ends in it, if there is a character that is not taken. -/
theorem takeWhile_append_of_mem {c : Char} (hc : c ∈ cs) (hp : p c = false) (rest : List Char) :
    (cs ++ rest).takeWhile p = cs.takeWhile p := by
  rw [List.takeWhile_append, if_neg (Nat.ne_of_lt (length_takeWhile_lt hc hp))]

/-- A prefix without the separator is found in front of it. -/
theorem isPrefixOf_append_of_notMem {text : List Char} (ht : d ∉ text) (cs rest : List Char) :
    text.isPrefixOf (cs ++ d :: rest) = text.isPrefixOf cs := by
  induction text generalizing cs with
  | nil => simp
  | cons c text ih =>
    obtain ⟨hc, ht⟩ := not_or.1 (List.mem_cons.not.1 ht)
    cases cs with
    | nil => simp [List.isPrefixOf, beq_eq_false_iff_ne.2 (Ne.symm hc)]
    | cons d cs => rw [List.cons_append, List.isPrefixOf, List.isPrefixOf, ih ht]

end takeWhile

namespace Lexicon

variable (lexicon : Lexicon τ) {c d : Char} {cs : List Char}

/-- No punctuation is empty, or has a backslash or a line feed in it. -/
def IsPlain : Prop := ∀ entry ∈ lexicon.punctuation,
  entry.1.toList ≠ [] ∧ '\n' ∉ entry.1.toList ∧ '\\' ∉ entry.1.toList

instance : Decidable lexicon.IsPlain :=
  inferInstanceAs (Decidable (∀ entry ∈ lexicon.punctuation, _))

/-- A character that is part of no token, save that it may stand in a string. -/
structure IsSeparator (d : Char) : Prop where
  name : isNameChar d = false
  dot : d ≠ '.'
  quote : d ≠ '"'
  punctuation : ∀ entry ∈ lexicon.punctuation, d ∉ entry.1.toList

variable {lexicon}

/-- In a plain lexicon, a line feed separates tokens. -/
theorem IsPlain.isSeparator_line (hl : lexicon.IsPlain) : lexicon.IsSeparator '\n' :=
  ⟨by decide, by decide, by decide, fun entry hentry => (hl entry hentry).2.1⟩

namespace IsSeparator

variable (hd : lexicon.IsSeparator d)
include hd

theorem not_isAlphanum : d.isAlphanum = false := (Bool.or_eq_false_iff.1 hd.name).1

theorem not_isAlpha : d.isAlpha = false := (Bool.or_eq_false_iff.1 hd.not_isAlphanum).1

theorem not_isDigit : d.isDigit = false := (Bool.or_eq_false_iff.1 hd.not_isAlphanum).2

/-- A name ends at the separator at the latest. -/
theorem nameAt_append (c : Char) (cs rest : List Char) :
    lexicon.nameAt c (cs ++ d :: rest) = lexicon.nameAt c cs := by
  have hname := takeWhile_append_of_neg hd.name cs rest
  have hunderscore : (d == '_') = false := (Bool.or_eq_false_iff.1 hd.name).2
  have hrun := takeWhile_append_of_neg (p := (· == '_')) hunderscore cs rest
  have hbehind := dropWhile_append_of_neg (p := (· == '_')) hunderscore cs rest
  unfold nameAt
  rw [hname, hrun, hbehind]
  cases hdrop : cs.dropWhile (· == '_') with
  | nil =>
    have htake : cs.takeWhile (· == '_') = cs := by
      have h := List.takeWhile_append_dropWhile (p := (· == '_')) (l := cs)
      rwa [hdrop, List.append_nil] at h
    simp [htake, hd.not_isAlpha]
  | cons initial _ => rfl

/-- A number ends at the separator at the latest. -/
theorem numberLength_append (cs rest : List Char) :
    numberLength (cs ++ d :: rest) = numberLength cs := by
  have hwhole := takeWhile_append_of_neg hd.not_isDigit cs rest
  have hbehind := dropWhile_append_of_neg hd.not_isDigit cs rest
  unfold numberLength
  rw [hwhole, hbehind]
  cases cs.dropWhile Char.isDigit with
  | nil => simp [hd.dot]
  | cons e digits =>
    by_cases he : e = '.'
    · subst he
      simp only [List.cons_append, takeWhile_append_of_neg hd.not_isDigit]
    · simp [he]

/-- A mark ends at the separator at the latest. -/
theorem punctuationAt_append (c : Char) (cs rest : List Char) :
    lexicon.punctuationAt c (cs ++ d :: rest) = lexicon.punctuationAt c cs := by
  unfold punctuationAt
  congr 1
  refine List.find?_congr fun entry hentry => ?_
  exact isPrefixOf_append_of_notMem (hd.punctuation entry hentry) (c :: cs) rest

/-- What begins with a character in front of a separator ends in front of it, unless it is a
    blank, a comment on the same line, a string that has been left open, or a backslash in front of
    a line break. -/
theorem roleAt_append (hgap : isGap c = false)
    (hstars : c = '*' → ['*', ' '].isPrefixOf (cs ++ d :: rest) = ['*', ' '].isPrefixOf cs)
    (hcomment : c = '*' → ['*', ' '].isPrefixOf cs = true → d = '\n' ∨ '\n' ∈ cs)
    (hquote : c = '"' → '"' ∈ cs)
    (hback : c = '\\' → (d ≠ '\n' ∧ d ≠ '\r') ∨ (cs ≠ [] ∧ cs ≠ ['\r'])) :
    lexicon.roleAt c (cs ++ d :: rest) = lexicon.roleAt c cs := by
  -- Only these three kinds of pieces look further than their own characters.
  have hline : c = '*' → ['*', ' '].isPrefixOf cs = true →
      (cs ++ d :: rest).takeWhile (· != '\n') = cs.takeWhile (· != '\n') := fun hc hopens => by
    rcases hcomment hc hopens with rfl | hmem
    · exact takeWhile_append_of_neg (by decide) cs rest
    · exact takeWhile_append_of_mem hmem (by decide) _
  have hjoin : c = '\\' →
      ['\n'].isPrefixOf (cs ++ d :: rest) = ['\n'].isPrefixOf cs ∧
        ['\r', '\n'].isPrefixOf (cs ++ d :: rest) = ['\r', '\n'].isPrefixOf cs := fun hc => by
    rcases hback hc with ⟨hfeed, hreturn⟩ | ⟨hne, hreturn⟩
    · exact ⟨isPrefixOf_append_of_notMem (by simp [hfeed]) cs rest,
        isPrefixOf_append_of_notMem (by simp [hfeed, hreturn]) cs rest⟩
    · obtain ⟨e, cs, rfl⟩ := List.exists_cons_of_ne_nil hne
      cases cs with
      | nil =>
        have he : ('\r' == e) = false :=
          beq_eq_false_iff_ne.2 fun h => hreturn (by rw [h])
        simp [List.isPrefixOf, he]
      | cons f cs => simp [List.isPrefixOf]
  have hshort : c = '"' → (cs.takeWhile (· != '"')).length < cs.length := fun hc =>
    length_takeWhile_lt (hquote hc) (by decide)
  have hstring : c = '"' → (cs ++ d :: rest).takeWhile (· != '"') = cs.takeWhile (· != '"') :=
    fun hc => takeWhile_append_of_mem (hquote hc) (by decide) _
  unfold roleAt
  rw [hd.nameAt_append, hd.numberLength_append, hd.punctuationAt_append, hgap]
  by_cases hc : c = '*'
  · subst hc
    rw [hstars rfl]
    by_cases hopens : ['*', ' '].isPrefixOf cs = true
    · simp [hopens, hline rfl hopens]
    · simp [hopens]
  by_cases hc' : c = '\\'
  · subst hc'
    simp [(hjoin rfl).1, (hjoin rfl).2]
  by_cases hc'' : c = '"'
  · simp [hc'', hstring hc'', hshort hc'', Nat.lt_of_lt_of_le (hshort hc'')]
  · simp [hc, hc', hc'']

end IsSeparator

variable (lexicon)

/-- A name is no longer than the text. -/
theorem nameAt_le {t : τ} {n : Nat} (h : lexicon.nameAt c cs = some (t, n)) : n ≤ cs.length := by
  have htake : ∀ p : Char → Bool, (cs.takeWhile p).length ≤ cs.length := fun p =>
    (List.takeWhile_sublist p).length_le
  unfold nameAt at h
  split at h
  · obtain ⟨-, rfl⟩ := Prod.mk.inj (Option.some.inj h)
    exact htake _
  · split at h
    · obtain ⟨_, -, h⟩ := Option.map_eq_some_iff.1 h
      split at h
      · split at h
        · obtain ⟨-, rfl⟩ := Prod.mk.inj h
          exact htake _
        · obtain ⟨-, rfl⟩ := Prod.mk.inj h
          exact htake _
      · obtain ⟨-, rfl⟩ := Prod.mk.inj h
        exact Nat.le_refl _
    · cases h

theorem numberLength_le (cs : List Char) : numberLength cs ≤ cs.length := by
  have hlength :=
    congrArg List.length (List.takeWhile_append_dropWhile (p := Char.isDigit) (l := cs))
  rw [List.length_append] at hlength
  unfold numberLength
  dsimp only
  split
  · rename_i rest hdrop
    rw [hdrop, List.length_cons] at hlength
    have hfraction := (List.takeWhile_sublist (l := rest) Char.isDigit).length_le
    split <;> omega
  · omega

theorem punctuationAt_le {t : τ} {n : Nat} (h : lexicon.punctuationAt c cs = some (t, n)) :
    n ≤ cs.length := by
  obtain ⟨entry, hfind, h⟩ := Option.map_eq_some_iff.1 h
  obtain ⟨-, rfl⟩ := Prod.mk.inj h
  have hprefix := List.find?_some hfind
  have hlength := (List.isPrefixOf_iff_prefix.1 hprefix).length_le
  rw [List.length_cons, String.length_toList] at hlength
  omega

/-- What begins with a character is no longer than the text. -/
theorem roleAt_le (c : Char) (cs : List Char) : (lexicon.roleAt c cs).2 ≤ cs.length := by
  have htake : ∀ p : Char → Bool, (cs.takeWhile p).length ≤ cs.length := fun p =>
    (List.takeWhile_sublist p).length_le
  have hprefix : ∀ {b : Bool} {text : List Char}, (b && text.isPrefixOf cs) = true →
      text.length ≤ cs.length := fun {b text} h =>
    (List.isPrefixOf_iff_prefix.1 (Bool.and_eq_true _ _ ▸ h).2).length_le
  unfold roleAt
  split
  · exact htake _
  split
  · exact hprefix ‹_›
  split
  · exact hprefix ‹_›
  split
  · exact htake _
  split
  · exact nameAt_le lexicon ‹_›
  split
  · exact numberLength_le cs
  split
  · dsimp only
    split
    · assumption
    · exact Nat.le_refl _
  split
  · exact punctuationAt_le lexicon ‹_›
  · exact Nat.zero_le _

/-! ## Texts in turn -/

/-- The segments so far stay in front of those to come. -/
theorem segmentsFrom_eq (before : List (Segment τ)) (cs : List Char) :
    lexicon.segmentsFrom before cs = before.reverse ++ lexicon.segments cs := by
  induction h : cs.length using Nat.strongRecOn generalizing before cs with
  | _ n ih =>
    cases cs with
    | nil => simp [segments, segmentsFrom]
    | cons c cs =>
      have hlt : (lexicon.afterSegment c cs).length < n := by
        have := lexicon.length_afterSegment_le c cs
        rw [← h, List.length_cons]
        omega
      rw [segments, segmentsFrom, ih _ hlt _ _ rfl, segmentsFrom, ih _ hlt _ _ rfl]
      simp

/-- Segments are cut off one by one. -/
theorem segments_cons (c : Char) (cs : List Char) : lexicon.segments (c :: cs) =
    lexicon.segmentAt c cs :: lexicon.segments (lexicon.afterSegment c cs) := by
  rw [segments, segmentsFrom, segmentsFrom_eq]
  rfl

/-- The state of a lexer behind a text. -/
def behind (p : Progress τ) (cs : List Char) : Progress τ :=
  (lexicon.segments cs).foldl Progress.add p

variable {lexicon} {p : Progress τ}

@[simp] theorem behind_nil : lexicon.behind p [] = p := by
  simp [behind, segments, segmentsFrom]

/-- How far the lexer is behind a text is settled segment by segment. -/
theorem behind_cons : lexicon.behind p (c :: cs) =
    lexicon.behind (p.add (lexicon.segmentAt c cs)) (lexicon.afterSegment c cs) := by
  rw [behind, segments_cons]
  rfl

theorem Progress.add_blank (cs ds : List Char) :
    (p.add ⟨.blank, cs⟩).add ⟨.blank, ds⟩ = p.add ⟨.blank, cs ++ ds⟩ := by
  simp [Progress.add, Nat.add_assoc, Bool.or_assoc]

theorem roleAt_of_isGap (h : isGap c = true) :
    lexicon.roleAt c cs = (.blank, (cs.takeWhile isGap).length) := by
  have hstar : c ≠ '*' := by
    rintro rfl
    simp [isGap] at h
  have hback : c ≠ '\\' := by
    rintro rfl
    simp [isGap] at h
  simp [roleAt, hstar, hback, h]

/-- A text is read from behind its leading blanks. -/
theorem behind_eq_dropWhile (p : Progress τ) (cs : List Char) : lexicon.behind p cs =
    lexicon.behind (p.add ⟨.blank, cs.takeWhile isGap⟩) (cs.dropWhile isGap) := by
  have hempty : p.add ⟨.blank, []⟩ = p := by simp [Progress.add]
  cases cs with
  | nil => rw [List.takeWhile_nil, hempty, List.dropWhile_nil]
  | cons c cs =>
    cases hc : isGap c with
    | false => rw [List.takeWhile_cons_of_neg (by simp [hc]), hempty,
        List.dropWhile_cons_of_neg (by simp [hc])]
    | true =>
      have htake := List.prefix_iff_eq_take.1 (List.takeWhile_prefix (l := cs) isGap)
      have hdrop : cs.drop (cs.takeWhile isGap).length = cs.dropWhile isGap := by
        have happend := List.takeWhile_append_dropWhile (p := isGap) (l := cs)
        rw [← congrArg (List.drop _) happend, List.drop_left]
      rw [behind_cons, segmentAt, afterSegment, roleAt_of_isGap hc,
        List.takeWhile_cons_of_pos hc, List.dropWhile_cons_of_pos hc, ← htake, hdrop]

/-- Blanks in front of a text are read on their own. -/
theorem behind_gap {gap : List Char} (hgap : ∀ c ∈ gap, isGap c = true) (cs : List Char) :
    lexicon.behind p (gap ++ cs) = lexicon.behind (p.add ⟨.blank, gap⟩) cs := by
  rw [behind_eq_dropWhile p (gap ++ cs), behind_eq_dropWhile _ cs, Progress.add_blank,
    List.takeWhile_append_of_pos hgap, List.dropWhile_append_of_pos hgap]

/-- The last token is neither a string that has been left open nor a backslash. -/
def Progress.IsClosed (p : Progress τ) (lexicon : Lexicon τ) : Prop :=
  ∀ l ∈ p.lexemes.head?, l.token = lexicon.invalid →
    l.text.toList.head? ≠ some '"' ∧ l.text.toList.head? ≠ some '\\'

/-- Behind an open string or a stray backslash, the lexer is not at a point where it could start
    anew. -/
theorem Progress.not_isClosed_add {text : List Char} {d : Char} (hd : d = '"' ∨ d = '\\') :
    ¬ (p.add ⟨.token lexicon.invalid, d :: text⟩).IsClosed lexicon := by
  intro h
  have hlast := h _ rfl rfl
  simp only [String.toList_ofList, List.head?_cons] at hlast
  rcases hd with rfl | rfl
  · exact hlast.1 rfl
  · exact hlast.2 rfl

theorem roleAt_quote (cs : List Char) : lexicon.roleAt '"' cs =
    if (cs.takeWhile (· != '"')).length < cs.length then
      (.token lexicon.string, (cs.takeWhile (· != '"')).length + 1)
    else (.token lexicon.invalid, cs.length) := by
  simp [roleAt, nameAt, isGap, Char.isAlpha, Char.isUpper, Char.isLower, Char.isDigit]

/-- A quote that is never closed makes the rest of the text invalid. -/
theorem behind_quote (hq : '"' ∉ cs) : lexicon.behind p ('"' :: cs) =
    p.add ⟨.token lexicon.invalid, '"' :: cs⟩ := by
  have htake : cs.takeWhile (· != '"') = cs :=
    List.takeWhile_eq_self_iff.2 fun c hc => bne_iff_ne.2 fun h => hq (h ▸ hc)
  have hrole : lexicon.roleAt '"' cs = (.token lexicon.invalid, cs.length) := by
    rw [roleAt_quote, htake, if_neg (Nat.lt_irrefl _)]
  rw [behind_cons, segmentAt, afterSegment, hrole, List.take_length, List.drop_length, behind_nil]

/-- A backslash that joins no lines is invalid. -/
theorem behind_backslash (hl : lexicon.IsPlain) (hcs : cs = [] ∨ cs = ['\r']) :
    (lexicon.behind p ('\\' :: cs)).lexemes =
      (p.add ⟨.token lexicon.invalid, ['\\']⟩).lexemes := by
  have hpunctuation : lexicon.punctuationAt '\\' cs = none := by
    refine Option.map_eq_none_iff.2 (List.find?_eq_none.2 fun entry hentry h => ?_)
    obtain ⟨hne, -, hback⟩ := hl entry hentry
    obtain ⟨c, text, htext⟩ := List.exists_cons_of_ne_nil hne
    rw [htext, List.isPrefixOf_iff_prefix, List.cons_prefix_cons] at h
    exact hback (htext ▸ h.1 ▸ List.mem_cons_self)
  have hrole : lexicon.roleAt '\\' cs = (.token lexicon.invalid, 0) := by
    rcases hcs with rfl | rfl
    all_goals simp [roleAt, nameAt, isGap, hpunctuation, Char.isAlpha, Char.isUpper, Char.isLower,
      Char.isDigit, List.isPrefixOf]
  rw [behind_cons, segmentAt, afterSegment, hrole, List.take_zero, List.drop_zero,
    behind_eq_dropWhile]
  rcases hcs with rfl | rfl
  · rw [List.dropWhile_nil, behind_nil]
    rfl
  · rw [List.dropWhile_cons_of_pos (by decide), List.dropWhile_nil, behind_nil]
    rfl

/-- The first segment of a text ends in front of a line feed behind the text. -/
theorem segmentAt_append (hl : lexicon.IsPlain) (hgap : isGap c = false)
    (hclosed : (lexicon.behind p (c :: cs)).IsClosed lexicon) (rest : List Char) :
    lexicon.segmentAt c (cs ++ '\n' :: rest) = lexicon.segmentAt c cs ∧
      lexicon.afterSegment c (cs ++ '\n' :: rest) =
        lexicon.afterSegment c cs ++ '\n' :: rest := by
  -- A string left open or a stray backslash would not be closed, so the line feed is not asked
  -- for.
  have hquote : c = '"' → '"' ∈ cs := by
    rintro rfl
    by_contra hq
    rw [behind_quote hq] at hclosed
    exact Progress.not_isClosed_add (.inl rfl) hclosed
  have hback : c = '\\' → cs ≠ [] ∧ cs ≠ ['\r'] := by
    rintro rfl
    by_contra hcs
    rw [not_and_or, not_not, not_not] at hcs
    rw [Progress.IsClosed, behind_backslash hl hcs] at hclosed
    exact Progress.not_isClosed_add (.inr rfl) hclosed
  have hrole : lexicon.roleAt c (cs ++ '\n' :: rest) = lexicon.roleAt c cs :=
    hl.isSeparator_line.roleAt_append hgap
      (fun _ => isPrefixOf_append_of_notMem (by decide) cs rest) (fun _ _ => .inl rfl) hquote
      (fun hc => .inr (hback hc))
  have hle := lexicon.roleAt_le c cs
  constructor
  · rw [segmentAt, segmentAt, hrole, List.take_append_of_le_length hle]
  · rw [afterSegment, afterSegment, hrole, List.drop_append_of_le_length hle]

/-- A text that goes on behind a line feed is read up to there as if it did not. -/
theorem behind_append (hl : lexicon.IsPlain) (rest : List Char) (p : Progress τ) (cs : List Char)
    (hclosed : (lexicon.behind p cs).IsClosed lexicon) : lexicon.behind p (cs ++ '\n' :: rest) =
      lexicon.behind ((lexicon.behind p cs).add ⟨.blank, ['\n']⟩) rest := by
  -- Blanks are taken together, as a line feed behind them would join their segment.
  cases cs with
  | nil =>
    rw [behind_nil]
    exact behind_gap (List.forall_mem_singleton.2 (by decide)) rest
  | cons c cs =>
    cases hgap : isGap c with
    | true =>
      have hblank : ∀ d ∈ (c :: cs).takeWhile isGap, isGap d = true := fun d hd =>
        List.mem_takeWhile_imp hd
      have hall : lexicon.behind p (c :: cs ++ '\n' :: rest) =
          lexicon.behind (p.add ⟨.blank, (c :: cs).takeWhile isGap⟩)
            ((c :: cs).dropWhile isGap ++ '\n' :: rest) := by
        rw [← behind_gap hblank, ← List.append_assoc, List.takeWhile_append_dropWhile]
      have hshorter : ((c :: cs).dropWhile isGap).length < (c :: cs).length := by
        rw [List.dropWhile_cons_of_pos hgap]
        exact Nat.lt_succ_of_le (List.dropWhile_sublist _).length_le
      rw [behind_eq_dropWhile] at hclosed
      rw [hall, behind_eq_dropWhile p (c :: cs)]
      exact behind_append hl rest _ _ hclosed
    | false =>
      obtain ⟨hsegment, hafter⟩ := segmentAt_append hl hgap hclosed rest
      have hshorter : (lexicon.afterSegment c cs).length < (c :: cs).length :=
        Nat.lt_succ_of_le (lexicon.length_afterSegment_le c cs)
      rw [behind_cons] at hclosed
      rw [List.cons_append, behind_cons, hsegment, hafter, behind_cons]
      exact behind_append hl rest _ _ hclosed
termination_by cs.length
decreasing_by
  all_goals
    subst_vars
    exact hshorter

/-! ## Tokens and comments -/

section shift

open Segment

variable (offset : Nat) (segments : List (Segment τ)) (start : Nat)

/-- A later start shifts all lexemes alike. -/
theorem lexemesFrom_shift (startsLine : Bool) : lexemesFrom (start + offset) startsLine segments =
    (lexemesFrom start startsLine segments).map (·.shift offset) := by
  induction segments generalizing start startsLine with
  | nil => rfl
  | cons s rest ih =>
    have hstop : start + offset + Text.byteLength s.text =
        start + Text.byteLength s.text + offset := Nat.add_right_comm ..
    cases hs : s.role with
    | token t =>
      simp only [lexemesFrom, hs, hstop, ih, List.map_cons]
      rfl
    | _ => simp only [lexemesFrom, hs, hstop, ih]

/-- A later start shifts all comments alike. -/
theorem comments_marksFrom_shift : Mark.comments (marksFrom (start + offset) segments) =
    (Mark.comments (marksFrom start segments)).map (·.shift offset) := by
  induction segments generalizing start with
  | nil => rfl
  | cons s rest ih =>
    have hstop : start + offset + Text.byteLength s.text =
        start + Text.byteLength s.text + offset := Nat.add_right_comm ..
    unfold Mark.comments at ih ⊢
    cases hs : s.role with
    | comment =>
      simp only [marksFrom, hs, hstop, List.filter_cons_of_pos, List.map_cons, ih]
      rfl
    | _ => simp [marksFrom, hs, hstop, ih]

end shift

/-- Behind some segments, the offset is that of their text. -/
theorem offset_foldl_add (segments : List (Segment τ)) (p : Progress τ) :
    (segments.foldl Progress.add p).offset =
      p.offset + Text.byteLength (Segment.textOf segments) := by
  induction segments generalizing p with
  | nil => rfl
  | cons s rest ih =>
    rw [List.foldl_cons, ih, Segment.textOf_cons, Text.byteLength_append, ← Nat.add_assoc]
    cases hs : s.role <;> simp [Progress.add, hs]

theorem offset_behind (p : Progress τ) (cs : List Char) :
    (lexicon.behind p cs).offset = p.offset + Text.byteLength cs := by
  rw [behind, offset_foldl_add, segments, segmentsFrom_textOf]
  rfl

end Lexicon

namespace Lexed

/-- What a lexer finds in a text and behind it. -/
def append (front back : Lexed τ) : Lexed τ :=
  ⟨front.lexemes ++ back.lexemes, front.comments ++ back.comments⟩

/-- What a lexer finds in a text that has `offset` more bytes in front. -/
def shift (lexed : Lexed τ) (offset : Nat) : Lexed τ :=
  ⟨lexed.lexemes.map (·.shift offset), lexed.comments.map (·.shift offset)⟩

theorem shift_zero (lexed : Lexed τ) : lexed.shift 0 = lexed := by
  have hlexeme : ∀ l : Lexeme τ, l.shift 0 = l := fun _ => rfl
  have hspan : ∀ span : Span, span.shift 0 = span := fun _ => rfl
  simp [shift, hlexeme, hspan]

/-- What has the lexemes and comments of two parts is the two in a row. -/
theorem eq_append {whole front back : Lexed τ} (hl : whole.lexemes = front.lexemes ++ back.lexemes)
    (hc : whole.comments = front.comments ++ back.comments) : whole = front.append back := by
  cases whole
  exact congr (congrArg Lexed.mk hl) hc

end Lexed

namespace Lexicon

/-- The state of a lexer in front of a source. -/
def Progress.start : Progress τ := ⟨0, true, [], []⟩

/-- What a lexer finds in a source is what it has found behind it, the last first. -/
theorem behind_start (lexicon : Lexicon τ) (source : String) :
    (lexicon.behind .start source.toList).lexemes = (lexicon.lex source).lexemes.reverse ∧
      (lexicon.behind .start source.toList).comments =
        (lexicon.lex source).comments.reverse := by
  rw [lex, arrange, List.reverse_reverse, List.reverse_reverse]
  exact ⟨rfl, rfl⟩

/-- Behind a line feed a lexer finds what it finds in the rest alone, further on. -/
theorem behind_line (lexicon : Lexicon τ) (p : Progress τ) (rest : String) :
    (lexicon.behind (p.add ⟨.blank, ['\n']⟩) rest.toList).lexemes =
        ((lexicon.lex rest).shift (p.offset + 1)).lexemes.reverse ++ p.lexemes ∧
      (lexicon.behind (p.add ⟨.blank, ['\n']⟩) rest.toList).comments =
        ((lexicon.lex rest).shift (p.offset + 1)).comments.reverse ++ p.comments := by
  have hoffset : (p.add ⟨.blank, ['\n']⟩).offset = 0 + (p.offset + 1) := (Nat.zero_add _).symm
  have hstarts : (p.add ⟨.blank, ['\n']⟩).startsLine = true := by simp [Progress.add]
  obtain ⟨hl, hc⟩ := foldl_add (lexicon.segments rest.toList) (p.add ⟨.blank, ['\n']⟩)
  rw [hoffset, hstarts, lexemesFrom_shift, ← lexemes_lex] at hl
  rw [hoffset, comments_marksFrom_shift, ← marks, comments_marks] at hc
  exact ⟨hl, hc⟩

variable {lexicon : Lexicon τ}

/-- On lines of their own, two texts have the tokens and comments that they have alone, unless
    the first one ends in a string that has been left open, or in a backslash. -/
theorem lex_append (hl : lexicon.IsPlain) {a : String} (b : String)
    (hclosed : ∀ l ∈ (lexicon.lex a).lexemes.getLast?, l.token = lexicon.invalid →
      l.text.toList.head? ≠ some '"' ∧ l.text.toList.head? ≠ some '\\') :
    lexicon.lex (a ++ "\n" ++ b) = (lexicon.lex a).append
      ((lexicon.lex b).shift (Text.byteLength a.toList + 1)) := by
  have htext : (a ++ "\n" ++ b).toList = a.toList ++ '\n' :: b.toList := by
    rw [String.toList_append, String.toList_append, List.append_assoc]
    rfl
  have hbehind : lexicon.behind .start (a ++ "\n" ++ b).toList =
      lexicon.behind ((lexicon.behind .start a.toList).add ⟨.blank, ['\n']⟩) b.toList := by
    rw [htext]
    refine behind_append hl _ _ _ ?_
    rwa [Progress.IsClosed, (lexicon.behind_start a).1, List.head?_reverse]
  have hoffset : (lexicon.behind .start a.toList).offset = Text.byteLength a.toList :=
    (offset_behind _ _).trans (Nat.zero_add _)
  obtain ⟨hlexemes, hcomments⟩ := lexicon.behind_line (lexicon.behind .start a.toList) b
  rw [← hbehind, (lexicon.behind_start _).1, (lexicon.behind_start _).1, hoffset,
    ← List.reverse_append, List.reverse_inj] at hlexemes
  rw [← hbehind, (lexicon.behind_start _).2, (lexicon.behind_start _).2, hoffset,
    ← List.reverse_append, List.reverse_inj] at hcomments
  exact Lexed.eq_append hlexemes hcomments

end Lexicon

end GrammarTools
