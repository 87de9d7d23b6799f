import GrammarTools.Proofs.Partition
import GrammarTools.Proofs.Simpl.Joins
import GrammarTools.Proofs.Writing

/-!
# Tokens written out

The tokens of a source can be written one behind the other with a space between any
two (`Lexed.print`), and the lexer then finds the same tokens, and no comments
(`lex_print`).

Whatever has been read as a token is taken as the same token where its text stands in
front of a space, or of nothing (`Lexicon.Reads.isTaken`). For no text of a class goes
on with a space but a string, and a string ends with its quote; a star with a space
behind it begins no comment; and a quote that is never closed has taken all the rest,
so that it stands at the end again. Between two tokens the space is a blank of its own,
because no token begins with a blank.
-/

namespace GrammarTools

variable {τ : Type}

section intersperse

variable {α β : Type} {sep a : α} {l : List α}

theorem mem_of_mem_intersperse (h : a ∈ l.intersperse sep) : a = sep ∨ a ∈ l := by
  fun_induction List.intersperse sep l with
  | case1 => cases h
  | case2 b => exact .inr h
  | case3 b rest _ ih =>
    rcases List.mem_cons.1 h with rfl | h
    · exact .inr List.mem_cons_self
    · rcases List.mem_cons.1 h with rfl | h
      · exact .inl rfl
      · exact (ih h).imp_right (List.mem_cons_of_mem _)

theorem map_intersperse (f : α → β) (sep : α) (l : List α) :
    (l.intersperse sep).map f = (l.map f).intersperse (f sep) := by
  fun_induction List.intersperse sep l with
  | case1 => rfl
  | case2 b => rfl
  | case3 b rest hne ih =>
    obtain ⟨c, rest, rfl⟩ := List.exists_cons_of_ne_nil hne
    rw [List.map_cons, List.map_cons, ih]
    rfl

end intersperse

/-- The tokens, with single spaces between. -/
def Lexed.print (lexed : Lexed τ) : String := " ".intercalate (lexed.lexemes.map Lexeme.text)

/-- A blank that is not empty begins with something that is skipped. -/
theorem IsBlank.exists_skip {text : List Char} (h : IsBlank text) (hne : text ≠ []) :
    ∃ piece, IsSkip piece ∧ piece <+: text := by
  obtain ⟨pieces, hall, rfl⟩ := h
  cases pieces with
  | nil => exact absurd rfl hne
  | cons piece pieces => exact ⟨piece, hall piece List.mem_cons_self, List.prefix_append _ _⟩

/-! ## Tokens in front of a space -/

namespace Lexicon

open Segment

variable {lexicon : Lexicon τ} {t : τ} {c : Char} {text rest tail after body : List Char}

/-- A text of a class begins like a word, or it is a string or a mark. -/
theorem Belongs.cases (hl : lexicon.IsRegular) (h : lexicon.Belongs t text) :
    (∀ c ∈ text.head?, isNameChar c) ∨
      (∃ body, '"' ∉ body ∧ t = lexicon.string ∧ text = '"' :: body ++ ['"']) ∨
      ∃ mark, (mark, t) ∈ lexicon.punctuation ∧ text = mark.toList := by
  cases h with
  | keyword hmem =>
    obtain ⟨c, hc, halpha⟩ := (Option.any_eq_true _ _).1 (hl.keyword _ hmem).1
    refine .inl fun d hd => ?_
    obtain rfl := Option.some.inj (hc.symm.trans hd)
    exact isNameChar_of_isAlpha halpha
  -- A name may have underscores in front, and they are characters of names as well.
  | @name front _ _ hfront _ hinitial _ _ =>
    refine .inl fun d hd => ?_
    cases front with
    | nil =>
      obtain rfl := Option.some.inj hd
      exact isNameChar_of_isAlpha hinitial
    | cons c front =>
      obtain rfl := Option.some.inj hd
      rw [hfront c List.mem_cons_self]
      rfl
  | underscores _ _ hall =>
    refine .inl fun d hd => ?_
    rw [hall d (List.mem_of_mem_head? hd)]
    rfl
  | number _ hall =>
    exact .inl fun d hd => isNameChar_of_isDigit (hall d (List.mem_of_mem_head? hd))
  | fraction hne hall =>
    refine .inl fun d hd => isNameChar_of_isDigit (hall d (List.mem_of_mem_head? ?_))
    rwa [List.head?_append_of_ne_nil _ hne] at hd
  | string hbody => exact .inr (.inl ⟨_, hbody, rfl, rfl⟩)
  | punctuation hmem => exact .inr (.inr ⟨_, hmem, rfl⟩)

/-- A string with its closing quotation mark is taken, whatever stands behind it. -/
theorem isTaken_string (hbody : '"' ∉ body) (after : List Char) :
    (word lexicon.string ('"' :: body ++ ['"'])).IsTaken lexicon after := by
  have hneq : ∀ c ∈ body, (c != '"') = true := fun c hc =>
    bne_iff_ne.2 fun heq => hbody (heq ▸ hc)
  have hquote : ∀ c ∈ ('"' :: after).head?, (c != '"') = false := by
    rintro c ⟨⟩
    rfl
  have htake := (takeWhile_append_of_head? hneq hquote).1
  refine ⟨'"', body ++ ['"'], rfl, ?_⟩
  rw [List.append_assoc, List.singleton_append, roleAt_quote, htake, if_pos (by simp)]
  simp [word]

/-- A string that is left open is taken up to the end. -/
theorem isTaken_unclosed (hbody : '"' ∉ body) :
    (word lexicon.invalid ('"' :: body)).IsTaken lexicon [] := by
  have htake : body.takeWhile (· != '"') = body :=
    List.takeWhile_eq_self_iff.2 fun c hc => bne_iff_ne.2 fun heq => hbody (heq ▸ hc)
  refine ⟨'"', body, rfl, ?_⟩
  rw [List.append_nil, roleAt_quote, htake, if_neg (Nat.lt_irrefl _)]
  rfl

/-- Where a mark may begin, nothing else does but a comment. -/
theorem roleAt_of_isMarkChar {cs : List Char} (hc : isMarkChar c)
    (hcomment : c = '*' → ['*', ' '].isPrefixOf cs = false) {n : Nat}
    (hmark : lexicon.punctuationAt c cs = some (t, n)) : lexicon.roleAt c cs = (.token t, n) := by
  obtain ⟨hgap, hname, hquote, hback⟩ := isMarkChar_iff.1 hc
  have halpha : ¬ c.isAlpha := mt isNameChar_of_isAlpha hname
  have hdigit : ¬ c.isDigit := mt isNameChar_of_isDigit hname
  have hunderscore : c ≠ '_' := by rintro rfl; exact hname rfl
  by_cases hstar : c = '*'
  · subst hstar
    simp [roleAt, hcomment rfl, nameAt, hmark, hgap, hdigit, halpha]
  · simp [roleAt, hstar, hback, hgap, nameAt, halpha, hunderscore, hdigit, hquote, hmark]

section space

variable (hl : lexicon.IsRegular) (hs : lexicon.IsSeparator ' ')
  (hafter : ∀ c ∈ after.head?, c = ' ')
include hl hs hafter

/-- No mark goes on with a space, and none that begins alike stands in front of a longer one. -/
theorem punctuationAt_of_mem {mark : String} (hmem : (mark, t) ∈ lexicon.punctuation)
    (hmark : mark.toList = c :: tail) :
    lexicon.punctuationAt c (tail ++ after) = some (t, tail.length) := by
  have hstarts : ∀ entry ∈ lexicon.punctuation,
      entry.1.toList.isPrefixOf (c :: (tail ++ after)) = entry.1.toList.isPrefixOf (c :: tail) := by
    intro entry hentry
    cases after with
    | nil => rw [List.append_nil]
    | cons d after =>
      obtain rfl := hafter d rfl
      exact isPrefixOf_append_of_notMem (hs.punctuation entry hentry) (c :: tail) after
  obtain ⟨before, behind, heq⟩ := List.append_of_mem hmem
  have hfind : lexicon.punctuation.find? (fun entry =>
      entry.1.toList.isPrefixOf (c :: (tail ++ after))) = some (mark, t) := by
    refine List.find?_eq_some_iff_append.2 ⟨?_, before, behind, heq, fun entry hentry => ?_⟩
    · rw [hstarts _ hmem, hmark, List.isPrefixOf_iff_prefix]
    · -- Longer marks come first in the table, and none of them stands here.
      have hpairwise := hl.longer_first
      rw [heq] at hpairwise
      have hshort := (List.pairwise_append.1 hpairwise).2.2 entry hentry _ List.mem_cons_self
      rw [hstarts entry (heq ▸ List.mem_append_left _ hentry), ← hmark, Bool.not_eq_true',
        Bool.eq_false_iff]
      exact mt List.isPrefixOf_iff_prefix.1 hshort
  rw [punctuationAt, hfind, Option.map_some, ← String.length_toList, hmark]
  rfl

/-- A mark is taken where no longer one stands. -/
theorem isTaken_mark {mark : String} (hmem : (mark, t) ∈ lexicon.punctuation) :
    (word t mark.toList).IsTaken lexicon after := by
  obtain ⟨c, hhead, hc⟩ := (Option.any_eq_true _ _).1 (hl.punctuation _ hmem)
  obtain ⟨tail, hmark⟩ := List.head?_eq_some_iff.1 hhead
  refine ⟨c, tail, hmark, roleAt_of_isMarkChar hc ?_ (punctuationAt_of_mem hl hs hafter hmem hmark)⟩
  rintro rfl
  -- A second star could only be part of the mark, and the space behind it only be what comes after.
  rw [Bool.eq_false_iff, Ne, List.isPrefixOf_iff_prefix]
  intro hstarts
  cases tail with
  | nil =>
    cases after with
    | nil => simp at hstarts
    | cons d after =>
      obtain rfl := hafter d rfl
      simp at hstarts
  | cons d tail =>
    obtain ⟨rfl, -⟩ := List.cons_prefix_cons.1 hstarts
    exact hl.stars _ hmem (hmark ▸ ⟨tail, rfl⟩)

omit hl in
/-- No text of a class goes on with a space, if it is no string. -/
theorem Begins.eq_nil_of_space (h : lexicon.Begins c tail) (htail : tail <+: after)
    (hquote : c ≠ '"') : tail = [] := by
  cases tail with
  | nil => rfl
  | cons d tail =>
    obtain ⟨behind, rfl⟩ := htail
    obtain rfl := hafter d rfl
    -- A tail would begin with the space, which only a string may have inside.
    cases h with
    | comment _ _ heq => cases heq
    | gap _ heq => cases heq
    | join _ heq => rcases heq with heq | heq <;> cases heq
    | word _ hall => cases hall ' ' List.mem_cons_self
    | underscored front _ _ _ _ heq hfront hinitial =>
      cases front with
      | nil =>
        obtain ⟨rfl, -⟩ := List.cons.inj heq
        cases hinitial
      | cons d front =>
        obtain ⟨rfl, -⟩ := List.cons.inj heq
        cases hfront ' ' List.mem_cons_self
    | underscores _ _ hall => cases hall ' ' List.mem_cons_self
    | number _ hall => cases hall ' ' List.mem_cons_self
    | fraction whole _ _ heq hwhole =>
      cases whole with
      | nil => cases heq
      | cons d whole =>
        obtain ⟨rfl, -⟩ := List.cons.inj heq
        cases hwhole ' ' List.mem_cons_self
    | string _ hc => exact absurd hc hquote
    | mark entry _ hmem heq => exact absurd (heq ▸ by simp) (hs.punctuation entry hmem)

/-- A character that begins nothing is taken alone. -/
theorem isTaken_stray (hquote : c ≠ '"') (hnone : ¬ lexicon.IsKnown [c]) :
    (word lexicon.invalid [c]).IsTaken lexicon after := by
  -- Nothing known begins here: behind the character there is a space or the end, and by itself it
  -- is nothing known.
  have hfronts : ∀ front, front <+: c :: after → ¬ lexicon.IsKnown front := by
    intro front hfront hknown
    obtain ⟨d, tail, rfl⟩ := List.exists_cons_of_ne_nil (hknown.ne_nil hl)
    obtain ⟨rfl, htail⟩ := List.cons_prefix_cons.1 hfront
    obtain rfl := (hknown.begins hl).eq_nil_of_space hs hafter htail hquote
    exact hnone hknown
  have hstarts : c :: after.take (lexicon.roleAt c after).2 <+: c :: after :=
    List.cons_prefix_cons.2 ⟨rfl, List.take_prefix _ _⟩
  have hsuits := segmentAt_suits hl c after
  refine ⟨c, [], rfl, ?_⟩
  unfold Suits segmentAt at hsuits
  dsimp only at hsuits
  split at hsuits
  · obtain ⟨piece, hpiece, hfront⟩ := hsuits.exists_skip (List.cons_ne_nil _ _)
    exact absurd (.inr (.inl hpiece)) (hfronts piece (hfront.trans hstarts))
  · exact absurd (.inl hsuits.1) (hfronts _ hstarts)
  · rename_i t hrole
    cases hsuits with
    | known hbelongs _ => exact absurd (.inr (.inr ⟨t, hbelongs⟩)) (hfronts _ hstarts)
    | unclosed _ htext => exact absurd (List.cons.inj htext).1 hquote
    | stray ht htext =>
      have hlength := congrArg List.length (List.cons.inj htext).2
      rw [List.length_take_of_le (lexicon.roleAt_le c after)] at hlength
      exact Prod.ext (hrole.trans (congrArg Role.token ht)) hlength

/-- What has been read as a token is taken as that token in front of a space, or of nothing. -/
theorem Reads.isTaken (h : lexicon.Reads t text rest) (hrest : rest = [] → after = []) :
    (word t text).IsTaken lexicon after := by
  cases h with
  | known hbelongs _ =>
    rcases hbelongs.cases hl with hhead | ⟨body, hbody, rfl, rfl⟩ | ⟨mark, hmem, rfl⟩
    · refine isTaken_of_belongs hl hbelongs hhead fun c hc => ?_
      obtain rfl := hafter c hc
      exact ⟨hs.name, fun _ => hs.dot⟩
    · exact isTaken_string hbody after
    · exact isTaken_mark hl hs hafter hmem
  | @stray c ht htext hquote hnone =>
    subst ht htext
    exact isTaken_stray hl hs hafter hquote (hnone [c] ⟨rest, rfl⟩)
  | unclosed ht htext hbody hnil =>
    obtain rfl := hrest hnil
    subst ht htext
    exact isTaken_unclosed hbody

end space

end Lexicon

/-! ## Tokens with spaces between -/

namespace Segment

variable {lexicon : Lexicon τ} {s : Segment τ} {segments : List (Segment τ)} {after : List Char}

/-- Whether a segment is a token. -/
def isToken (s : Segment τ) : Bool :=
  match s.role with
  | .token _ => true
  | _ => false

/-- The tokens among some segments, with spaces between. -/
def spread (segments : List (Segment τ)) : List (Segment τ) :=
  (segments.filter isToken).intersperse space

/-- A token does not begin with a gap. -/
theorem IsTaken.not_isGap (h : s.IsTaken lexicon after) (hs : s.isToken = true) :
    ∀ c ∈ s.text.head?, isGap c = false := by
  obtain ⟨c, cs, htext, hrole⟩ := h
  rw [htext]
  rintro d ⟨⟩
  by_contra hgap
  rw [Lexicon.roleAt_of_isGap (by simpa using hgap)] at hrole
  rw [isToken, ← (Prod.mk.inj hrole).1] at hs
  cases hs

theorem exists_spread_cons {w : Segment τ} {more : List (Segment τ)}
    (h : segments.filter isToken = w :: more) : ∃ rest, spread segments = w :: rest := by
  rw [spread, h]
  cases more with
  | nil => exact ⟨[], rfl⟩
  | cons _ _ => exact ⟨_, List.intersperse_cons_cons⟩

/-- A token is still taken if a space follows, or nothing, instead of what followed before. -/
theorem Suits.isTaken (hl : lexicon.IsRegular) (hs : lexicon.IsSeparator ' ') {rest : List Char}
    (hsuits : s.Suits lexicon rest) (htoken : s.isToken = true)
    (hafter : ∀ c ∈ after.head?, c = ' ') (hrest : rest = [] → after = []) :
    s.IsTaken lexicon after := by
  unfold isToken at htoken
  unfold Suits at hsuits
  split at htoken
  · rename_i t hrole
    rw [hrole] at hsuits
    have hword := hsuits.isTaken hl hs hafter hrest
    rwa [word, ← hrole] at hword
  · cases htoken

/-- The tokens of a source are taken one by one where they are written with spaces between. -/
theorem SuitAll.spread_areTaken (hl : lexicon.IsRegular) (hs : lexicon.IsSeparator ' ')
    (hsuits : SuitAll lexicon segments) (hproper : ∀ s ∈ segments, s.IsProper) :
    AreTaken lexicon [] (spread segments) := by
  induction segments with
  | nil => trivial
  | cons s rest ih =>
    obtain ⟨-, hproper⟩ := List.forall_mem_cons.1 hproper
    have ih := ih hsuits.2 hproper
    cases htoken : s.isToken with
    | false =>
      rw [spread, List.filter_cons_of_neg (by simp [htoken])]
      exact ih
    | true =>
      rw [spread, List.filter_cons_of_pos htoken]
      -- The last token has no space behind it.
      cases hmore : rest.filter isToken with
      | nil => exact ⟨hsuits.1.isTaken hl hs htoken nofun fun _ => rfl, trivial⟩
      | cons w more =>
        have hw : w ∈ rest ∧ w.isToken = true := List.mem_filter.1 (hmore ▸ List.mem_cons_self)
        obtain ⟨tail, hspread⟩ := exists_spread_cons hmore
        rw [List.intersperse_cons_cons, ← hmore]
        refine ⟨hsuits.1.isTaken hl hs htoken (by rintro c ⟨⟩; rfl) fun hend => ?_,
          isTaken_space ?_, ih⟩
        · -- A token behind this one has text, so this one is not the end of the source.
          obtain ⟨front, back, rfl⟩ := List.append_of_mem hw.1
          rw [textOf_append, textOf_cons] at hend
          simp [(hproper w hw.1).text_ne_nil] at hend
        · show ∀ c ∈ (textOf (spread rest) ++ []).head?, isGap c = false
          rw [hspread] at ih ⊢
          rw [textOf_cons, List.append_nil,
            List.head?_append_of_ne_nil _ (hproper w hw.1).text_ne_nil]
          exact ih.1.not_isGap hw.2

/-- The tokens among some segments, with their texts. -/
def spelled (segments : List (Segment τ)) : List (τ × String) :=
  segments.filterMap fun s => match s.role with
    | .token t => some (t, String.ofList s.text)
    | _ => none

theorem map_lexemesFrom (offset : Nat) (startsLine : Bool) (segments : List (Segment τ)) :
    (lexemesFrom offset startsLine segments).map (fun l => (l.token, l.text)) =
      spelled segments := by
  induction segments generalizing offset startsLine with
  | nil => rfl
  | cons s rest ih =>
    unfold lexemesFrom
    split <;> simp [spelled, *]

@[simp] theorem spelled_cons (s : Segment τ) (rest : List (Segment τ)) :
    spelled (s :: rest) = spelled [s] ++ spelled rest :=
  List.filterMap_append (l := [s])

theorem spelled_of_not_isToken (h : s.isToken = false) : spelled [s] = [] := by
  unfold isToken at h
  split at h
  · cases h
  · simp [spelled, *]

/-- Spaces between segments are not spelled. -/
theorem spelled_intersperse (h : s.isToken = false) (segments : List (Segment τ)) :
    spelled (segments.intersperse s) = spelled segments := by
  fun_induction List.intersperse s segments with
  | case1 => rfl
  | case2 a => rfl
  | case3 a rest _ ih =>
    rw [spelled_cons, spelled_cons s, spelled_of_not_isToken h, ih, List.nil_append, ← spelled_cons]

/-- The tokens are all there when they are written with spaces between. -/
theorem spelled_spread (segments : List (Segment τ)) :
    spelled (spread segments) = spelled segments := by
  rw [spread, spelled_intersperse rfl]
  induction segments with
  | nil => rfl
  | cons s rest ih =>
    rw [spelled_cons, ← ih]
    cases h : s.isToken with
    | false => rw [List.filter_cons_of_neg (by simp [h]), spelled_of_not_isToken h, List.nil_append]
    | true => rw [List.filter_cons_of_pos h, spelled_cons]

theorem map_text_lexemesFrom (offset : Nat) (startsLine : Bool) (segments : List (Segment τ)) :
    (lexemesFrom offset startsLine segments).map (fun l => l.text.toList) =
      (segments.filter isToken).map text := by
  induction segments generalizing offset startsLine with
  | nil => rfl
  | cons s rest ih =>
    unfold lexemesFrom
    split <;> simp [isToken, *]

end Segment

namespace Lexicon

open Segment

variable {lexicon : Lexicon τ}

/-- What is written of a source is the text of its tokens with spaces between. -/
theorem toList_print (lexicon : Lexicon τ) (source : String) :
    (lexicon.lex source).print.toList = textOf (spread (lexicon.segments source.toList)) := by
  have htexts := map_text_lexemesFrom 0 true (lexicon.segments source.toList)
  rw [← lexemes_lex] at htexts
  rw [Lexed.print, String.toList_intercalate, List.map_map]
  show [' '].intercalate ((lexicon.lex source).lexemes.map fun l => l.text.toList) = _
  rw [htexts, spread, textOf, List.flatMap_def, map_intersperse]
  rfl

/-- The tokens of a source, when they are written out, are read as the same tokens again. -/
structure ReadsBack (lexicon : Lexicon τ) (source : String) : Prop where
  comments : (lexicon.lex (lexicon.lex source).print).comments = []
  tokens : (lexicon.lex (lexicon.lex source).print).lexemes.map (fun l => (l.token, l.text)) =
    (lexicon.lex source).lexemes.map fun l => (l.token, l.text)

/-- What is printed from the tokens of a source is read back. -/
theorem readsBack (hl : lexicon.IsRegular) (hs : lexicon.IsSeparator ' ') (source : String) :
    lexicon.ReadsBack source := by
  have htaken := (segments_suitAll hl source.toList).spread_areTaken hl hs
    (lexicon.segments_isProper source)
  have hrole : ∀ s ∈ spread (lexicon.segments source.toList), s.role ≠ .comment := by
    intro s hmem hcomment
    rcases mem_of_mem_intersperse hmem with rfl | hmem
    · cases hcomment
    · have htoken := (List.mem_filter.1 hmem).2
      rw [isToken, hcomment] at htoken
      cases htoken
  have hlex := lex_textOf (lexicon.toList_print source) htaken hrole
  constructor
  · rw [hlex]
  · rw [hlex, map_lexemesFrom, spelled_spread, lexemes_lex, map_lexemesFrom]

end Lexicon

/-- No mark of PeoPl has a space in it. -/
theorem Peopl.isSeparator_space : Peopl.lexicon.IsSeparator ' ' :=
  ⟨by decide, by decide, by decide, by decide⟩

/-- Written out with spaces between, the tokens of any source are read back by the lexers of both
    languages. -/
theorem lex_print (source : String) :
    Simpl.lexicon.ReadsBack source ∧ Peopl.lexicon.ReadsBack source :=
  ⟨Lexicon.readsBack Simpl.lexicon_isRegular Simpl.isSeparator_space source,
    Lexicon.readsBack Peopl.lexicon_isRegular Peopl.isSeparator_space source⟩

end GrammarTools
