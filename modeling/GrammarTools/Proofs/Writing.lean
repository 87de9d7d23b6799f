import GrammarTools.Grammar
import GrammarTools.Proofs.Classes
import GrammarTools.Proofs.Parallel
import GrammarTools.Proofs.Separation

/-!
# Texts written segment by segment

A segment is *taken* in front of a text if the lexer, started at the segment, takes
just that segment (`Segment.IsTaken`). A text that is written as segments, each of
them taken in front of those behind it, is read as these segments
(`Lexicon.segments_textOf`). For copies of a block it is enough that the block is
taken in front of any text that begins like the block or like what stands behind
the copies (`Segment.AreTaken.copies`).
-/

namespace GrammarTools

variable {τ : Type}

/-- Copies of a text, one behind the other. -/
def copies (n : Nat) (text : String) : String := String.join (List.replicate n text)

theorem toList_copies (n : Nat) (text : String) :
    (copies n text).toList = (List.replicate n text.toList).flatten := by
  rw [copies, String.toList_join, List.flatMap_def, List.map_replicate]

namespace Segment

/-- A blank of one space. -/
def space : Segment τ := ⟨.blank, [' ']⟩

/-- A token with its text. -/
def word (t : τ) (text : List Char) : Segment τ := ⟨.token t, text⟩

@[simp] theorem textOf_nil : textOf ([] : List (Segment τ)) = [] := rfl

@[simp] theorem textOf_append (a b : List (Segment τ)) : textOf (a ++ b) = textOf a ++ textOf b :=
  List.flatMap_append

/-- Copies of some segments, one behind the other. -/
def copies (n : Nat) (block : List (Segment τ)) : List (Segment τ) :=
  (List.replicate n block).flatten

theorem copies_succ (n : Nat) (block : List (Segment τ)) :
    copies (n + 1) block = block ++ copies n block := rfl

/-- Copies of a block of segments have copies of its text. -/
@[simp] theorem textOf_copies (n : Nat) (block : List (Segment τ)) :
    textOf (copies n block) = (List.replicate n (textOf block)).flatten := by
  induction n with
  | zero => rfl
  | succ n ih => rw [copies_succ, textOf_append, ih]; rfl

@[simp] theorem all_copies (n : Nat) (block : List (Segment τ)) (p : Segment τ → Bool) :
    (copies n block).all p = (decide (n = 0) || block.all p) := by
  induction n with
  | zero => rfl
  | succ n ih => rw [copies_succ, List.all_append, ih]; cases block.all p <;> simp

/-- Neither a comment nor a text with a line feed. -/
def isInline (s : Segment τ) : Bool :=
  !s.text.contains '\n' && match s.role with
    | .comment => false
    | _ => true

/-- A segment that stands in a line has no line feed. -/
theorem notMem_of_isInline {s : Segment τ} (h : s.isInline = true) : '\n' ∉ s.text := by
  have hcontains := (Bool.and_eq_true_iff.1 h).1
  simpa using hcontains

theorem role_of_isInline {s : Segment τ} (h : s.isInline = true) : s.role ≠ .comment := by
  intro hrole
  have hmatch := (Bool.and_eq_true_iff.1 h).2
  rw [hrole] at hmatch
  cases hmatch

/-- Whether the lexer takes just this segment where it stands in front of a text. -/
def IsTaken (lexicon : Lexicon τ) (s : Segment τ) (after : List Char) : Prop :=
  ∃ c cs, s.text = c :: cs ∧ lexicon.roleAt c (cs ++ after) = (s.role, cs.length)

/-- Segments that are taken one by one where they stand in front of a text. -/
def AreTaken (lexicon : Lexicon τ) (after : List Char) : List (Segment τ) → Prop
  | [] => True
  | s :: rest => s.IsTaken lexicon (textOf rest ++ after) ∧ AreTaken lexicon after rest

variable {lexicon : Lexicon τ} {s : Segment τ} {after : List Char} {a b block : List (Segment τ)}

/-- Segments are taken one after the other, each in front of the text of those behind it. -/
theorem AreTaken.append (ha : AreTaken lexicon (textOf b ++ after) a)
    (hb : AreTaken lexicon after b) : AreTaken lexicon after (a ++ b) := by
  induction a with
  | nil => exact hb
  | cons s a ih =>
    refine ⟨?_, ih ha.2⟩
    show s.IsTaken lexicon (textOf (a ++ b) ++ after)
    rw [textOf_append, List.append_assoc]
    exact ha.1

/-- What is taken as a whole is taken in its last part, too. -/
theorem AreTaken.right (h : AreTaken lexicon after (a ++ b)) : AreTaken lexicon after b := by
  induction a with
  | nil => exact h
  | cons s a ih => exact ih h.2

/-- What copies of a text begin with, in front of another text. -/
theorem head?_copies (text after : List Char) (n : Nat) :
    ((List.replicate n text).flatten ++ after).head? = after.head? ∨
      ((List.replicate n text).flatten ++ after).head? = (text ++ after).head? := by
  cases n with
  | zero => exact .inl rfl
  | succ n =>
    cases text with
    | nil => exact .inl (by simp)
    | cons c cs => exact .inr rfl

/-- Copies of a block are taken if the block is, in front of what can stand behind it. -/
theorem AreTaken.copies (n : Nat) (h : ∀ behind : List Char,
    behind.head? = after.head? ∨ behind.head? = (textOf block ++ after).head? →
      AreTaken lexicon behind block) :
    AreTaken lexicon after (copies n block) := by
  induction n with
  | zero => trivial
  | succ n ih =>
    have hhead := head?_copies (textOf block) after n
    rw [← textOf_copies] at hhead
    rw [copies_succ]
    exact .append (h _ hhead) ih

/-- A space is taken unless more blanks follow. -/
theorem isTaken_space (h : ∀ c ∈ after.head?, isGap c = false) :
    (space : Segment τ).IsTaken lexicon after := by
  refine ⟨' ', [], rfl, ?_⟩
  rw [List.nil_append, Lexicon.roleAt_of_isGap rfl]
  cases after with
  | nil => rfl
  | cons c cs => rw [List.takeWhile_cons_of_neg (by simp [h c rfl])]; rfl

end Segment

namespace Lexicon

open Segment

variable {lexicon : Lexicon τ} {s : Segment τ} {after : List Char} {segments : List (Segment τ)}

/-- Segments that are taken are the segments of their text. -/
theorem segments_textOf_append (h : AreTaken lexicon after segments) :
    lexicon.segments (textOf segments ++ after) = segments ++ lexicon.segments after := by
  induction segments with
  | nil => rfl
  | cons s rest ih =>
    obtain ⟨⟨c, cs, htext, hrole⟩, hrest⟩ := h
    have hsegment : lexicon.segmentAt c (cs ++ (textOf rest ++ after)) = s := by
      rw [segmentAt, hrole, List.take_left, ← htext]
    have hafter : lexicon.afterSegment c (cs ++ (textOf rest ++ after)) = textOf rest ++ after := by
      rw [afterSegment, hrole, List.drop_left]
    rw [textOf_cons, htext, List.append_assoc, List.cons_append, segments_cons, hsegment, hafter,
      ih hrest, List.cons_append]

/-- Segments that are taken one by one are those that the lexer cuts. -/
theorem segments_textOf (h : AreTaken lexicon [] segments) :
    lexicon.segments (textOf segments) = segments := by
  have hsegments := segments_textOf_append h
  have hnil : lexicon.segments [] = [] := by simp [Lexicon.segments, segmentsFrom]
  rwa [List.append_nil, hnil, List.append_nil] at hsegments

/-- Where no segment is a comment, there are no comments. -/
theorem comments_marksFrom_eq_nil (h : ∀ s ∈ segments, s.role ≠ .comment) (offset : Nat) :
    Mark.comments (marksFrom offset segments) = [] := by
  induction segments generalizing offset with
  | nil => rfl
  | cons s rest ih =>
    obtain ⟨hs, hrest⟩ := List.forall_mem_cons.1 h
    unfold marksFrom
    split
    · exact ih hrest _
    · exact absurd ‹_› hs
    · exact ih hrest _

/-- A source written as blanks and tokens that are taken. -/
theorem lex_textOf {source : String} (hsource : source.toList = textOf segments)
    (h : AreTaken lexicon [] segments) (hcomment : ∀ s ∈ segments, s.role ≠ .comment) :
    lexicon.lex source = ⟨lexemesFrom 0 true segments, []⟩ := by
  have hlexemes := lexicon.lexemes_lex source
  have hcomments := lexicon.comments_marks source
  rw [marks, hsource, segments_textOf h, comments_marksFrom_eq_nil hcomment] at hcomments
  rw [hsource, segments_textOf h] at hlexemes
  rw [← hlexemes, hcomments]

end Lexicon

namespace Segment

variable {segments : List (Segment τ)}

/-- The tokens among some segments. -/
def tokensOf (segments : List (Segment τ)) : List τ :=
  segments.filterMap fun s => match s.role with
    | .token t => some t
    | _ => none

@[simp] theorem tokensOf_nil : tokensOf ([] : List (Segment τ)) = [] := rfl

@[simp] theorem tokensOf_space (rest : List (Segment τ)) :
    tokensOf (space :: rest) = tokensOf rest := rfl

@[simp] theorem tokensOf_word (t : τ) (text : List Char) (rest : List (Segment τ)) :
    tokensOf (word t text :: rest) = t :: tokensOf rest := rfl

@[simp] theorem tokensOf_append (a b : List (Segment τ)) :
    tokensOf (a ++ b) = tokensOf a ++ tokensOf b := List.filterMap_append

@[simp] theorem tokensOf_copies (n : Nat) (block : List (Segment τ)) :
    tokensOf (copies n block) = (List.replicate n (tokensOf block)).flatten := by
  induction n with
  | zero => rfl
  | succ n ih => rw [copies_succ, tokensOf_append, ih]; rfl

/-- The tokens of lexemes are those of the segments. -/
theorem map_token_lexemesFrom (offset : Nat) (startsLine : Bool) (segments : List (Segment τ)) :
    (lexemesFrom offset startsLine segments).map Lexeme.token = tokensOf segments := by
  induction segments generalizing offset startsLine with
  | nil => rfl
  | cons s rest ih =>
    unfold lexemesFrom
    split <;> simp [tokensOf, *]

/-- Behind a token no line starts if there is no line feed. -/
theorem startsLine_of_mem_lexemesFrom {offset : Nat} {l : Lexeme τ}
    (h : ∀ s ∈ segments, '\n' ∉ s.text) (hl : l ∈ lexemesFrom offset false segments) :
    l.startsLine = false := by
  induction segments generalizing offset with
  | nil => cases hl
  | cons s rest ih =>
    obtain ⟨hs, hrest⟩ := List.forall_mem_cons.1 h
    unfold lexemesFrom at hl
    split at hl
    · have hcontains : (false || s.text.contains '\n') = false := by simpa using hs
      rw [hcontains] at hl
      exact ih hrest hl
    · exact ih hrest hl
    · rcases List.mem_cons.1 hl with rfl | hl
      · rfl
      · exact ih hrest hl

/-- In a text without line feeds only the first token starts a line. -/
theorem startsLine_of_mem_tail {offset : Nat} {startsLine : Bool} {l : Lexeme τ}
    (h : ∀ s ∈ segments, '\n' ∉ s.text) (hl : l ∈ (lexemesFrom offset startsLine segments).tail) :
    l.startsLine = false := by
  induction segments generalizing offset startsLine with
  | nil => cases hl
  | cons s rest ih =>
    obtain ⟨-, hrest⟩ := List.forall_mem_cons.1 h
    unfold lexemesFrom at hl
    split at hl
    · exact ih hrest hl
    · exact ih hrest hl
    · exact startsLine_of_mem_lexemesFrom hrest hl

/-- A blank behind the last token. -/
theorem lexemesFrom_snoc_blank {s : Segment τ} (hs : s.role = .blank) (offset : Nat)
    (startsLine : Bool) :
    lexemesFrom offset startsLine (segments ++ [s]) = lexemesFrom offset startsLine segments := by
  induction segments generalizing offset startsLine with
  | nil => simp [lexemesFrom, hs]
  | cons r rest ih =>
    rw [List.cons_append, lexemesFrom, lexemesFrom]
    split <;> simp [ih]

end Segment

/-! ## Words -/

/-- Taking stops at the first character that does not pass, or at the end. -/
theorem takeWhile_append_of_head? {p : Char → Bool} {cs after : List Char}
    (hcs : ∀ c ∈ cs, p c = true) (hafter : ∀ c ∈ after.head?, p c = false) :
    (cs ++ after).takeWhile p = cs ∧ (cs ++ after).dropWhile p = after := by
  rw [List.takeWhile_append_of_pos hcs, List.dropWhile_append_of_pos hcs]
  cases after with
  | nil => simp
  | cons c after =>
    have hc : ¬ p c = true := by simp [hafter c rfl]
    rw [List.takeWhile_cons_of_neg hc, List.dropWhile_cons_of_neg hc, List.append_nil]
    exact ⟨rfl, rfl⟩

namespace Lexicon

open Segment

variable {lexicon : Lexicon τ} {t : τ} {c : Char} {cs text after : List Char}

/-- A character that a name can have begins neither a comment nor a blank. -/
theorem ne_of_isNameChar (hc : isNameChar c = true) : c ≠ '*' ∧ c ≠ '\\' ∧ isGap c = false :=
  ⟨fun h => (h ▸ (by decide) : ¬ isNameChar c = true) hc,
    fun h => (h ▸ (by decide) : ¬ isNameChar c = true) hc,
    by simpa using not_isGap_of_isNameChar hc⟩

/-- Characters of names begin what the lexer takes for a name there. -/
theorem roleAt_of_nameAt (hc : isNameChar c = true) {n : Nat}
    (h : lexicon.nameAt c cs = some (t, n)) : lexicon.roleAt c cs = (.token t, n) := by
  obtain ⟨hstar, hback, hgap⟩ := ne_of_isNameChar hc
  simp [roleAt, hstar, hback, hgap, h]

/-- A digit begins a number. -/
theorem roleAt_of_isDigit (hc : c.isDigit = true) :
    lexicon.roleAt c cs = (.token lexicon.number, numberLength cs) := by
  obtain ⟨hstar, hback, hgap⟩ := ne_of_isNameChar (isNameChar_of_isDigit hc)
  have halpha : c.isAlpha = false := by
    by_contra h
    exact not_isDigit_of_isAlpha (by simpa using h) hc
  have hunderscore : c ≠ '_' := by rintro rfl; cases hc
  simp [roleAt, hstar, hback, hgap, nameAt, halpha, hunderscore, hc]

/-- A keyword is the name of its token. -/
theorem nameToken_of_mem (hl : lexicon.IsRegular) {word : String} (h : (word, t) ∈ lexicon.keywords)
    (c : Char) : lexicon.nameToken c word.toList = t := by
  have hlookup : lexicon.keywords.lookup word = some t := by
    obtain ⟨before, behind, heq⟩ := List.append_of_mem h
    refine List.lookup_eq_some_iff.2 ⟨before, behind, heq, fun entry hentry => bne_iff_ne.2 ?_⟩
    rintro rfl
    have hdistinct := hl.distinct
    rw [heq, List.map_append, List.map_cons] at hdistinct
    exact (List.nodup_append.1 hdistinct).2.2 _ (List.mem_map_of_mem hentry) _
      List.mem_cons_self rfl
  rw [nameToken, String.ofList_toList, hlookup]

/-- A name that is no keyword is told by its first character. -/
theorem nameToken_of_notMem {name : List Char}
    (h : ∀ entry ∈ lexicon.keywords, entry.1.toList ≠ name) (c : Char) :
    lexicon.nameToken c name = if c.isUpper then lexicon.upperName else lexicon.lowerName := by
  have hlookup : lexicon.keywords.lookup (String.ofList name) = none :=
    List.lookup_eq_none_iff.2 fun entry hentry => by
      have hne : String.ofList name ≠ entry.1 := fun heq =>
        h entry hentry (by rw [← heq, String.toList_ofList])
      simpa using hne
  rw [nameToken, hlookup]

/-- A name is taken in front of what goes on with no name. -/
theorem isTaken_name {front rest : List Char} {initial : Char} (hfront : ∀ d ∈ front, d = '_')
    (hsome : front ≠ [] → lexicon.underscores.isSome) (hinitial : initial.isAlpha = true)
    (hrest : ∀ d ∈ rest, isNameChar d = true) (hafter : ∀ d ∈ after.head?, isNameChar d = false) :
    (word (lexicon.nameToken initial (front ++ initial :: rest)) (front ++ initial :: rest)).IsTaken
      lexicon after := by
  have hname := (takeWhile_append_of_head? hrest hafter).1
  cases front with
  | nil =>
    refine ⟨initial, rest, rfl, roleAt_of_nameAt (isNameChar_of_isAlpha hinitial) ?_⟩
    rw [nameAt, if_pos hinitial, hname]
    rfl
  | cons d front =>
    obtain ⟨rfl, hrun⟩ := List.forall_mem_cons.1 hfront
    obtain ⟨u, hu⟩ := Option.isSome_iff_exists.1 (hsome (List.cons_ne_nil _ _))
    have hfrontName : ∀ d ∈ front, isNameChar d = true := fun d hd => hrun d hd ▸ rfl
    refine ⟨'_', front ++ initial :: rest, rfl, roleAt_of_nameAt rfl ?_⟩
    -- Underscores in front are characters of names too, so the name is taken with them.
    have htake : (front ++ initial :: rest ++ after).takeWhile isNameChar =
        front ++ initial :: rest := by
      rw [List.append_assoc, List.takeWhile_append_of_pos hfrontName, List.cons_append,
        List.takeWhile_cons_of_pos (isNameChar_of_isAlpha hinitial), hname]
    have hdrop := dropWhile_underscores hrun hinitial (rest ++ after)
    rw [← List.cons_append, ← List.append_assoc] at hdrop
    rw [nameAt, if_neg (by decide), if_pos rfl, hu, Option.map_some, hdrop, List.cons_append]
    dsimp only
    rw [if_pos hinitial, htake]
    rfl

/-- A run of underscores is taken in front of what goes on with no name. -/
theorem isTaken_underscores {front : List Char} (hu : lexicon.underscores = some t)
    (hne : front ≠ []) (hfront : ∀ d ∈ front, d = '_')
    (hafter : ∀ d ∈ after.head?, isNameChar d = false) :
    (word t front).IsTaken lexicon after := by
  obtain ⟨d, cs, rfl⟩ := List.exists_cons_of_ne_nil hne
  obtain ⟨rfl, hcs⟩ := List.forall_mem_cons.1 hfront
  have hafter' : ∀ d ∈ after.head?, (d == '_') = false := fun d hd => by
    refine beq_eq_false_iff_ne.2 ?_
    rintro rfl
    cases hafter '_' hd
  obtain ⟨htake, hdrop⟩ := takeWhile_append_of_head? (p := (· == '_'))
    (fun d hd => beq_iff_eq.2 (hcs d hd)) hafter'
  refine ⟨'_', cs, rfl, roleAt_of_nameAt rfl ?_⟩
  rw [nameAt, if_neg (by decide), if_pos rfl, hu, Option.map_some, hdrop, htake]
  cases after with
  | nil => simp
  | cons c after =>
    have hc : c.isAlpha = false := by
      by_contra h
      have := hafter c rfl
      rw [isNameChar_of_isAlpha (by simpa using h)] at this
      cases this
    simp [hc]

/-- A number is taken in front of what goes on with neither digits nor a fraction. -/
theorem isTaken_whole {whole : List Char} (hne : whole ≠ [])
    (hwhole : ∀ d ∈ whole, d.isDigit = true)
    (hafter : ∀ d ∈ after.head?, d.isDigit = false ∧ d ≠ '.') :
    (word lexicon.number whole).IsTaken lexicon after := by
  obtain ⟨c, cs, rfl⟩ := List.exists_cons_of_ne_nil hne
  obtain ⟨hc, hcs⟩ := List.forall_mem_cons.1 hwhole
  obtain ⟨htake, hdrop⟩ := takeWhile_append_of_head? hcs fun d hd => (hafter d hd).1
  refine ⟨c, cs, rfl, (roleAt_of_isDigit hc).trans (congrArg _ ?_)⟩
  simp only [numberLength, htake, hdrop]
  split
  · exact absurd rfl (hafter '.' rfl).2
  · rfl

/-- A number with a fraction is cut off by what is no digit. -/
theorem isTaken_fraction {whole fraction : List Char} (hne : whole ≠ [])
    (hwhole : ∀ d ∈ whole, d.isDigit = true) (hne' : fraction ≠ [])
    (hfraction : ∀ d ∈ fraction, d.isDigit = true)
    (hafter : ∀ d ∈ after.head?, d.isDigit = false) :
    (word lexicon.number (whole ++ '.' :: fraction)).IsTaken lexicon after := by
  obtain ⟨c, cs, rfl⟩ := List.exists_cons_of_ne_nil hne
  obtain ⟨hc, hcs⟩ := List.forall_mem_cons.1 hwhole
  have hpoint : ∀ d ∈ ('.' :: fraction ++ after).head?, d.isDigit = false := by
    rintro d ⟨⟩
    rfl
  obtain ⟨htake, hdrop⟩ := takeWhile_append_of_head? hcs hpoint
  obtain ⟨htake', -⟩ := takeWhile_append_of_head? hfraction hafter
  refine ⟨c, cs ++ '.' :: fraction, rfl, (roleAt_of_isDigit hc).trans (congrArg _ ?_)⟩
  obtain ⟨n, hn⟩ := Nat.exists_eq_succ_of_ne_zero (List.length_pos_iff.2 hne').ne'
  rw [List.append_assoc, numberLength, htake, hdrop, List.cons_append]
  simp only [htake', hn, List.length_append, List.length_cons]
  omega

/-- A word is taken in front of what goes on with no name, and with no fraction if it is a
    number. -/
theorem isTaken_of_belongs (hl : lexicon.IsRegular) (h : lexicon.Belongs t text)
    (hhead : ∀ c ∈ text.head?, isNameChar c = true)
    (hafter : ∀ c ∈ after.head?, isNameChar c = false ∧ (t = lexicon.number → c ≠ '.')) :
    (word t text).IsTaken lexicon after := by
  have hname : ∀ c ∈ after.head?, isNameChar c = false := fun c hc => (hafter c hc).1
  have hdigit : ∀ c ∈ after.head?, c.isDigit = false := fun c hc => by
    by_contra h
    have hchar := isNameChar_of_isDigit (by simpa using h)
    rw [hname c hc] at hchar
    cases hchar
  cases h with
  | @keyword w t hmem =>
    obtain ⟨halpha, hall⟩ := hl.keyword _ hmem
    obtain ⟨c, hc, halpha⟩ := (Option.any_eq_true _ _).1 halpha
    have htoken := nameToken_of_mem hl hmem c
    generalize w.toList = text at hall hc htoken
    obtain ⟨cs, rfl⟩ : ∃ cs, text = c :: cs := List.head?_eq_some_iff.1 hc
    have hcs : ∀ d ∈ cs, isNameChar d = true := fun d hd =>
      List.all_eq_true.1 hall d (List.mem_cons_of_mem _ hd)
    have htaken : (word (lexicon.nameToken c ([] ++ c :: cs)) ([] ++ c :: cs)).IsTaken lexicon
        after := isTaken_name nofun (absurd rfl) halpha hcs hname
    rwa [List.nil_append, htoken] at htaken
  | name hfront hsome hinitial hrest hnone =>
    have htaken := isTaken_name hfront hsome hinitial hrest hname
    rwa [nameToken_of_notMem hnone] at htaken
  | underscores hu hne hall => exact isTaken_underscores hu hne hall hname
  | number hne hall => exact isTaken_whole hne hall fun c hc => ⟨hdigit c hc, (hafter c hc).2 rfl⟩
  | fraction hne hall hne' hall' => exact isTaken_fraction hne hall hne' hall' hdigit
  -- Strings and marks begin with no character of a name.
  | string => cases hhead '"' rfl
  | @punctuation mark t hmem =>
    obtain ⟨c, hc, hmark⟩ := (Option.any_eq_true _ _).1 (hl.punctuation _ hmem)
    exact absurd (hhead c hc) (isMarkChar_iff.1 hmark).2.1

end Lexicon

/-! ## One statement -/

namespace Grammar

variable {g : Grammar τ} {source : String} {lexemes : List (Lexeme τ)} {nodes : List RawNode}
  {s s' : TokenStream τ}

/-- Where nothing is left, there is no further statement. -/
theorem statementsFrom_of_atEnd (h : s.atEnd = true) (measure : List (Lexeme τ))
    (nodes : List RawNode) (errors : List SyntaxError) :
    g.statementsFrom measure nodes errors s = (nodes.reverse, errors.reverse) := by
  cases measure with
  | nil => rfl
  | cons l measure => rw [statementsFrom, if_pos h]

/-- If one statement takes everything, it is the only one. -/
theorem statements_of_ok (hs : s.atEnd = false) (h : g.statement s = .ok (nodes, s'))
    (hend : s'.atEnd = true) : g.statements s = (nodes, []) := by
  obtain ⟨l, rest, hu⟩ := TokenStream.exists_cons_of_atEnd hs
  rw [statements, hu, statementsFrom, if_neg (by simp [hs]), h]
  dsimp only
  rw [statementsFrom_of_atEnd hend]
  simp

/-- If one broken statement takes everything, its error is the only one. -/
theorem statements_of_error (hs : s.atEnd = false) {e : SyntaxError}
    (h : g.statement s = .error e) (hrecover : g.recover s = (nodes, s'))
    (hend : s'.atEnd = true) : g.statements s = (nodes, [e]) := by
  obtain ⟨l, rest, hu⟩ := TokenStream.exists_cons_of_atEnd hs
  rw [statements, hu, statementsFrom, if_neg (by simp [hs]), h, hrecover]
  dsimp only
  rw [statementsFrom_of_atEnd hend]
  simp

/-- What is parsed of a source without comments. -/
theorem parse_of_statements {errors : List SyntaxError}
    (hlex : g.lexicon.lex source = ⟨lexemes, []⟩)
    (h : g.statements (.ofLexemes lexemes (Text.byteLength source.toList)) = (nodes, errors)) :
    g.parse source =
      .ofRoot (.branchAt g.root ⟨0, Text.byteLength source.toList⟩ nodes) errors := by
  rw [parse, hlex]
  dsimp only
  rw [h]
  rfl

end Grammar

end GrammarTools
