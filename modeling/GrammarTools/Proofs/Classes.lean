import GrammarTools.Lexicon
import GrammarTools.Peopl.Token
import GrammarTools.Simpl.Token
import Mathlib.Data.List.TakeWhile
import Mathlib.Tactic.ByContra

/-!
# Lexical classes

Which texts belong to a token is said without the lexer (`Lexicon.Belongs`), and
so is what a comment is (`IsComment`) and what may be skipped (`IsSkip`). The
lexer takes from the front of a text whatever belongs to a class, and takes as
much of it as it can (`Lexicon.Reads`). Where nothing belongs to a class, it
takes one character as an invalid token, or all that is left if a quote has been
left open.

A text of a class is told by the character that it begins with
(`Lexicon.Begins`), and the classes are such that each character leaves few of
them to choose from. So the lexer need only look at one character before it
knows what it has to measure (`Lexicon.reads_name` and its like).
-/

namespace GrammarTools

variable {τ : Type}

/-! ## Classes -/

/-- A remark behind two stars and a space, on one line. -/
def IsComment (text : List Char) : Prop :=
  ∃ remark, text = '*' :: '*' :: ' ' :: remark ∧ '\n' ∉ remark

/-- One thing to be skipped: a blank character, or a backslash that joins two lines. -/
inductive IsSkip : List Char → Prop
  | gap {c : Char} : c ∈ [' ', '\t', '\r', '\n', '\x0c'] → IsSkip [c]
  | join : IsSkip ['\\', '\n']
  | joinReturn : IsSkip ['\\', '\r', '\n']

/-- Things to be skipped, one behind the other. -/
def IsBlank (text : List Char) : Prop :=
  ∃ pieces : List (List Char), (∀ p ∈ pieces, IsSkip p) ∧ text = pieces.flatten

namespace Lexicon

variable (lexicon : Lexicon τ)

/-- The texts that belong to a token. -/
inductive Belongs : τ → List Char → Prop
  | keyword {word : String} {t : τ} : (word, t) ∈ lexicon.keywords → Belongs t word.toList
  | name {front rest : List Char} {initial : Char} : (∀ c ∈ front, c = '_') →
      (front ≠ [] → lexicon.underscores.isSome) → initial.isAlpha → (∀ c ∈ rest, isNameChar c) →
        (∀ entry ∈ lexicon.keywords, entry.1.toList ≠ front ++ initial :: rest) →
          Belongs (if initial.isUpper then lexicon.upperName else lexicon.lowerName)
            (front ++ initial :: rest)
  | underscores {t : τ} {text : List Char} : lexicon.underscores = some t → text ≠ [] →
      (∀ c ∈ text, c = '_') → Belongs t text
  | number {whole : List Char} : whole ≠ [] → (∀ c ∈ whole, c.isDigit) →
      Belongs lexicon.number whole
  | fraction {whole fraction : List Char} : whole ≠ [] → (∀ c ∈ whole, c.isDigit) →
      fraction ≠ [] → (∀ c ∈ fraction, c.isDigit) →
        Belongs lexicon.number (whole ++ '.' :: fraction)
  | string {body : List Char} : '"' ∉ body → Belongs lexicon.string ('"' :: body ++ ['"'])
  | punctuation {mark : String} {t : τ} : (mark, t) ∈ lexicon.punctuation → Belongs t mark.toList

/-- Whether a text belongs to any class. -/
def IsKnown (text : List Char) : Prop :=
  IsComment text ∨ IsSkip text ∨ ∃ t, lexicon.Belongs t text

/-- Nothing that begins where a text begins, and goes on into the rest, belongs to a class. -/
def IsLongest (text rest : List Char) : Prop :=
  ∀ longer, longer <+: text ++ rest → lexicon.IsKnown longer → longer.length ≤ text.length

/-- A text that is taken for a token in front of the rest. -/
inductive Reads (t : τ) (text rest : List Char) : Prop
  /-- A text that belongs to the token. -/
  | known : lexicon.Belongs t text → lexicon.IsLongest text rest → Reads t text rest
  /-- A character with which no text begins that belongs to a class. -/
  | stray {c : Char} : t = lexicon.invalid → text = [c] → c ≠ '"' →
      (∀ front, front <+: c :: rest → ¬ lexicon.IsKnown front) → Reads t text rest
  /-- A quote that is never closed, with all that follows it. -/
  | unclosed {body : List Char} : t = lexicon.invalid → text = '"' :: body → '"' ∉ body →
      rest = [] → Reads t text rest

end Lexicon

/-- Whether a character begins nothing but a mark or a comment. -/
def isMarkChar (c : Char) : Bool := !(isGap c || isNameChar c || c == '"' || c == '\\')

/-- What begins like a word, a number, a string or a blank is nothing else, only a comment begins
    with two stars, and of two marks that begin alike the longer one stands first. -/
structure Lexicon.IsRegular (lexicon : Lexicon τ) : Prop where
  keyword : ∀ entry ∈ lexicon.keywords,
    entry.1.toList.head?.any Char.isAlpha ∧ entry.1.toList.all isNameChar
  punctuation : ∀ entry ∈ lexicon.punctuation, entry.1.toList.head?.any isMarkChar
  stars : ∀ entry ∈ lexicon.punctuation, ¬ ['*', '*'] <+: entry.1.toList
  longer_first : lexicon.punctuation.Pairwise fun a b => ¬ a.1.toList <+: b.1.toList
  distinct : (lexicon.keywords.map fun entry => entry.1.toList).Nodup

/-- The words, marks and starts of names of Simpl keep to the conditions of a regular lexicon. -/
theorem Simpl.lexicon_isRegular : Simpl.lexicon.IsRegular :=
  ⟨by decide, by decide, by decide, by decide, by decide⟩

theorem Peopl.lexicon_isRegular : Peopl.lexicon.IsRegular :=
  ⟨by decide, by decide, by decide, by decide, by decide⟩

namespace Lexicon

variable {lexicon : Lexicon τ} {t : τ} {c : Char} {cs text rest tail : List Char}

/-! ## What begins with a character -/

/-- A text of a class, by the character that it begins with. -/
inductive Begins (lexicon : Lexicon τ) (c : Char) (tail : List Char) : Prop
  | comment (remark : List Char) : c = '*' → tail = '*' :: ' ' :: remark → '\n' ∉ remark →
      Begins lexicon c tail
  | gap : isGap c → tail = [] → Begins lexicon c tail
  | join : c = '\\' → tail = ['\n'] ∨ tail = ['\r', '\n'] → Begins lexicon c tail
  | word : c.isAlpha → (∀ d ∈ tail, isNameChar d) → Begins lexicon c tail
  | underscored (front rest : List Char) (initial : Char) : c = '_' → lexicon.underscores.isSome →
      tail = front ++ initial :: rest → (∀ d ∈ front, d = '_') → initial.isAlpha →
        (∀ d ∈ rest, isNameChar d) → Begins lexicon c tail
  | underscores : c = '_' → lexicon.underscores.isSome → (∀ d ∈ tail, d = '_') →
      Begins lexicon c tail
  | number : c.isDigit → (∀ d ∈ tail, d.isDigit) → Begins lexicon c tail
  | fraction (whole fraction : List Char) : c.isDigit → tail = whole ++ '.' :: fraction →
      (∀ d ∈ whole, d.isDigit) → fraction ≠ [] → (∀ d ∈ fraction, d.isDigit) →
        Begins lexicon c tail
  | string (body : List Char) : c = '"' → tail = body ++ ['"'] → '"' ∉ body → Begins lexicon c tail
  | mark (entry : String × τ) : isMarkChar c → entry ∈ lexicon.punctuation →
      entry.1.toList = c :: tail → Begins lexicon c tail

theorem isGap_iff : isGap c ↔ c ∈ [' ', '\t', '\r', '\n', '\x0c'] := by
  simp [isGap, or_assoc]

/-- Where a token of some class begins, one of the ways to begin a token is open. -/
theorem Belongs.begins (hl : lexicon.IsRegular) (h : lexicon.Belongs t text)
    (htext : text = c :: tail) : lexicon.Begins c tail := by
  cases h with
  | keyword hmem =>
    obtain ⟨hhead, hall⟩ := hl.keyword _ hmem
    rw [htext] at hhead hall
    exact .word hhead fun d hd => (List.all_eq_true.1 hall) d (List.mem_cons_of_mem _ hd)
  | @name front rest initial hfront hsome hinitial hrest _ =>
    cases front with
    | nil =>
      obtain ⟨rfl, rfl⟩ := List.cons.inj htext
      exact .word hinitial hrest
    -- The first underscore is the character itself, and the others are the front.
    | cons d front =>
      obtain ⟨rfl, rfl⟩ := List.cons.inj htext
      exact .underscored front rest initial (hfront _ List.mem_cons_self)
        (hsome (List.cons_ne_nil _ _)) rfl (fun e he => hfront e (List.mem_cons_of_mem _ he))
        hinitial hrest
  | underscores hsome _ hall =>
    subst htext
    exact .underscores (hall c List.mem_cons_self) (Option.isSome_iff_exists.2 ⟨_, hsome⟩)
      fun d hd => hall d (List.mem_cons_of_mem _ hd)
  | number _ hall =>
    subst htext
    exact .number (hall c List.mem_cons_self) fun d hd => hall d (List.mem_cons_of_mem _ hd)
  | @fraction whole fraction hne hwhole hfraction hall =>
    obtain ⟨d, whole, rfl⟩ := List.exists_cons_of_ne_nil hne
    obtain ⟨rfl, rfl⟩ := List.cons.inj htext
    exact .fraction whole fraction (hwhole _ List.mem_cons_self) rfl
      (fun e he => hwhole e (List.mem_cons_of_mem _ he)) hfraction hall
  | string hbody =>
    obtain ⟨rfl, rfl⟩ := List.cons.inj htext
    exact .string _ rfl rfl hbody
  | punctuation hmem =>
    have hmark := hl.punctuation _ hmem
    rw [htext] at hmark
    exact .mark _ hmark hmem htext

/-- The text of a known token begins in one of the ways to begin a token. -/
theorem IsKnown.begins (hl : lexicon.IsRegular) (h : lexicon.IsKnown (c :: tail)) :
    lexicon.Begins c tail := by
  rcases h with ⟨remark, heq, hremark⟩ | h | ⟨t, h⟩
  · obtain ⟨rfl, rfl⟩ := List.cons.inj heq
    exact .comment remark rfl rfl hremark
  · cases h with
    | gap hc => exact .gap (isGap_iff.2 hc) rfl
    | join => exact .join rfl (.inl rfl)
    | joinReturn => exact .join rfl (.inr rfl)
  · exact h.begins hl rfl

/-! ### Sorts of characters -/

theorem isNameChar_of_isAlpha (h : c.isAlpha) : isNameChar c := by
  simp [isNameChar, Char.isAlphanum, h]

theorem isNameChar_of_isDigit (h : c.isDigit) : isNameChar c := by
  simp [isNameChar, Char.isAlphanum, h]

theorem not_isDigit_of_isAlpha (h : c.isAlpha) : ¬ c.isDigit := by
  intro hd
  have hd : c.toNat ≤ 57 := (Char.isDigit_iff_toNat.1 hd).2
  have hlow : 65 ≤ c.toNat := by
    rcases Bool.or_eq_true_iff.1 h with h | h
    · exact UInt32.le_iff_toNat_le.1 (of_decide_eq_true h).1
    · have hlow : 97 ≤ c.toNat :=
        UInt32.le_iff_toNat_le.1 (of_decide_eq_true (Bool.and_eq_true_iff.1 h).1)
      omega
  omega

theorem not_isGap_of_isNameChar (h : isNameChar c) : ¬ isGap c := by
  intro hgap
  simp only [isGap_iff, List.mem_cons, List.not_mem_nil, or_false] at hgap
  rcases hgap with rfl | rfl | rfl | rfl | rfl <;> cases h

theorem isMarkChar_iff : isMarkChar c ↔ ¬ isGap c ∧ ¬ isNameChar c ∧ c ≠ '"' ∧ c ≠ '\\' := by
  simp [isMarkChar, and_assoc]

namespace Begins

variable (h : lexicon.Begins c tail)
include h

/-- Behind a letter, a token has characters of names only. -/
theorem of_isAlpha (hc : c.isAlpha) : ∀ d ∈ tail, isNameChar d := by
  have hname := isNameChar_of_isAlpha hc
  cases h with
  | word _ hall => exact hall
  | gap hgap _ => exact absurd hgap (not_isGap_of_isNameChar hname)
  | number hd _ | fraction _ _ hd => exact absurd hd (not_isDigit_of_isAlpha hc)
  | mark _ hmark => exact absurd hname (isMarkChar_iff.1 hmark).2.1
  | comment _ heq | join heq | underscored _ _ _ heq | underscores heq | string _ heq =>
    subst heq
    cases hc

/-- Behind a digit, a token has digits, and perhaps a point with digits behind it. -/
theorem of_isDigit (hc : c.isDigit) : (∀ d ∈ tail, d.isDigit) ∨
    ∃ whole fraction, tail = whole ++ '.' :: fraction ∧ (∀ d ∈ whole, d.isDigit) ∧
      fraction ≠ [] ∧ ∀ d ∈ fraction, d.isDigit := by
  have hname := isNameChar_of_isDigit hc
  cases h with
  | number _ hall => exact .inl hall
  | fraction whole fraction _ heq hwhole hne hall =>
    exact .inr ⟨whole, fraction, heq, hwhole, hne, hall⟩
  | word halpha => exact absurd hc (not_isDigit_of_isAlpha halpha)
  | gap hgap _ => exact absurd hgap (not_isGap_of_isNameChar hname)
  | mark _ hmark => exact absurd hname (isMarkChar_iff.1 hmark).2.1
  | comment _ heq | join heq | underscored _ _ _ heq | underscores heq | string _ heq =>
    subst heq
    cases hc

/-- Behind a quotation mark, a token reaches up to the next one. -/
theorem of_quote (hc : c = '"') : ∃ body, tail = body ++ ['"'] ∧ '"' ∉ body := by
  subst hc
  cases h with
  | string body _ heq hbody => exact ⟨body, heq, hbody⟩
  | mark _ hmark => exact absurd rfl (isMarkChar_iff.1 hmark).2.2.1
  | comment _ heq | join heq | underscored _ _ _ heq | underscores heq => cases heq
  | gap hc _ | word hc _ | number hc _ | fraction _ _ hc => cases hc

/-- Behind an underscore, a token has underscores only, or underscores, a letter and characters of
    names. -/
theorem of_underscore (hc : c = '_') : lexicon.underscores.isSome ∧ ((∀ d ∈ tail, d = '_') ∨
    ∃ front initial rest, tail = front ++ initial :: rest ∧ (∀ d ∈ front, d = '_') ∧
      initial.isAlpha ∧ ∀ d ∈ rest, isNameChar d) := by
  subst hc
  cases h with
  | underscores _ hsome hall => exact ⟨hsome, .inl hall⟩
  | underscored front rest initial _ hsome heq hfront hinitial hrest =>
    exact ⟨hsome, .inr ⟨front, initial, rest, heq, hfront, hinitial, hrest⟩⟩
  | mark _ hmark => exact absurd rfl (isMarkChar_iff.1 hmark).2.1
  | comment _ heq | join heq | string _ heq => cases heq
  | gap hc _ | word hc _ | number hc _ | fraction _ _ hc => cases hc

/-- In both cases these are characters of names. -/
theorem of_underscore_isNameChar (hc : c = '_') : ∀ d ∈ tail, isNameChar d := by
  rcases (h.of_underscore hc).2 with hall | ⟨front, initial, rest, rfl, hfront, hinitial, hrest⟩
  · intro d hd
    rw [hall d hd]
    rfl
  · intro d hd
    rcases List.mem_append.1 hd with hd | hd
    · rw [hfront d hd]
      rfl
    · rcases List.mem_cons.1 hd with rfl | hd
      · exact isNameChar_of_isAlpha hinitial
      · exact hrest d hd

/-- What begins with none of the other characters is a mark or a comment. -/
theorem of_other (hgap : ¬ isGap c) (hname : c.isAlpha ∨ c.isDigit → False)
    (hunderscore : c = '_' → lexicon.underscores = none) (hquote : c ≠ '"')
    (hjoin : c = '\\' → tail ≠ ['\n'] ∧ tail ≠ ['\r', '\n']) :
    (∃ remark, c = '*' ∧ tail = '*' :: ' ' :: remark ∧ '\n' ∉ remark) ∨
      ∃ entry ∈ lexicon.punctuation, entry.1.toList = c :: tail := by
  cases h with
  | comment remark hc heq hremark => exact .inl ⟨remark, hc, heq, hremark⟩
  | mark entry _ hmem heq => exact .inr ⟨entry, hmem, heq⟩
  | gap hc _ => exact absurd hc hgap
  | join hc heq => exact absurd heq (not_or.2 (hjoin hc))
  | word hc _ => exact (hname (.inl hc)).elim
  | number hc _ | fraction _ _ hc => exact (hname (.inr hc)).elim
  | underscored _ _ _ hc hsome | underscores hc hsome =>
    rw [hunderscore hc] at hsome
    cases hsome
  | string _ hc => exact absurd hc hquote

end Begins

/-! ## What is read -/

/-- A prefix whose characters all pass is no longer than the longest one. -/
theorem length_le_length_takeWhile {p : Char → Bool} (h : tail <+: cs) (hall : ∀ d ∈ tail, p d) :
    tail.length ≤ (cs.takeWhile p).length := by
  obtain ⟨rest, rfl⟩ := h
  rw [List.takeWhile_append_of_pos hall, List.length_append]
  omega

theorem take_length_takeWhile (p : Char → Bool) (cs : List Char) :
    cs.take (cs.takeWhile p).length = cs.takeWhile p :=
  (List.prefix_iff_eq_take.1 (List.takeWhile_prefix p)).symm

theorem notMem_takeWhile_bne (c : Char) (cs : List Char) : c ∉ cs.takeWhile (· != c) := by
  intro h
  simpa using List.mem_takeWhile_imp h

theorem eq_of_mem_takeWhile_beq (c : Char) (cs : List Char) :
    ∀ d ∈ cs.takeWhile (· == c), d = c := by
  intro d h
  simpa using List.mem_takeWhile_imp h

/-- Nothing longer belongs to a class if nothing longer begins with the same character. -/
theorem isLongest_of_begins (hl : lexicon.IsRegular) {n : Nat}
    (h : ∀ tail, tail <+: cs → lexicon.Begins c tail → tail.length ≤ n) :
    lexicon.IsLongest (c :: cs.take n) (cs.drop n) := by
  intro longer hprefix hknown
  rw [List.cons_append, List.take_append_drop] at hprefix
  cases longer with
  | nil => exact Nat.zero_le _
  | cons d tail =>
    obtain ⟨rfl, htail⟩ := List.cons_prefix_cons.1 hprefix
    have hle := h tail htail (hknown.begins hl)
    have hlength := htail.length_le
    rw [List.length_cons, List.length_cons, List.length_take]
    omega

/-- A star and a space begin a comment, up to the end of the line; no token is longer. -/
theorem reads_comment (hl : lexicon.IsRegular) (hopens : ['*', ' '].isPrefixOf cs) :
    IsComment ('*' :: cs.takeWhile (· != '\n')) ∧
      lexicon.IsLongest ('*' :: cs.take (cs.takeWhile (· != '\n')).length)
        (cs.drop (cs.takeWhile (· != '\n')).length) := by
  obtain ⟨remark, rfl⟩ := List.isPrefixOf_iff_prefix.1 hopens
  refine ⟨⟨remark.takeWhile (· != '\n'), by simp, notMem_takeWhile_bne _ _⟩,
    isLongest_of_begins hl fun tail htail hbegins => ?_⟩
  rcases hbegins.of_other (by decide) (by decide) (fun h => absurd h (by decide)) (by decide)
    (fun h => absurd h (by decide)) with ⟨text, -, rfl, htext⟩ | ⟨entry, hmem, heq⟩
  · refine length_le_length_takeWhile htail fun d hd => bne_iff_ne.2 ?_
    rintro rfl
    simp_all
  · -- A mark has no second star.
    cases tail with
    | nil => exact Nat.zero_le _
    | cons d tail =>
      obtain ⟨rfl, -⟩ := List.cons_prefix_cons.1 htail
      exact absurd ⟨tail, heq.symm⟩ (hl.stars entry hmem)

/-- The token of a name, with nothing in front of its first letter but underscores. -/
theorem belongs_nameToken (front : List Char) {rest : List Char} {initial : Char}
    (hfront : ∀ d ∈ front, d = '_') (hsome : front ≠ [] → lexicon.underscores.isSome)
    (hinitial : initial.isAlpha) (hrest : ∀ d ∈ rest, isNameChar d) :
    lexicon.Belongs (lexicon.nameToken initial (front ++ initial :: rest))
      (front ++ initial :: rest) := by
  unfold nameToken
  cases hlookup : lexicon.keywords.lookup (String.ofList (front ++ initial :: rest)) with
  | some t =>
    obtain ⟨before, after, heq, -⟩ := List.lookup_eq_some_iff.1 hlookup
    have hkeyword : lexicon.Belongs t (String.ofList (front ++ initial :: rest)).toList :=
      .keyword (heq ▸ List.mem_append_right before List.mem_cons_self)
    rwa [String.toList_ofList] at hkeyword
  | none =>
    refine .name hfront hsome hinitial hrest fun entry hmem heq => ?_
    have hne := List.lookup_eq_none_iff.1 hlookup entry hmem
    rw [← heq, String.ofList_toList] at hne
    simp at hne

theorem dropWhile_underscores {front : List Char} {initial : Char} (hfront : ∀ d ∈ front, d = '_')
    (hinitial : initial.isAlpha) (rest : List Char) :
    (front ++ initial :: rest).dropWhile (· == '_') = initial :: rest := by
  rw [List.dropWhile_append_of_pos fun d hd => beq_iff_eq.2 (hfront d hd),
    List.dropWhile_cons_of_neg]
  rw [beq_iff_eq]
  rintro rfl
  cases hinitial

/-- A letter begins a word, which is a keyword or a name by its text, and as long as it can be. -/
theorem reads_word (hl : lexicon.IsRegular) (hc : c.isAlpha) :
    lexicon.Reads (lexicon.nameToken c (c :: cs.takeWhile isNameChar))
      (c :: cs.take (cs.takeWhile isNameChar).length)
      (cs.drop (cs.takeWhile isNameChar).length) := by
  refine .known ?_ (isLongest_of_begins hl fun tail htail hbegins =>
    length_le_length_takeWhile htail (hbegins.of_isAlpha hc))
  rw [take_length_takeWhile]
  exact belongs_nameToken [] nofun (fun hne => absurd rfl hne) hc
    fun d hd => List.mem_takeWhile_imp hd

section

variable {u : τ} (hl : lexicon.IsRegular) (hu : lexicon.underscores = some u)
include hl hu

/-- A run of underscores is read as part of a name if a letter comes next. -/
theorem reads_underscored {initial : Char} {more : List Char}
    (hdrop : cs.dropWhile (· == '_') = initial :: more) (hinitial : initial.isAlpha) :
    lexicon.Reads (lexicon.nameToken initial ('_' :: cs.takeWhile isNameChar))
      ('_' :: cs.take (cs.takeWhile isNameChar).length)
      (cs.drop (cs.takeWhile isNameChar).length) := by
  have hfront := eq_of_mem_takeWhile_beq '_' cs
  have hname : cs.takeWhile isNameChar =
      cs.takeWhile (· == '_') ++ initial :: more.takeWhile isNameChar := by
    conv_lhs => rw [← List.takeWhile_append_dropWhile (p := (· == '_')) (l := cs), hdrop]
    rw [List.takeWhile_append_of_pos fun d hd => by rw [hfront d hd]; rfl,
      List.takeWhile_cons_of_pos (isNameChar_of_isAlpha hinitial)]
  refine .known ?_ (isLongest_of_begins hl fun tail htail hbegins =>
    length_le_length_takeWhile htail (hbegins.of_underscore_isNameChar rfl))
  rw [take_length_takeWhile, hname]
  exact belongs_nameToken ('_' :: cs.takeWhile (· == '_'))
    (List.forall_mem_cons.2 ⟨rfl, hfront⟩) (fun _ => Option.isSome_iff_exists.2 ⟨u, hu⟩) hinitial
    fun d hd => List.mem_takeWhile_imp hd

/-- A run of underscores is read by itself if no letter comes next. -/
theorem reads_underscores
    (hnext : ∀ initial more, cs.dropWhile (· == '_') = initial :: more → ¬ initial.isAlpha) :
    lexicon.Reads u ('_' :: cs.take (cs.takeWhile (· == '_')).length)
      (cs.drop (cs.takeWhile (· == '_')).length) := by
  refine .known ?_ (isLongest_of_begins hl fun tail htail hbegins => ?_)
  · rw [take_length_takeWhile]
    exact .underscores hu (List.cons_ne_nil _ _)
      (List.forall_mem_cons.2 ⟨rfl, eq_of_mem_takeWhile_beq '_' cs⟩)
  · rcases (hbegins.of_underscore rfl).2 with hall | ⟨run, first, rest, rfl, hrun, hfirst, -⟩
    · exact length_le_length_takeWhile htail fun d hd => by rw [hall d hd]; rfl
    · -- The run ends where that of the text does, and a letter comes next.
      obtain ⟨rest', rfl⟩ := htail
      refine absurd hfirst (hnext first (rest ++ rest') ?_)
      rw [List.append_assoc, List.cons_append, dropWhile_underscores hrun hfirst]

end

/-- A name behind underscores is as long as it can be. -/
theorem reads_name (hl : lexicon.IsRegular) {n : Nat} (h : lexicon.nameAt c cs = some (t, n)) :
    lexicon.Reads t (c :: cs.take n) (cs.drop n) := by
  unfold nameAt at h
  by_cases hc : c.isAlpha
  · rw [if_pos hc] at h
    obtain ⟨rfl, rfl⟩ := Prod.mk.inj (Option.some.inj h)
    exact reads_word hl hc
  rw [if_neg hc] at h
  -- Behind underscores comes a letter or something else; without a letter they stand alone.
  split at h
  case isFalse => cases h
  case isTrue hc =>
    subst hc
    obtain ⟨u, hu, h⟩ := Option.map_eq_some_iff.1 h
    split at h
    case h_1 initial more hdrop =>
      split at h
      case isTrue hinitial =>
        obtain ⟨rfl, rfl⟩ := Prod.mk.inj h
        exact reads_underscored hl hu hdrop hinitial
      case isFalse hinitial =>
        obtain ⟨rfl, rfl⟩ := Prod.mk.inj h
        refine reads_underscores hl hu fun first rest hfirst => ?_
        rwa [(List.cons.inj (hfirst.symm.trans hdrop)).1]
    case h_2 hdrop =>
      have hsplit := List.takeWhile_append_dropWhile (p := (· == '_')) (l := cs)
      rw [hdrop, List.append_nil] at hsplit
      obtain ⟨rfl, rfl⟩ := Prod.mk.inj h
      have hnext : ∀ initial more, cs.dropWhile (· == '_') = initial :: more →
          ¬ initial.isAlpha := by
        rw [hdrop]
        nofun
      have hreads := reads_underscores hl hu hnext
      rwa [hsplit] at hreads

/-! ### Numbers -/

/-- A number is at least as long as its digits. -/
theorem length_takeWhile_le_numberLength (cs : List Char) :
    (cs.takeWhile Char.isDigit).length ≤ numberLength cs := by
  unfold numberLength
  dsimp only
  split
  · split <;> omega
  · exact Nat.le_refl _

/-- A fraction that is there belongs to the number. -/
theorem numberLength_of_fraction {whole fraction : List Char} (hwhole : ∀ d ∈ whole, d.isDigit)
    (hne : fraction ≠ []) (hfraction : ∀ d ∈ fraction, d.isDigit) (rest : List Char) :
    (whole ++ '.' :: fraction).length ≤ numberLength (whole ++ '.' :: fraction ++ rest) := by
  have htake : ((fraction ++ rest).takeWhile Char.isDigit).length =
      fraction.length + (rest.takeWhile Char.isDigit).length := by
    rw [List.takeWhile_append_of_pos hfraction, List.length_append]
  obtain ⟨n, hn⟩ := Nat.exists_eq_succ_of_ne_zero
    (show fraction.length + (rest.takeWhile Char.isDigit).length ≠ 0 by
      have := List.length_pos_iff.2 hne
      omega)
  have hdot : ¬ '.'.isDigit := by decide
  simp only [numberLength, List.append_assoc, List.cons_append,
    List.takeWhile_append_of_pos hwhole, List.dropWhile_append_of_pos hwhole,
    List.takeWhile_cons_of_neg hdot, List.dropWhile_cons_of_neg hdot, htake, hn]
  simp only [List.append_nil, List.length_append, List.length_cons]
  omega

/-- A number has no fraction, or one that is not empty. -/
theorem take_numberLength (cs : List Char) : cs.take (numberLength cs) = cs.takeWhile Char.isDigit ∨
    ∃ fraction, fraction ≠ [] ∧ (∀ d ∈ fraction, d.isDigit) ∧
      cs.take (numberLength cs) = cs.takeWhile Char.isDigit ++ '.' :: fraction := by
  unfold numberLength
  dsimp only
  split
  case h_2 => exact .inl (take_length_takeWhile _ cs)
  case h_1 rest hdrop =>
    split
    · exact .inl (take_length_takeWhile _ cs)
    · rename_i n hn
      rw [Nat.succ_eq_add_one] at hn
      refine .inr ⟨rest.takeWhile Char.isDigit, ?_, fun d hd => List.mem_takeWhile_imp hd, ?_⟩
      · exact List.ne_nil_of_length_eq_add_one hn
      · have hsplit := List.takeWhile_append_dropWhile (p := Char.isDigit) (l := cs)
        rw [hdrop] at hsplit
        generalize cs.takeWhile Char.isDigit = whole at hsplit
        rw [← hsplit, ← hn, Nat.add_assoc, List.take_length_add_append, Nat.add_comm,
          List.take_succ_cons, take_length_takeWhile]

/-- A digit begins a number, which is as long as it can be. -/
theorem reads_number (hl : lexicon.IsRegular) (hc : c.isDigit) :
    lexicon.Reads lexicon.number (c :: cs.take (numberLength cs)) (cs.drop (numberLength cs)) := by
  refine .known ?_ (isLongest_of_begins hl fun tail htail hbegins => ?_)
  · have hwhole : ∀ d ∈ c :: cs.takeWhile Char.isDigit, d.isDigit :=
      List.forall_mem_cons.2 ⟨hc, fun d hd => List.mem_takeWhile_imp hd⟩
    rcases take_numberLength cs with h | ⟨fraction, hne, hfraction, h⟩
    · rw [h]
      exact .number (List.cons_ne_nil _ _) hwhole
    · rw [h]
      exact .fraction (List.cons_ne_nil _ _) hwhole hne hfraction
  · rcases hbegins.of_isDigit hc with hall | ⟨whole, fraction, rfl, hwhole, hne, hfraction⟩
    · exact (length_le_length_takeWhile htail hall).trans (length_takeWhile_le_numberLength cs)
    · obtain ⟨rest, rfl⟩ := htail
      exact numberLength_of_fraction hwhole hne hfraction rest

/-! ### Strings -/

/-- A quotation mark begins a string, if there is another one. -/
theorem reads_string (hl : lexicon.IsRegular)
    (hcs : (cs.takeWhile (· != '"')).length < cs.length) :
    lexicon.Reads lexicon.string ('"' :: cs.take ((cs.takeWhile (· != '"')).length + 1))
      (cs.drop ((cs.takeWhile (· != '"')).length + 1)) := by
  have hsplit := List.takeWhile_append_dropWhile (p := (· != '"')) (l := cs)
  obtain ⟨d, rest, hdrop⟩ : ∃ d rest, cs.dropWhile (· != '"') = d :: rest := by
    refine List.exists_cons_of_ne_nil fun hnil => ?_
    rw [hnil, List.append_nil] at hsplit
    rw [hsplit] at hcs
    exact Nat.lt_irrefl _ hcs
  -- What taking stops at is the closing quotation mark.
  have hd : d = '"' := by
    have := List.head_dropWhile_not (· != '"') (by simp [hdrop] : cs.dropWhile (· != '"') ≠ [])
    simpa [hdrop] using this
  refine .known ?_ (isLongest_of_begins hl fun tail htail hbegins => ?_)
  · have htake : cs.take ((cs.takeWhile (· != '"')).length + 1) =
        cs.takeWhile (· != '"') ++ ['"'] := by
      rw [hdrop, hd] at hsplit
      generalize cs.takeWhile (· != '"') = body at hsplit
      rw [← hsplit, List.take_length_add_append]
      rfl
    rw [htake]
    exact .string (notMem_takeWhile_bne _ _)
  · obtain ⟨body, rfl, hnone⟩ := hbegins.of_quote rfl
    rw [List.length_append]
    exact Nat.succ_le_succ (length_le_length_takeWhile
      ((List.prefix_append _ _).trans htail) fun e he => bne_iff_ne.2 fun h => hnone (h ▸ he))

/-- Without a quotation mark to close it, the rest of the text is a single invalid token. -/
theorem reads_unclosed (hcs : cs.length ≤ (cs.takeWhile (· != '"')).length) :
    lexicon.Reads lexicon.invalid ('"' :: cs.take cs.length) (cs.drop cs.length) := by
  have hall : cs.takeWhile (· != '"') = cs := (List.takeWhile_prefix _).eq_of_length_le hcs
  rw [List.take_length, List.drop_length]
  refine .unclosed rfl rfl ?_ rfl
  rw [← hall]
  exact notMem_takeWhile_bne _ _

/-! ### Punctuation -/

theorem IsKnown.ne_nil (hl : lexicon.IsRegular) (h : lexicon.IsKnown text) : text ≠ [] := by
  rintro rfl
  rcases h with ⟨remark, heq, -⟩ | h | ⟨t, h⟩
  · cases heq
  · cases h
  · generalize htext : ([] : List Char) = text at h
    cases h with
    | keyword hmem =>
      have := (hl.keyword _ hmem).1
      simp [← htext] at this
    | name => simp at htext
    | underscores _ hne => exact hne htext.symm
    | number hne => exact hne htext.symm
    | fraction => simp at htext
    | string => cases htext
    | punctuation hmem =>
      have := hl.punctuation _ hmem
      simp [← htext] at this

section

variable (hl : lexicon.IsRegular) (hcomment : ¬ (c = '*' && ['*', ' '].isPrefixOf cs))
  (hjoin : ¬ (c = '\\' && ['\n'].isPrefixOf cs))
  (hreturn : ¬ (c = '\\' && ['\r', '\n'].isPrefixOf cs)) (hgap : ¬ isGap c)
  (hname : lexicon.nameAt c cs = none) (hdigit : ¬ c.isDigit) (hquote : c ≠ '"')
include hcomment hjoin hreturn hgap hname hdigit hquote

/-- Where nothing else begins, only a mark does. -/
theorem Begins.exists_mark (hbegins : lexicon.Begins c tail) (htail : tail <+: cs) :
    ∃ entry ∈ lexicon.punctuation, entry.1.toList = c :: tail := by
  have hunderscore : c = '_' → lexicon.underscores = none := by
    rintro rfl
    simpa [nameAt] using hname
  have halpha : ¬ c.isAlpha := fun h => by simp [nameAt, h] at hname
  rcases hbegins.of_other hgap (not_or.2 ⟨halpha, hdigit⟩) hunderscore hquote (by
    rintro rfl
    refine ⟨?_, ?_⟩ <;> rintro rfl <;> simp [List.isPrefixOf_iff_prefix.2 htail] at hjoin hreturn)
    with ⟨remark, rfl, rfl, -⟩ | hmark
  · have hopens : ['*', ' '] <+: cs := (List.prefix_append ['*', ' '] remark).trans htail
    simp [List.isPrefixOf_iff_prefix.2 hopens] at hcomment
  · exact hmark

include hl

/-- Of the marks that stand there, the longest is taken. -/
theorem reads_mark {n : Nat} (h : lexicon.punctuationAt c cs = some (t, n)) :
    lexicon.Reads t (c :: cs.take n) (cs.drop n) := by
  obtain ⟨entry, hfind, hentry⟩ := Option.map_eq_some_iff.1 h
  obtain ⟨rfl, rfl⟩ := Prod.mk.inj hentry
  obtain ⟨hopens, before, after, heq, hbefore⟩ := List.find?_eq_some_iff_append.1 hfind
  have hmem : entry ∈ lexicon.punctuation := heq ▸ List.mem_append_right _ List.mem_cons_self
  have hopens : entry.1.toList <+: c :: cs := List.isPrefixOf_iff_prefix.1 hopens
  obtain ⟨d, mark, hmark⟩ : ∃ d mark, entry.1.toList = d :: mark :=
    List.exists_cons_of_ne_nil fun hnil => by
      have := hl.punctuation _ hmem
      simp [hnil] at this
  obtain ⟨rfl, hprefix⟩ := List.cons_prefix_cons.1 (hmark ▸ hopens)
  have hlength : entry.1.length - 1 = mark.length := by
    rw [← String.length_toList, hmark]
    rfl
  rw [hlength]
  refine .known ?_ (isLongest_of_begins hl fun tail htail hbegins => ?_)
  · rw [← List.prefix_iff_eq_take.1 hprefix, ← hmark]
    exact .punctuation hmem
  · obtain ⟨other, hother, htext⟩ :=
      hbegins.exists_mark hcomment hjoin hreturn hgap hname hdigit hquote htail
    have hfits : other.1.toList <+: d :: cs := by
      rw [htext]
      exact List.cons_prefix_cons.2 ⟨rfl, htail⟩
    -- What stands before the mark that was found does not fit, and what stands behind is no longer.
    by_contra hlt
    rw [heq, List.mem_append, List.mem_cons] at hother
    rcases hother with hother | rfl | hother
    · have := hbefore other hother
      rw [List.isPrefixOf_iff_prefix.2 hfits] at this
      cases this
    · rw [hmark] at htext
      obtain rfl := (List.cons.inj htext).2
      exact hlt (Nat.le_refl _)
    · have hpair := hl.longer_first
      rw [heq] at hpair
      refine List.rel_of_pairwise_cons (List.pairwise_append.1 hpair).2.1 hother ?_
      refine List.prefix_of_prefix_length_le hopens hfits ?_
      rw [hmark, htext, List.length_cons, List.length_cons]
      omega

/-- A character that begins no mark is an invalid token by itself. -/
theorem reads_stray (h : lexicon.punctuationAt c cs = none) :
    lexicon.Reads lexicon.invalid [c] cs := by
  refine .stray rfl rfl hquote fun front hprefix hknown => ?_
  obtain ⟨d, tail, rfl⟩ := List.exists_cons_of_ne_nil (hknown.ne_nil hl)
  obtain ⟨rfl, htail⟩ := List.cons_prefix_cons.1 hprefix
  obtain ⟨entry, hmem, htext⟩ :=
    (hknown.begins hl).exists_mark hcomment hjoin hreturn hgap hname hdigit hquote htail
  have hnone := List.find?_eq_none.1 (Option.map_eq_none_iff.1 h) entry hmem
  rw [htext, List.isPrefixOf_iff_prefix] at hnone
  exact hnone hprefix

end

end Lexicon

end GrammarTools
