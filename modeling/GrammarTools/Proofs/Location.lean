import GrammarTools.Proofs.Separation

/-!
# Tokens told by their spans

The text of a token and whether it starts a line are read off the source and the
spans (`Lexicon.lexemes_eq_locateFrom`), so tokens are located in a text as they
are with more text on both sides (`Lexeme.locateFrom_middle`). If two texts on
lines of their own have the spans that they have alone, they therefore have all
of the tokens that they have alone (`Lexicon.Separates.lex_eq`).
-/

namespace GrammarTools

variable {τ : Type}

/-! ## Texts inside texts -/

namespace Text

variable {cs : List Char} {start stop : Nat}

/-- What stands between two boundaries of a text stands there still when there is more text on
    both sides. -/
theorem slice_middle (hs : IsBoundary cs start) (ht : IsBoundary cs stop) (hle : start ≤ stop)
    (front back : List Char) :
    slice (start + byteLength front) (stop + byteLength front) (front ++ cs ++ back) =
      slice start stop cs := by
  obtain ⟨before, rest, rfl, rfl⟩ := hs
  obtain ⟨middle, after, rfl, rfl⟩ := ht.exists_middle hle
  have hshort := slice_append before middle after
  have hlong := slice_append (front ++ before) middle (after ++ back)
  have htext : front ++ (before ++ (middle ++ after)) ++ back =
      front ++ before ++ middle ++ (after ++ back) := by simp
  have hstart : byteLength before + byteLength front = byteLength (front ++ before) := by
    rw [byteLength_append, Nat.add_comm]
  have hstop : byteLength (before ++ middle) + byteLength front =
      byteLength (front ++ before ++ middle) := by
    rw [List.append_assoc, byteLength_append front, Nat.add_comm]
  rw [hstart, hstop, htext, hlong, ← List.append_assoc, hshort]

/-- What stands between two texts on lines of their own holds a line feed. -/
theorem contains_slice_line {a b : List Char} (ha : IsBoundary a stop) (hb : IsBoundary b start) :
    (slice stop (start + (byteLength a + 1)) (a ++ '\n' :: b)).contains '\n' = true := by
  obtain ⟨front, rest, rfl, rfl⟩ := ha
  obtain ⟨upTo, back, rfl, rfl⟩ := hb
  have hslice := slice_append front (rest ++ '\n' :: upTo) back
  have htext : front ++ rest ++ '\n' :: (upTo ++ back) =
      front ++ (rest ++ '\n' :: upTo) ++ back := by simp
  have hstop : byteLength upTo + (byteLength (front ++ rest) + 1) =
      byteLength (front ++ (rest ++ '\n' :: upTo)) := by
    have hline : Char.utf8Size '\n' = 1 := by decide
    simp only [byteLength_append, byteLength_cons, hline]
    omega
  rw [hstop, htext, hslice]
  simp

end Text

/-! ## Located tokens -/

namespace Lexeme

variable {source : List Char} {lexemes : List (Lexeme τ)} {previous : Option Nat}

/-- A token with its span. -/
def tokenSpan (l : Lexeme τ) : τ × Span := (l.token, l.span)

theorem locateFrom_append (source : List Char) (previous : Option Nat) (xs ys : List (τ × Span)) :
    locateFrom source previous (xs ++ ys) = locateFrom source previous xs ++
      locateFrom source ((xs.getLast?.map fun x => x.2.stop).or previous) ys := by
  induction xs generalizing previous with
  | nil => rfl
  | cons x xs ih =>
    obtain ⟨t, span⟩ := x
    have hlast : (((t, span) :: xs).getLast?.map fun x => x.2.stop).or previous =
        (xs.getLast?.map fun x => x.2.stop).or (some span.stop) := by
      rw [List.getLast?_cons]
      cases xs.getLast? <;> rfl
    rw [List.cons_append, hlast]
    simp only [locateFrom, ih, List.cons_append]

/-- Where the first token starts a line, it does not matter where the token in front of it ends. -/
theorem locateFrom_eq_none {tokens : List (τ × Span)}
    (h : ∀ x ∈ tokens.head?, ∀ stop ∈ previous,
      (Text.slice stop x.2.start source).contains '\n' = true) :
    locateFrom source previous tokens = locateFrom source none tokens := by
  cases tokens with
  | nil => rfl
  | cons x tokens =>
    cases previous with
    | none => rfl
    | some stop => simp only [locateFrom, h x rfl stop rfl]

/-- Tokens located in a text are located alike in a text with more text on both sides. -/
theorem locateFrom_middle (previous : Option Nat) (ho : Mark.Ordered (Mark.ofLexemes lexemes))
    (hb : ∀ l ∈ lexemes,
      Text.IsBoundary source l.span.start ∧ Text.IsBoundary source l.span.stop)
    (hp : ∀ stop ∈ previous, Text.IsBoundary source stop ∧
      ∀ l ∈ lexemes.head?, stop ≤ l.span.start) (front back : List Char) :
    locateFrom (front ++ source ++ back) (previous.map (· + Text.byteLength front))
        (lexemes.map fun l => (l.shift (Text.byteLength front)).tokenSpan) =
      (locateFrom source previous (lexemes.map tokenSpan)).map
        (·.shift (Text.byteLength front)) := by
  induction lexemes generalizing previous with
  | nil => rfl
  | cons l rest ih =>
    have hl := hb l List.mem_cons_self
    have hlt : l.span.start < l.span.stop := ho.lexeme_lt List.mem_cons_self
    have ih := ih (some l.span.stop) (ho.sublist (List.sublist_cons_self _ _))
      (fun l hl => hb l (List.mem_cons_of_mem _ hl)) (fun stop hstop => by
        obtain rfl := Option.mem_some.1 hstop
        refine ⟨hl.2, fun m hm => ?_⟩
        exact List.rel_of_pairwise_cons ho.pairwise
          (Mark.mem_ofLexemes (List.mem_of_mem_head? hm)))
    have htext := Text.slice_middle hl.1 hl.2 (Nat.le_of_lt hlt) front back
    -- Whether a lexeme starts a line depends on the text behind the one before it.
    have hgap : ∀ stop ∈ previous, Text.slice (stop + Text.byteLength front)
        (l.span.start + Text.byteLength front) (front ++ source ++ back) =
          Text.slice stop l.span.start source := fun stop hstop =>
      Text.slice_middle (hp stop hstop).1 hl.1 ((hp stop hstop).2 l rfl) front back
    rw [Option.map_some] at ih
    cases previous with
    | none =>
      simp only [List.map_cons, tokenSpan, locateFrom, shift, Span.shift, Option.map_none, htext]
      exact congrArg _ ih
    | some stop =>
      simp only [List.map_cons, tokenSpan, locateFrom, shift, Span.shift, Option.map_some, htext,
        hgap stop rfl]
      exact congrArg _ ih

end Lexeme

/-! ## Texts told apart -/

/-- The tokens that a lexer finds, with their spans. -/
def Lexed.tokens (lexed : Lexed τ) : List (τ × Span) := lexed.lexemes.map Lexeme.tokenSpan

/-- Two texts that have, on lines of their own, the tokens and comments that they have alone. -/
structure Lexicon.Separates (lexicon : Lexicon τ) (a b : String) : Prop where
  tokens : (lexicon.lex (a ++ "\n" ++ b)).tokens = (lexicon.lex a).tokens ++
    ((lexicon.lex b).shift (Text.byteLength a.toList + 1)).tokens
  comments : (lexicon.lex (a ++ "\n" ++ b)).comments = (lexicon.lex a).comments ++
    ((lexicon.lex b).shift (Text.byteLength a.toList + 1)).comments

namespace Lexicon

variable {lexicon : Lexicon τ} {a b : String}

theorem lexemes_boundary (lexicon : Lexicon τ) (source : String) {l : Lexeme τ}
    (hl : l ∈ (lexicon.lex source).lexemes) :
    Text.IsBoundary source.toList l.span.start ∧ Text.IsBoundary source.toList l.span.stop := by
  have hmem : l.span ∈ Mark.tokens (lexicon.marks source) :=
    lexicon.tokens_marks source ▸ List.mem_map_of_mem hl
  obtain ⟨m, hm, heq⟩ := List.mem_map.1 hmem
  exact heq ▸ lexicon.marks_boundary source (List.mem_filter.1 hm).1

theorem lexemes_eq_locateFrom (lexicon : Lexicon τ) (source : String) :
    (lexicon.lex source).lexemes =
      Lexeme.locateFrom source.toList none (lexicon.lex source).tokens :=
  lexicon.lexemes_eq_locate source

/-- Tokens located in a text are located alike in a whole that it is a part of. -/
theorem locateFrom_tokens (lexicon : Lexicon τ) (source : String) {whole front back : List Char}
    (hwhole : whole = front ++ source.toList ++ back) :
    Lexeme.locateFrom whole none ((lexicon.lex source).shift (Text.byteLength front)).tokens =
      ((lexicon.lex source).shift (Text.byteLength front)).lexemes := by
  have hmiddle := Lexeme.locateFrom_middle none (lexicon.ordered_lexemes source)
    (fun l hl => lexicon.lexemes_boundary source hl) (by simp) front back
  rw [← Lexed.tokens, ← lexemes_eq_locateFrom] at hmiddle
  rw [hwhole, Lexed.tokens, Lexed.shift, List.map_map]
  exact hmiddle

/-- Two texts told apart by the spans are told apart in all that tokens carry. -/
theorem Separates.lex_eq (h : lexicon.Separates a b) :
    lexicon.lex (a ++ "\n" ++ b) = (lexicon.lex a).append
      ((lexicon.lex b).shift (Text.byteLength a.toList + 1)) := by
  have htext : (a ++ "\n" ++ b).toList = a.toList ++ '\n' :: b.toList := by
    rw [String.toList_append, String.toList_append, List.append_assoc]
    rfl
  have htext' : (a ++ "\n" ++ b).toList = (a.toList ++ ['\n']) ++ b.toList ++ [] := by
    rw [String.toList_append, String.toList_append, List.append_nil]
    rfl
  have hline : Text.byteLength (a.toList ++ ['\n']) = Text.byteLength a.toList + 1 :=
    Text.byteLength_append _ _
  have hfront := lexicon.locateFrom_tokens a (show _ = [] ++ a.toList ++ _ from htext)
  have hback := lexicon.locateFrom_tokens b htext'
  rw [Text.byteLength_nil, Lexed.shift_zero] at hfront
  rw [hline] at hback
  -- Lexemes are told by their tokens and spans, so those of the whole are located in both parts.
  have hlexemes := lexicon.lexemes_eq_locateFrom (a ++ "\n" ++ b)
  rw [h.tokens, Lexeme.locateFrom_append, hfront, Lexeme.locateFrom_eq_none, hback] at hlexemes
  · exact Lexed.eq_append hlexemes h.comments
  · -- Between the last token of the one and the first of the other there is the line feed.
    intro x hx stop hstop
    rw [Option.or_none] at hstop
    obtain ⟨y, hy, rfl⟩ := Option.map_eq_some_iff.1 hstop
    obtain ⟨l, hl, rfl⟩ := List.mem_map.1 (List.mem_of_getLast? hy)
    obtain ⟨m', hm', rfl⟩ := List.mem_map.1 (List.mem_of_mem_head? hx)
    obtain ⟨m, hm, rfl⟩ := List.mem_map.1 hm'
    rw [htext]
    exact Text.contains_slice_line (lexicon.lexemes_boundary a hl).2
      (lexicon.lexemes_boundary b hm).1

theorem separates_of_isClosed (hl : lexicon.IsPlain)
    (hclosed : ∀ l ∈ (lexicon.lex a).lexemes.getLast?, l.token = lexicon.invalid →
      l.text.toList.head? ≠ some '"' ∧ l.text.toList.head? ≠ some '\\') :
    lexicon.Separates a b := by
  have hlex := lex_append hl b hclosed
  refine ⟨?_, by rw [hlex]; rfl⟩
  rw [hlex, Lexed.tokens, Lexed.append, List.map_append]
  rfl

/-- The first token of a source starts a line. -/
theorem startsLine_of_mem_head? (lexicon : Lexicon τ) (source : String) :
    ∀ l ∈ (lexicon.lex source).lexemes.head?, l.startsLine = true := by
  intro l hl
  rw [lexemes_eq_locateFrom] at hl
  cases htokens : (lexicon.lex source).tokens with
  | nil =>
    rw [htokens] at hl
    cases hl
  | cons x tokens =>
    rw [htokens] at hl
    obtain rfl := Option.some.inj hl
    rfl

end Lexicon

end GrammarTools
