import GrammarTools.TokenStream

/-!
# Lexicons

The vocabulary of a language, and the segmentation of its source texts.

A text is cut from left to right into *segments* that leave nothing out:

* a comment: two stars and a space, up to the end of the line;
* a blank: a run of spaces, tabs, carriage returns, line feeds and form feeds,
  or a backslash with the line break right after it, which joins two lines;
* a name: a letter, then letters, digits and underscores. A name that is a
  keyword is that keyword. A language may let underscores stand in front, and
  has then a token for underscores alone;
* a number: digits, and after them a dot with more digits if digits follow it;
* a string: everything between two double quotes, line breaks too;
* punctuation, of which the longest that fits is taken.

Letters and digits are those of ASCII. Whatever fits nowhere is an invalid
token of one character, save that a quote never closed makes the whole rest of
the text invalid.

A language chooses its tokens and its punctuation; the rules are the same for
all (`Lexicon.segments`). `Lexicon.lex` leaves the blanks out, sets the
comments aside and puts every token in its place.
-/

namespace GrammarTools

/-- The tokens of a language. -/
structure Lexicon (τ : Type) where
  /-- Names with a token of their own. -/
  keywords : List (String × τ)
  /-- A name that begins with an upper-case letter. -/
  upperName : τ
  /-- A name that begins with a lower-case letter. -/
  lowerName : τ
  /-- A run of underscores, if names may begin with underscores. -/
  underscores : Option τ
  /-- A number. -/
  number : τ
  /-- A string. -/
  string : τ
  /-- Punctuation. Of two texts that begin alike, the longer one stands first. -/
  punctuation : List (String × τ)
  /-- A text that is no token. -/
  invalid : τ

/-- What a stretch of a text is. -/
inductive Role (τ : Type) where
  /-- Space between tokens. -/
  | blank
  /-- A remark to the reader. -/
  | comment
  /-- A token. -/
  | token (token : τ)
deriving DecidableEq, Repr, Inhabited

/-- A stretch of a text with a role. -/
structure Segment (τ : Type) where
  /-- What it is. -/
  role : Role τ
  /-- Its characters. -/
  text : List Char
deriving DecidableEq, Repr, Inhabited

/-- What a lexer finds in a text. -/
structure Lexed (τ : Type) where
  /-- The tokens, in order. -/
  lexemes : List (Lexeme τ)
  /-- The comments, in order. -/
  comments : List Span
deriving DecidableEq, Repr, Inhabited

/-- Whether a character is blank on its own. -/
def isGap (c : Char) : Bool :=
  c == ' ' || c == '\t' || c == '\r' || c == '\n' || c == '\x0c'

/-- Whether a character can stand inside a name. -/
def isNameChar (c : Char) : Bool := c.isAlphanum || c == '_'

namespace Lexicon

variable {τ : Type} (lexicon : Lexicon τ)

/-- The token that a name is, where `initial` is its first letter. -/
def nameToken (initial : Char) (name : List Char) : τ :=
  match lexicon.keywords.lookup (String.ofList name) with
  | some keyword => keyword
  | none => if initial.isUpper then lexicon.upperName else lexicon.lowerName

/-- The name or the run of underscores that begins with `c`, as for `roleAt`. -/
def nameAt (c : Char) (cs : List Char) : Option (τ × Nat) :=
  let name := cs.takeWhile isNameChar
  if c.isAlpha then some (lexicon.nameToken c (c :: name), name.length)
  else if c = '_' then
    lexicon.underscores.map fun underscores =>
      match cs.dropWhile (· == '_') with
      | initial :: _ =>
        if initial.isAlpha then (lexicon.nameToken initial (c :: name), name.length)
        else (underscores, (cs.takeWhile (· == '_')).length)
      | [] => (underscores, cs.length)
  else none

/-- The length of a number, less its first digit. -/
def numberLength (cs : List Char) : Nat :=
  let whole := (cs.takeWhile Char.isDigit).length
  match cs.dropWhile Char.isDigit with
  | '.' :: rest =>
    match (rest.takeWhile Char.isDigit).length with
    | 0 => whole
    | fraction + 1 => whole + 1 + (fraction + 1)
  | _ => whole

/-- The punctuation that begins with `c`, as for `roleAt`. -/
def punctuationAt (c : Char) (cs : List Char) : Option (τ × Nat) :=
  (lexicon.punctuation.find? fun entry => entry.1.toList.isPrefixOf (c :: cs)).map
    fun entry => (entry.2, entry.1.length - 1)

/-- What begins with the character `c`, where `cs` is the text after it, and how many
    characters of `cs` belong to it. -/
def roleAt (c : Char) (cs : List Char) : Role τ × Nat :=
  if c = '*' && ['*', ' '].isPrefixOf cs then (.comment, (cs.takeWhile (· != '\n')).length)
  else if c = '\\' && ['\n'].isPrefixOf cs then (.blank, 1)
  else if c = '\\' && ['\r', '\n'].isPrefixOf cs then (.blank, 2)
  else if isGap c then (.blank, (cs.takeWhile isGap).length)
  else match lexicon.nameAt c cs with
  | some (token, n) => (.token token, n)
  | none =>
    if c.isDigit then (.token lexicon.number, numberLength cs)
    else if c = '"' then
      let body := (cs.takeWhile (· != '"')).length
      if body < cs.length then (.token lexicon.string, body + 1)
      else (.token lexicon.invalid, cs.length)
    else match lexicon.punctuationAt c cs with
    | some (token, n) => (.token token, n)
    | none => (.token lexicon.invalid, 0)

/-- The segment that begins with `c`. -/
def segmentAt (c : Char) (cs : List Char) : Segment τ :=
  ⟨(lexicon.roleAt c cs).1, c :: cs.take (lexicon.roleAt c cs).2⟩

/-- The text after the segment that begins with `c`. -/
def afterSegment (c : Char) (cs : List Char) : List Char :=
  cs.drop (lexicon.roleAt c cs).2

theorem length_afterSegment_le (c : Char) (cs : List Char) :
    (lexicon.afterSegment c cs).length ≤ cs.length := by
  simp [afterSegment]

/-- A segment and what comes after it make up the text. -/
theorem segmentAt_append_afterSegment (c : Char) (cs : List Char) :
    (lexicon.segmentAt c cs).text ++ lexicon.afterSegment c cs = c :: cs := by
  simp [segmentAt, afterSegment]

/-- The segments of a text, with those before it in reverse. -/
def segmentsFrom (before : List (Segment τ)) : List Char → List (Segment τ)
  | [] => before.reverse
  | c :: cs => segmentsFrom (lexicon.segmentAt c cs :: before) (lexicon.afterSegment c cs)
termination_by cs => cs.length
decreasing_by
  have := lexicon.length_afterSegment_le c cs
  simp only [List.length_cons]
  omega

/-- The segments of a text, in order. -/
def segments (cs : List Char) : List (Segment τ) := lexicon.segmentsFrom [] cs

/-! ### Tokens in their places -/

/-- The state of a lexer between two segments. -/
structure Progress (τ : Type) where
  /-- The number of bytes behind. -/
  offset : Nat
  /-- Whether the next token would be the first on its line. -/
  startsLine : Bool
  /-- The tokens so far, the last one first. -/
  lexemes : List (Lexeme τ)
  /-- The comments so far, the last one first. -/
  comments : List Span

namespace Progress

/-- The state after one more segment. -/
def add (p : Progress τ) (s : Segment τ) : Progress τ :=
  let stop := p.offset + Text.byteLength s.text
  match s.role with
  | .blank => { p with offset := stop, startsLine := p.startsLine || s.text.contains '\n' }
  | .comment => { p with offset := stop, comments := ⟨p.offset, stop⟩ :: p.comments }
  | .token token =>
    { p with
      offset := stop
      startsLine := false
      lexemes := ⟨token, ⟨p.offset, stop⟩, String.ofList s.text, p.startsLine⟩ :: p.lexemes }

end Progress

/-- The tokens and comments of a text cut into segments. -/
def arrange (segments : List (Segment τ)) : Lexed τ :=
  let last := segments.foldl Progress.add ⟨0, true, [], []⟩
  ⟨last.lexemes.reverse, last.comments.reverse⟩

/-- The tokens and comments of a source text. -/
def lex (source : String) : Lexed τ := arrange (lexicon.segments source.toList)

end Lexicon

end GrammarTools
