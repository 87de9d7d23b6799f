import GrammarTools.Span

/-!
# Lexemes and token streams

A *lexeme* is a token together with what a parser may ask about its place in
the source: its span, its text, and whether it is the first on its line. The
first token of a text is the first on its line, wherever it stands.

A *token stream* is a place among the tokens of a source: the tokens behind
it and those still to come. Moving forward takes the next token; a parser that
has to go back returns to a stream it has kept, or to a position counted from
the start (`TokenStream.seek`).
-/

namespace GrammarTools

/-! ## Tokens in their places -/

/-- A token in its place. -/
structure Lexeme (τ : Type) where
  /-- The token. -/
  token : τ
  /-- Where it stands. -/
  span : Span
  /-- Its text. -/
  text : String
  /-- Whether a line feed or the start of the text precedes it, with no token between. -/
  startsLine : Bool
deriving DecidableEq, Repr, Inhabited

namespace Lexeme

variable {τ : Type}

/-- Tokens located in a source by spans given from elsewhere, where `previous` is
    the end of the token before them. -/
def locateFrom (source : List Char) (previous : Option Nat) : List (τ × Span) → List (Lexeme τ)
  | [] => []
  | (token, span) :: rest =>
    { token, span
      text := String.ofList (Text.slice span.start span.stop source)
      startsLine := match previous with
        | none => true
        | some stop => (Text.slice stop span.start source).contains '\n' }
      :: locateFrom source (some span.stop) rest

/-- Tokens located in a source by given spans. -/
def locate (source : String) (tokens : List (τ × Span)) : List (Lexeme τ) :=
  locateFrom source.toList none tokens

end Lexeme

/-! ## Places among tokens -/

/-- A place among tokens. -/
structure TokenStream (τ : Type) where
  /-- The tokens behind, the nearest first. -/
  past : List (Lexeme τ)
  /-- The tokens to come, the nearest first. -/
  upcoming : List (Lexeme τ)
  /-- The length of the source. -/
  endOffset : Nat
deriving DecidableEq, Repr, Inhabited

namespace TokenStream

variable {τ : Type}

/-- The place in front of all tokens. -/
def ofLexemes (lexemes : List (Lexeme τ)) (endOffset : Nat) : TokenStream τ :=
  ⟨[], lexemes, endOffset⟩

/-- The number of tokens behind. -/
def position (s : TokenStream τ) : Nat := s.past.length

/-- The token `n` tokens after the next one. -/
def peekNth (s : TokenStream τ) (n : Nat) : Option τ := s.upcoming[n]?.map Lexeme.token

/-- The next token. -/
def peek (s : TokenStream τ) : Option τ := s.peekNth 0

/-- Whether the next token is `token`. -/
def isAt [DecidableEq τ] (s : TokenStream τ) (token : τ) : Bool := s.peek == some token

/-- Whether no token is left. -/
def atEnd (s : TokenStream τ) : Bool := s.upcoming.isEmpty

/-- Whether the next token is the first on its line, or no token is left. -/
def atLineStart (s : TokenStream τ) : Bool :=
  match s.upcoming with
  | [] => true
  | next :: _ => next.startsLine

/-- The place one token on. -/
def advance (s : TokenStream τ) : TokenStream τ :=
  match s.upcoming with
  | [] => s
  | next :: rest => { s with past := next :: s.past, upcoming := rest }

/-- The next token, and the place after it. -/
def next? (s : TokenStream τ) : Option (Lexeme τ × TokenStream τ) :=
  s.upcoming.head?.map fun next => (next, s.advance)

/-- The span of the next token, or nothing at the end of the source. -/
def span (s : TokenStream τ) : Span :=
  match s.upcoming with
  | [] => .empty s.endOffset
  | next :: _ => next.span

/-- The text of the next token. -/
def text? (s : TokenStream τ) : Option String := s.upcoming.head?.map Lexeme.text

/-- The span of the token behind. -/
def previousSpan? (s : TokenStream τ) : Option Span := s.past.head?.map Lexeme.span

/-- The place with `position` tokens behind, or the last place if there are fewer. -/
def seek (s : TokenStream τ) (position : Nat) : TokenStream τ :=
  let all := s.past.reverse ++ s.upcoming
  { s with past := (all.take position).reverse, upcoming := all.drop position }

end TokenStream

end GrammarTools
