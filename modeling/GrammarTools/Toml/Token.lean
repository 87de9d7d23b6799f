import GrammarTools.Reader

/-!
# The tokens of TOML

A TOML file is made up of signs, words, quoted texts, blanks and line ends.
*Words* are runs of letters, digits, underscores and hyphens; bare keys,
numbers and dates all begin as words. Comments are no tokens: they stand in
front of a line end or of the end of the file, which is where they may stand.

A quoted text stands between double quotes, where a backslash begins an escape,
or between single ones, where it does not. With three quotes on either side it
may take several lines. It holds no control characters save for tabs.
-/

namespace GrammarTools.Toml

/-- A token. -/
inductive Token where
  /-- A run of spaces and tabs. -/
  | blank (cs : List Char)
  /-- The end of a line. -/
  | lineEnd
  /-- One of the signs `=`, `.`, `,`, `:`, `+` and the brackets and braces. -/
  | sign (c : Char)
  /-- A run of letters, digits, underscores and hyphens. -/
  | word (cs : List Char)
  /-- A quoted text. -/
  | quoted (value : List Char) (isMultiline : Bool)
deriving DecidableEq, Repr, Inhabited

/-- Whether a character is a space or a tab. -/
def isBlank (c : Char) : Bool := c == ' ' || c == '\t'

/-- Whether a character can stand in a word. -/
def isWordChar (c : Char) : Bool := c.isAlphanum || c == '_' || c == '-'

/-- Whether a character is a sign of its own. -/
def isSign (c : Char) : Bool := "=.,:+[]\x7b\x7d".toList.contains c

/-- Whether a character can stand in a comment. -/
def isCommentChar (c : Char) : Bool := c == '\t' || ' ' ≤ c

/-- Whether a character can stand in a quoted text as itself. -/
def isTextChar (c : Char) : Bool := c == '\t' || ' ' ≤ c && c != '\x7f'

/-! ## Quoted texts -/

/-- The value of a hexadecimal digit. -/
def hexValue? (c : Char) : Option Nat :=
  if c.isDigit then some (c.toNat - '0'.toNat)
  else if 'a' ≤ c ∧ c ≤ 'f' then some (c.toNat - 'a'.toNat + 10)
  else if 'A' ≤ c ∧ c ≤ 'F' then some (c.toNat - 'A'.toNat + 10)
  else none

/-- The character with a code of the given number of hexadecimal digits. -/
def codePoint (digits : Nat) : Reader Char Char := do
  let code ← Reader.takeUpTo digits fun c => (hexValue? c).isSome
  guard (code.length = digits)
  let n := code.foldl (fun n c => 16 * n + (hexValue? c).getD 0) 0
  guard n.isValidChar
  return Char.ofNat n

/-- What is left out behind a backslash at the end of a line: the rest of the line, which is
    blank, and all blanks and line ends that follow. -/
def continuation : Reader Char Unit := do
  let _ ← Reader.takeWhile isBlank
  Reader.expect '\n'
  let _ ← Reader.takeWhile fun c => isBlank c || c == '\n'

/-- What an escape stands for, behind its backslash. -/
def escape (isMultiline : Bool) : Reader Char (List Char) := do
  match ← Reader.peek with
  | none => failure
  | some c =>
    if isMultiline && (isBlank c || c == '\n') then
      continuation
      return []
    let _ ← Reader.next
    match c with
    | '"' => return ['"']
    | '\\' => return ['\\']
    | 'b' => return ['\x08']
    | 'f' => return ['\x0c']
    | 'n' => return ['\n']
    | 'r' => return ['\r']
    | 't' => return ['\t']
    | 'u' => return [← codePoint 4]
    | 'U' => return [← codePoint 8]
    | _ => failure

/-- The rest of a quoted text of several lines, behind `quotes` of its quotes, of which the
    last three end it if there are so many. -/
def closeMultiline (quote : Char) (value : List Char) (quotes : Nat) :
    List Char ⊕ List Char :=
  if quotes < 3 then .inl (List.replicate quotes quote ++ value)
  else .inr (List.replicate (quotes - 3) quote ++ value).reverse

/-- A piece of a quoted text behind `value`, which is in reverse. -/
def piece (quote : Char) (isMultiline : Bool) (value : List Char) :
    Reader Char (List Char ⊕ List Char) := do
  let c ← Reader.next
  if c = quote then
    if isMultiline then
      let more ← Reader.takeUpTo 4 (· == quote)
      return closeMultiline quote value (1 + more.length)
    else return .inr value.reverse
  else if c = '\n' then
    guard isMultiline
    return .inl ('\n' :: value)
  else if c = '\\' ∧ quote = '"' then
    return .inl ((← escape isMultiline).reverse ++ value)
  else
    guard (isTextChar c)
    return .inl (c :: value)

/-- A quoted text behind its first quote. A line end right behind three quotes is no part
    of it. -/
def quotedText (quote : Char) : Reader Char Token := do
  let more ← Reader.takeUpTo 2 (· == quote)
  match more with
  | [_] => return .quoted [] false
  | [] => return .quoted (← Reader.iterate (piece quote false) []) false
  | _ =>
    let _ ← Reader.eat '\n'
    return .quoted (← Reader.iterate (piece quote true) []) true

/-! ## Tokens -/

/-- The next token, or nothing at the end. -/
def nextToken : Reader Char (Option Token) := do
  if ← Reader.eat '#' then let _ ← Reader.takeWhile isCommentChar
  match ← Reader.peek with
  | none => return none
  | some c =>
    if isBlank c then return some (.blank (← Reader.takeWhile isBlank))
    if isWordChar c then return some (.word (← Reader.takeWhile isWordChar))
    let _ ← Reader.next
    if c = '\n' then return some .lineEnd
    if isSign c then return some (.sign c)
    guard (c = '"' ∨ c = '\'')
    return some (← quotedText c)

/-- A text in which all lines end with a line feed alone. -/
def unifyLineEnds : List Char → List Char
  | '\r' :: '\n' :: rest => '\n' :: unifyLineEnds rest
  | c :: rest => c :: unifyLineEnds rest
  | [] => []

/-- A text without the mark that may stand in front of it. -/
def dropByteOrderMark : List Char → List Char
  | c :: rest => if c.toNat = 0xfeff then rest else c :: rest
  | [] => []

/-- The tokens of a file. -/
def tokens? (text : String) : Option (List Token) :=
  (Reader.unfold nextToken).readAll (unifyLineEnds (dropByteOrderMark text.toList))

end GrammarTools.Toml
