/-!
# Blank characters, words and lines

The characters with the Unicode property White_Space, and what is defined by
them: a text without the blanks around it (`trim`), and its words, the runs of
other characters (`words`).

A text's *lines* end with a line feed, which does not belong to the line;
neither does one carriage return right before it. Text after the last line feed
is a line of its own, unless it is empty.
-/

namespace GrammarTools.Text

/-- Whether a character has the property White_Space. -/
def isBlank (c : Char) : Bool :=
  let n := c.toNat
  (9 ≤ n && n ≤ 13) || n == 0x20 || n == 0x85 || n == 0xA0 || n == 0x1680 ||
  (0x2000 ≤ n && n ≤ 0x200A) || n == 0x2028 || n == 0x2029 || n == 0x202F || n == 0x205F ||
  n == 0x3000

/-- A text without the blanks at its start. -/
def trimStart (cs : List Char) : List Char := cs.dropWhile isBlank

/-- A text without the blanks at its end. -/
def trimEnd (cs : List Char) : List Char := (cs.reverse.dropWhile isBlank).reverse

/-- A text without the blanks around it. -/
def trim (cs : List Char) : List Char := trimEnd (trimStart cs)

/-- The words of a text, where `word` holds the characters of the current one
    and `found` the words before it, both in reverse. -/
def wordsFrom (word : List Char) (found : List (List Char)) : List Char → List (List Char)
  | [] => (if word.isEmpty then found else word.reverse :: found).reverse
  | c :: cs =>
    if isBlank c then wordsFrom [] (if word.isEmpty then found else word.reverse :: found) cs
    else wordsFrom (c :: word) found cs

/-- The runs of characters that are not blank. -/
def words (cs : List Char) : List (List Char) := wordsFrom [] [] cs

/-- A line, given in reverse, without a carriage return at its end. -/
def lineOfReverse : List Char → List Char
  | '\r' :: line => line.reverse
  | line => line.reverse

/-- The lines of a text, where `line` holds the characters of the current one
    and `found` the lines before it, both in reverse. -/
def linesFrom (line : List Char) (found : List (List Char)) : List Char → List (List Char)
  | [] => (if line.isEmpty then found else line.reverse :: found).reverse
  | c :: cs =>
    if c = '\n' then linesFrom [] (lineOfReverse line :: found) cs
    else linesFrom (c :: line) found cs

/-- The lines of a text. -/
def lines (cs : List Char) : List (List Char) := linesFrom [] [] cs

end GrammarTools.Text
