import GrammarTools.Lexicon

/-!
# Tokens of PeoPl
-/

namespace GrammarTools.Peopl

/-- The tokens. -/
inductive Token where
  | namespaceKeyword
  | typeKeyword
  | funcKeyword
  | nothingKeyword
  | neverKeyword
  | trueKeyword
  | falseKeyword
  | notKeyword
  | andKeyword
  | orKeyword
  | underscore
  | argumentName
  | typeName
  | number
  | string
  | dotDot
  | dot
  | comma
  | colon
  | colonColon
  | arrow
  | fatArrow
  | openBracket
  | closeBracket
  | openBrace
  | closeBrace
  | openParen
  | closeParen
  | star
  | slash
  | percent
  | plus
  | minus
  | equals
  | notEquals
  | greater
  | greaterEquals
  | less
  | lessEquals
  | question
  | semicolon
  | pipe
  | caret
  | invalid
deriving DecidableEq, Repr, Inhabited

/-- The vocabulary. Underscores may stand in front of a name, and alone. -/
def lexicon : Lexicon Token where
  keywords := [
    ("namespace", .namespaceKeyword), ("type", .typeKeyword), ("func", .funcKeyword),
    ("Nothing", .nothingKeyword), ("Never", .neverKeyword),
    ("true", .trueKeyword), ("false", .falseKeyword),
    ("not", .notKeyword), ("and", .andKeyword), ("or", .orKeyword)]
  upperName := .typeName
  lowerName := .argumentName
  underscores := some .underscore
  number := .number
  string := .string
  punctuation := [
    ("..", .dotDot), ("::", .colonColon), ("->", .arrow), ("=>", .fatArrow),
    ("!=", .notEquals), (">=", .greaterEquals), ("<=", .lessEquals),
    (".", .dot), (",", .comma), (":", .colon),
    ("[", .openBracket), ("]", .closeBracket), ("\x7b", .openBrace), ("\x7d", .closeBrace),
    ("(", .openParen), (")", .closeParen),
    ("*", .star), ("/", .slash), ("%", .percent), ("+", .plus), ("-", .minus),
    ("=", .equals), (">", .greater), ("<", .less),
    ("?", .question), (";", .semicolon), ("|", .pipe), ("^", .caret)]
  invalid := .invalid

end GrammarTools.Peopl
