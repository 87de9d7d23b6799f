import GrammarTools.Lexicon

/-!
# Tokens of Simpl
-/

namespace GrammarTools.Simpl

/-- The tokens. -/
inductive Token where
  | typeKeyword
  | contractKeyword
  | funcKeyword
  | trueKeyword
  | falseKeyword
  | notKeyword
  | andKeyword
  | orKeyword
  | typeName
  | fieldName
  | number
  | string
  | dot
  | colon
  | comma
  | semicolon
  | pipe
  | caret
  | openParen
  | closeParen
  | openBrace
  | closeBrace
  | openBracket
  | closeBracket
  | star
  | slash
  | percent
  | plus
  | minus
  | equals
  | notEquals
  | greater
  | greaterEquals
  | less
  | lessEquals
  | invalid
deriving DecidableEq, Repr, Inhabited

/-- The vocabulary. Names begin with a letter. -/
def lexicon : Lexicon Token where
  keywords := [
    ("type", .typeKeyword), ("contract", .contractKeyword), ("func", .funcKeyword),
    ("true", .trueKeyword), ("false", .falseKeyword),
    ("not", .notKeyword), ("and", .andKeyword), ("or", .orKeyword)]
  upperName := .typeName
  lowerName := .fieldName
  underscores := none
  number := .number
  string := .string
  punctuation := [
    ("!=", .notEquals), (">=", .greaterEquals), ("<=", .lessEquals),
    (".", .dot), (":", .colon), (",", .comma), (";", .semicolon), ("|", .pipe), ("^", .caret),
    ("(", .openParen), (")", .closeParen), ("\x7b", .openBrace), ("\x7d", .closeBrace),
    ("[", .openBracket), ("]", .closeBracket),
    ("*", .star), ("/", .slash), ("%", .percent), ("+", .plus), ("-", .minus),
    ("=", .equals), (">", .greater), ("<", .less)]
  invalid := .invalid

end GrammarTools.Simpl
