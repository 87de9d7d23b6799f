import GrammarTools.Simpl.Rules

/-!
# The language Simpl
-/

namespace GrammarTools.Simpl

/-- How nodes are highlighted. -/
def highlights : List HighlightRule := [
  .ofKind "comment" "comment",
  ((HighlightRule.ofKind "field_identifier" "function").under
    "function_declaration").inField "name",
  ((HighlightRule.ofKind "field_identifier" "function").under "call_expression").inField "callee",
  (HighlightRule.ofKind "field_identifier" "variable.parameter").inField "name",
  .ofKind "field_identifier" "variable",
  .ofKind "type_identifier" "type",
  .ofKind "string_literal" "string",
  .ofKind "int_literal" "number",
  .ofKind "float_literal" "number",
  .ofKind "true" "boolean",
  .ofKind "false" "boolean",
  .ofKind "type" "keyword",
  .ofKind "contract" "keyword",
  .ofKind "func" "keyword",
  .ofKind "not" "keyword",
  .ofKind "and_operator" "keyword",
  .ofKind "or_operator" "keyword",
  .ofKind "multiplicative_operator" "operator",
  .ofKind "additive_operator" "operator",
  .ofKind "comparative_operator" "operator",
  .ofKind ";" "operator",
  .ofKind "^" "operator",
  .ofKind "|" "punctuation.delimiter",
  .ofKind "." "punctuation.delimiter",
  .ofKind "," "punctuation.delimiter",
  .ofKind ":" "punctuation.delimiter",
  .ofKind "(" "punctuation.bracket",
  .ofKind ")" "punctuation.bracket",
  .ofKind "[" "punctuation.bracket",
  .ofKind "]" "punctuation.bracket",
  .ofKind "\x7b" "punctuation.bracket",
  .ofKind "\x7d" "punctuation.bracket"]

/-- The definition of the language. -/
def definition : LanguageDef where
  serial := 0
  name := "simpl"
  version := languageVersion
  nodeKinds := Kind.table
  fieldNames := Field.table
  fileTypes := ["simpl"]
  scope := "source.simpl"
  highlights := highlights
  parse := grammar.parse

/-- The language. -/
def language : Language := ⟨definition, by decide, by decide⟩

end GrammarTools.Simpl
