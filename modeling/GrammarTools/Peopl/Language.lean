import GrammarTools.Peopl.Rules

/-!
# The language PeoPl
-/

namespace GrammarTools.Peopl

/-- How nodes are highlighted. -/
def highlights : List HighlightRule := [
  .ofKind "comment" "comment",
  ((HighlightRule.ofKind "argument_name" "function").under "function_definition").inField "name",
  ((HighlightRule.ofKind "argument_name" "function").under "call_expression").inField "command",
  (HighlightRule.ofKind "argument_name" "variable.parameter").inField "name",
  (HighlightRule.ofKind "argument_name" "property").under "access_expression",
  .ofKind "argument_name" "variable",
  .ofKind "type_name" "type",
  .ofKind "nothing" "constant.builtin",
  .ofKind "never" "constant.builtin",
  .ofKind "string_literal" "string",
  .ofKind "int_literal" "number",
  .ofKind "float_literal" "number",
  .ofKind "bool_literal" "boolean",
  .ofKind "namespace" "keyword",
  .ofKind "type" "keyword",
  .ofKind "func" "keyword",
  .ofKind "not_operator" "keyword",
  .ofKind "and_operator" "keyword",
  .ofKind "or_operator" "keyword",
  .ofKind "multiplicative_operator" "operator",
  .ofKind "additive_operator" "operator",
  .ofKind "comparative_operator" "operator",
  .ofKind "pipe_operator" "operator",
  .ofKind "=>" "operator",
  .ofKind "->" "operator",
  .ofKind "=" "operator",
  .ofKind "^" "operator",
  .ofKind "|" "punctuation.delimiter",
  .ofKind ".." "punctuation.delimiter",
  .ofKind "." "punctuation.delimiter",
  .ofKind "," "punctuation.delimiter",
  .ofKind ":" "punctuation.delimiter",
  .ofKind "::" "punctuation.delimiter",
  .ofKind "(" "punctuation.bracket",
  .ofKind ")" "punctuation.bracket",
  .ofKind "[" "punctuation.bracket",
  .ofKind "]" "punctuation.bracket",
  .ofKind "\x7b" "punctuation.bracket",
  .ofKind "\x7d" "punctuation.bracket",
  (HighlightRule.ofKind "<" "punctuation.bracket").under "type_arguments",
  (HighlightRule.ofKind ">" "punctuation.bracket").under "type_arguments"]

/-- The definition of the language. -/
def definition : LanguageDef where
  serial := 1
  name := "peopl"
  version := languageVersion
  nodeKinds := Kind.table
  fieldNames := Field.table
  fileTypes := ["ppl", "peopl"]
  scope := "source.peopl"
  highlights := highlights
  parse := grammar.parse

/-- The language. -/
def language : Language := ⟨definition, by decide, by decide⟩

end GrammarTools.Peopl
