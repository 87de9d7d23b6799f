import GrammarTools.RawNode
import GrammarTools.Text.Printable

/-!
# Syntax errors and parse outputs

A *syntax error* says where a text goes wrong, which things could have stood
there, and what stands there instead. Nothing stands at the end of the input.

A *parse output* is what a grammar makes of a source text: a node over the whole
text, and the syntax errors met on the way, in the order in which they stand in
the text.
-/

namespace GrammarTools

/-! ## Syntax errors -/

/-- How deeply the rules of a grammar may nest. -/
def maxNesting : Nat := 128

/-- A place where a text does not follow its grammar. -/
structure SyntaxError where
  /-- Where it is. -/
  span : Span
  /-- Descriptions of what could have stood there. -/
  expected : List String
  /-- The text that stands there, if the input does not end there. -/
  found : Option String
deriving DecidableEq, Repr, Inhabited

namespace SyntaxError

/-- The description of what a text nested too deeply should have had. -/
def nestingLimit : String := s!"at most {maxNesting} levels of nesting"

/-- The error for rules nested beyond `maxNesting`. -/
def nestedTooDeeply (span : Span) (found : Option String) : SyntaxError :=
  ⟨span, [nestingLimit], found⟩

/-- The expected things, with commas between. -/
def expectedList (e : SyntaxError) : String := String.intercalate ", " e.expected

/-- The text found, in quotes. -/
def foundDescription (e : SyntaxError) : String :=
  match e.found with
  | none => "end of input"
  | some text => Text.quoted text

/-- The error in words. -/
def message (e : SyntaxError) : String :=
  if e.expected.isEmpty then "unexpected " ++ e.foundDescription
  else "expected " ++ e.expectedList ++ ", found " ++ e.foundDescription

end SyntaxError

/-! ## Parse outputs -/

/-- A root node with its syntax errors. -/
structure ParseOutput where
  /-- The node over the whole text. -/
  root : RawNode
  /-- The syntax errors, by where they start. -/
  errors : List SyntaxError
deriving Inhabited

namespace ParseOutput

/-- A root with errors that are yet to be put in order. Errors that start at the same
    place keep theirs. -/
def ofRoot (root : RawNode) (errors : List SyntaxError) : ParseOutput :=
  ⟨root, errors.mergeSort fun a b => a.span.start ≤ b.span.start⟩

end ParseOutput

end GrammarTools
