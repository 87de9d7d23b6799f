import GrammarTools.Lexicon
import GrammarTools.RawNode.Extra
import GrammarTools.Rule

/-!
# Grammars

A source is a row of statements. A grammar has a lexicon, a rule for one
statement, and a way to go on behind a statement that is broken: it says which
nodes stand for the broken part and where the next statement starts.

A source is parsed statement by statement (`Grammar.statements`). This never
fails: every broken statement leaves its error nodes and adds one syntax error.
Comments play no part in the rules; they are put into the finished tree
afterwards.
-/

namespace GrammarTools

/-- What it takes to parse a language. -/
structure Grammar (τ : Type) where
  /-- The tokens. -/
  lexicon : Lexicon τ
  /-- One statement, with the token that ends it if there has to be one. -/
  statement : Rule τ (List RawNode)
  /-- The nodes that stand for a broken statement, and the place behind it. -/
  recover : TokenStream τ → List RawNode × TokenStream τ
  /-- The kind of the root. -/
  root : KindId
  /-- The kind of comments. -/
  comment : KindId

namespace Grammar

variable {τ : Type} (g : Grammar τ)

/-- The statements from a place on, at most as many as the list has elements, behind the
    nodes and errors found so far. Both have the last one first. -/
def statementsFrom : List (Lexeme τ) → List RawNode → List SyntaxError → TokenStream τ →
    List RawNode × List SyntaxError
  | [], nodes, errors, _ => (nodes.reverse, errors.reverse)
  | _ :: measure, nodes, errors, s =>
    if s.atEnd then (nodes.reverse, errors.reverse)
    else match g.statement s with
    | .ok (found, s) => statementsFrom measure (found.reverse ++ nodes) errors s
    | .error e =>
      let (found, s) := g.recover s
      statementsFrom measure (found.reverse ++ nodes) (e :: errors) s

/-- The nodes of all statements from a place on, and the errors in them. -/
def statements (s : TokenStream τ) : List RawNode × List SyntaxError :=
  g.statementsFrom s.upcoming [] [] s

/-- A root with comments put in. -/
def addComments (root : RawNode) (comments : List Span) : RawNode :=
  comments.foldl (fun root span => root.insertExtra (.leaf g.comment span)) root

/-- A parsed source. -/
def parse (source : String) : ParseOutput :=
  let lexed := g.lexicon.lex source
  let length := Text.byteLength source.toList
  let (nodes, errors) := g.statements (.ofLexemes lexed.lexemes length)
  .ofRoot (g.addComments (.branchAt g.root ⟨0, length⟩ nodes) lexed.comments) errors

end Grammar

end GrammarTools
