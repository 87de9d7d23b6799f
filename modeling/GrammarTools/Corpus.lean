import GrammarTools.Tree
import GrammarTools.Sexp

/-!
# Corpus files

A *corpus file* is a list of named tests, each with an input and the
S-expression of the tree that it should have:

```text
==================
Simple call
==================

foo(a: 1)..

---

(source_file (call_expression ...))
```

A *rule* is a line of three or more equal signs or dashes, blanks around it
aside. The name stands between two rules of equal signs, and may take several
lines. The last rule of dashes before the next such rule, or before the end of
the file, separates the input from the expected S-expression. Blank lines around
the input are not part of it.
-/

namespace GrammarTools

/-- A test. -/
structure CorpusEntry where
  /-- The name. -/
  name : String
  /-- The source to be parsed. -/
  input : String
  /-- The S-expression expected, in normal form. -/
  expected : String
deriving DecidableEq, Repr, Inhabited

/-- What is wrong with a corpus file. Lines count from one. -/
inductive CorpusError where
  /-- A line that should begin a test does not. -/
  | missingHeader (line : Nat)
  /-- No name follows in front of another rule. -/
  | missingName (line : Nat)
  /-- A test has no rule of dashes. -/
  | missingDivider (name : String)
deriving DecidableEq, Repr

/-- The error in words. -/
def CorpusError.message : CorpusError → String
  | missingHeader line => s!"line {line}: expected a `===` header"
  | missingName line => s!"line {line}: expected a test name between `===` headers"
  | missingDivider name => s!"test {Text.quoted name} has no `---` divider"

namespace Corpus

/-- Whether a line is a rule of the given character. -/
def isRule (fill : Char) (line : List Char) : Bool :=
  let rule := Text.trim line
  3 ≤ rule.length && rule.all (· == fill)

/-- Whether a line is blank. -/
def isBlankLine (line : List Char) : Bool := line.all Text.isBlank

/-- Lines put together with something between. -/
def join (between : List Char) (lines : List (List Char)) : List Char :=
  (lines.intersperse between).flatten

/-- Lines without the blank ones around them. -/
def trimBlankLines (lines : List (List Char)) : List (List Char) :=
  ((lines.dropWhile isBlankLine).reverse.dropWhile isBlankLine).reverse

/-- The test of the given name with the given body. -/
def entryOf (name : List Char) (body : List (List Char)) : Except CorpusError CorpusEntry :=
  let isDivider := isRule '-'
  match body.reverse.dropWhile (!isDivider ·) with
  | [] => .error (.missingDivider (String.ofList name))
  | _ :: input =>
    let expected := (body.reverse.takeWhile (!isDivider ·)).reverse
    .ok ⟨String.ofList name, String.ofList (join ['\n'] (trimBlankLines input.reverse)),
      Sexp.normalize (String.ofList (join ['\n'] expected))⟩

/-- The tests in some lines, behind those found so far, of which the last comes first.
    The first of the lines has the given number. -/
def entriesFrom (number : Nat) (found : List CorpusEntry) :
    List (List Char) → Except CorpusError (List CorpusEntry)
  | [] => .ok found.reverse
  | line :: rest =>
    if isBlankLine line then entriesFrom (number + 1) found rest
    else if !isRule '=' line then .error (.missingHeader number)
    else
      let name := rest.takeWhile (!isRule '=' ·)
      let body := (rest.drop (name.length + 1)).takeWhile (!isRule '=' ·)
      let after := rest.drop (name.length + 1 + body.length)
      let title := Text.trim (join [' '] name)
      if name.length = rest.length || title.isEmpty then .error (.missingName (number + 1))
      else match entryOf title body with
      | .error e => .error e
      | .ok entry =>
        entriesFrom (number + 2 + name.length + body.length) (entry :: found) after
termination_by lines => lines.length
decreasing_by
  all_goals simp only [List.length_cons, List.length_drop]; omega

/-- The tests of a corpus file. -/
def entries (contents : String) : Except CorpusError (List CorpusEntry) :=
  entriesFrom 1 [] (Text.lines contents.toList)

end Corpus

/-- What has become of a test. -/
structure CorpusOutcome where
  /-- The name of the test. -/
  name : String
  /-- The S-expression expected. -/
  expected : String
  /-- The S-expression of the tree, or nothing if there is no tree. -/
  actual : String
deriving DecidableEq, Repr, Inhabited

/-- Whether the tree was the expected one. -/
def CorpusOutcome.passed (o : CorpusOutcome) : Bool := o.expected == o.actual

/-- What becomes of a test. -/
def Parser.runEntry (p : Parser) (entry : CorpusEntry) : CorpusOutcome :=
  ⟨entry.name, entry.expected,
    ((p.parse entry.input).map fun tree => Sexp.normalize tree.root.toSexp).getD ""⟩

/-- What becomes of some tests. -/
def Parser.runCorpus (p : Parser) (entries : List CorpusEntry) : List CorpusOutcome :=
  entries.map p.runEntry

end GrammarTools
