import GrammarTools.Text.Blank
import GrammarTools.Tree

/-!
# S-expressions

A named node is written as its kind and its named children, all in
parentheses; a child that fills a field has the name of the field and a colon
in front. Unnamed nodes are left out, unless one is asked for by itself: then
its kind stands in quotes.

Trees can be deeper than a recursion should go, so what is still to be written
is kept in a list (`Node.writeSexp`).

As text, the *atoms* of an S-expression are its parentheses and the words between
them. Two texts with the same atoms are the same S-expression.

* `normalize` writes the atoms with one space between, but none after an opening
  and none before a closing parenthesis.
* `pretty` begins a new line, indented by depth, with every opening parenthesis
  and every field name, a word that ends with a colon; what a field name stands
  for stays on its line.
-/

/-! ## S-expressions of trees -/

namespace GrammarTools.Node

/-- Something that is still to be written. -/
inductive SexpPart where
  /-- A node with what stands in front of it. -/
  | node (front : String) (id : NodeId)
  /-- The end of a node. -/
  | close

/-- What stands in front of a child. -/
def sexpFront (child : Node) : String :=
  match child.fieldName? with
  | none => " "
  | some field => " " ++ field ++ ": "

/-- The parts written one after the other, behind `out`. The first argument bounds the
    number of parts. -/
def writeSexp (tree : Tree) : Nat → String → List SexpPart → String
  | 0, out, _ => out
  | _ + 1, out, [] => out
  | bound + 1, out, .close :: parts => writeSexp tree bound (out ++ ")") parts
  | bound + 1, out, .node front id :: parts =>
    let n : Node := ⟨tree, id⟩
    writeSexp tree bound (out ++ front ++ "(" ++ n.kind)
      (n.namedChildren.map (fun child => .node child.sexpFront child.id) ++ .close :: parts)

/-- The S-expression of a node. -/
def toSexp (n : Node) : String :=
  if n.isNamed then writeSexp n.tree (2 * n.tree.nodes.size + 1) "" [.node "" n.id]
  else s!"(\"{n.kind}\")"

end GrammarTools.Node

/-! ## S-expressions as text -/

namespace GrammarTools.Sexp

/-- A character with room around it if it is a parenthesis. -/
def spaced (c : Char) : List Char :=
  if c = '(' then [' ', '(', ' ']
  else if c = ')' then [' ', ')', ' ']
  else [c]

/-- The parentheses and words of a text. -/
def atoms (text : List Char) : List (List Char) := Text.words (text.flatMap spaced)

/-! ## Normal form -/

/-- Whether an atom stands right behind what precedes it: at the start, behind an opening
    parenthesis, or as a closing one. -/
def isGlued (previous : Option (List Char)) (atom : List Char) : Bool :=
  previous == none || previous == some ['('] || atom == [')']

/-- The atoms written behind `out`, which ends with `previous`. -/
def normalizeFrom (out : String) (previous : Option (List Char)) : List (List Char) → String
  | [] => out
  | atom :: rest =>
    let out := if isGlued previous atom then out else out.push ' '
    normalizeFrom (out ++ String.ofList atom) (some atom) rest

/-- The atoms of an S-expression with single spaces between. -/
def normalize (text : String) : String := normalizeFrom "" none (atoms text.toList)

/-! ## One node per line -/

/-- Whether an atom names a field. -/
def isFieldName (atom : List Char) : Bool := atom.getLast? == some ':'

/-- A line break and the indentation for a depth. -/
def lineBreak (depth : Nat) : String := String.ofList ('\n' :: List.replicate (2 * depth) ' ')

/-- What stands in front of an atom at a depth, behind `previous`. -/
def front (depth : Nat) (previous : Option (List Char)) (atom : List Char) : String :=
  if atom = ['('] then
    match previous with
    | none => ""
    | some p => if isFieldName p then " " else lineBreak depth
  else if atom = [')'] then ""
  else if isFieldName atom then lineBreak depth
  else if previous = some ['('] then "" else " "

/-- The depth after an atom. -/
def depthAfter (depth : Nat) (atom : List Char) : Nat :=
  if atom = ['('] then depth + 1 else if atom = [')'] then depth - 1 else depth

/-- The atoms laid out behind `out`, which ends with `previous` at a depth. -/
def prettyFrom (out : String) (depth : Nat) (previous : Option (List Char)) :
    List (List Char) → String
  | [] => out
  | atom :: rest =>
    prettyFrom (out ++ front depth previous atom ++ String.ofList atom) (depthAfter depth atom)
      (some atom) rest

/-- An S-expression with one node per line. -/
def pretty (text : String) : String := prettyFrom "" 0 none (atoms text.toList)

end GrammarTools.Sexp
