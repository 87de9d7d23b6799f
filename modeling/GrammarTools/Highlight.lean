import GrammarTools.Text.GapBuffer
import GrammarTools.Tree

/-!
# Highlighting

Which parts of a source are shown how. The nodes of a tree are looked at in
pre-order. The first rule of the language that fits a node captures it as
something, say as a keyword; then nothing below that node is looked at. Nodes
that no rule fits, or whose capture means nothing, are passed through. Nodes
that cover nothing are left out.

Captures have dotted names. A name that means nothing by itself is taken for
the name without its last part: `variable.builtin` is a `variable`.

A highlighted text has a tag put in front of and behind every token, either in
HTML, where the text in between is escaped (`Highlight.html`), or by a table of
tags that leaves the text as it is (`Highlight.tagged`).
-/

namespace GrammarTools

/-- What a part of a source can be shown as. -/
inductive TokenType where
  | comment
  | keyword
  | operator
  | type
  | constantBuiltin
  | function
  | variableParameter
  | variable
  | property
  | string
  | number
  | boolean
  | punctuationBracket
  | punctuationDelimiter
deriving DecidableEq, Repr, Inhabited

namespace TokenType

/-- All of them, in a fixed order. -/
def all : List TokenType := [
  .comment, .keyword, .operator, .type, .constantBuiltin, .function, .variableParameter, .variable,
  .property, .string, .number, .boolean, .punctuationBracket, .punctuationDelimiter]

/-- The name of the capture. -/
def captureName : TokenType → String
  | comment => "comment"
  | keyword => "keyword"
  | operator => "operator"
  | type => "type"
  | constantBuiltin => "constant.builtin"
  | function => "function"
  | variableParameter => "variable.parameter"
  | .variable => "variable"
  | property => "property"
  | string => "string"
  | number => "number"
  | boolean => "boolean"
  | punctuationBracket => "punctuation.bracket"
  | punctuationDelimiter => "punctuation.delimiter"

/-- The type that a name means by itself. -/
def named? : String → Option TokenType
  | "comment" => some .comment
  | "keyword" => some .keyword
  | "operator" => some .operator
  | "type" => some .type
  | "constant.builtin" => some .constantBuiltin
  | "function" => some .function
  | "variable.parameter" => some .variableParameter
  | "variable" => some .variable
  | "property" => some .property
  | "string" => some .string
  | "number" => some .number
  | "boolean" => some .boolean
  | "punctuation.bracket" => some .punctuationBracket
  | "punctuation.delimiter" => some .punctuationDelimiter
  | _ => none

/-- Each type is meant by its name alone. -/
theorem named?_eq_some_iff {name : String} {t : TokenType} :
    named? name = some t ↔ t.captureName = name := by
  constructor
  · intro h
    unfold named? at h
    split at h <;> cases h <;> rfl
  · rintro rfl
    cases t <;> rfl

/-- The name for style sheets, with dashes for dots. -/
def className (t : TokenType) : String :=
  String.ofList (t.captureName.toList.map fun c => if c = '.' then '-' else c)

/-- A name without its last part and the dot in front of that, all in reverse. -/
def withoutLastPart (reversed : List Char) : List Char := (reversed.dropWhile (· != '.')).drop 1

theorem length_withoutLastPart_lt {reversed : List Char} (h : reversed.contains '.' = true) :
    (withoutLastPart reversed).length < reversed.length := by
  have hpos : 0 < reversed.length := by
    cases reversed with
    | nil => simp at h
    | cons => simp
  have := (List.dropWhile_suffix (l := reversed) (· != '.')).length_le
  simp only [withoutLastPart, List.length_drop]
  omega

/-- The meaning of a capture whose name is given in reverse. -/
def ofReversed? (reversed : List Char) : Option TokenType :=
  match named? (String.ofList reversed.reverse) with
  | some t => some t
  | none =>
    if h : reversed.contains '.' = true then
      have := length_withoutLastPart_lt h
      ofReversed? (withoutLastPart reversed)
    else none
termination_by reversed.length

/-- The meaning of a capture. -/
def ofCapture? (capture : String) : Option TokenType := ofReversed? capture.toList.reverse

end TokenType

/-- Whether a rule fits a node. -/
def HighlightRule.fits (rule : HighlightRule) (n : Node) : Bool :=
  rule.kind == n.kind &&
  (rule.field.isNone || n.fieldName? == rule.field) &&
  (rule.parent.isNone || n.parent?.map Node.kind == rule.parent)

/-- What a node is shown as by some rules. -/
def Node.tokenType? (rules : List HighlightRule) (n : Node) : Option TokenType :=
  (rules.find? (·.fits n)).bind fun rule => TokenType.ofCapture? rule.capture

/-- A part of a source that is shown in some way. -/
structure HighlightToken where
  /-- The way. -/
  type : TokenType
  /-- The part. -/
  span : Span
deriving DecidableEq, Repr, Inhabited

namespace Highlight

/-! ## Tokens -/

/-- The tokens in some subtrees, after those found so far, of which the last comes first.
    The first argument bounds the number of nodes. -/
def tokensFrom (tree : Tree) : Nat → List HighlightToken → List NodeId → List HighlightToken
  | 0, found, _ => found.reverse
  | _ + 1, found, [] => found.reverse
  | bound + 1, found, id :: waiting =>
    let n : Node := ⟨tree, id⟩
    match n.tokenType? tree.language.definition.highlights with
    | some t =>
      if n.span.start = n.span.stop then tokensFrom tree bound found waiting
      else tokensFrom tree bound (⟨t, n.span⟩ :: found) waiting
    | none => tokensFrom tree bound found (n.data.children ++ waiting)

/-- The tokens of a tree, by where they start. -/
def tokens (tree : Tree) : List HighlightToken :=
  (tokensFrom tree tree.nodes.size [] [tree.root.id]).mergeSort
    fun a b => a.span.start ≤ b.span.start

/-! ## Tags -/

/-- What stands in front of a token and behind it. -/
structure Tags where
  /-- The text in front. -/
  opening : String
  /-- The text behind. -/
  closing : String
deriving DecidableEq, Repr, Inhabited

/-- The tags of each type of token that has some. -/
abbrev TagMap := TokenType → Option Tags

/-- The table with the given entries. Of several for one type, the last counts. -/
def TagMap.ofList (entries : List (TokenType × Tags)) : TagMap :=
  fun t => entries.reverse.lookup t

/-- A text in the course of having tags put in, and the number of bytes put in so far. -/
structure Tagging where
  /-- The text. -/
  text : Text.GapBuffer
  /-- The number of bytes that it has more than at the start. -/
  added : Nat

/-- The text with something put in at a byte offset of the text at the start. -/
def Tagging.insertAt (state : Tagging) (offset : Nat) (insertion : String) : Tagging :=
  ⟨(state.text.moveTo (offset + state.added)).insert insertion.toList,
    state.added + insertion.utf8ByteSize⟩

/-- The text with the tags of one more token. -/
def Tagging.add (map : TagMap) (state : Tagging) (token : HighlightToken) : Tagging :=
  match map token.type with
  | none => state
  | some tags =>
    (state.insertAt token.span.start tags.opening).insertAt token.span.stop tags.closing

/-- A source with tags around its tokens. -/
def tagged (map : TagMap) (source : String) (tree : Tree) : String :=
  String.ofList ((tokens tree).foldl (Tagging.add map) ⟨.ofList source.toList, 0⟩).text.toList

/-- The colours of a terminal. -/
def ansiTags : TagMap := fun t =>
  let start := match t with
    | .comment => some "\x1b[90m"
    | .keyword => some "\x1b[35m"
    | .operator => some "\x1b[36m"
    | .type => some "\x1b[33m"
    | .constantBuiltin => some "\x1b[1;33m"
    | .function => some "\x1b[34m"
    | .variableParameter => some "\x1b[3m"
    | .property => some "\x1b[36m"
    | .string => some "\x1b[32m"
    | .number => some "\x1b[31m"
    | .boolean => some "\x1b[31m"
    | .variable | .punctuationBracket | .punctuationDelimiter => none
  start.map (⟨·, "\x1b[0m"⟩)

/-- The HTML element of a token, which has the type of the token as its class. -/
def element (t : TokenType) : Tags := ⟨"<span class=\"" ++ t.className ++ "\">", "</span>"⟩

/-- What opens the element of a type, written out. -/
def startTag : TokenType → String
  | .comment => "<span class=\"comment\">"
  | .keyword => "<span class=\"keyword\">"
  | .operator => "<span class=\"operator\">"
  | .type => "<span class=\"type\">"
  | .constantBuiltin => "<span class=\"constant-builtin\">"
  | .function => "<span class=\"function\">"
  | .variableParameter => "<span class=\"variable-parameter\">"
  | .variable => "<span class=\"variable\">"
  | .property => "<span class=\"property\">"
  | .string => "<span class=\"string\">"
  | .number => "<span class=\"number\">"
  | .boolean => "<span class=\"boolean\">"
  | .punctuationBracket => "<span class=\"punctuation-bracket\">"
  | .punctuationDelimiter => "<span class=\"punctuation-delimiter\">"

/-- The elements of all types. -/
def htmlTags : TagMap := fun t => some ⟨startTag t, "</span>"⟩

/-- The tags written out are those made of the names. -/
theorem htmlTags_eq_element (t : TokenType) : htmlTags t = some (element t) := by
  cases t <;> decide +kernel

/-! ## HTML -/

/-- A character as it is written in HTML. -/
def escape (c : Char) : List Char :=
  match c with
  | '&' => "&amp;".toList
  | '<' => "&lt;".toList
  | '>' => "&gt;".toList
  | '"' => "&quot;".toList
  | c => [c]

/-- A text behind `out`, with its characters as they are written in HTML. -/
def escaped (out : String) (text : List Char) : String :=
  text.foldl (fun out c => out ++ String.ofList (escape c)) out

/-- The tokens in `text`, which begins at the byte offset `cursor`, written in HTML behind
    `out`. -/
def htmlFrom (out : String) (cursor : Nat) (text : List Char) : List HighlightToken → String
  | [] => escaped out text
  | token :: rest =>
    let (gap, after) := Text.splitBytes (token.span.start - cursor) text
    let (shown, after) := Text.splitBytes (token.span.stop - token.span.start) after
    let tags := element token.type
    htmlFrom (escaped (escaped out gap ++ tags.opening) shown ++ tags.closing) token.span.stop
      after rest

/-- A source in HTML, with its tokens in elements. -/
def html (source : String) (tree : Tree) : String := htmlFrom "" 0 source.toList (tokens tree)

end Highlight

end GrammarTools
