import GrammarTools.Span

/-!
# Raw nodes

The nodes that a grammar's rules build, before they are put into a tree. A raw
node owns its children and knows nothing of what encloses it. Kinds and fields
are numbers into the tables of the language; kind `0` is that of errors.
-/

namespace GrammarTools

/-- A number in a language's table of node kinds. -/
structure KindId where
  /-- The number. -/
  index : UInt16
deriving DecidableEq, Repr, Inhabited

/-- A number in a language's table of fields. -/
structure FieldId where
  /-- The number. -/
  index : UInt16
deriving DecidableEq, Repr, Inhabited

/-- The kind of a stretch of source that follows no rule. -/
def KindId.error : KindId := ⟨0⟩

/-- A node with its children. -/
structure RawNode where
  /-- What it is. -/
  kind : KindId
  /-- Its part in the node above. -/
  field : Option FieldId
  /-- Where it stands. -/
  span : Span
  /-- The nodes below, in order. -/
  children : List RawNode
deriving Repr, Inhabited

namespace RawNode

/-- A node with nothing below. -/
def leaf (kind : KindId) (span : Span) : RawNode := ⟨kind, none, span, []⟩

/-- A node over a given span. -/
def branchAt (kind : KindId) (span : Span) (children : List RawNode) : RawNode :=
  ⟨kind, none, span, children⟩

/-- The span from the first of some nodes to the last. -/
def spanOf (nodes : List RawNode) : Span :=
  match nodes.head?, nodes.getLast? with
  | some first, some last => first.span.merge last.span
  | _, _ => .empty 0

/-- A node over its children. -/
def branch (kind : KindId) (children : List RawNode) : RawNode :=
  branchAt kind (spanOf children) children

/-- A stretch of source that follows no rule. -/
def error (span : Span) (children : List RawNode) : RawNode := branchAt .error span children

/-- The same node as a given part of the node above. -/
def withField (node : RawNode) (field : FieldId) : RawNode := { node with field := some field }

/-- Whether a node stands for an error. -/
def isError (node : RawNode) : Bool := node.kind == .error

/-- The same node with other children. -/
def withChildren (node : RawNode) (children : List RawNode) : RawNode :=
  { node with children }

mutual

/-- The number of nodes from a node down. -/
def size : RawNode → Nat
  | ⟨_, _, _, children⟩ => 1 + sizeAll children

/-- The number of nodes from some nodes down. -/
def sizeAll : List RawNode → Nat
  | [] => 0
  | node :: rest => size node + sizeAll rest

end

end RawNode

end GrammarTools
