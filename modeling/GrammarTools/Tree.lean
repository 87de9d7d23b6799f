import GrammarTools.Language
import GrammarTools.Span

/-!
# Trees and parsers

A *tree* keeps the nodes of a parsed source in one array, in pre-order: every
node comes before the nodes below it, and these follow it without a gap. A
node is known by its number in the array. It lists the numbers of its children
and that of the node above, and knows whether an error stands in it or below.

The array is made in two passes. The first puts the raw nodes in pre-order and
notes for each the number of the node above (`Arena.preorder`). The second goes
over them from the last to the first; when it comes to a node, its children are
the latest subtrees that have been finished and not yet claimed by a parent
(`Arena.link`).

A *parser* has a language or none yet, and turns sources into trees of that
language.
-/

namespace GrammarTools

/-- The number of a node in its tree. -/
abbrev NodeId := Nat

/-- A node of a tree. -/
structure NodeData where
  /-- What it is. -/
  kind : KindId
  /-- Its part in the node above. -/
  field : Option FieldId
  /-- Where it stands. -/
  span : Span
  /-- The node above. -/
  parent : Option NodeId
  /-- The nodes right below, in order. -/
  children : List NodeId
  /-- Whether an error stands here or below. -/
  hasError : Bool
deriving DecidableEq, Repr, Inhabited

namespace Arena

/-- A raw node that is to be numbered, and the number of the node above. -/
structure Entry where
  /-- The node. -/
  node : RawNode
  /-- The node above. -/
  parent : Option NodeId
deriving Inhabited

/-- The children of an entry, where `id` is the number of the entry. -/
def Entry.below (e : Entry) (id : NodeId) : List Entry := e.node.children.map (⟨·, some id⟩)

/-- The number of nodes in some entries, with all below them. -/
def Entry.totalSize : List Entry → Nat
  | [] => 0
  | e :: rest => e.node.size + totalSize rest

theorem Entry.totalSize_map (nodes : List RawNode) (parent : Option NodeId) :
    totalSize (nodes.map (⟨·, parent⟩)) = RawNode.sizeAll nodes := by
  induction nodes with
  | nil => rfl
  | cons node rest ih => simp only [List.map_cons, totalSize, RawNode.sizeAll, ih]

theorem Entry.totalSize_below (e : Entry) (id : NodeId) :
    totalSize (e.below id) + 1 = e.node.size := by
  obtain ⟨⟨kind, field, span, children⟩, parent⟩ := e
  rw [below, totalSize_map, RawNode.size, Nat.add_comm]

theorem Entry.totalSize_append (a b : List Entry) :
    totalSize (a ++ b) = totalSize a + totalSize b := by
  induction a with
  | nil => simp [totalSize]
  | cons e rest ih => simp only [List.cons_append, totalSize, ih, Nat.add_assoc]

/-- The nodes of the waiting subtrees in pre-order, numbered from `next` on, before
    those in `done`, all with the last one first. -/
def preorder (next : NodeId) (done : List Entry) : List Entry → List Entry
  | [] => done
  | e :: waiting => preorder (next + 1) (e :: done) (e.below next ++ waiting)
termination_by waiting => Entry.totalSize waiting
decreasing_by
  have := e.totalSize_below next
  rw [Entry.totalSize_append, Entry.totalSize]
  omega

/-- The state of the second pass. -/
structure Linking where
  /-- The number of nodes still to be visited. -/
  left : Nat
  /-- The finished subtrees without a parent, the first in the text first: the number
      of the root, and whether it has an error. -/
  orphans : List (NodeId × Bool)
  /-- The finished nodes, in pre-order. -/
  nodes : List NodeData

/-- One step of the second pass. -/
def link (state : Linking) (e : Entry) : Linking :=
  let below := state.orphans.take e.node.children.length
  let hasError := e.node.isError || below.any Prod.snd
  { left := state.left - 1
    orphans := (state.left - 1, hasError) :: state.orphans.drop e.node.children.length
    nodes := ⟨e.node.kind, e.node.field, e.node.span, e.parent, below.map Prod.fst, hasError⟩
      :: state.nodes }

/-- The nodes of a raw tree in pre-order. -/
def ofRaw (root : RawNode) : List NodeData :=
  let entries := preorder 0 [] [⟨root, none⟩]
  (entries.foldl link ⟨entries.length, [], []⟩).nodes

end Arena

/-- A parsed source. -/
structure Tree where
  /-- The language of the source. -/
  language : Language
  /-- The source. -/
  source : String
  /-- The nodes, in pre-order. -/
  nodes : Array NodeData
  /-- The syntax errors, in order. -/
  errors : List SyntaxError

/-- A node of a tree, given with the tree. -/
structure Node where
  /-- The tree. -/
  tree : Tree
  /-- The number of the node. -/
  id : NodeId

namespace Tree

/-- The tree for the output of a parse. -/
def ofOutput (language : Language) (source : String) (output : ParseOutput) : Tree :=
  ⟨language, source, (Arena.ofRaw output.root).toArray, output.errors⟩

/-- A source parsed in a language. -/
def parse (language : Language) (source : String) : Tree :=
  ofOutput language source (language.definition.parse source)

/-- The node over the whole source. -/
def root (tree : Tree) : Node := ⟨tree, 0⟩

/-- For every node, the number of nodes above it. -/
def depths (tree : Tree) : Array Nat :=
  tree.nodes.foldl (fun above node =>
    above.push (match node.parent with
      | none => 0
      | some parent => above.getD parent 0 + 1)) #[]

/-- The greatest number of nodes above any node. -/
def height (tree : Tree) : Nat := tree.depths.foldl max 0

end Tree

namespace Node

variable (n : Node)

/-- What the tree holds of the node. -/
def data : NodeData := n.tree.nodes.getD n.id default

/-- Another node of the same tree. -/
def sibling (id : NodeId) : Node := ⟨n.tree, id⟩

/-- The name of the kind. -/
def kind : String := (n.tree.language.kindName? n.data.kind).getD errorKindName

/-- Whether the node follows a rule, rather than being a literal token. -/
def isNamed : Bool := n.tree.language.kindIsNamed n.data.kind

/-- Whether the node stands for an error. -/
def isError : Bool := n.data.kind == .error

/-- Whether the node or one below stands for an error. -/
def hasError : Bool := n.data.hasError

/-- Where the node stands. -/
def span : Span := n.data.span

/-- The row and column of the first byte. -/
def startPoint : Point := .atOffset n.tree.source n.span.start

/-- The row and column just past the last byte. -/
def endPoint : Point := .atOffset n.tree.source n.span.stop

/-- The part of the source that the node covers. -/
def text : String := String.ofList (Text.slice n.span.start n.span.stop n.tree.source.toList)

/-- The node above. -/
def parent? : Option Node := n.data.parent.map n.sibling

/-- The name of the field that the node fills in the node above. -/
def fieldName? : Option String := n.data.field.bind n.tree.language.fieldName?

/-- The nodes right below. -/
def children : List Node := n.data.children.map n.sibling

/-- The named nodes right below. -/
def namedChildren : List Node := n.children.filter isNamed

/-- The nodes right below that fill the field of the given name. -/
def childrenInField (name : String) : List Node :=
  match n.tree.language.fieldId? name with
  | none => []
  | some field => n.children.filter fun child => child.data.field == some field

/-- The first node right below that fills the field of the given name. -/
def childInField? (name : String) : Option Node := (n.childrenInField name).head?

/-- The nodes of some subtrees in pre-order, after those in `found`, which has the last
    one first. The first argument bounds their number. -/
def descendantsFrom (tree : Tree) : Nat → List NodeId → List NodeId → List NodeId
  | 0, found, _ => found.reverse
  | _ + 1, found, [] => found.reverse
  | bound + 1, found, id :: waiting =>
    descendantsFrom tree bound (id :: found) ((Node.mk tree id).data.children ++ waiting)

/-- The node and all below it, in pre-order. -/
def descendants : List Node :=
  (descendantsFrom n.tree n.tree.nodes.size [] [n.id]).map n.sibling

/-- A short description, with the points where the node starts and ends. -/
def description : String :=
  s!"\x7bNode {n.kind} {n.startPoint.display} - {n.endPoint.display}\x7d"

end Node

/-! ## Parsers -/

/-- A parser. -/
structure Parser where
  /-- The language that has been set. -/
  language : Option Language

namespace Parser

/-- A parser without a language. -/
def new : Parser := ⟨none⟩

/-- The parser with a language set. -/
def setLanguage (_ : Parser) (language : Language) : Parser := ⟨some language⟩

/-- A parsed source. Without a language there is none. -/
def parse (p : Parser) (source : String) : Option Tree :=
  p.language.map (Tree.parse · source)

end Parser

end GrammarTools
