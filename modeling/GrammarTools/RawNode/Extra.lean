import GrammarTools.Bisect
import GrammarTools.RawNode

/-!
# Extras

An *extra* is a node that no rule asks for, such as a comment. It goes into the
deepest node that encloses it, in its place among the children.

Children are ordered by where they start. At each node the extra would go right
in front of the first child that does not start before it; but if the child in
front of that place ends behind the start of the extra, the extra goes into that
child instead. `insertExtra` walks down by this rule and keeps, for every node
it has passed, the siblings on both sides, from which it puts the whole together
again (`RawNode.Step.rebuild`).
-/

namespace GrammarTools.RawNode

/-- A step down from a node to one of its children. -/
structure Step where
  /-- The node above. -/
  parent : RawNode
  /-- The children in front of the one stepped to. -/
  before : List RawNode
  /-- The children after it. -/
  after : List RawNode
deriving Inhabited

namespace Step

/-- The node above, with another child in place of the one stepped to. -/
def close (step : Step) (child : RawNode) : RawNode :=
  step.parent.withChildren (step.before ++ child :: step.after)

/-- The node at the top of a path, the nearest step first, above another lowest node. -/
def rebuild (path : List Step) (node : RawNode) : RawNode :=
  path.foldl (fun below step => step.close below) node

end Step

/-- The number of children that start before `offset`. -/
def placeAmong (children : List RawNode) (offset : Nat) : Nat :=
  let array := children.toArray
  bisect (fun i => (array[i]?.map fun child => decide (child.span.start < offset)).getD false)
    array.size

/-- An extra put in at the node that `path` leads to, or below it. -/
def insertExtraAt (path : List Step) (node extra : RawNode) : RawNode :=
  let place := placeAmong node.children extra.span.start
  let here := fun _ : Unit => Step.rebuild path
    (node.withChildren (node.children.take place ++ extra :: node.children.drop place))
  if place = 0 then here ()
  else match h : node.children.drop (place - 1) with
    | [] => here ()
    | child :: after =>
      if extra.span.start < child.span.stop then
        insertExtraAt (⟨node, node.children.take (place - 1), after⟩ :: path) child extra
      else here ()
termination_by node
decreasing_by
  have hmem : child ∈ node.children := List.mem_of_mem_drop (h ▸ List.mem_cons_self)
  have := List.sizeOf_lt_of_mem hmem
  cases node
  simp only [mk.sizeOf_spec] at *
  omega

/-- An extra put into the deepest node that encloses it. -/
def insertExtra (root extra : RawNode) : RawNode := insertExtraAt [] root extra

end GrammarTools.RawNode
