import GrammarTools.Rule

/-!
# Operators

Binary operators come in five classes. Multiplication binds tightest, then come
addition, comparison, conjunction and disjunction; operators of one class are
read from left to right.

`Operators.extend` reads the operators and operands that follow an operand. For
a given class it first lets the tighter classes extend the operand, and then,
while an operator of the class follows, reads the next operand, which again
only the tighter classes may extend.

Other operators stand in front of an operand (`Signs`). Such an operand may
itself have an operator in front.
-/

namespace GrammarTools

/-- What binds how tightly. -/
inductive OperatorClass where
  | multiplicative
  | additive
  | comparative
  | conjunctive
  | disjunctive
deriving DecidableEq, Repr, Inhabited

namespace OperatorClass

/-- The strength by which a class binds its operands. -/
def precedence : OperatorClass → Nat
  | multiplicative => 8
  | additive => 6
  | comparative => 5
  | conjunctive => 4
  | disjunctive => 3

/-- All classes, the loosest first. -/
def all : List OperatorClass :=
  [disjunctive, conjunctive, comparative, additive, multiplicative]

end OperatorClass

/-- How an operator token shows in a tree. -/
structure OperatorForm where
  /-- Its class. -/
  level : OperatorClass
  /-- The kind of the token itself. -/
  kind : KindId
  /-- The kind of the node put around the token, if there is one. -/
  group : Option KindId
deriving DecidableEq, Repr, Inhabited

/-- The node for the operator token that comes next. -/
def OperatorForm.node {τ : Type} (form : OperatorForm) : Rule τ RawNode := do
  let token ← Rule.leaf form.kind
  return match form.group with
    | none => token
    | some group => .branch group [token]

/-- How a language writes binary operators, and the nodes it makes of them. -/
structure Operators (τ : Type) where
  /-- The tokens that are binary operators. -/
  form? : τ → Option OperatorForm
  /-- The kind of a node with two operands. -/
  binary : KindId
  /-- The field of the left operand. -/
  left : FieldId
  /-- The field of the operator. -/
  operator : FieldId
  /-- The field of the right operand. -/
  right : FieldId

namespace Operators

variable {τ : Type} (ops : Operators τ)

/-- The operator of a class, if one comes next. -/
def next? (level : OperatorClass) (s : TokenStream τ) : Option OperatorForm :=
  (s.peek.bind ops.form?).filter (·.level == level)

/-- The node for an operator with its operands. -/
def node (left operator right : RawNode) : RawNode :=
  .branch ops.binary
    [left.withField ops.left, operator.withField ops.operator, right.withField ops.right]

/-- What follows an operand with operators of the given classes, the loosest first. -/
def extendBy (operand : Rule τ RawNode) : List OperatorClass → RawNode → Rule τ RawNode
  | [], left => pure left
  | level :: tighter, left => do
    let left ← extendBy operand tighter left
    Rule.growWhile (ops.next? level) (fun form left => do
      let operator ← form.node
      let right ← operand
      let right ← extendBy operand tighter right
      return ops.node left operator right) left

/-- What follows an operand with operators of any class. -/
def extend (operand : Rule τ RawNode) (left : RawNode) : Rule τ RawNode :=
  ops.extendBy operand OperatorClass.all left

/-- An operand, and what follows it with operators of any class. -/
def expression (operand : Rule τ RawNode) : Rule τ RawNode := do
  let left ← operand
  ops.extend operand left

end Operators

/-- How a language writes operators in front of an operand, and the nodes it makes of them. -/
structure Signs (τ : Type) where
  /-- The tokens that may stand in front of an operand. -/
  form? : τ → Option OperatorForm
  /-- The kind of a node with an operand and what stands in front. -/
  unary : KindId
  /-- The field of the operator. -/
  operator : FieldId
  /-- The field of the operand. -/
  operand : FieldId

namespace Signs

variable {τ : Type} (signs : Signs τ)

/-- The node for an operand with an operator in front. -/
def node (operator operand : RawNode) : RawNode :=
  .branch signs.unary [operator.withField signs.operator, operand.withField signs.operand]

/-- What `plain` reads, unless an operator comes next, which then stands in front of what
    `operand` reads. -/
def signed (plain operand : Rule τ RawNode) : Rule τ RawNode := do
  match (← Rule.peek).bind signs.form? with
  | none => plain
  | some form =>
    let operator ← form.node
    let operand ← operand
    return signs.node operator operand

end Signs

end GrammarTools
