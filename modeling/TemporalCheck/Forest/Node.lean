import TemporalCheck.Formula.Expr

/-!
# TemporalCheck.Forest.Node

The nodes that formulas are made of when they are stored.  A node names its operands by number, so
that equal operands can be stored once.

A number of a node stands for one of 32 bits.  It is the number of a slot, so this loses nothing as
long as a forest has no more slots than there are such numbers (`Forest.slotLimit`).
-/

namespace TemporalCheck

/-- The number of a node: the slot of the forest it is kept in. -/
abbrev NodeId := Nat

/-- A node of a stored formula. -/
inductive Node where
  | top
  | bottom
  | prop (name : String)
  | unary (op : UnaryOp) (arg : NodeId)
  | binary (op : BinaryOp) (left right : NodeId)
deriving DecidableEq, Inhabited

/-- The name of an operator in descriptions of nodes. -/
def UnaryOp.name : UnaryOp → String
  | .not => "Not"
  | .next => "Next"
  | .future => "Future"
  | .global => "Global"
  | .allGlobally => "AG"
  | .existsGlobally => "EG"
  | .allFinally => "AF"
  | .existsFinally => "EF"
  | .allNext => "AX"
  | .existsNext => "EX"

/-- The name of an operator in descriptions of nodes. -/
def BinaryOp.name : BinaryOp → String
  | .implies => "Implies"
  | .and => "And"
  | .or => "Or"
  | .until => "Until"
  | .release => "Release"
  | .weakUntil => "WeakUntil"
  | .allUntil => "AllUntil"
  | .existsUntil => "ExistsUntil"

namespace Node

/-- The operands of a node, from left to right. -/
def children : Node → List NodeId
  | .top | .bottom | .prop _ => []
  | .unary _ arg => [arg]
  | .binary _ left right => [left, right]

/-- The logic that the operator of a node belongs to. -/
def usage : Node → Usage
  | .top | .bottom | .prop _ => .boolean
  | .unary op _ => op.usage
  | .binary op _ _ => op.usage

/-- A description of a node: its operator and the numbers of its operands. -/
def describe : Node → String
  | .top => "True"
  | .bottom => "Bottom"
  | .prop name => "Prop(\"" ++ name ++ "\")"
  | .unary op arg => "Unary(" ++ op.name ++ ", NodeId(" ++ toString arg ++ "))"
  | .binary op left right =>
    "Binary(" ++ op.name ++ ", NodeId(" ++ toString left ++ "), NodeId(" ++ toString right ++ "))"

end Node

end TemporalCheck
