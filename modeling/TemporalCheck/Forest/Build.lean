import TemporalCheck.Forest
import TemporalCheck.Formula.Expr

/-!
# TemporalCheck.Forest.Build

Building formulas in a forest.  Nodes are only ever added, operands before the node that uses them
and from left to right, and nothing stored before is touched.

* `Forest.plant` stores a tree;
* `Build.copy` stores a second tree for a formula, sharing nothing with the first;
* `Build.share` stores a formula so that equal subformulas are one node.
-/

namespace TemporalCheck

/-- Operations that add nodes to a forest. -/
abbrev Build := StateT Forest (Except Fault)

namespace Build

/-- Store a node. -/
def add (node : Node) : Build NodeId := modifyGet (·.add node)

/-- The node with a given number. -/
def node (id : NodeId) : Build Node := do (← get).get id

end Build

/-- Store the nodes of a tree and give the number of its root. -/
def Forest.plant (f : Forest) : Expr → NodeId × Forest
  | .top => f.add .top
  | .bottom => f.add .bottom
  | .prop name => f.add (.prop name)
  | .unary op arg =>
    let (arg, f) := f.plant arg
    f.add (.unary op arg)
  | .binary op left right =>
    let (left, f) := f.plant left
    let (right, f) := f.plant right
    f.add (.binary op left right)

/-- Store the nodes of several trees, one tree after another. -/
def Forest.plantAll (f : Forest) (trees : List Expr) : Forest :=
  trees.foldl (fun f tree => (f.plant tree).2) f

namespace Build

/-! ## Copies -/

/-- Copy a formula that is at most `depth` operands deep. -/
def copyWithin : (depth : Nat) → NodeId → Build NodeId
  | 0, id => throw (.endless id)
  | d + 1, id => do
    match ← node id with
    | .unary op arg =>
      let arg ← copyWithin d arg
      add (.unary op arg)
    | .binary op left right =>
      let left ← copyWithin d left
      let right ← copyWithin d right
      add (.binary op left right)
    | leaf => add leaf

/-- Store a copy of a formula that shares no node with it. -/
def copy (id : NodeId) : Build NodeId := do copyWithin (← get).depthBound id

/-! ## Sharing -/

/-- What is known while a formula is being shared. -/
structure Sharing where
  /-- A node for each of the different subformulas met so far, in order. -/
  known : List NodeId := []
  /-- The node that stands for a node already visited. -/
  done : List (NodeId × NodeId) := []

/-- Note which node stands for `id`: the first known one that is the same formula as `candidate`, or
else `candidate`. -/
def settle (id candidate : NodeId) : StateT Sharing Build NodeId := do
  let s ← get
  let f ← getThe Forest
  let found : Option NodeId ← (s.known.findM? (f.equal · candidate) : Except Fault _)
  match found with
  | some k =>
    set { s with done := (id, k) :: s.done }
    return k
  | none =>
    set ({ known := s.known ++ [candidate], done := (id, candidate) :: s.done } : Sharing)
    return candidate

/-- Share the subformulas of a formula that is at most `depth` operands deep.  A node is used
again if its operands are the nodes that stand for them. -/
def shareWithin : (depth : Nat) → NodeId → StateT Sharing Build NodeId
  | 0, id => throw (.endless id)
  | d + 1, id => do
    match (← get).done.lookup id with
    | some k => return k
    | none =>
      match ← node id with
      | .unary op arg =>
        let arg' ← shareWithin d arg
        settle id (← if arg' = arg then pure id else add (.unary op arg'))
      | .binary op left right =>
        let left' ← shareWithin d left
        let right' ← shareWithin d right
        settle id (←
          if left' = left ∧ right' = right then pure id else add (.binary op left' right'))
      | _ => settle id id

/-- Store a formula so that equal subformulas are one node. -/
def share (id : NodeId) : Build NodeId := do
  let (root, _) ← (shareWithin (← get).depthBound id).run {}
  return root

end Build

end TemporalCheck
