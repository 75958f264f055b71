import TemporalCheck.Context
import TemporalCheck.Formula.Printer
import TemporalCheck.Formula.Reader

/-!
# TemporalCheck.Formula

Formulas as handles: the number of a stored node together with the logics that its operators come
from.  A formula that uses no temporal operator belongs to linear and to branching time, one that
uses both families to neither.
-/

namespace TemporalCheck

/-- A stored formula. -/
structure Formula where
  root : NodeId
  usage : Usage
deriving DecidableEq, Inhabited

namespace Formula

/-- Whether the formula can be read over a single future. -/
def isLinear (f : Formula) : Bool := !f.usage.branching

/-- Whether the formula can be read over a tree of futures. -/
def isBranching (f : Formula) : Bool := !f.usage.linear

/-- Whether the formula uses operators of both families. -/
def isMixed (f : Formula) : Bool := f.usage.linear && f.usage.branching

/-- The four letters that tell the family of a formula. -/
def typeName (f : Formula) : String :=
  match f.isLinear, f.isBranching with
  | true, true => "C/L "
  | true, false => "LTL "
  | false, true => "CTL "
  | false, false => "CTL*"

/-- The formula that a stored node is the root of. -/
def ofRoot (forest : Forest) (root : NodeId) : Except Fault Formula := do
  let nodes ← (← forest.reachable root).toList.mapM forest.get
  return { root, usage := nodes.foldl (fun u node => u.join node.usage) .boolean }

/-- The text of a node. -/
def renderNode (c : Context) (id : NodeId) : Except Fault String :=
  return (← c.forest.tree id).render c.allParens

/-- The text of a formula. -/
def render (c : Context) (f : Formula) : Except Fault String := renderNode c f.root

/-- The text of a formula behind the letters that tell its family. -/
def renderTyped (c : Context) (f : Formula) : Except Fault String :=
  return f.typeName ++ ": " ++ (← f.render c)

/-- The negation of a formula, which shares all its nodes. -/
def negate (f : Formula) : Work Formula := do
  let root ← Build.add (.unary .not f.root)
  return { f with root }

/-- A copy of a formula that shares none of its nodes. -/
def copy (f : Formula) : Work Formula := do
  let root ← Build.copy f.root
  return { f with root }

/-- Store a tree so that equal subformulas are one node. -/
def ofTree (tree : Expr) : Work Formula := do
  let root ← modifyGet fun c =>
    let (root, forest) := c.forest.plant tree
    (root, { c with forest })
  let root ← Build.share root
  ofRoot (← get).forest root

/-- Read a formula from the front of a stream.  If that fails, the operands read completely before
stay stored. -/
def read (s : Stream) : Attempt (Formula × Stream) :=
  match s.readFormula with
  | .ok (tree, rest) => do
    let f ← ofTree tree
    return (f, rest)
  | .error (.refused failure) => do
    modify fun c => { c with forest := c.forest.plantAll failure.finished }
    throw (.parse failure.cause)
  | .error (.broken fault) => throwThe Fault fault

/-- Read tokens that hold one formula and nothing else. -/
def readAll (tokens : Stream) : Attempt Formula := do
  let (f, rest) ← read tokens
  let _ ← rest.expect .eof
  return f

/-- Read a text that holds one formula and nothing else. -/
def parse (source : String) : Attempt Formula := do
  let tokens ← Stream.ofText source
  readAll tokens

end Formula

end TemporalCheck
