import TemporalCheck.Formula
import TemporalCheck.Normal.Rule

/-!
# TemporalCheck.Normal

Bringing stored formulas into normal form.  One pass works on the operands of a node first, then
applies rules to the node itself for as long as one matches; of several matching rules the first
is used.  Passes are repeated until one changes nothing, and the result is stored with equal
subformulas shared.  Nodes that were stored before stay as they are.

There are two weights of formulas.  Every rule for linear time makes the first one smaller wherever
it is applied, and every rule for branching time the second one, whatever the operands are.  So
neither table can be applied for ever, and the weight of a formula bounds the number of steps.
-/

namespace TemporalCheck

/-! ## Weights -/

namespace Expr

/-- The weight for linear time.  A negation weighs three times its operand, which pays for moving
it below an operator with two operands. -/
def linearWeight : Expr → Nat
  | .top | .bottom | .prop _ => 1
  | .unary .not a => 3 * a.linearWeight
  | .unary .future a | .unary .global a => a.linearWeight + 3
  | .unary _ a => a.linearWeight + 1
  | .binary .implies a b => 3 * a.linearWeight + b.linearWeight + 2
  | .binary .weakUntil a b => a.linearWeight + 2 * b.linearWeight + 3
  | .binary _ a b => a.linearWeight + b.linearWeight + 1

/-- The weight for branching time.  An operator weighs one more than what it is replaced by. -/
def branchingWeight : Expr → Nat
  | .top => 3
  | .bottom | .prop _ => 1
  | .unary .allGlobally a => a.branchingWeight + 6
  | .unary .existsGlobally a | .unary .existsFinally a | .unary .allNext a =>
    a.branchingWeight + 4
  | .unary _ a => a.branchingWeight + 1
  | .binary .implies a b => a.branchingWeight + b.branchingWeight + 4
  | .binary .or a b => a.branchingWeight + b.branchingWeight + 5
  | .binary .allUntil a b => a.branchingWeight + 3 * b.branchingWeight + 9
  | .binary _ a b => a.branchingWeight + b.branchingWeight + 1

/-- A bound on the number of times that the rules of either table can be applied. -/
def ruleBound (e : Expr) : Nat := e.linearWeight + e.branchingWeight + 1

theorem linearWeight_pos (e : Expr) : 0 < e.linearWeight := by
  fun_induction linearWeight e <;> omega

end Expr

/-! ## Passes -/

namespace Build

/-- Apply the first rule that matches a node. -/
def applyFirst (id : NodeId) : List Rule → Build (Option NodeId)
  | [] => return none
  | rule :: rules => do
    let (matched, bound) ← rule.pattern.bind (← get) id []
    if matched then return some (← rule.result.build bound) else applyFirst id rules

/-- Apply rules to a node until none matches, at most `steps` times.  Gives the node that stands
in its place, and whether anything has changed. -/
def applyRules (rules : List Rule) : (steps : Nat) → NodeId → Bool → Build (NodeId × Bool)
  | 0, id, _ => throw (.endless id)
  | n + 1, id, changed => do
    match ← applyFirst id rules with
    | some replaced => applyRules rules n replaced true
    | none => return (id, changed)

/-- One pass over a formula that is at most `depth` operands deep.  At each node at most `steps`
rules are applied. -/
def normalizePass (rules : List Rule) (steps : Nat) :
    (depth : Nat) → NodeId → Build (NodeId × Bool)
  | 0, id => throw (.endless id)
  | d + 1, id => do
    match ← node id with
    | .unary op arg =>
      let (arg, changed) ← normalizePass rules steps d arg
      let root ← if changed then add (.unary op arg) else pure id
      applyRules rules steps root changed
    | .binary op left right =>
      let (left, changedLeft) ← normalizePass rules steps d left
      let (right, changedRight) ← normalizePass rules steps d right
      let changed := changedLeft || changedRight
      let root ← if changed then add (.binary op left right) else pure id
      applyRules rules steps root changed
    | _ => applyRules rules steps id false

/-- Repeat passes until one changes nothing, at most `passes` times.  `bound` bounds the depth of
the formula and the rules applied at a node. -/
def normalizePasses (rules : List Rule) (bound : Nat) : (passes : Nat) → NodeId → Build NodeId
  | 0, id => throw (.endless id)
  | n + 1, id => do
    let (root, changed) ← normalizePass rules bound bound id
    if changed then normalizePasses rules bound n root else return root

/- The weight of a formula is at least its depth, and no rule makes it larger.  So it bounds the
depth of all formulas on the way, as well as the rules that can be applied.

An operand may name an empty slot, and the slot may be filled while the operands before it are
being worked on.  What such a formula becomes is not known at the start, and the bound is then one
that no computation reaches. -/

/-- A bound for formulas whose size is not known. -/
def openBound : Nat := Nat.pow 2 60

/-- A bound on the depth of a formula, and on the number of times that rules can be applied to
it. -/
def ruleBound (f : Forest) (id : NodeId) : Nat :=
  match f.tree id with
  | .ok tree => tree.ruleBound
  | .error (.deadNode _) => openBound
  | .error _ => f.depthBound

/-- Apply rules to a formula until none matches anywhere in it, then share equal subformulas. -/
def normalize (rules : List Rule) (id : NodeId) : Build NodeId := do
  if rules.isEmpty then share id
  else
    let bound := ruleBound (← get) id
    share (← normalizePasses rules bound bound id)

end Build

namespace Formula

/-- A copy of a formula in the normal form of some rules. -/
def normalizedWith (rules : List Rule) (f : Formula) : Work Formula := do
  let copied ← f.copy
  let root ← Build.normalize rules copied.root
  ofRoot (← get).forest root

/-- A copy of a formula in the normal form of its logic. -/
def normalized (f : Formula) : Work Formula := f.normalizedWith (Rule.table f.usage)

end Formula

end TemporalCheck
