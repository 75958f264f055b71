import TemporalCheck.Model
import TemporalCheck.Normal
import TemporalCheck.Text.Layout

/-!
# TemporalCheck.Branching

Checking branching-time formulas by labelling: for each subformula, from the innermost to the
outermost, the set of states in which it holds is determined from the sets of its operands.

`AF` and `E[ U ]` are least fixed points.  They are found by sweeping over the states again and
again, marking each state for which the marks made so far, in the current sweep too, give a
reason; a sweep that marks nothing is the last.
-/

namespace TemporalCheck.Branching

open Text

/-! ## Marking -/

/-- States that are marked one after another. -/
structure Marking where
  marks : Marks
  /-- The marked states, the last one first. -/
  order : List Nat := []

/-- No state is marked. -/
def Marking.start (n : Nat) : Marking := { marks := .none n }

/-- Mark a state. -/
def Marking.mark (m : Marking) (s : Nat) : Marking := ⟨m.marks.mark s, s :: m.order⟩

/-- Look at one state during a sweep: mark it if there is a reason and it is not marked yet. -/
def Marking.visit (reason : Marks → Nat → Except Fault Bool) (m : Marking) (s : Nat) :
    Except Fault Marking := do
  if m.marks.has s then return m
  else if ← reason m.marks s then return m.mark s
  else return m

/-- One sweep over `n` states.  `reason` says whether the marks so far give a reason to mark a
state. -/
def sweep (n : Nat) (reason : Marks → Nat → Except Fault Bool) (m : Marking) :
    Except Fault Marking :=
  (List.range n).foldlM (Marking.visit reason) m

/-- Sweep until nothing is marked, at most `sweeps` times. -/
def saturate (n : Nat) (reason : Marks → Nat → Except Fault Bool) :
    (sweeps : Nat) → Marking → Except Fault Marking
  | 0, m => return m
  | k + 1, m => do
    let m' ← sweep n reason m
    if m'.order.length = m.order.length then return m' else saturate n reason k m'

/-- The states marked by repeated sweeps, in the order in which they are marked.  Every sweep but
the last marks a state, so one more sweep than there are states is enough. -/
def leastMarks (n : Nat) (reason : Marks → Nat → Except Fault Bool) : Except Fault (List Nat) :=
  return (← saturate n reason (n + 1) (.start n)).order.reverse

/-- The states of a model that pass a test, by number. -/
def statesWhere (m : Model) (test : Nat → Except Fault Bool) : Except Fault (List Nat) :=
  (List.range m.size).filterM test

/-- The reason to mark a state for `AF` of an operand: the operand holds, or all successors are
marked. -/
def finallyReason (m : Model) (holds : Lookup) (marks : Marks) (s : Nat) : Except Fault Bool := do
  if holds.has s then return true
  else return (← m.successorIds s).all marks.has

/-- The reason to mark a state for `E[ U ]` of two operands: the second holds, or the first holds
and a successor is marked. -/
def untilReason (m : Model) (holds₁ holds₂ : Lookup) (marks : Marks) (s : Nat) :
    Except Fault Bool := do
  if holds₂.has s then return true
  else if holds₁.has s then return (← m.successorIds s).any marks.has
  else return false

/-! ## Subformulas -/

/-- The different subformulas of a formula. -/
structure Subformulas where
  /-- A node for each of them, operands before what they are used in. -/
  order : List NodeId := []
  /-- For each node that has been visited, the position of an equal one in the list. -/
  position : List (NodeId × Nat) := []

namespace Subformulas

/-- The position of the first of some nodes that is equal to a given one. -/
def find? (f : Forest) (id : NodeId) : List NodeId → Except Fault (Option Nat)
  | [] => return none
  | k :: ks => do
    if ← f.equal id k then return some 0
    else return (← find? f id ks).map (· + 1)

/-- Add the subformulas of a node that is at most `depth` operands deep, unless it has been visited
before.  A node that is equal to a listed one is not listed again. -/
def addWithin (f : Forest) : (depth : Nat) → Subformulas → NodeId → Except Fault Subformulas
  | 0, _, id => throw (.endless id)
  | d + 1, subs, id =>
    if (subs.position.lookup id).isSome then return subs
    else do
      let ⟨order, position⟩ ← (← f.children id).foldlM (addWithin f d) subs
      match ← find? f id order with
      | some i => return ⟨order, (id, i) :: position⟩
      | none => return ⟨order ++ [id], (id, order.length) :: position⟩

/-- The different subformulas of a formula, itself last. -/
def ofRoot (f : Forest) (root : NodeId) : Except Fault Subformulas :=
  addWithin f f.depthBound {} root

end Subformulas

/-! ## Labelling -/

/-- The states marked for a subformula, in the order in which they are marked.  `operand` gives the
states in which its first or its second operand holds. -/
def marking (m : Model) (operand : Nat → Except Fault NatSet) : Node → Work (List Nat)
  | .top => return List.range m.size
  | .bottom => return []
  | .prop name => do
    let var ← Work.var name
    statesWhere m fun s => do m.holds (← m.name s) var
  | .unary .not _ => do
    let holds := (← operand 0).lookup m.size
    return (List.range m.size).filter fun s => !holds.has s
  | .binary .and _ _ => do
    let holds₁ := (← operand 0).lookup m.size
    let holds₂ := (← operand 1).lookup m.size
    return (List.range m.size).filter fun s => holds₁.has s && holds₂.has s
  | .unary .existsNext _ => do
    let holds := (← operand 0).lookup m.size
    statesWhere m fun s => return (← m.successorIds s).any holds.has
  | .unary .allFinally _ => do
    let holds := (← operand 0).lookup m.size
    leastMarks m.size (finallyReason m holds)
  | .binary .existsUntil _ _ => do
    let holds₁ := (← operand 0).lookup m.size
    let holds₂ := (← operand 1).lookup m.size
    leastMarks m.size (untilReason m holds₁ holds₂)
  | other => throw (.leftover .branching other)

/-- What has been found out about the first subformulas. -/
structure Labelling where
  /-- The states in which each of them holds. -/
  marks : List NatSet := []
  unused : List String := []
  progress : List String := []

/-- The set of states in which a subformula holds, which has been determined before. -/
def Labelling.marksOf (l : Labelling) (subs : Subformulas) (id : NodeId) : Except Fault NatSet :=
  match (subs.position.lookup id).bind fun i => l.marks[i]? with
  | some marks => .ok marks
  | none => .error .outOfRange

/-- The set of states in which an operand of a node holds. -/
def Labelling.operand (l : Labelling) (subs : Subformulas) (f : Forest) (id : NodeId) (k : Nat) :
    Except Fault NatSet := do
  l.marksOf subs (← f.child id k)

/-- A line that reports a mark. -/
def progressLine (m : Model) (text : String) (s : Nat) : Except Fault String :=
  return "  +" ++ alignRight 2 (toString (← m.name s)) ++ ": " ++ text

/-- Determine where the next subformula holds. -/
def Labelling.add (m : Model) (subs : Subformulas) (showProgress : Bool) (l : Labelling)
    (id : NodeId) : Work Labelling := do
  let node ← Work.node id
  let unused ←
    match node with
    | .prop name => [name].filterM m.reportUnused
    | _ => pure []
  let marked ← marking m (l.operand subs (← get).forest id) node
  let progress ←
    if showProgress && !marked.isEmpty then do
      let text ← Formula.renderNode (← get) id
      marked.mapM fun (s : Nat) => (progressLine m text s : Except Fault String)
    else pure []
  return {
    marks := l.marks ++ [.ofList marked]
    unused := l.unused ++ unused
    progress := l.progress ++ progress }

/-- Determine where each of the subformulas holds. -/
def label (m : Model) (subs : Subformulas) (showProgress : Bool) : Work Labelling :=
  subs.order.foldlM (Labelling.add m subs showProgress) {}

/-! ## Checking -/

/-- What a check finds. -/
inductive Verdict where
  | satisfied
  /-- The names of the initial states in which the formula fails. -/
  | violated (names : List Int)
deriving DecidableEq

/-- The text of a verdict. -/
def Verdict.render : Verdict → String
  | .satisfied => "Satisfied."
  | .violated names =>
    "Not satisfied; start states: " ++ " ".intercalate (names.map fun n => toString n)

/-- A check and what was found out on the way. -/
structure Check where
  verdict : Verdict
  /-- The numbers of the states in which the formula holds. -/
  satisfying : NatSet
  /-- The variables of the formula that hold nowhere in the model and have not been reported. -/
  unused : List String
  /-- A line for every mark, in order, if asked for. -/
  progress : List String
  /-- The different subformulas of the normal form, operands first. -/
  subformulas : List String
  /-- The states in which each of them holds. -/
  marks : List NatSet

/-- The initial states that are not among the satisfying ones. -/
def violating (m : Model) (satisfying : NatSet) : List Int :=
  m.initial.filter fun name =>
    match m.index? name with
    | some s => s ∉ satisfying
    | none => true

/-- The verdict on a formula that holds in some states. -/
def verdictOf (m : Model) (satisfying : NatSet) : Verdict :=
  match violating m satisfying with
  | [] => .satisfied
  | names => .violated names

/-- Check a branching-time formula in the initial states of a model. -/
def check (m : Model) (f : Formula) (showProgress : Bool) : Attempt Check := do
  if !f.isBranching then throw (.check (.notBranching (← f.render (← get))))
  if !m.isDefined then throw (.check .undefinedModel)
  let normal ← f.normalizedWith Rule.branching
  let subs ← Subformulas.ofRoot (← get).forest normal.root
  let l : Labelling ← label m subs showProgress
  let satisfying ← l.marksOf subs normal.root
  let texts ← subs.order.mapM fun (id : NodeId) => do Formula.renderNode (← get) id
  return {
    verdict := verdictOf m satisfying
    satisfying
    unused := l.unused
    progress := l.progress
    subformulas := texts
    marks := l.marks }

end TemporalCheck.Branching
