import TemporalCheck.Fault
import TemporalCheck.Marks

/-!
# TemporalCheck.Forest

Stored formulas.  A forest keeps nodes in numbered slots; a node never changes once it is stored,
so formulas may share parts.  Slots whose nodes are no longer wanted are emptied by a collection
and used again, the slot emptied last first.  Nodes that are *pinned* are kept by every
collection, together with everything below them.
-/

namespace TemporalCheck

/-- A store of formula nodes. -/
structure Forest where
  /-- The nodes by number; `none` is an empty slot. -/
  slots : Array (Option Node) := #[]
  /-- The empty slots, the next to be used first. -/
  free : List NodeId := []
  /-- The pinned nodes in ascending order, each as often as it is pinned. -/
  pins : List NodeId := []
deriving DecidableEq, Inhabited

namespace Forest

/-- The node kept in a slot, if there is one. -/
def node? (f : Forest) (id : NodeId) : Option Node := (f.slots[id]?).join

/-- The node with a given number. -/
def get (f : Forest) (id : NodeId) : Except Fault Node :=
  match f.node? id with
  | some node => .ok node
  | none => .error (.deadNode id)

/-- The numbers of a node's operands. -/
def children (f : Forest) (id : NodeId) : Except Fault (List NodeId) :=
  return (← f.get id).children

/-- The number of a node's operand, counted from zero. -/
def child (f : Forest) (id : NodeId) (k : Nat) : Except Fault NodeId := do
  match (← f.children id)[k]? with
  | some c => return c
  | none => throw .outOfRange

/-- How many slots there are, empty ones included. -/
def capacity (f : Forest) : Nat := f.slots.size

/-- As many slots can be told apart by numbers of 32 bits. -/
def slotLimit : Nat := UInt32.size

/-- How many nodes are stored. -/
def size (f : Forest) : Nat := f.slots.size - f.free.length

/-- Store a node, in an empty slot if there is one. -/
def add (f : Forest) (node : Node) : NodeId × Forest :=
  match f.free with
  | id :: free => (id, { f with slots := f.slots.setIfInBounds id (some node), free })
  | [] => (f.slots.size, { f with slots := f.slots.push (some node) })

/-- Every node that can be reached from a node, itself included. -/
def reachable (f : Forest) (root : NodeId) : Except Fault NatSet :=
  return (← reach f.children (f.capacity + 1) [root] (.none f.capacity)).toSet

/-- Following operands downwards through a forest without a cycle passes fewer than this many
nodes. -/
def depthBound (f : Forest) : Nat := f.capacity + 1

/-! ## Equality of the formulas that two nodes stand for -/

/-- Comparing two nodes and their operands meets no pair of nodes twice on the way down, unless it
goes on for ever.  So it goes less deep than this. -/
def pairBound (f : Forest) : Nat := f.capacity * f.capacity + 1

/-- Whether two nodes stand for the same formula, looking at most `depth` operands deep.  A node
is the same as itself without being looked at. -/
def equalWithin (f : Forest) : (depth : Nat) → NodeId → NodeId → Except Fault Bool
  | 0, a, b => if a = b then .ok true else .error (.endless a)
  | d + 1, a, b =>
    if a = b then .ok true
    else do
      match ← f.get a, ← f.get b with
      | .top, .top => return true
      | .bottom, .bottom => return true
      | .prop x, .prop y => return x = y
      | .unary op x, .unary op' y => if op = op' then f.equalWithin d x y else return false
      | .binary op x₁ x₂, .binary op' y₁ y₂ =>
        if op = op' then
          if ← f.equalWithin d x₁ y₁ then f.equalWithin d x₂ y₂ else return false
        else return false
      | _, _ => return false

/-- Whether two nodes stand for the same formula. -/
def equal (f : Forest) (a b : NodeId) : Except Fault Bool := f.equalWithin f.pairBound a b

/-! ## Pins -/

/-- Insert a number into an ascending list, before equal ones. -/
def insertPin (id : NodeId) : List NodeId → List NodeId
  | [] => [id]
  | p :: ps => if id ≤ p then id :: p :: ps else p :: insertPin id ps

/-- Keep a node, and everything below it, over collections. -/
def pin (f : Forest) (id : NodeId) : Forest := { f with pins := insertPin id f.pins }

/-- Take back one pin of a node; a node that is not pinned stays so. -/
def unpin (f : Forest) (id : NodeId) : Forest := { f with pins := f.pins.erase id }

/-! ## Collection -/

/-- The operands of a node during a collection: a number beyond the last slot is out of range. -/
def markStep (f : Forest) (id : NodeId) : Except Fault (List NodeId) :=
  if id < f.capacity then f.children id else .error .outOfRange

/-- The nodes kept by a collection: those reached from the pinned nodes and from `roots`, of which
the last is followed first. -/
def marked (f : Forest) (roots : List NodeId) : Except Fault Marks :=
  reach f.markStep (f.capacity + 1) (f.pins ++ roots).reverse (.none f.capacity)

/-- The occupied slots that are not marked, in ascending order. -/
def garbage (f : Forest) (kept : Marks) : List NodeId :=
  (List.range f.capacity).filter fun id => (f.node? id).isSome && !kept.has id

/-- Empty a slot. -/
def vacate (f : Forest) (id : NodeId) : Forest :=
  { f with slots := f.slots.setIfInBounds id none, free := id :: f.free }

/-- Empty every slot whose node is reached neither from a pinned node nor from `roots`.  Gives the
number of slots that were emptied. -/
def collect (f : Forest) (roots : List NodeId) : Except Fault (Nat × Forest) := do
  let garbage := f.garbage (← f.marked roots)
  return (garbage.length, garbage.foldl vacate f)

/-! ## What adding does -/

@[simp] theorem node?_empty (id : NodeId) : ({} : Forest).node? id = none := by
  simp [node?]

@[simp] theorem pins_add (f : Forest) (node : Node) : (f.add node).2.pins = f.pins := by
  unfold add; split <;> rfl

theorem get_eq_ok_iff {f : Forest} {id : NodeId} {node : Node} :
    f.get id = .ok node ↔ f.node? id = some node := by
  unfold get; split <;> simp_all

end Forest

end TemporalCheck
