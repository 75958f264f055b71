import TemporalCheck.Meaning.Word
import TemporalCheck.Model
import TemporalCheck.Vars

/-!
# TemporalCheck.Meaning.Structure

What a formula says about a state of a transition structure.  A path follows transitions for ever;
`A…` operators speak about all paths that start in a state and `E…` operators about some path.
An operator without a quantifier is read as one about all paths.

A model gives such a structure: its states are the numbers of the declared states, and transitions
lead to declared successors only.
-/

namespace TemporalCheck

/-- A transition structure whose states say which variables hold. -/
structure TransitionStructure where
  State : Type
  Step : State → State → Prop
  Holds : State → String → Prop

namespace TransitionStructure

/-- Whether a sequence of states follows transitions. -/
def IsPath (k : TransitionStructure) (π : Nat → k.State) : Prop := ∀ i, k.Step (π i) (π (i + 1))

/-- Whether a sequence of states is a path that starts in a given state. -/
def IsPathFrom (k : TransitionStructure) (s : k.State) (π : Nat → k.State) : Prop :=
  π 0 = s ∧ k.IsPath π

/-- What holds along a path. -/
def word (k : TransitionStructure) (π : Nat → k.State) : Word String := fun i => k.Holds (π i)

end TransitionStructure

/-- What an operator says of a state, given where its operand holds. -/
def UnaryOp.HoldsIn (k : TransitionStructure) (p : k.State → Prop) (s : k.State) : UnaryOp → Prop
  | .not => ¬ p s
  | .existsNext => ∃ π, k.IsPathFrom s π ∧ UnaryOp.next.HoldsAt (fun i => p (π i)) 0
  | .existsFinally => ∃ π, k.IsPathFrom s π ∧ UnaryOp.future.HoldsAt (fun i => p (π i)) 0
  | .existsGlobally => ∃ π, k.IsPathFrom s π ∧ UnaryOp.global.HoldsAt (fun i => p (π i)) 0
  | op => ∀ π, k.IsPathFrom s π → op.HoldsAt (fun i => p (π i)) 0

/-- What an operator says of a state, given where its operands hold. -/
def BinaryOp.HoldsIn (k : TransitionStructure) (p q : k.State → Prop) (s : k.State) :
    BinaryOp → Prop
  | .implies => p s → q s
  | .and => p s ∧ q s
  | .or => p s ∨ q s
  | .existsUntil =>
    ∃ π, k.IsPathFrom s π ∧ BinaryOp.until.HoldsAt (fun i => p (π i)) (fun i => q (π i)) 0
  | op => ∀ π, k.IsPathFrom s π → op.HoldsAt (fun i => p (π i)) (fun i => q (π i)) 0

/-- Whether a formula holds in a state. -/
def Expr.HoldsIn (k : TransitionStructure) : Expr → k.State → Prop
  | .top, _ => True
  | .bottom, _ => False
  | .prop name, s => k.Holds s name
  | .unary op a, s => op.HoldsIn k (a.HoldsIn k) s
  | .binary op a b, s => op.HoldsIn k (a.HoldsIn k) (b.HoldsIn k) s

namespace Model

/-- The structure that a model describes, with variables named by a table. -/
def toStructure (m : Model) (vars : Vars) : TransitionStructure where
  State := Nat
  Step s t := ∃ name st, m.states[s]? = some (name, st) ∧ t ∈ st.successors.filterMap m.index?
  Holds s name := ∃ st v, m.states[s]?.map Prod.snd = some st ∧
    vars.index? name = some v ∧ v ∈ st.valuation

/-- Whether a state is an initial state that has been declared. -/
def IsStart (m : Model) (s : Nat) : Prop := ∃ name ∈ m.initial, m.index? name = some s

end Model

end TemporalCheck
