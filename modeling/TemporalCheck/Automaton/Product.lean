import TemporalCheck.Automaton

/-!
# TemporalCheck.Automaton.Product

The words that two ordinary automata both accept.  The product has three layers of pairs of
states.  The first layer waits for an accepting state of the first automaton, the second for one
of the second; the third is accepting and goes back to the first.  A pair that asks for the
impossible is noted as a contradiction, and no transition leads to it.
-/

namespace TemporalCheck.Automaton

/-- The layer in which a transition from layer `x` to the pair `(r, q)` ends, for given accept sets
of the two automata. -/
def layerAfter (accept₁ accept₂ : Lookup) (x r q : Nat) : Nat :=
  match x with
  | 0 => if accept₁.has r then 1 else 0
  | 1 => if accept₂.has q then 2 else 1
  | _ => 0

/-- A pair of states as one state, without transitions. -/
def pairState (s₁ s₂ : AutomatonState) : AutomatonState where
  required := s₁.required.union s₂.required
  forbidden := s₁.forbidden.union s₂.forbidden
  label := s₁.label

/-- The pairs of states of two automata, without transitions.  The pair `(i, j)` has the number
`i + size₁ * j`. -/
def pairs (b₁ b₂ : Automaton) : Array AutomatonState :=
  Array.ofFn fun d : Fin (b₁.size * b₂.size) =>
    pairState (b₁.stateD (d.val % b₁.size)) (b₂.stateD (d.val / b₁.size))

/-- The product of two automata, of which the first accept sets count.  The pair `(i, j)` of layer
`x` has the number `i + size₁ * j + size₁ * size₂ * x` and the label of `i`. -/
def productScheme (b₁ b₂ : Automaton) : Scheme :=
  let page := b₁.size * b₂.size
  let accept₁ := b₁.acceptSet.lookup b₁.size
  let accept₂ := b₂.acceptSet.lookup b₂.size
  let pairs := pairs b₁ b₂
  let clashes := pairs.map AutomatonState.isContradictory
  let isContradiction (d : Nat) : Bool := d < page * 3 && clashes.getD (d % page) false
  { size := page * 3
    state := fun id =>
      let x := id / page
      let d := id % page
      { pairs.getD d {} with
        next := (b₁.stateD (d % b₁.size)).next.flatMap fun r =>
          (b₂.stateD (d / b₁.size)).next.filterMap fun q =>
            let target := r + q * b₁.size
            if isContradiction target then none
            else some (target + layerAfter accept₁ accept₂ x r q * page) }
    initial := b₁.initial.flatMap fun i => b₂.initial.map fun j => i + j * b₁.size
    acceptSets := [.interval (2 * page) page]
    isContradiction }

/-- The automaton of the words that both automata accept; each has to have exactly one accept
set. -/
def product (b₁ b₂ : Automaton) : Except Fault Scheme :=
  if b₁.isGeneral || b₂.isGeneral then .error .generalProduct else .ok (productScheme b₁ b₂)

/-- The product of any two automata that a caller has put together, written out.  Transitions to
states that do not exist can lead beyond all numbers of states. -/
def intersection (b₁ b₂ : Automaton) : Except Fault Automaton := do
  (← product b₁ b₂).tabulate.numbered

end TemporalCheck.Automaton
