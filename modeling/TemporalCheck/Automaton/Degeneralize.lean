import TemporalCheck.Automaton

/-!
# TemporalCheck.Automaton.Degeneralize

An ordinary automaton for one with any number of accept sets.  There is a copy of the states for
each accept set and one more.  Copy `x` waits for a visit to accept set `x`: a transition into it
goes on in the next copy.  The last copy is accepting, and every transition from it goes back to
the first.  So the last copy is visited infinitely often just if every accept set is.
-/

namespace TemporalCheck.Automaton

/-- The copy in which a transition from copy `x` to the state `target` ends, for given accept
sets. -/
def copyAfter (acceptSets : List Lookup) (x target : Nat) : Nat :=
  match acceptSets[x]? with
  | some set => if set.has target then x + 1 else x
  | none => 0

/-- The automaton with one accept set that accepts the same words.  State `i` of copy `x` has the
number `i + size * x`. -/
def degeneralize (b : Automaton) : Automaton :=
  let acceptSets := b.acceptSets.map (·.lookup b.size)
  { states := Array.ofFn fun d : Fin (b.size * (b.acceptSets.length + 1)) =>
      let x := d.val / b.size
      let st := b.stateD (d.val % b.size)
      { st with
        next := st.next.map fun target => target + b.size * copyAfter acceptSets x target
        label := none }
    initial := b.initial
    acceptSets := [.interval (b.size * b.acceptSets.length) b.size] }

/-- The automaton with one accept set for any automaton that a caller has put together.  A
transition to a state that does not exist can lead beyond all numbers of states in a later copy. -/
def ordinary (b : Automaton) : Except Fault Automaton := b.degeneralize.numbered

end TemporalCheck.Automaton
