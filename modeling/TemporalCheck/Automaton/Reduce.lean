import TemporalCheck.Automaton

/-!
# TemporalCheck.Automaton.Reduce

The useful part of an automaton: the states that can be reached from an initial state without
passing through a contradiction.  They keep their order and are numbered anew; everything that
leads to another state is dropped.
-/

namespace TemporalCheck

namespace Scheme

/-- The successors of a state that are not known to be contradictions. -/
def consistentNext (b : Scheme) (s : Nat) : Except Fault (List Nat) :=
  if s < b.size then .ok ((b.state s).next.filter fun t => !b.isContradiction t)
  else .error .outOfRange

/-- The states that can be reached without passing through a contradiction. -/
def useful (b : Scheme) : Except Fault Marks :=
  let start := b.initial.filter fun s => !b.isContradiction s
  reach b.consistentNext (b.size + 1) start.reverse (.none b.size)

/-- States that have been numbered: their new numbers, `none` for those that are dropped, and how
many are kept. -/
structure Numbering where
  numbers : Array (Option Nat) := #[]
  count : Nat := 0

/-- Give the next state its number. -/
def Numbering.add (kept : Marks) (m : Numbering) (s : Nat) : Numbering :=
  if kept.has s then ⟨m.numbers.push (some m.count), m.count + 1⟩
  else { m with numbers := m.numbers.push none }

/-- The new number of each state, in the order of the states that are kept. -/
def renumbering (b : Scheme) (kept : Marks) : Array (Option Nat) :=
  ((List.range b.size).foldl (Numbering.add kept) {}).numbers

/-- The new numbers of some states, without those that are dropped. -/
def renumber (numbers : Array (Option Nat)) (states : List Nat) : List Nat :=
  states.filterMap fun s => (numbers[s]?).join

/-- The new numbers of the members of an accept set; all of them have to be states. -/
def renumberSet (numbers : Array (Option Nat)) (set : NatSet) : Except Fault NatSet :=
  if set.toList.all (· < numbers.size) then .ok (.ofList (renumber numbers set.toList))
  else .error .outOfRange

/-- The automaton without the states that no run can use. -/
def reduce (b : Scheme) : Except Fault Automaton := do
  let kept ← b.useful
  let numbers := b.renumbering kept
  let acceptSets ← b.acceptSets.mapM (renumberSet numbers)
  return {
    states := (kept.toSet.toList.map fun s =>
      let st := b.state s
      { st with next := renumber numbers st.next }).toArray
    initial := renumber numbers b.initial
    acceptSets }

end Scheme

/-- The automaton without the states that no run can use. -/
def Automaton.reduce (b : Automaton) : Except Fault Automaton := (Scheme.ofAutomaton b).reduce

end TemporalCheck
