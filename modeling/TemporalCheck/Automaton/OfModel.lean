import TemporalCheck.Automaton
import TemporalCheck.Model

/-!
# TemporalCheck.Automaton.OfModel

The automaton whose runs are the paths of a model.  State 0 stands before the start and leads to
the initial states; state `i + 1` is state `i` of the model, labelled with its name, and asks for
exactly the variables that hold there.  Every state is accepting.

All states are added before the first transition.  What the model says about a state is looked up
by the name of the state.
-/

namespace TemporalCheck.Automaton

/-- Add the state with a given number of a model. -/
def addNamed (m : Model) (b : Automaton) (id : Nat) : Except Fault Automaton := do
  let (s, b) := b.addState false
  b.addLabel s (toString (← m.name id))

/-- Add transitions to some states of a model, which stand one further on. -/
def addMoves (source : Nat) (ids : List Nat) (b : Automaton) : Except Fault Automaton :=
  ids.foldlM (fun b id => b.addTransition source (id + 1)) b

/-- Add what the state with a given number of a model asks for and where it leads. -/
def describe (m : Model) (vars : Vars) (b : Automaton) (id : Nat) : Except Fault Automaton := do
  let name ← m.name id
  let b ← (List.range vars.size).foldlM (fun b v => do b.addLiteral (id + 1) v (← m.holds name v)) b
  addMoves (id + 1) ((← m.successors name).filterMap m.index?) b

/-- The automaton of the paths of a model, over the variables of a table. -/
def ofModel (m : Model) (vars : Vars) : Except Fault Automaton := do
  let (start, b) := addState {} true
  let b ← (List.range m.size).foldlM (addNamed m) b
  let b ← (List.range m.size).foldlM (describe m vars) b
  let b ← addMoves start (m.initial.filterMap m.index?) b
  return b.addAcceptSet (.interval 0 b.size)

end TemporalCheck.Automaton
