import TemporalCheck.Fault
import TemporalCheck.Marks
import TemporalCheck.Vars

/-!
# TemporalCheck.Automaton

Automata on infinite words.  A letter says of every variable whether it holds.  A state asks for
some variables to hold and for some not to hold in the letter with which it is entered, a run
follows transitions from an initial state, and a run is accepted if it visits every accept set
infinitely often.  With one accept set this is an ordinary Büchi automaton.

Transitions and accept sets may name states that do not exist; only the operations that follow
such a name refuse it.

A `Scheme` is an automaton given by a rule that answers for each state, instead of by a table of all
states.  It can be much larger than the part of it that is ever looked at.
-/

namespace TemporalCheck

/-- A state of an automaton. -/
structure AutomatonState where
  /-- The successors, in order and with repetitions. -/
  next : List Nat := []
  /-- The variables that have to hold. -/
  required : NatSet := ∅
  /-- The variables that must not hold. -/
  forbidden : NatSet := ∅
  label : Option String := none
deriving DecidableEq, Inhabited

/-- Whether a state asks for a variable both to hold and not to hold. -/
def AutomatonState.isContradictory (s : AutomatonState) : Bool := s.required.meets s.forbidden

/-- An automaton on infinite words. -/
structure Automaton where
  states : Array AutomatonState := #[]
  /-- The initial states in order, none of them twice. -/
  initial : List Nat := []
  acceptSets : List NatSet := []
  /-- States known to ask for the impossible. -/
  contradictions : NatSet := ∅
deriving DecidableEq, Inhabited

namespace Automaton

/-- The number of states. -/
def size (b : Automaton) : Nat := b.states.size

/-- The state with a given number. -/
def state (b : Automaton) (s : Nat) : Except Fault AutomatonState :=
  match b.states[s]? with
  | some st => .ok st
  | none => .error .outOfRange

/-- The state with a given number, or a state without successors if there is none. -/
def stateD (b : Automaton) (s : Nat) : AutomatonState := b.states.getD s {}

/-- The successors of a state. -/
def successors (b : Automaton) (s : Nat) : Except Fault (List Nat) := return (← b.state s).next

/-- Whether a state belongs to the accept set with a given number. -/
def acceptsIn (b : Automaton) (s : Nat) (set : Nat) : Bool :=
  match b.acceptSets[set]? with
  | some a => s ∈ a
  | none => false

/-- The first accept set; empty if there is none. -/
def acceptSet (b : Automaton) : NatSet := b.acceptSets.headD ∅

/-- Whether a state belongs to the first accept set. -/
def accepts (b : Automaton) (s : Nat) : Bool := s ∈ b.acceptSet

/-- Whether there is not exactly one accept set. -/
def isGeneral (b : Automaton) : Bool := b.acceptSets.length ≠ 1

/-- The number of transitions. -/
def edges (b : Automaton) : Nat := b.states.foldl (fun n st => n + st.next.length) 0

/-- The automaton itself, if all its transitions lead to numbers that a state can have. -/
def numbered (b : Automaton) : Except Fault Automaton :=
  if b.states.all fun st => st.next.all (· < numberLimit) then .ok b else .error .outOfRange

/-- Whether two automata are the same, in whatever order they name their initial states. -/
def same (a b : Automaton) : Bool :=
  a.states = b.states && a.initial.length = b.initial.length &&
  a.initial.all (fun s => s ∈ b.initial) && a.acceptSets = b.acceptSets &&
  a.contradictions = b.contradictions

/-! ## Building automata -/

/-- Add a state and give its number. -/
def addState (b : Automaton) (isInitial : Bool) : Nat × Automaton :=
  (b.size, { b with
    states := b.states.push {}
    initial := if isInitial then b.initial ++ [b.size] else b.initial })

/-- Change a state that exists. -/
def modifyState (b : Automaton) (s : Nat) (change : AutomatonState → AutomatonState) :
    Except Fault Automaton :=
  if s < b.size then .ok { b with states := b.states.modify s change } else .error .outOfRange

/-- Add a transition behind the others of its source. -/
def addTransition (b : Automaton) (source target : Nat) : Except Fault Automaton :=
  b.modifyState source fun st => { st with next := st.next ++ [target] }

/-- Ask for a variable to hold, or not to hold, in a state. -/
def addLiteral (b : Automaton) (s var : Nat) (value : Bool) : Except Fault Automaton :=
  b.modifyState s fun st =>
    if value then { st with required := st.required.insert var }
    else { st with forbidden := st.forbidden.insert var }

/-- Label a state. -/
def addLabel (b : Automaton) (s : Nat) (label : String) : Except Fault Automaton :=
  b.modifyState s fun st => { st with label := some label }

/-- Add an accept set behind the others. -/
def addAcceptSet (b : Automaton) (set : NatSet) : Automaton :=
  { b with acceptSets := b.acceptSets ++ [set] }

/-- The label of a state. -/
def label (b : Automaton) (s : Nat) : Except Fault (Option String) := return (← b.state s).label

/-! ## Reading labels off the literals -/

/-- The literals of a state, by variable: a name, or a name behind `!`. -/
def literals (vars : Vars) (st : AutomatonState) : Except Fault (List String) :=
  (List.range vars.size).filterMapM fun v => do
    if v ∈ st.required then return some (← vars.name v)
    else if v ∈ st.forbidden then return some ("!" ++ (← vars.name v))
    else return none

/-- What a state asks for as one text: `T` if nothing, `B` if the impossible. -/
def literalLabel (vars : Vars) (st : AutomatonState) : Except Fault String := do
  if st.isContradictory then return "B"
  match ← literals vars st with
  | [] => return "T"
  | [literal] => return literal
  | several => return "(" ++ " ^ ".intercalate several ++ ")"

/-- Label every state with what it asks for. -/
def labelLiterals (b : Automaton) (vars : Vars) : Except Fault Automaton := do
  let states ← b.states.mapM fun st => return { st with label := some (← literalLabel vars st) }
  return { b with states }

end Automaton

/-! ## Automata given by a rule -/

/-- An automaton given by a rule. -/
structure Scheme where
  /-- The number of states. -/
  size : Nat
  /-- The state with a given number below `size`. -/
  state : Nat → AutomatonState
  initial : List Nat
  acceptSets : List NatSet
  /-- Whether a state is known to ask for the impossible. -/
  isContradiction : Nat → Bool

namespace Scheme

/-- Write out a scheme as a table. -/
def tabulate (b : Scheme) : Automaton where
  states := Array.ofFn fun s : Fin b.size => b.state s
  initial := b.initial
  acceptSets := b.acceptSets
  contradictions := (NatSet.interval 0 b.size).filter b.isContradiction

/-- The rule that looks states up in the table of an automaton. -/
def ofAutomaton (b : Automaton) : Scheme :=
  let contradictions := b.contradictions.lookup b.size
  { size := b.size
    state := b.stateD
    initial := b.initial
    acceptSets := b.acceptSets
    isContradiction := contradictions.has }

@[simp] theorem size_tabulate (b : Scheme) : b.tabulate.size = b.size := by
  simp [tabulate, Automaton.size]

end Scheme

end TemporalCheck
