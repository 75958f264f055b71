import TemporalCheck.Automaton
import TemporalCheck.Meaning.Word

/-!
# TemporalCheck.Automaton.Run

The words that an automaton accepts.  A run starts in an initial state and follows transitions, and
each of its states agrees with the letter at its place.  It is accepted if it comes back to every
accept set for ever; an automaton without accept sets accepts all its runs.
-/

namespace TemporalCheck

/-- Whether something happens again and again for ever. -/
def InfinitelyOften (p : Nat → Prop) : Prop := ∀ n, ∃ m, n ≤ m ∧ p m

/-- Whether a letter gives a state what it asks for. -/
def AutomatonState.Agrees (st : AutomatonState) (letter : Nat → Prop) : Prop :=
  (∀ v ∈ st.required, letter v) ∧ ∀ v ∈ st.forbidden, ¬ letter v

namespace Automaton

/-- Whether a sequence of states starts in an initial state and follows transitions. -/
def IsRun (b : Automaton) (ρ : Nat → Nat) : Prop :=
  ρ 0 ∈ b.initial ∧ ∀ i, ρ (i + 1) ∈ (b.stateD (ρ i)).next

/-- Whether a run passes over a word. -/
def IsRunOver (b : Automaton) (w : Word Nat) (ρ : Nat → Nat) : Prop :=
  b.IsRun ρ ∧ ∀ i, (b.stateD (ρ i)).Agrees (w i)

/-- Whether a run visits every accept set infinitely often. -/
def IsFair (b : Automaton) (ρ : Nat → Nat) : Prop :=
  ∀ set ∈ b.acceptSets, InfinitelyOften fun i => ρ i ∈ set

/-- Whether an automaton accepts a word. -/
def Accepts (b : Automaton) (w : Word Nat) : Prop := ∃ ρ, b.IsRunOver w ρ ∧ b.IsFair ρ

/-- Whether the initial states, the targets of transitions and the members of accept sets all
exist. -/
def WellFormed (b : Automaton) : Prop :=
  (∀ s ∈ b.initial, s < b.size) ∧
  (∀ st ∈ b.states, ∀ t ∈ st.next, t < b.size) ∧
  ∀ set ∈ b.acceptSets, ∀ s ∈ set, s < b.size

end Automaton

end TemporalCheck
