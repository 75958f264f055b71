import TemporalCheck.Automaton

/-!
# TemporalCheck.Automaton.Emptiness

Whether an automaton with one accept set accepts any word, by two nested depth-first searches.
The outer search visits every state that can be reached.  When it leaves an accepting state for
good, the inner search looks for a way from there back to a state on the outer stack, which closes
a cycle through the accepting state.  States that one inner search has seen are passed over by all
later ones.

The path that is found ends where it has been before.  It is cut into a `Lasso`: an infinite path
given by the part before a cycle and one round of the cycle.
-/

namespace TemporalCheck

/-- A path that goes along `stem` and then round `cycle` for ever. -/
structure Lasso (α : Type) where
  stem : List α
  cycle : List α
deriving DecidableEq

namespace Lasso

/-- Cut a path whose last element occurs in it before.  The cycle starts at the latest earlier
occurrence, and the closing repetition is dropped. -/
def ofWitness {α : Type} [DecidableEq α] (path : List α) : Option (Lasso α) :=
  match path.reverse with
  | [] => none
  | last :: before =>
    (before.idxOf? last).map fun k =>
      { stem := (before.drop (k + 1)).reverse, cycle := (before.take (k + 1)).reverse }

/-- Replace every element. -/
def map {α β : Type} (f : α → β) (l : Lasso α) : Lasso β := ⟨l.stem.map f, l.cycle.map f⟩

/-- The element at a position of the infinite path. -/
def get? {α : Type} (l : Lasso α) (i : Nat) : Option α :=
  if i < l.stem.length then l.stem[i]? else l.cycle[(i - l.stem.length) % l.cycle.length]?

/-- The text of a path: the elements before the cycle, then the cycle in braces. -/
def render (l : Lasso String) : String :=
  String.join (l.stem.map (· ++ " ")) ++ "\x7b" ++ " ".intercalate l.cycle ++ "\x7d*"

end Lasso

namespace Automaton

/-- The stack of a depth-first search: the states on the current path, the last one first, each
with the index of the successor that is to be tried next. -/
abbrev SearchStack := List (Nat × Nat)

/-- The states on a stack, from the first to the last. -/
def SearchStack.path (stack : SearchStack) : List Nat := (stack.map (·.1)).reverse

/-- The first successor of a state from the index `next` on that is wanted, with the index behind
it. -/
def nextSuccessor? (b : Automaton) (s next : Nat) (wanted : Nat → Bool) :
    Except Fault (Option (Nat × Nat)) := do
  let successors ← b.successors s
  if successors.length < next then throw .outOfRange
  match (successors.drop next).findIdx? wanted with
  | none => return none
  | some offset =>
    match successors[next + offset]? with
    | some t => return some (t, next + offset + 1)
    | none => throw .outOfRange

/-- What an inner search gives: a path that ends on the outer stack, if there is one, and the
states seen. -/
structure InnerResult where
  found : Option (List Nat)
  flagged : Marks

/-- What the inner search goes on to: states on the outer stack and states that are not flagged. -/
def innerWanted (stacked flagged : Marks) (t : Nat) : Bool := stacked.has t || !flagged.has t

/-- Search for a way onto the outer stack.  `fuel` bounds the number of steps. -/
def innerSearch (b : Automaton) (stacked : Marks) :
    (fuel : Nat) → SearchStack → (flagged : Marks) → Except Fault InnerResult
  | 0, _, flagged => return ⟨none, flagged⟩
  | _ + 1, [], flagged => return ⟨none, flagged⟩
  | n + 1, (s, next) :: stack, flagged => do
    match ← b.nextSuccessor? s next (innerWanted stacked flagged) with
    | none => innerSearch b stacked n stack flagged
    | some (t, next) =>
      let stack := (t, 0) :: (s, next) :: stack
      if stacked.has t then return ⟨some (SearchStack.path stack), flagged⟩
      else innerSearch b stacked n stack (flagged.mark t)

/-- The steps that a depth-first search takes at most: every state is entered and left once. -/
def searchBound (b : Automaton) : Nat := 2 * b.size + 3

/-- What the outer search knows besides its stack. -/
structure OuterState where
  /-- The states on the stack. -/
  stacked : Marks
  /-- The states seen by the outer search. -/
  visited : Marks
  /-- The states seen by inner searches. -/
  flagged : Marks

/-- Nothing is known yet. -/
def OuterState.start (n : Nat) : OuterState := ⟨.none n, .none n, .none n⟩

/-- A state is put on the stack. -/
def OuterState.enter (o : OuterState) (s : Nat) : OuterState :=
  { o with stacked := o.stacked.mark s, visited := o.visited.mark s }

/-- A state is taken off the stack. -/
def OuterState.leave (o : OuterState) (s : Nat) : OuterState :=
  { o with stacked := o.stacked.unmark s }

/-- What the outer search goes on to: states that it has not visited. -/
def OuterState.wanted (o : OuterState) (t : Nat) : Bool := !o.visited.has t

/-- What an outer search gives: a path to an accepting state and from there back onto itself, if
there is one, and what it knows at the end. -/
structure OuterResult where
  found : Option (List Nat)
  last : OuterState

/-- Search for an accepting state that can be reached from itself.  `fuel` bounds the number of
steps. -/
def outerSearch (b : Automaton) (accept : Lookup) :
    (fuel : Nat) → SearchStack → OuterState → Except Fault OuterResult
  | 0, _, o => return ⟨none, o⟩
  | _ + 1, [], o => return ⟨none, o⟩
  | n + 1, (s, next) :: stack, o => do
    match ← b.nextSuccessor? s next o.wanted with
    | some (t, next) => outerSearch b accept n ((t, 0) :: (s, next) :: stack) (o.enter t)
    | none =>
      if accept.has s then
        let inner ← innerSearch b o.stacked b.searchBound [(s, 0)] (o.flagged.mark s)
        let o := { o with flagged := inner.flagged }
        match inner.found with
        | some back => return ⟨some (SearchStack.path ((s, next) :: stack) ++ back.tail), o⟩
        | none => outerSearch b accept n stack (o.leave s)
      else outerSearch b accept n stack (o.leave s)

/-- Search from some initial states, one after another. -/
def searchFrom (b : Automaton) (accept : Lookup) : List Nat → OuterState →
    Except Fault (Option (List Nat))
  | [], _ => return none
  | s :: rest, o =>
    if o.visited.has s then searchFrom b accept rest o
    else do
      let outer ← outerSearch b accept b.searchBound [(s, 0)] (o.enter s)
      match outer.found with
      | some path => return some path
      | none => searchFrom b accept rest outer.last

/-- A path from an initial state whose last state occurs in it before, with an accepting state
from there on; `none` if there is no such path. -/
def witness? (b : Automaton) : Except Fault (Option (List Nat)) :=
  searchFrom b (b.acceptSet.lookup b.size) b.initial (.start b.size)

end Automaton

end TemporalCheck
