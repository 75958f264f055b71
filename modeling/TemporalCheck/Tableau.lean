import TemporalCheck.Automaton
import TemporalCheck.Normal

/-!
# TemporalCheck.Tableau

The automaton of a linear-time formula in negation normal form.

A *cover* is a set of subformulas that are meant to hold together now, and of subformulas that are
meant to hold next.  Covers are worked off one subformula at a time, the one with the largest node
number first: a literal is kept if nothing contradicts it, a conjunction adds both operands, and
the other operators split the cover in two by the unfolding laws

1. `a | b` holds if `a` holds or `b` holds;
2. `a U b` holds if `a` holds and `a U b` holds next, or `b` holds;
3. `a R b` holds if `b` holds and `a R b` holds next, or `a` and `b` hold.

A cover with nothing left to work off is a state of the automaton, unless a state with the same
subformulas is there already.  What its subformulas ask for next is where the covers of its
successors start.  An accept set for each `a U b` sees to it that `b` is not put off for ever.
-/

namespace TemporalCheck

/-- Subformulas that are meant to hold together. -/
structure Cover where
  /-- The states that this one is a successor of. -/
  incoming : NatSet := ∅
  /-- Worked off: they hold now. -/
  old : NatSet := ∅
  /-- To be worked off. -/
  new : NatSet := ∅
  /-- To hold in every successor. -/
  next : NatSet := ∅
deriving DecidableEq, Inhabited

/-- What becomes of a cover in one step. -/
inductive CoverStep where
  /-- Nothing is left to work off. -/
  | finished
  /-- The cover is replaced by others; by none if it cannot be met. -/
  | branches (covers : List Cover)

namespace Cover

/-- The cover in which some more subformulas are to be worked off. -/
def require (c : Cover) (ids : List NodeId) : Cover := { c with new := ids.foldl .insert c.new }

/-- The cover in which one more subformula is to hold next. -/
def defer (c : Cover) (id : NodeId) : Cover := { c with next := c.next.insert id }

/-- The cover in which one more subformula is worked off. -/
def settle (c : Cover) (id : NodeId) : Cover := { c with old := c.old.insert id }

/-- Whether the opposite of a literal has been worked off.  The variables of literals that have
been worked off are all known to the context. -/
def contradicts (c : Cover) (context : Context) (l : Literal) : Bool :=
  c.old.toList.any fun o => context.literal? o = some l.negate

/-- The covers that the subformula `e` of a cover, which is no literal, splits it into. -/
def split (c : Cover) (e : NodeId) : Node → Except Fault (List Cover)
  | .binary .until a b => .ok [((c.settle e).require [a]).defer e, (c.settle e).require [b]]
  | .binary .release a b => .ok [((c.settle e).require [b]).defer e, (c.settle e).require [a, b]]
  | .binary .or a b => .ok [(c.settle e).require [a], (c.settle e).require [b]]
  | .binary .and a b => .ok [(c.settle e).require [a, b]]
  | .unary .next a => .ok [(c.settle e).defer a]
  | other => .error (.leftover .linear other)

/-- Work off one subformula. -/
def step (c : Cover) : Work CoverStep := do
  match c.new.popMax? with
  | none => return .finished
  | some (e, rest) =>
    let c := { c with new := rest }
    if e ∈ c.old then return .branches [c]
    else
      match ← Work.literal? e with
      | some .bottom => return .branches []
      | some l => return .branches (if c.contradicts (← get) l then [] else [c.settle e])
      | none => return .branches (← c.split e (← Work.node e))

end Cover

/-- The construction of an automaton.  State 0 is the seed, which asks for nothing and comes before
every word. -/
structure Tableau where
  /-- The states so far without the seed: the first has the number 1. -/
  finished : Array Cover := #[]
  /-- The covers still to be worked off, the next one first. -/
  pending : List Cover
deriving Inhabited

namespace Tableau

/-- The start of the construction: a successor of the seed has to meet the formula. -/
def start (root : NodeId) : Tableau where
  pending := [{ incoming := .singleton 0, new := .singleton root }]

/-- The place of the state with the same subformulas as a cover. -/
def twin? (t : Tableau) (c : Cover) : Option Nat :=
  t.finished.findIdx? fun s => s.old = c.old && s.next = c.next

/-- Make a state of a cover that is worked off and start its successors, or add its incoming
transitions to the state with the same subformulas. -/
def finish (t : Tableau) (c : Cover) : Tableau :=
  match t.twin? c with
  | some i =>
    { t with finished := t.finished.modify i fun s =>
        { s with incoming := s.incoming.union c.incoming } }
  | none =>
    { finished := t.finished.push c
      pending := { incoming := .singleton (t.finished.size + 1), new := c.next } :: t.pending }

/-- Work off all covers.  `fuel` bounds the number of steps. -/
def complete : (fuel : Nat) → Tableau → Work (Array Cover)
  | 0, t => return t.finished
  | n + 1, t =>
    match t.pending with
    | [] => return t.finished
    | c :: pending => do
      match ← c.step with
      | .finished => complete n ({ t with pending }.finish c)
      | .branches covers => complete n { t with pending := covers ++ pending }

/- Over `n` subformulas a cover is worked off in at most `4 * n` steps on each branch, so in fewer
than `2 ^ (4 * n + 1)` steps on all of them, and there are at most `4 ^ n` states besides the
seed, each of which starts one cover. -/

/-- A bound on the number of steps over `n` subformulas. -/
def stepBound (n : Nat) : Nat := Nat.pow 2 (6 * n + 3)

/-- The number of subformulas of a node; the number of all slots if some of them are missing. -/
def subformulaCount (f : Forest) (root : NodeId) : Nat :=
  match f.reachable root with
  | .ok ids => ids.size
  | .error _ => f.capacity

/-- The literals among some subformulas. -/
def literalsOf (ids : NatSet) : Work (List Literal) := ids.toList.filterMapM Work.literal?

/-- The variables that some literals ask to hold. -/
def requiredBy (literals : List Literal) : NatSet :=
  .ofList (literals.filterMap fun | .holds v => some v | _ => none)

/-- The variables that some literals ask not to hold. -/
def forbiddenBy (literals : List Literal) : NatSet :=
  .ofList (literals.filterMap fun | .fails v => some v | _ => none)

/-- The state with a given number. -/
def toState (covers : Array Cover) (i : Nat) (c : Cover) : Work AutomatonState := do
  let literals ← literalsOf c.old
  return {
    next := (List.range covers.size).filter fun j =>
      match covers[j]? with
      | some d => i ∈ d.incoming
      | none => false
    required := requiredBy literals
    forbidden := forbiddenBy literals }

/-- The accept set of `a U b`, stored as the node `u`: the states that do not ask for it or meet
`b`. -/
def fulfilling (covers : Array Cover) (u b : NodeId) : NatSet :=
  (NatSet.interval 0 covers.size).filter fun i =>
    match covers[i]? with
    | some c => u ∉ c.old || b ∈ c.old
    | none => false

/-- The automaton of a formula in negation normal form: its accepted words are those in which the
formula holds, each behind an arbitrary first letter. -/
def construct (root : NodeId) : Work Automaton := do
  let count := subformulaCount (← get).forest root
  let covers := #[({} : Cover)] ++ (← complete (stepBound count) (start root))
  let states ← covers.toList.zipIdx.mapM fun (c, i) => toState covers i c
  let subformulas ← (← get).forest.reachable root
  let acceptSets ← subformulas.toList.filterMapM fun u => do
    match ← Work.node u with
    | .binary .until _ b => return some (fulfilling covers u b)
    | _ => return none
  return { states := states.toArray, initial := [0], acceptSets }

end Tableau

end TemporalCheck
