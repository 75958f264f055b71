import TemporalCheck.Automaton.Degeneralize
import TemporalCheck.Automaton.Emptiness
import TemporalCheck.Automaton.OfModel
import TemporalCheck.Automaton.Product
import TemporalCheck.Automaton.Reduce
import TemporalCheck.Model
import TemporalCheck.Tableau

/-!
# TemporalCheck.Linear

Checking linear-time formulas.

* A model satisfies a formula if no path of it is accepted by the automaton of the negated
  formula.  A path that is accepted is a counterexample.
* Two formulas are equivalent if neither allows a run that the other forbids, which is to say that
  the automaton of the one and the automaton of the negated other accept no word in common.
-/

namespace TemporalCheck

/-- A run shown by the labels of its states. -/
abbrev Trace := Lasso String

namespace Linear

/-- The label of a state, or its number if it has none. -/
def stateText (b : Automaton) (s : Nat) : Except Fault String :=
  return (← b.label s).getD (toString s)

/-- A run shown by the labels of its states, without the first `skip` of them. -/
def traceOf (b : Automaton) (skip : Nat) (run : Lasso Nat) : Except Fault Trace := do
  let stem ← (run.stem.drop skip).mapM (stateText b)
  let cycle ← run.cycle.mapM (stateText b)
  return { stem, cycle }

/-- The ordinary automaton of a linear-time formula, or of its negation. -/
def automaton (f : Formula) (negated : Bool) : Attempt Automaton := do
  if !f.isLinear then throw (.check (.notLinear (← f.render (← get))))
  let f ← if negated then f.negate else pure f
  let normal ← f.normalized
  let general ← Tableau.construct normal.root
  general.degeneralize.reduce

/-- An accepted run of an automaton, as far as one can be found. -/
def acceptedRun? (b : Automaton) : Except Fault (Option (Lasso Nat)) :=
  return (← b.witness?).bind Lasso.ofWitness

/-- The trace of an accepted run, as far as one can be found, without its first `skip` states. -/
def acceptedTrace? (b : Automaton) (skip : Nat) : Except Fault (Option Trace) := do
  match ← acceptedRun? b with
  | some run => return some (← traceOf b skip run)
  | none => return none

/-! ## Checking a model -/

/-- What a check finds. -/
inductive Verdict where
  | satisfied
  | counterexample (trace : Trace)
deriving DecidableEq

/-- The text of a verdict. -/
def Verdict.render : Verdict → String
  | .satisfied => "Satisfied."
  | .counterexample trace => "Not satisfied; counterexample: " ++ trace.render

/-- A check and the automata it was carried out with. -/
structure Check where
  verdict : Verdict
  /-- The variables of the formula that hold nowhere in the model and have not been reported. -/
  unused : List String
  formula : Automaton
  model : Automaton
  product : Automaton

/-- The variables of a formula that are to be reported. -/
def unusedVars (m : Model) (f : Formula) : Work (List String) := do
  let ids ← (← get).forest.reachable f.root
  let names ← ids.toList.filterMapM fun id => do
    match ← Work.node id with
    | .prop name => return some name
    | _ => return none
  names.filterM m.reportUnused

/-- Check that every path of a model satisfies a formula.  The first state of a run of the product
stands before the start of the model and is not shown. -/
def check (m : Model) (f : Formula) : Attempt Check := do
  if !m.isDefined then throw (.check .undefinedModel)
  let formula ← automaton f true
  let unused ← unusedVars m f
  let model ← Automaton.ofModel m (← get).vars
  let product ← (← model.product formula).reduce
  let verdict :=
    match ← acceptedTrace? product 1 with
    | some trace => .counterexample trace
    | none => .satisfied
  return { verdict, unused, formula, model, product }

/-! ## Comparing two formulas -/

/-- One direction of a comparison. -/
structure Pass where
  /-- The automaton of the one formula, labelled with its literals. -/
  first : Automaton
  /-- The automaton of the negated other. -/
  second : Automaton
  product : Automaton
  /-- A run that the one formula allows and the other does not. -/
  allows : Option Trace

/-- Look for a run that `f` allows and `g` does not. -/
def pass (f g : Formula) : Attempt Pass := do
  let first ← automaton f false
  let second ← automaton g true
  let first ← first.labelLiterals (← get).vars
  let product ← (← first.product second).reduce
  let allows ← acceptedTrace? product 0
  return { first, second, product, allows }

/-- Both directions of a comparison. -/
structure Comparison where
  first : Pass
  second : Pass

/-- Whether the two formulas have the same runs. -/
def Comparison.isEquivalence (c : Comparison) : Bool :=
  c.first.allows.isNone && c.second.allows.isNone

/-- Compare the runs of two formulas. -/
def compare (f g : Formula) : Attempt Comparison := do
  let first ← pass f g
  let second ← pass g f
  return { first, second }

end Linear

end TemporalCheck
