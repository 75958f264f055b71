import TemporalCheck.Error
import TemporalCheck.Forest.Build
import TemporalCheck.Vars

/-!
# TemporalCheck.Context

What the readers and checkers of one session share: the table of variables, the stored formulas,
the way formulas are printed, and the variables that a warning has been given for.

Operations on a context come in two strengths: `Work` can only break off with a fault, an
`Attempt` can also end in an error, and then keeps what it did to the context before.
-/

namespace TemporalCheck

/-- The shared state of a session. -/
structure Context where
  vars : Vars := {}
  forest : Forest := {}
  /-- Print every parenthesis instead of the necessary ones. -/
  allParens : Bool := false
  /-- The variables that have been reported as unused. -/
  warned : NatSet := ∅
deriving DecidableEq, Inhabited

/-- Forget variables, formulas and warnings, but not the way of printing. -/
def Context.clear (c : Context) : Context := { allParens := c.allParens }

/-- Operations on a context. -/
abbrev Work := StateT Context (Except Fault)

/-- Operations on a context that may end in an error. -/
abbrev Attempt := ExceptT Error Work

/-- Building in a forest is work on the context that holds it. -/
instance : MonadLift Build Work where
  monadLift b := fun c => do
    let (a, forest) ← b c.forest
    return (a, { c with forest })

/-- Reading is an attempt that leaves the context as it is. -/
instance : MonadLift Scan Attempt where
  monadLift
    | .ok a => pure a
    | .error (.refused cause) => throw (.parse cause)
    | .error (.broken fault) => throwThe Fault fault

/-- A formula that says of one variable, or of none, whether it holds. -/
inductive Literal where
  | top
  | bottom
  | holds (var : Nat)
  | fails (var : Nat)
deriving DecidableEq

namespace Literal

/-- The literal that says the opposite. -/
def negate : Literal → Literal
  | .top => .bottom
  | .bottom => .top
  | .holds v => .fails v
  | .fails v => .holds v

/-- A number for each literal, opposite for opposite literals and never zero. -/
def code : Literal → Int
  | .top => 1
  | .bottom => -1
  | .holds v => 2 + v
  | .fails v => -(2 + v)

/-- The codes of literals about this many variables are signed numbers of 32 bits. -/
def varLimit : Nat := UInt32.size / 2 - 2

@[simp] theorem code_negate (l : Literal) : l.negate.code = -l.code := by
  cases l <;> simp [negate, code]

theorem code_ne_zero (l : Literal) : l.code ≠ 0 := by
  cases l <;> simp only [code] <;> omega

/-- The variable that a literal is about. -/
def var? : Literal → Option Nat
  | .top | .bottom => none
  | .holds v | .fails v => some v

/-- The code of a literal is a signed number of 32 bits if that of its variable is small enough. -/
theorem toInt_ofInt_code {l : Literal} (h : ∀ v, l.var? = some v → v < varLimit) :
    (Int32.ofInt l.code).toInt = l.code := by
  have hlimit : varLimit = 2147483646 := rfl
  cases l with
  | top | bottom => rfl
  | holds v | fails v =>
    have hv := h v rfl
    apply Int32.toInt_ofInt_of_le <;> simp only [code] <;> omega

end Literal

namespace Context

/-- The literal that an atom is, if its variable has a number. -/
def atom? (c : Context) : Node → Option Literal
  | .top => some .top
  | .bottom => some .bottom
  | .prop name => (c.vars.index? name).map .holds
  | _ => none

/-- The literal that a node is, if its variable has a number. -/
def literal? (c : Context) (id : NodeId) : Option Literal :=
  match c.forest.node? id with
  | some (.unary .not arg) => ((c.forest.node? arg).bind c.atom?).map Literal.negate
  | some other => c.atom? other
  | none => none

end Context

namespace Work

/-- The node with a given number. -/
def node (id : NodeId) : Work Node := do (← get).forest.get id

/-- The number of a variable. -/
def var (name : String) : Work Nat := do
  let c ← get
  let (i, vars) := c.vars.intern name
  set { c with vars }
  return i

/-- The literal that an atom is.  Its variable gets a number if it has none. -/
def atom? : Node → Work (Option Literal)
  | .top => return some .top
  | .bottom => return some .bottom
  | .prop name => return some (.holds (← var name))
  | _ => return none

/-- The literal that a node is: an atom or a negated atom. -/
def literal? (id : NodeId) : Work (Option Literal) := do
  match ← node id with
  | .unary .not arg => return (← atom? (← node arg)).map Literal.negate
  | other => atom? other

/-- Note that a warning is due for a variable.  Gives whether it is the first. -/
def warn (var : Nat) : Work Bool := do
  let c ← get
  set { c with warned := c.warned.insert var }
  return !decide (var ∈ c.warned)

end Work

end TemporalCheck
