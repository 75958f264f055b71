import TemporalCheck.Context
import TemporalCheck.Text.Layout

/-!
# TemporalCheck.Model

Models: finite structures of named states.  A state has successors and a set of variables that
hold in it; some states are initial.  States are numbered in the order in which they are declared.
A successor need not be declared, and neither need an initial state; such names are passed over
by the checkers.

A model is printed with one line for each state: a mark for initial states, the name, the successors
in columns, and the variables that hold.  More than four successors go on to further lines.
-/

namespace TemporalCheck

/-- What a model says about a state. -/
structure ModelState where
  /-- The names of the successors, in order and with repetitions. -/
  successors : List Int := []
  /-- The numbers of the variables that hold. -/
  valuation : NatSet := ∅
deriving DecidableEq, Inhabited

/-- A finite structure of named states. -/
structure Model where
  /-- The declared states by number. -/
  states : List (Int × ModelState) := []
  /-- The names of the initial states, none of them twice. -/
  initial : List Int := []
  /-- The variables that hold in some state. -/
  used : NatSet := ∅
  /-- The names of the variables known when the model was read, for printing. -/
  varNames : List String := []
  /-- No name is declared twice. -/
  names_nodup : (states.map Prod.fst).Nodup := by first | exact List.Pairwise.nil | decide
deriving DecidableEq, Inhabited

namespace Model

/-- A model without states. -/
def empty : Model := {}

/-- The number of declared states. -/
def size (m : Model) : Nat := m.states.length

/-- Whether any state has been declared. -/
def isDefined (m : Model) : Bool := !m.states.isEmpty

/-- The number of the state with a given name. -/
def index? (m : Model) (name : Int) : Option Nat := m.states.findIdx? (·.1 = name)

/-- The state with a given name. -/
def state? (m : Model) (name : Int) : Option ModelState := m.states.lookup name

/-- The number of the state with a given name, which has to exist. -/
def index (m : Model) (name : Int) : Except ModelError Nat :=
  match m.index? name with
  | some id => .ok id
  | none => .error (.unknownState name)

/-- The name of the state with a given number. -/
def name (m : Model) (id : Nat) : Except Fault Int :=
  match m.states[id]? with
  | some (name, _) => .ok name
  | none => .error (.noStateNumbered id)

/-- The state with a given name, promised to exist. -/
def state (m : Model) (name : Int) : Except Fault ModelState :=
  match m.state? name with
  | some s => .ok s
  | none => .error (.noStateNamed name)

/-- The names of the successors of a state. -/
def successors (m : Model) (name : Int) : Except Fault (List Int) :=
  return (← m.state name).successors

/-- The number of successors of a state. -/
def degree (m : Model) (name : Int) : Except Fault Nat :=
  return (← m.successors name).length

/-- The name of a successor of a state, counted from zero. -/
def successor (m : Model) (name : Int) (k : Nat) : Except Fault Int := do
  match (← m.successors name)[k]? with
  | some target => return target
  | none => throw .outOfRange

/-- Whether a variable holds in a state. -/
def holds (m : Model) (name : Int) (var : Nat) : Except Fault Bool :=
  return decide (var ∈ (← m.state name).valuation)

/-- Whether a variable holds in any state. -/
def uses (m : Model) (var : Nat) : Bool := var ∈ m.used

/-- Whether a state is initial. -/
def isInitial (m : Model) (name : Int) : Bool := name ∈ m.initial

/-- The numbers of the declared successors of the state with a given number. -/
def successorIds (m : Model) (id : Nat) : Except Fault (List Nat) := do
  return (← m.successors (← m.name id)).filterMap m.index?

/-! ## Building models -/

theorem index?_isSome_iff {m : Model} {name : Int} :
    (m.index? name).isSome = true ↔ name ∈ m.states.map Prod.fst := by
  simp [index?, List.findIdx?_isSome]

/-- A state, changed if it has the given name. -/
def changeNamed (name : Int) (change : ModelState → ModelState) (p : Int × ModelState) :
    Int × ModelState :=
  if p.1 = name then (p.1, change p.2) else p

/-- Changing what is said about a state changes no name. -/
theorem map_fst_changeNamed (states : List (Int × ModelState)) (name : Int)
    (change : ModelState → ModelState) :
    (states.map (changeNamed name change)).map Prod.fst = states.map Prod.fst := by
  rw [List.map_map]
  refine List.map_congr_left fun p _ => ?_
  simp only [Function.comp, changeNamed]
  split <;> rfl

/-- Change what is said about a state, which is declared first if it is not yet. -/
def update (m : Model) (name : Int) (change : ModelState → ModelState) : Model :=
  if h : (m.index? name).isSome then
    { m with
      states := m.states.map (changeNamed name change)
      names_nodup := map_fst_changeNamed m.states name change ▸ m.names_nodup }
  else
    { m with
      states := m.states ++ [(name, change {})]
      names_nodup := by
        rw [index?_isSome_iff] at h
        rw [List.map_append, List.nodup_append]
        exact ⟨m.names_nodup, by simp, by rintro a ha b hb rfl; simp_all⟩ }

/-- Declare a state.  Gives its number, which is the old one if it was declared before. -/
def addState (m : Model) (name : Int) : Nat × Model :=
  ((m.index? name).getD m.size, m.update name id)

/-- Add a successor to a state. -/
def addTransition (m : Model) (source target : Int) : Model :=
  m.update source fun s => { s with successors := s.successors ++ [target] }

/-- Let a variable hold in a state. -/
def addVariable (m : Model) (name : Int) (var : Nat) : Model :=
  { m.update name fun s => { s with valuation := s.valuation.insert var } with
    used := m.used.insert var }

/-- Mark a state as initial; it need not be declared. -/
def setInitial (m : Model) (name : Int) : Model :=
  if name ∈ m.initial then m else { m with initial := m.initial ++ [name] }

/-- Whether two models say the same, in whatever order they declare their states and name the
initial ones. -/
def same (m₁ m₂ : Model) : Bool :=
  m₁.states.length = m₂.states.length &&
  m₁.states.all (fun (n, s) => m₂.state? n = some s) &&
  m₁.initial.length = m₂.initial.length &&
  m₁.initial.all (fun n => n ∈ m₂.initial) &&
  m₁.used = m₂.used && m₁.varNames = m₂.varNames

/-! ## Variables that hold nowhere -/

/-- Whether a variable of a formula is to be reported: it holds nowhere in the model and has not
been reported before. -/
def reportUnused (m : Model) (name : String) : Work Bool := do
  let var ← Work.var name
  if m.uses var then return false else Work.warn var

/-! ## Models as text -/

open Text

/-- How many successors stand on a line. -/
def perLine : Nat := 4

/-- The width of a name. -/
def nameWidth : Nat := 4

/-- The successors in columns, and what fills the last line up to the variables.  `used` of the
columns of the current line are taken. -/
def columns : (used : Nat) → List Int → String
  | used, [] => spaces ((perLine - used) * nameWidth + 1)
  | used, target :: targets =>
    if used = perLine then
      "\n" ++ spaces (nameWidth + 1) ++ alignRight nameWidth (toString target) ++ columns 1 targets
    else alignRight nameWidth (toString target) ++ columns (used + 1) targets

/-- The name of a variable, made up from its number if it was not known to the model. -/
def varName (m : Model) (var : Nat) : String := m.varNames[var]?.getD ("v" ++ toString var)

/-- The line, or the lines, of a state. -/
def renderState (m : Model) (name : Int) (s : ModelState) : String :=
  (if m.isInitial name then ">" else " ") ++ alignRight nameWidth (toString name) ++ ":" ++
    columns 0 s.successors ++ String.join (s.valuation.toList.map fun v => m.varName v ++ " ")

/-- The text of a model. -/
def render (m : Model) : String :=
  "Kripke model:\n" ++ String.join (m.states.map fun (name, s) => m.renderState name s ++ "\n")

end Model

end TemporalCheck
