import TemporalCheck.Fault

/-!
# TemporalCheck.Vars

The names of propositional variables.  Variables are numbered in the order in which they are first
met, and a number, once given, stays with its name.
-/

namespace TemporalCheck

/-- A table of variable names. -/
structure Vars where
  /-- The names by number. -/
  names : List String := []
deriving DecidableEq, Inhabited

namespace Vars

/-- The number of a name that has been met. -/
def index? (v : Vars) (name : String) : Option Nat := v.names.idxOf? name

/-- The name with a given number, if there is one. -/
def name? (v : Vars) (i : Nat) : Option String := v.names[i]?

/-- The name with a given number, promised to exist. -/
def name (v : Vars) (i : Nat) : Except Fault String :=
  match v.name? i with
  | some name => .ok name
  | none => .error .outOfRange

/-- How many names there are. -/
def size (v : Vars) : Nat := v.names.length

/-- The number of a name, which is entered into the table if it is new. -/
def intern (v : Vars) (name : String) : Nat × Vars :=
  match v.index? name with
  | some i => (i, v)
  | none => (v.names.length, ⟨v.names ++ [name]⟩)

/-- Enter several names, one after another. -/
def internAll (v : Vars) (names : List String) : Vars :=
  names.foldl (fun v name => (v.intern name).2) v

end Vars

end TemporalCheck
