import TemporalCheck.Forest.Node

/-!
# TemporalCheck.Fault

Broken agreements between the parts of the library.  A fault is never an answer to an input: it
says that an operation was called with a handle, a number or an automaton that its caller promised
not to use.

States and the bytes of a text are numbered with 64 bits.  Only what a caller hands in can lead
beyond such a number: an automaton with transitions to states that do not exist, or a token that
claims to stand at the very end of all texts.

Some numbers have 32 bits, and no fault tells when they run out.  Lines and columns start again at
zero, which the results about places say.  The numbers of nodes and the codes of literals are taken
to be exact: they fit as long as a forest has at most `Forest.slotLimit` slots and a table at most
`Literal.varLimit` variables.
-/

namespace TemporalCheck

/-- The two families of temporal logic, by what time looks like in them. -/
inductive Time where
  | linear
  | branching
deriving DecidableEq

/-- A broken agreement. -/
inductive Fault where
  /-- A node was asked for that is not in the forest. -/
  | deadNode (id : NodeId)
  /-- Following operands downwards from a node never ends. -/
  | endless (id : NodeId)
  /-- A model has no state with this number. -/
  | noStateNumbered (id : Nat)
  /-- A model has no state with this name. -/
  | noStateNamed (name : Int)
  /-- An operator was met that the normal form does not have. -/
  | leftover (time : Time) (node : Node)
  /-- A product was asked for of an automaton without exactly one accept set. -/
  | generalProduct
  /-- A number is too large for what it counts. -/
  | outOfRange
deriving DecidableEq

/-- The wording of a fault; a number out of range has none. -/
def Fault.message? : Fault → Option String
  | .deadNode id => some ("formula node #" ++ toString id ++ " is not live")
  | .endless id => some ("formula node #" ++ toString id ++ " lies below itself")
  | .noStateNumbered id => some ("no state with id " ++ toString id)
  | .noStateNamed name => some ("no state named " ++ toString name)
  | .leftover .linear node =>
    some ("operator " ++ node.describe ++ " left in normalized LTL formula")
  | .leftover .branching node =>
    some ("operator " ++ node.describe ++ " left in normalized CTL formula")
  | .generalProduct => some "product of generalized automata"
  | .outOfRange => none

/-! ## Numbers of states and places -/

/-- Numbers of states and places in a text are below this. -/
def numberLimit : Nat := UInt64.size

/-- A computed number of a state or a place, which has to be below the limit. -/
def checkedNumber (n : Nat) : Except Fault Nat :=
  if n < numberLimit then .ok n else .error .outOfRange

/-! ## Operations that may be refused -/

/-- Why an operation that may be refused has no result. -/
inductive Stop (ε : Type) where
  /-- It was refused for a reason. -/
  | refused (reason : ε)
  /-- It met a fault. -/
  | broken (fault : Fault)
deriving DecidableEq

/-- The same with another reason. -/
def Stop.map {ε ε' : Type} (f : ε → ε') : Stop ε → Stop ε'
  | .refused reason => .refused (f reason)
  | .broken fault => .broken fault

/-- Operations that may be refused, for reasons of the type `ε`. -/
abbrev Refusable (ε : Type) := Except (Stop ε)

/-- An operation that is never refused. -/
instance {ε : Type} : MonadLift (Except Fault) (Refusable ε) where
  monadLift x := x.mapError .broken

/-- An operation that meets no fault. -/
instance {ε : Type} : MonadLift (Except ε) (Refusable ε) where
  monadLift x := x.mapError .refused

/-! ## Outcomes of steps -/

section Outcomes

variable {ε α β : Type}

/-- What follows a step with a known result goes on with it. -/
theorem bind_of_eq_ok {x : Except ε α} {k : α → Except ε β} {a : α} (h : x = .ok a) :
    x >>= k = k a := by
  rw [h]
  rfl

@[simp] theorem pure_eq_ok_iff {a b : α} : (pure a : Except ε α) = .ok b ↔ a = b := by
  simp [pure, Except.pure]

@[simp] theorem pure_ne_error {a : α} {e : ε} : (pure a : Except ε α) ≠ .error e := nofun

theorem bind_eq_ok_iff {x : Except ε α} {k : α → Except ε β} {b : β} :
    x >>= k = .ok b ↔ ∃ a, x = .ok a ∧ k a = .ok b := by
  cases x <;> simp [bind, Except.bind]

theorem bind_eq_error_iff {x : Except ε α} {k : α → Except ε β} {e : ε} :
    x >>= k = .error e ↔ x = .error e ∨ ∃ a, x = .ok a ∧ k a = .error e := by
  cases x <;> simp [bind, Except.bind]

theorem map_eq_ok_iff {x : Except ε α} {f : α → β} {b : β} :
    f <$> x = .ok b ↔ ∃ a, x = .ok a ∧ f a = b := by
  cases x <;> simp [Functor.map, Except.map]

theorem mapError_eq_ok_iff {ε' : Type} {x : Except ε α} {f : ε → ε'} {a : α} :
    x.mapError f = .ok a ↔ x = .ok a := by
  cases x with
  | ok b =>
    have hok : (Except.ok b : Except ε α).mapError f = .ok b := rfl
    simp [hok]
  | error cause =>
    have herror : (Except.error cause : Except ε α).mapError f = .error (f cause) := rfl
    simp [herror]

theorem mapError_eq_error_iff {ε' : Type} {x : Except ε α} {f : ε → ε'} {e : ε'} :
    x.mapError f = .error e ↔ ∃ cause, x = .error cause ∧ f cause = e := by
  cases x with
  | ok b =>
    have hok : (Except.ok b : Except ε α).mapError f = .ok b := rfl
    simp [hok]
  | error cause =>
    have herror : (Except.error cause : Except ε α).mapError f = .error (f cause) := rfl
    simp [herror]

@[simp] theorem lift_ok (a : α) : (liftM (.ok a : Except Fault α) : Refusable ε α) = pure a := rfl

/-- What is never refused has a result where it has one without being able to be refused. -/
@[simp] theorem lift_eq_ok_iff {x : Except Fault α} {a : α} :
    (liftM x : Refusable ε α) = .ok a ↔ x = .ok a := mapError_eq_ok_iff

@[simp] theorem raise_ok (a : α) : (liftM (.ok a : Except ε α) : Refusable ε α) = pure a := rfl

/-- What meets no fault has a result where it has one without being able to meet one. -/
@[simp] theorem raise_eq_ok_iff {x : Except ε α} {a : α} :
    (liftM x : Refusable ε α) = .ok a ↔ x = .ok a := mapError_eq_ok_iff

@[simp] theorem raise_eq_error_iff {x : Except ε α} {stop : Stop ε} :
    (liftM x : Refusable ε α) = .error stop ↔
      ∃ reason, x = .error reason ∧ .refused reason = stop :=
  mapError_eq_error_iff

end Outcomes

end TemporalCheck
