import TemporalCheck.Model
import TemporalCheck.Token.Stream
import TemporalCheck.Vars

/-!
# TemporalCheck.Model.Reader

Reading a model definition:

```text
model  := '{' record* '}'
record := '>'? name successor+ variable+
```

A `>` marks an initial state; without any mark all states are initial.  Names and successors are
integers, and `_` stands for no variable.  The records are read first.  Only then are they checked:
no name may be declared twice, and every successor must be declared, before or after it is used.
-/

namespace TemporalCheck

/-- One line of a model definition. -/
structure Record where
  name : Int
  span : Span
  isInitial : Bool
  /-- The successors and where they stand. -/
  targets : List (Int × Span)
  /-- The variables that hold, without `_`. -/
  holding : List String

namespace Stream

/-- Read tokens of one kind, at least one, as long as there are any. -/
def readRun {α : Type} (kind : Kind) (read : Token → Except ParseError α) :
    Stream → Scan (List α × Stream)
  | [] => throw (.broken .outOfRange)
  | t :: s =>
    if t.kind = kind then do
      let first ← read t
      if ← atKind s kind then
        let (more, s) ← readRun kind read s
        return (first :: more, s)
      else return ([first], s)
    else throw (.refused (.unexpectedToken (.token kind) t))

/-- Read the mark of an initial state, if there is one, and give whether there was. -/
def readMark (s : Stream) : Except Fault (Bool × Stream) := do
  if ← s.atKind .initialMark then return (true, ← s.skip) else return (false, s)

/-- Read one record. -/
def readRecord (s : Stream) : Scan (Record × Stream) := do
  let (isInitial, s) ← s.readMark
  let (token, s) ← s.expect .integer
  let name ← token.integer
  let (targets, s) ← s.readRun .integer fun t => return (← t.integer, t.span)
  let (holding, s) ← s.readRun .proposition fun t => return t.text
  return ({ name, span := token.span, isInitial, targets, holding := holding.filter (· ≠ "_") }, s)

theorem length_readMark_le {s rest : Stream} {isInitial : Bool}
    (h : s.readMark = .ok (isInitial, rest)) : rest.length ≤ s.length := by
  cases s with
  | nil => cases h
  | cons t ts =>
    obtain ⟨going, -, h⟩ := bind_eq_ok_iff.1 h
    cases going with
    | true =>
      cases h
      split <;> simp
    | false =>
      cases h
      exact Nat.le_refl _

theorem length_expect_integer_lt {s rest : Stream} {t : Token}
    (h : s.expect .integer = .ok (t, rest)) : rest.length < s.length := by
  cases s with
  | nil => cases h
  | cons u us =>
    simp only [expect, peek_cons, bind_eq_ok_iff, lift_eq_ok_iff, Except.ok.injEq] at h
    obtain ⟨_, rfl, h⟩ := h
    split at h
    · next hk =>
      simp only [skip, hk, bind_eq_ok_iff, lift_eq_ok_iff, Except.ok.injEq] at h
      obtain ⟨_, rfl, h⟩ := h
      cases h
      simp
    · cases h

theorem length_readRun_lt {α : Type} {kind : Kind} {read : Token → Except ParseError α}
    {s rest : Stream} {run : List α} (h : s.readRun kind read = .ok (run, rest)) :
    rest.length < s.length := by
  induction s generalizing run with
  | nil => cases h
  | cons t s ih =>
    rw [readRun] at h
    split at h
    · simp only [bind_eq_ok_iff, raise_eq_ok_iff, lift_eq_ok_iff] at h
      obtain ⟨first, -, going, -, h⟩ := h
      split at h
      · obtain ⟨⟨more, s'⟩, hmore, h⟩ := bind_eq_ok_iff.1 h
        cases h
        exact Nat.lt_succ_of_lt (ih hmore)
      · cases h
        simp
    · cases h

/-- A record takes at least one token. -/
theorem length_readRecord_lt {s rest : Stream} {r : Record}
    (h : s.readRecord = .ok (r, rest)) : rest.length < s.length := by
  simp only [readRecord, bind_eq_ok_iff, lift_eq_ok_iff, Prod.exists] at h
  obtain ⟨initial, s₁, hmark, t, s₂, hname, i, -, targets, s₃, htargets, holding, s₄, hholding,
    h⟩ := h
  cases h
  have h₁ := length_readMark_le hmark
  have h₂ := length_expect_integer_lt hname
  have h₃ := length_readRun_lt htargets
  have h₄ := length_readRun_lt hholding
  omega

/-- The records up to the closing brace, and what follows it.  On failure, the records that were
read completely. -/
def readRecords (s : Stream) :
    Refusable (ParseError × List Record) (List Record × Stream) := do
  if ← s.atKind .modelClose then return ([], ← s.skip)
  match _h : s.readRecord with
  | .error stop => throw (stop.map (·, []))
  | .ok (record, rest) =>
    let (records, rest) ←
      (readRecords rest).mapError (.map fun (cause, records) => (cause, record :: records))
    return (record :: records, rest)
termination_by s.length
decreasing_by exact length_readRecord_lt _h

end Stream

namespace Model

/-- Declare the state of a record, which must not be declared yet. -/
def declare (m : Model) (r : Record) : Refusable ModelError Model :=
  if (m.index? r.name).isSome then .error (.refused (.duplicateState r.name r.span))
  else .ok (m.addState r.name).2

/-- Add a successor of a record, which has to be declared. -/
def addTarget (source : Int) (m : Model) (target : Int × Span) : Refusable ModelError Model :=
  if (m.index? target.1).isSome then .ok (m.addTransition source target.1)
  else .error (.refused (.unknownTransition source target.1 target.2))

/-- Add what a record says about its state. -/
def describe (vars : Vars) (m : Model) (r : Record) : Refusable ModelError Model := do
  let m ← r.targets.foldlM (addTarget r.name) m
  let m := (r.holding.filterMap vars.index?).foldl (fun m v => m.addVariable r.name v) m
  return if r.isInitial then m.setInitial r.name else m

/-- The model that some records define.  All states are declared before anything is said about one
of them. -/
def ofRecords (vars : Vars) (records : List Record) : Refusable ModelError Model := do
  let m ← records.foldlM declare .empty
  let m ← records.foldlM (describe vars) m
  let varNames ← (List.range vars.size).mapM (m := Except Fault) vars.name
  let initial := if m.initial.isEmpty then m.states.map Prod.fst else m.initial
  return { m with initial, varNames }

/-- Read a model definition.  The variables of all records that were read are entered into the
table, also if the definition is refused. -/
def read (vars : Vars) (s : Stream) : Except Fault (Except Error (Model × Stream) × Vars) :=
  match s.expect .modelOpen with
  | .error (.broken fault) => .error fault
  | .error (.refused cause) => .ok (.error (.parse cause), vars)
  | .ok (_, s) =>
    match s.readRecords with
    | .error (.broken fault) => .error fault
    | .error (.refused (cause, records)) =>
      .ok (.error (.parse cause), vars.internAll (records.flatMap Record.holding))
    | .ok (records, rest) =>
      let vars := vars.internAll (records.flatMap Record.holding)
      match ofRecords vars records with
      | .error (.broken fault) => .error fault
      | .error (.refused cause) => .ok (.error (.model cause), vars)
      | .ok m => .ok (.ok (m, rest), vars)

end Model

end TemporalCheck
