import TemporalCheck.NatSet

/-!
# TemporalCheck.Marks

Marks on the numbers below a bound, for searches that come back to the same numbers many times.
A number beyond the bound cannot be marked.  A `Lookup` is a set with marks on its small members,
which answers quickly whether a number belongs to the set.

`reach` marks everything that can be reached from some start by following steps, each step leading
from one number to finitely many.  The search keeps a stack of numbers still to be visited; the
last successor of a number is visited first.
-/

namespace TemporalCheck

/-- Marks on the numbers below a bound. -/
structure Marks where
  bits : Array Bool
deriving DecidableEq

namespace Marks

/-- No number below `n` is marked. -/
def none (n : Nat) : Marks := ⟨Array.replicate n false⟩

/-- Whether a number is marked. -/
def has (m : Marks) (i : Nat) : Bool := m.bits.getD i false

/-- Mark a number. -/
def mark (m : Marks) (i : Nat) : Marks := ⟨m.bits.setIfInBounds i true⟩

/-- Take the mark off a number. -/
def unmark (m : Marks) (i : Nat) : Marks := ⟨m.bits.setIfInBounds i false⟩

/-- The bound below which numbers can be marked. -/
def size (m : Marks) : Nat := m.bits.size

/-- The marked numbers. -/
def toSet (m : Marks) : NatSet := (NatSet.interval 0 m.size).filter m.has

@[simp] theorem size_none (n : Nat) : (none n).size = n := by simp [none, size]

@[simp] theorem size_mark (m : Marks) (i : Nat) : (m.mark i).size = m.size := by simp [mark, size]

@[simp] theorem size_unmark (m : Marks) (i : Nat) : (m.unmark i).size = m.size := by
  simp [unmark, size]

@[simp] theorem has_none (n i : Nat) : (none n).has i = false := by
  simp only [none, has, Array.getD_eq_getD_getElem?, Array.getElem?_replicate]
  split <;> rfl

/-- Only numbers below the bound are marked. -/
theorem lt_size_of_has {m : Marks} {i : Nat} (h : m.has i = true) : i < m.size := by
  by_cases hi : i < m.bits.size
  · exact hi
  · simp [has, Array.getD_eq_getD_getElem?, Array.getElem?_eq_none (Nat.le_of_not_lt hi)] at h

theorem has_mark (m : Marks) (i k : Nat) :
    (m.mark i).has k = (m.has k || (i = k && k < m.size)) := by
  simp only [mark, has, size, Array.getD_eq_getD_getElem?, Array.getElem?_setIfInBounds]
  by_cases hik : i = k
  · subst hik
    by_cases hlt : i < m.bits.size <;> simp [hlt]
  · simp [hik]

theorem has_unmark (m : Marks) (i k : Nat) : (m.unmark i).has k = (m.has k && i ≠ k) := by
  simp only [unmark, has, Array.getD_eq_getD_getElem?, Array.getElem?_setIfInBounds]
  by_cases hik : i = k
  · subst hik
    by_cases hlt : i < m.bits.size <;> simp [hlt]
  · simp [hik]

@[simp] theorem mem_toSet {m : Marks} {i : Nat} : i ∈ m.toSet ↔ m.has i = true := by
  simp only [toSet, NatSet.mem_filter, NatSet.mem_interval, Nat.zero_add, Nat.zero_le, true_and]
  exact ⟨fun h => h.2, fun h => ⟨lt_size_of_has h, h⟩⟩

end Marks

/-! ## Quick membership -/

/-- Marks on the members below `n` of a list. -/
def Marks.ofList (n : Nat) (l : List Nat) : Marks := l.foldl Marks.mark (.none n)

/-- A set prepared for being asked about many numbers. -/
structure Lookup where
  set : NatSet
  marks : Marks

/-- Prepare a set for questions about numbers below `n`; others are answered too, but slowly. -/
def NatSet.lookup (s : NatSet) (n : Nat) : Lookup := ⟨s, .ofList n s.toList⟩

/-- Whether a number belongs to the set. -/
def Lookup.has (l : Lookup) (i : Nat) : Bool :=
  if i < l.marks.size then l.marks.has i else i ∈ l.set

theorem Marks.size_foldl_mark (l : List Nat) (m : Marks) : (l.foldl mark m).size = m.size := by
  induction l generalizing m with
  | nil => rfl
  | cons n ns ih => rw [List.foldl_cons, ih, size_mark]

theorem Marks.has_foldl_mark (l : List Nat) (m : Marks) (i : Nat) :
    (l.foldl mark m).has i = (m.has i || (i ∈ l && i < m.size)) := by
  induction l generalizing m with
  | nil => simp
  | cons n ns ih =>
    rw [List.foldl_cons, ih, has_mark, size_mark]
    by_cases h₁ : n = i
    · subst h₁; by_cases h₂ : n < m.size <;> simp [h₂]
    · have h₁' : i ≠ n := fun h => h₁ h.symm
      simp [h₁, h₁']

/-- Asking a prepared set is asking the set. -/
@[simp] theorem NatSet.has_lookup (s : NatSet) (n i : Nat) :
    (s.lookup n).has i = decide (i ∈ s) := by
  unfold Lookup.has NatSet.lookup Marks.ofList
  simp only [Marks.size_foldl_mark, Marks.size_none, Marks.has_foldl_mark, Marks.has_none]
  by_cases h : i < n <;> simp [h]

/-! ## Searches -/

/-- Mark the numbers that are reached from a stack of starts, in addition to those marked already.
`next` may refuse to answer, and the search then stops.  `fuel` bounds how many numbers are
marked. -/
def reach {ε : Type} (next : Nat → Except ε (List Nat)) :
    (fuel : Nat) → (stack : List Nat) → (seen : Marks) → Except ε Marks
  | 0, _, seen => .ok seen
  | n + 1, stack, seen =>
    match stack.dropWhile seen.has with
    | [] => .ok seen
    | x :: stack => do
      let found ← next x
      reach next n (found.reverse ++ stack) (seen.mark x)

/-- One number leads to another in finitely many steps. -/
inductive Leads {ε : Type} (next : Nat → Except ε (List Nat)) : Nat → Nat → Prop where
  | refl (a : Nat) : Leads next a a
  | step {a b c : Nat} {found : List Nat} :
    next a = .ok found → b ∈ found → Leads next b c → Leads next a c

end TemporalCheck
