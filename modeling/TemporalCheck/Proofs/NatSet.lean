import Mathlib.Data.Finset.Card
import Mathlib.Data.Finset.Prod
import Mathlib.Data.Finset.Powerset
import TemporalCheck.NatSet

/-!
# TemporalCheck.Proofs.NatSet

Sets of numbers and how many members they have.  The number of members is counted by turning a set
into a finite set of the library, where inserting, taking off the largest member and being a subset
have their known effect on it.
-/

namespace TemporalCheck.NatSet

variable {s t : NatSet}

theorem nodup_toList (s : NatSet) : s.toList.Nodup := s.ascending.imp Nat.ne_of_lt

/-- The set as a finite set. -/
def toFinset (s : NatSet) : Finset Nat := ⟨s.toList, s.nodup_toList⟩

@[simp] theorem mem_toFinset {n : Nat} : n ∈ s.toFinset ↔ n ∈ s := Iff.rfl

@[simp] theorem card_toFinset (s : NatSet) : s.toFinset.card = s.size := rfl

theorem toFinset_injective : Function.Injective toFinset := by
  intro s t h
  ext n
  rw [← mem_toFinset, h, mem_toFinset]

theorem size_le_of_subset (h : ∀ n ∈ s, n ∈ t) : s.size ≤ t.size := by
  rw [← card_toFinset, ← card_toFinset]
  exact Finset.card_le_card h

theorem toFinset_insert (s : NatSet) (n : Nat) :
    (s.insert n).toFinset = Insert.insert n s.toFinset := by
  ext k
  simp

theorem size_insert_of_not_mem {n : Nat} (h : n ∉ s) : (s.insert n).size = s.size + 1 := by
  rw [← card_toFinset, toFinset_insert, Finset.card_insert_of_notMem (by simpa using h),
    card_toFinset]

theorem size_insert_le (s : NatSet) (n : Nat) : (s.insert n).size ≤ s.size + 1 := by
  rw [← card_toFinset, toFinset_insert, ← card_toFinset]
  exact Finset.card_insert_le n s.toFinset

/-- A set without members is the empty one. -/
theorem eq_empty_iff : s = ∅ ↔ ∀ n, n ∉ s := by
  constructor
  · intro h n hn
    rw [h] at hn
    exact not_mem_empty n hn
  · intro h
    ext n
    exact ⟨fun hn => absurd hn (h n), fun hn => absurd hn (not_mem_empty n)⟩

/-! ## Taking off the largest member -/

theorem mem_of_popMax?_fst {n : Nat} {rest : NatSet} (h : s.popMax? = some (n, rest)) : n ∈ s :=
  (mem_of_popMax? h).2 (.inl rfl)

theorem mem_of_popMax?_rest {n k : Nat} {rest : NatSet} (h : s.popMax? = some (n, rest))
    (hk : k ∈ rest) : k ∈ s :=
  (mem_of_popMax? h).2 (.inr hk)

/-- Taking the largest member away makes a set smaller by one. -/
theorem size_popMax? {n : Nat} {rest : NatSet} (h : s.popMax? = some (n, rest)) :
    s.size = rest.size + 1 := by
  unfold popMax? at h
  obtain ⟨a, ha, hr⟩ := Option.map_eq_some_iff.1 h
  injection hr with h₁ h₂
  subst h₁ h₂
  obtain ⟨init, hl⟩ := List.getLast?_eq_some_iff.1 ha
  simp [size, hl]

/-- Inserting the numbers of a list adds at most as many as there are. -/
theorem size_foldl_insert_le (ids : List Nat) (s : NatSet) :
    (ids.foldl .insert s).size ≤ s.size + ids.length := by
  induction ids generalizing s with
  | nil => simp
  | cons n ids ih =>
    have h₁ := ih (s.insert n)
    have h₂ := size_insert_le s n
    simp only [List.foldl_cons, List.length_cons]
    omega

/-- Inserting numbers one after another gives a set of all of them. -/
@[simp] theorem mem_foldl_insert {ids : List Nat} {s : NatSet} {k : Nat} :
    k ∈ ids.foldl .insert s ↔ k ∈ ids ∨ k ∈ s := by
  induction ids generalizing s with
  | nil => simp
  | cons n ids ih =>
    rw [List.foldl_cons, ih, mem_insert, List.mem_cons, or_assoc]
    exact or_left_comm

/-- Over `n` numbers there are `4 ^ n` pairs of sets. -/
theorem length_le_of_pairs {l : List (NatSet × NatSet)} {u : NatSet} (hnodup : l.Nodup)
    (h : ∀ p ∈ l, (∀ n ∈ p.1, n ∈ u) ∧ ∀ n ∈ p.2, n ∈ u) : l.length ≤ 4 ^ u.size := by
  let pairs := l.map fun p => (p.1.toFinset, p.2.toFinset)
  have hinj : Function.Injective fun p : NatSet × NatSet => (p.1.toFinset, p.2.toFinset) := by
    intro p q hpq
    obtain ⟨h₁, h₂⟩ := Prod.mk.inj hpq
    exact Prod.ext (toFinset_injective h₁) (toFinset_injective h₂)
  have hsub : pairs.toFinset ⊆ u.toFinset.powerset ×ˢ u.toFinset.powerset := by
    intro q hq
    obtain ⟨p, hp, rfl⟩ := List.mem_map.1 (List.mem_toFinset.1 hq)
    rw [Finset.mem_product, Finset.mem_powerset, Finset.mem_powerset]
    exact ⟨fun n hn => (h p hp).1 n hn, fun n hn => (h p hp).2 n hn⟩
  have hcard := Finset.card_le_card hsub
  rw [List.toFinset_card_of_nodup (hnodup.map hinj), List.length_map, Finset.card_product,
    Finset.card_powerset, card_toFinset, ← Nat.mul_pow] at hcard
  exact hcard

end TemporalCheck.NatSet
