import Mathlib.Data.List.Chain
import Mathlib.Data.List.Basic
import TemporalCheck.Automaton.Emptiness
import TemporalCheck.Proofs.Sequence

/-!
# TemporalCheck.Proofs.Lasso

The infinite path that a lasso stands for.  `Lasso.Unrolls` says that a sequence is that path.  What
holds of each pair of neighbours in the stem, the cycle and the start of the cycle once more holds
of each pair of neighbours in the sequence (`Lasso.Unrolls.step_iff`), and the elements of the cycle
come back for ever (`Lasso.Unrolls.infinitelyOften`).
-/

namespace TemporalCheck.Lasso

variable {α β : Type} {l : Lasso α} {π : Nat → α}

/-- A path that comes back to `t` is cut at the `t` before. -/
theorem ofWitness_append [DecidableEq α] {before round : List α} {t : α} (ht : t ∉ round) :
    ofWitness (before ++ t :: round ++ [t]) = some ⟨before, t :: round⟩ := by
  have hrev : (before ++ t :: round ++ [t]).reverse =
      t :: (round.reverse ++ t :: before.reverse) := by
    simp
  have hidx : (round.reverse ++ t :: before.reverse).idxOf? t = some round.length := by
    have hnone : round.reverse.idxOf? t = none := by
      rw [List.idxOf?, List.findIdx?_eq_none_iff]
      intro x hx
      rw [beq_eq_false_iff_ne]
      rintro rfl
      exact ht (List.mem_reverse.1 hx)
    rw [List.idxOf?] at hnone ⊢
    rw [List.findIdx?_append, hnone, List.findIdx?_cons]
    simp
  unfold ofWitness
  rw [hrev]
  simp only [hidx, Option.map_some]
  have htake : (round.reverse ++ t :: before.reverse).take (round.length + 1) =
      round.reverse ++ [t] := by
    rw [show round.length + 1 = round.reverse.length + 1 by simp, List.take_length_add_append]
    simp
  have hdrop : (round.reverse ++ t :: before.reverse).drop (round.length + 1) = before.reverse := by
    rw [show round.length + 1 = round.reverse.length + 1 by simp, List.drop_length_add_append]
    simp
  rw [htake, hdrop]
  simp

/-- A sequence is the infinite path of a lasso. -/
def Unrolls (l : Lasso α) (π : Nat → α) : Prop := ∀ i, l.get? i = some (π i)

/-- A lasso with a cycle can be unrolled. -/
theorem exists_unrolls (h : l.cycle ≠ []) : ∃ π, l.Unrolls π := by
  have hpos : 0 < l.cycle.length := List.length_pos_iff.2 h
  have hsome : ∀ i, ∃ a, l.get? i = some a := by
    intro i
    unfold get?
    split
    · next hi => exact ⟨_, List.getElem?_eq_getElem hi⟩
    · exact ⟨_, List.getElem?_eq_getElem (Nat.mod_lt _ hpos)⟩
  choose π hπ using hsome
  exact ⟨π, hπ⟩

/-- Unrolling a lasso commutes with changing its elements. -/
theorem Unrolls.map (h : l.Unrolls π) (f : α → β) : (l.map f).Unrolls fun i => f (π i) := by
  intro i
  have hi := h i
  unfold get? at hi ⊢
  simp only [Lasso.map, List.length_map, List.getElem?_map]
  split
  · next hlt =>
    rw [if_pos hlt] at hi
    rw [hi, Option.map_some]
  · next hlt =>
    rw [if_neg hlt] at hi
    rw [hi, Option.map_some]

/-- Without its first element the stem leads to the same path without its first element. -/
theorem Unrolls.drop_one (h : l.Unrolls π) (hstem : l.stem ≠ []) :
    ({ l with stem := l.stem.drop 1 } : Lasso α).Unrolls fun i => π (i + 1) := by
  intro i
  have hi := h (i + 1)
  have hpos : 0 < l.stem.length := List.length_pos_iff.2 hstem
  unfold get? at hi ⊢
  simp only [List.length_drop, List.getElem?_drop]
  by_cases hlt : i + 1 < l.stem.length
  · rw [if_pos hlt] at hi
    rw [if_pos (by omega), Nat.add_comm]
    exact hi
  · rw [if_neg hlt] at hi
    rw [if_neg (by omega), show i - (l.stem.length - 1) = i + 1 - l.stem.length by omega]
    exact hi

/-! ## Neighbours -/

/-- One round of the path, with the start of the cycle once more. -/
def once (l : Lasso α) : List α := l.stem ++ l.cycle ++ l.cycle.head?.toList

theorem length_once (h : l.cycle ≠ []) : l.once.length = l.stem.length + l.cycle.length + 1 := by
  obtain ⟨a, cycle, hcycle⟩ := List.exists_cons_of_ne_nil h
  simp only [once, hcycle, List.length_append, List.head?_cons, Option.toList_some,
    List.length_singleton]

/-- Going round once, a lasso passes the same elements as its unrolling. -/
theorem getElem?_once {i : Nat} (h : l.cycle ≠ []) (hi : i < l.once.length) :
    l.once[i]? = l.get? i := by
  obtain ⟨a, cycle, hcycle⟩ := List.exists_cons_of_ne_nil h
  rw [length_once h] at hi
  unfold once get?
  by_cases hstem : i < l.stem.length
  · rw [if_pos hstem, List.append_assoc, List.getElem?_append_left hstem]
  · rw [if_neg hstem, List.append_assoc, List.getElem?_append_right (Nat.le_of_not_lt hstem)]
    by_cases hlast : i - l.stem.length < l.cycle.length
    · rw [List.getElem?_append_left hlast, Nat.mod_eq_of_lt hlast]
    · have heq : i - l.stem.length = l.cycle.length := by omega
      rw [heq, Nat.mod_self, List.getElem?_append_right (Nat.le_refl _), Nat.sub_self, hcycle]
      rfl

/-- Every pair of neighbours on the infinite path is one in one round of it. -/
theorem exists_once_pair (h : l.cycle ≠ []) (i : Nat) :
    ∃ j, j + 1 < l.once.length ∧ l.get? i = l.once[j]? ∧ l.get? (i + 1) = l.once[j + 1]? := by
  have hpos : 0 < l.cycle.length := List.length_pos_iff.2 h
  have hlen := length_once h
  by_cases hstem : i < l.stem.length
  · have hlt : i + 1 < l.once.length := by omega
    exact ⟨i, hlt, (getElem?_once h (by omega)).symm, (getElem?_once h hlt).symm⟩
  · -- Behind the stem the places of a round repeat.
    have hk : (i - l.stem.length) % l.cycle.length < l.cycle.length := Nat.mod_lt _ hpos
    have hlt : l.stem.length + (i - l.stem.length) % l.cycle.length + 1 < l.once.length := by omega
    refine ⟨l.stem.length + (i - l.stem.length) % l.cycle.length, hlt, ?_, ?_⟩
    · rw [getElem?_once h (by omega)]
      unfold get?
      rw [if_neg hstem, if_neg (by omega), Nat.add_sub_cancel_left, Nat.mod_mod]
    · rw [getElem?_once h hlt]
      unfold get?
      rw [if_neg (by omega), if_neg (by omega), Nat.add_assoc, Nat.add_sub_cancel_left,
        Nat.mod_add_mod, show i + 1 - l.stem.length = i - l.stem.length + 1 by omega]

/-- The elements of a lasso follow each other in a relation, the way back included, if and only if
those of its unrolling do. -/
theorem Unrolls.step_iff (hl : l.Unrolls π) (h : l.cycle ≠ []) {R : α → α → Prop} :
    l.once.IsChain R ↔ ∀ i, R (π i) (π (i + 1)) := by
  rw [List.isChain_iff_getElem]
  constructor
  · intro hchain i
    obtain ⟨j, hj, hi, hi'⟩ := exists_once_pair h i
    rw [hl i, List.getElem?_eq_getElem (by omega), Option.some.injEq] at hi
    rw [hl (i + 1), List.getElem?_eq_getElem hj, Option.some.injEq] at hi'
    rw [hi, hi']
    exact hchain j hj
  · intro hstep j hj
    have hi := getElem?_once h (show j < l.once.length by omega)
    have hi' := getElem?_once h hj
    rw [hl j, List.getElem?_eq_getElem (by omega), Option.some.injEq] at hi
    rw [hl (j + 1), List.getElem?_eq_getElem hj, Option.some.injEq] at hi'
    rw [hi, hi']
    exact hstep j

theorem Unrolls.head?_once (hl : l.Unrolls π) (h : l.cycle ≠ []) : l.once.head? = some (π 0) := by
  have hpos : 0 < l.once.length := by rw [length_once h]; omega
  rw [List.head?_eq_getElem?, getElem?_once h hpos, hl 0]

/-! ## Coming back -/

/-- What lies on the cycle is passed again and again for ever. -/
theorem Unrolls.infinitelyOften (hl : l.Unrolls π) {a : α} (ha : a ∈ l.cycle) :
    InfinitelyOften fun i => π i = a := by
  intro n
  obtain ⟨k, hk⟩ := List.mem_iff_getElem?.1 ha
  have hlt := (List.getElem?_eq_some_iff.1 hk).1
  refine ⟨l.stem.length + (k + l.cycle.length * n), ?_, ?_⟩
  · have := Nat.mul_le_mul_right n (show 1 ≤ l.cycle.length by omega)
    omega
  · have hget := hl (l.stem.length + (k + l.cycle.length * n))
    unfold get? at hget
    rw [if_neg (by omega), Nat.add_sub_cancel_left, Nat.add_mul_mod_self_left,
      Nat.mod_eq_of_lt hlt, hk] at hget
    exact (Option.some.inj hget).symm

/-- Where the infinite path is, its elements are those of the stem and the cycle. -/
theorem Unrolls.mem (hl : l.Unrolls π) (i : Nat) : π i ∈ l.stem ∨ π i ∈ l.cycle := by
  have hi := hl i
  unfold get? at hi
  split at hi
  · exact .inl (List.mem_of_getElem? hi)
  · exact .inr (List.mem_of_getElem? hi)

/-- Everything on a lasso is passed at some time. -/
theorem Unrolls.exists_of_mem (hl : l.Unrolls π) {a : α} (ha : a ∈ l.stem ∨ a ∈ l.cycle) :
    ∃ i, π i = a := by
  obtain ha | ha := ha
  · obtain ⟨k, hk⟩ := List.mem_iff_getElem?.1 ha
    have hget := hl k
    unfold get? at hget
    rw [if_pos (List.getElem?_eq_some_iff.1 hk).1, hk] at hget
    exact ⟨k, (Option.some.inj hget).symm⟩
  · obtain ⟨i, -, hi⟩ := hl.infinitelyOften ha 0
    exact ⟨i, hi⟩

/-- Two ways of replacing the elements are the same if they are along the path. -/
theorem Unrolls.map_eq_map (hl : l.Unrolls π) {f g : α → β} (h : ∀ i, f (π i) = g (π i)) :
    l.map f = l.map g := by
  have hmem : ∀ a, a ∈ l.stem ∨ a ∈ l.cycle → f a = g a := by
    intro a ha
    obtain ⟨i, rfl⟩ := hl.exists_of_mem ha
    exact h i
  rw [Lasso.map, Lasso.map, List.map_congr_left fun a ha => hmem a (.inl ha),
    List.map_congr_left fun a ha => hmem a (.inr ha)]

theorem map_map {γ : Type} (l : Lasso α) (f : α → β) (g : β → γ) :
    (l.map f).map g = l.map fun a => g (f a) := by
  simp [Lasso.map]

theorem Unrolls.head?_stem (hl : l.Unrolls π) (h : l.stem ≠ []) : l.stem.head? = some (π 0) := by
  have hzero := hl 0
  rw [get?, if_pos (List.length_pos_iff.2 h)] at hzero
  rw [List.head?_eq_getElem?, hzero]

end TemporalCheck.Lasso
