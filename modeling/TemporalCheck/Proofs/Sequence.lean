import Mathlib.Order.Basic
import Mathlib.Data.List.Chain
import Mathlib.Data.Nat.Init
import TemporalCheck.Automaton.Run

/-!
# TemporalCheck.Proofs.Sequence

Infinite sequences.  Runs and paths are found one step at a time (`exists_sequence`), and what
happens again and again on them does so from any point on (`InfinitelyOften.shift_iff`).  Where
every step goes down in rank there is none, and the rank bounds the steps (`length_le_of_isChain`).

A counter that waits for one event after another and starts anew after the last one gets through
infinitely often exactly if every event happens infinitely often (`Rounds.infinitelyOften_iff`).
That is why one accept set is enough.
-/

namespace TemporalCheck

variable {α : Type}

/-- If every good point has a good successor, there is a sequence of good points from each good
start on. -/
theorem exists_sequence {P : Nat → α → Prop} {R : Nat → α → α → Prop} {a : α} (start : P 0 a)
    (step : ∀ i a, P i a → ∃ b, P (i + 1) b ∧ R i a b) :
    ∃ ρ : Nat → α, ρ 0 = a ∧ ∀ i, P i (ρ i) ∧ R i (ρ i) (ρ (i + 1)) := by
  -- The points are collected together with the fact that they are good.
  let next (i : Nat) (p : { a // P i a }) : { b // P (i + 1) b } :=
    ⟨Classical.choose (step i p.1 p.2), (Classical.choose_spec (step i p.1 p.2)).1⟩
  let ρ : (i : Nat) → { a // P i a } := fun i => Nat.rec ⟨a, start⟩ next i
  refine ⟨fun i => (ρ i).1, rfl, fun i => ⟨(ρ i).2, ?_⟩⟩
  exact (Classical.choose_spec (step i (ρ i).1 (ρ i).2)).2

/-- A chain is at most as long as the rank of its start, if every step goes down in rank.  Here
`P a n` says that `a` has the rank `n`. -/
theorem length_le_of_isChain {r : α → α → Prop} {P : α → Nat → Prop}
    (step : ∀ a b n, P a n → r a b → ∃ m < n, P b m) {a : α} {l : List α} {n : Nat} (ha : P a n)
    (h : List.IsChain r (a :: l)) : l.length ≤ n := by
  induction l generalizing a n with
  | nil => exact Nat.zero_le n
  | cons b l ih =>
    obtain ⟨hab, hrest⟩ := List.isChain_cons_cons.1 h
    obtain ⟨m, hlt, hb⟩ := step a b n ha hab
    exact Nat.le_trans (Nat.succ_le_succ (ih hb hrest)) hlt

namespace InfinitelyOften

variable {p q : Nat → Prop}

theorem mono (h : InfinitelyOften p) (hpq : ∀ i, p i → q i) : InfinitelyOften q := by
  intro n
  obtain ⟨m, hm, hp⟩ := h n
  exact ⟨m, hm, hpq m hp⟩

theorem congr (hpq : ∀ i, p i ↔ q i) : InfinitelyOften p ↔ InfinitelyOften q :=
  ⟨fun h => h.mono fun i => (hpq i).1, fun h => h.mono fun i => (hpq i).2⟩

/-- What happens again and again does so also if the sequence is entered one step later. -/
theorem shift_iff : InfinitelyOften (fun i => p (i + 1)) ↔ InfinitelyOften p := by
  constructor
  · intro h n
    obtain ⟨m, hm, hp⟩ := h n
    exact ⟨m + 1, Nat.le_succ_of_le hm, hp⟩
  · intro h n
    obtain ⟨m, hm, hp⟩ := h (n + 1)
    obtain ⟨k, rfl⟩ : ∃ k, m = k + 1 := ⟨m - 1, by omega⟩
    exact ⟨k, Nat.le_of_succ_le_succ hm, hp⟩

end InfinitelyOften

/-! ## Waiting for several events in turn -/

/-- A counter that waits at `j` for the event `p j`, for each `j` below `k`, and at `k` goes back to
the start. -/
structure Rounds (k : Nat) (p : Nat → Nat → Prop) (x : Nat → Nat) : Prop where
  start : x 0 ≤ k
  advance : ∀ i, x i < k → p (x i) (i + 1) → x (i + 1) = x i + 1
  wait : ∀ i, x i < k → ¬ p (x i) (i + 1) → x (i + 1) = x i
  restart : ∀ i, x i = k → x (i + 1) = 0

namespace Rounds

variable {k : Nat} {p : Nat → Nat → Prop} {x : Nat → Nat}

/-- The stage of a round never goes beyond the last. -/
theorem le (h : Rounds k p x) (i : Nat) : x i ≤ k := by
  induction i with
  | zero => exact h.start
  | succ i ih =>
    obtain hlt | heq := Nat.lt_or_eq_of_le ih
    · by_cases hp : p (x i) (i + 1)
      · rw [h.advance i hlt hp]
        exact hlt
      · rw [h.wait i hlt hp]
        exact ih
    · rw [h.restart i heq]
      exact Nat.zero_le k

/-- To get beyond `j` the counter has to see the event `j`. -/
theorem exists_event (h : Rounds k p x) {j a b : Nat} (ha : x a ≤ j) (hab : a ≤ b) (hb : j < x b) :
    ∃ i, a < i ∧ p j i := by
  induction b, hab using Nat.le_induction with
  | base => omega
  | succ b hab ih =>
    by_cases hj : j < x b
    · exact ih hj
    · obtain hlt | heq := Nat.lt_or_eq_of_le (h.le b)
      · by_cases hp : p (x b) (b + 1)
        · rw [h.advance b hlt hp] at hb
          have hxb : x b = j := by omega
          exact ⟨b + 1, by omega, hxb ▸ hp⟩
        · rw [h.wait b hlt hp] at hb
          omega
      · rw [h.restart b heq] at hb
        omega

/-- The counter goes on as soon as the event it waits for happens. -/
theorem exists_advance (h : Rounds k p x) {n g : Nat} (hn : x n < k) (hp : p (x n) (n + 1 + g)) :
    ∃ m, n < m ∧ x m = x n + 1 := by
  induction g generalizing n with
  | zero => exact ⟨n + 1, by omega, h.advance n hn hp⟩
  | succ g ih =>
    by_cases hnow : p (x n) (n + 1)
    · exact ⟨n + 1, by omega, h.advance n hn hnow⟩
    · have hwait := h.wait n hn hnow
      obtain ⟨m, hm, hx⟩ := ih (n := n + 1) (by rwa [hwait])
        (by rwa [hwait, show n + 1 + 1 + g = n + 1 + (g + 1) by omega])
      exact ⟨m, by omega, by rw [hx, hwait]⟩

/-- Rounds end for ever again if and only if what each stage waits for comes for ever again. -/
theorem infinitelyOften_iff (h : Rounds k p x) :
    InfinitelyOften (fun i => x i = k) ↔ ∀ j < k, InfinitelyOften (p j) := by
  constructor
  · intro hinf j hj n
    obtain ⟨m, hm, hxm⟩ := hinf n
    obtain ⟨m', hm', hxm'⟩ := hinf (m + 1)
    have hrestart : x (m + 1) ≤ j := by
      rw [h.restart m hxm]
      exact Nat.zero_le j
    obtain ⟨i, hi, hp⟩ := h.exists_event hrestart hm' (by rwa [hxm'])
    exact ⟨i, by omega, hp⟩
  · intro hall n
    -- By induction on how far the counter is from its end.
    obtain ⟨d, hd⟩ : ∃ d, k - x n = d := ⟨_, rfl⟩
    induction d generalizing n with
    | zero =>
      have := h.le n
      exact ⟨n, Nat.le_refl n, by omega⟩
    | succ d ih =>
      have hlt : x n < k := by omega
      obtain ⟨i, hi, hp⟩ := hall (x n) hlt (n + 1)
      obtain ⟨m, hm, hx⟩ := h.exists_advance (g := i - (n + 1)) hlt
        (by rwa [show n + 1 + (i - (n + 1)) = i by omega])
      obtain ⟨m', hm', hx'⟩ := ih m (by omega)
      exact ⟨m', by omega, hx'⟩

end Rounds

end TemporalCheck
