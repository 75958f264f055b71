import Mathlib.Data.Finset.Card
import Mathlib.Data.Finset.Range
import Mathlib.Data.List.TakeWhile
import TemporalCheck.Marks

/-!
# TemporalCheck.Proofs.Reach

The search marks exactly what can be reached.  While it runs, every marked number and every number
on the stack has been reached from the starts, and every successor of a marked number is marked or
waits on the stack.  When the stack is used up, the marks are closed under steps.

Each round marks a number that was not marked, so as many rounds as there are unmarked numbers are
enough.
-/

namespace TemporalCheck

/-! ## Unmarked numbers -/

namespace Marks

/-- The numbers below the bound that are not marked. -/
def unmarked (m : Marks) : Finset Nat := (Finset.range m.size).filter fun i => m.has i = false

@[simp] theorem mem_unmarked {m : Marks} {i : Nat} :
    i ∈ m.unmarked ↔ i < m.size ∧ m.has i = false := by
  simp [unmarked]

theorem card_unmarked_le (m : Marks) : m.unmarked.card ≤ m.size := by
  have h := Finset.card_filter_le (Finset.range m.size) fun i => m.has i = false
  rwa [Finset.card_range] at h

@[simp] theorem has_mark_self {m : Marks} {i : Nat} (h : i < m.size) : (m.mark i).has i = true := by
  simp [has_mark, h]

theorem has_mark_of_has {m : Marks} {i k : Nat} (h : m.has k = true) : (m.mark i).has k = true := by
  simp [has_mark, h]

/-- Marking a number marks nothing else. -/
theorem has_mark_iff {m : Marks} {i k : Nat} (h : i < m.size) :
    (m.mark i).has k = true ↔ m.has k = true ∨ k = i := by
  rw [has_mark]
  constructor
  · intro hk
    simp only [Bool.or_eq_true, Bool.and_eq_true, decide_eq_true_eq] at hk
    exact hk.imp id fun hk => hk.1.symm
  · rintro (hk | rfl)
    · simp [hk]
    · simp [h]

/-- Marking a number leaves fewer unmarked ones. -/
theorem card_unmarked_mark_lt {m : Marks} {i : Nat} (hi : i < m.size) (h : m.has i = false) :
    (m.mark i).unmarked.card < m.unmarked.card := by
  refine Finset.card_lt_card (Finset.ssubset_iff_of_subset ?_ |>.2 ⟨i, ?_, ?_⟩)
  · intro k hk
    rw [mem_unmarked, size_mark] at hk
    refine mem_unmarked.2 ⟨hk.1, ?_⟩
    by_contra hmark
    rw [Bool.not_eq_false] at hmark
    rw [has_mark_of_has hmark] at hk
    exact Bool.noConfusion hk.2
  · exact mem_unmarked.2 ⟨hi, h⟩
  · intro hmem
    rw [mem_unmarked, has_mark_self hi] at hmem
    exact Bool.noConfusion hmem.2

end Marks

/-! ## Steps -/

variable {ε : Type} {next : Nat → Except ε (List Nat)}

theorem Leads.trans {a b c : Nat} (hab : Leads next a b) (hbc : Leads next b c) :
    Leads next a c := by
  induction hab with
  | refl => exact hbc
  | step hn hb _ ih => exact .step hn hb (ih hbc)

theorem Leads.tail {a b c : Nat} {found : List Nat} (hab : Leads next a b)
    (hn : next b = .ok found) (hc : c ∈ found) : Leads next a c :=
  hab.trans (.step hn hc (.refl c))

/-- A property that steps preserve holds of everything that is led to. -/
theorem Leads.preserves {P : Nat → Prop}
    (keep : ∀ a found, P a → next a = .ok found → ∀ b ∈ found, P b) {a b : Nat}
    (h : Leads next a b) (ha : P a) : P b := by
  induction h with
  | refl => exact ha
  | step hn hb _ ih => exact ih (keep _ _ ha hn _ hb)

/-- A number that can be reached from one of the starts. -/
def Reached (next : Nat → Except ε (List Nat)) (starts : List Nat) (x : Nat) : Prop :=
  ∃ s ∈ starts, Leads next s x

theorem Reached.tail {starts found : List Nat} {b c : Nat} (h : Reached next starts b)
    (hn : next b = .ok found) (hc : c ∈ found) : Reached next starts c := by
  obtain ⟨s, hs, hl⟩ := h
  exact ⟨s, hs, hl.tail hn hc⟩

/-! ## The search -/

/-- What holds throughout a search: marked and waiting numbers are reached, the starts are marked
or wait, and so do the successors of marked numbers. -/
structure SearchInvariant (next : Nat → Except ε (List Nat)) (starts stack : List Nat)
    (seen : Marks) : Prop where
  seen_reached : ∀ x, seen.has x = true → Reached next starts x
  stack_reached : ∀ x ∈ stack, Reached next starts x
  starts_covered : ∀ s ∈ starts, seen.has s = true ∨ s ∈ stack
  closed : ∀ x found, seen.has x = true → next x = .ok found →
    ∀ y ∈ found, seen.has y = true ∨ y ∈ stack

/-- Before a search nothing is marked and all starting points wait. -/
theorem SearchInvariant.start (starts : List Nat) (n : Nat) :
    SearchInvariant next starts starts (.none n) where
  seen_reached := by simp
  stack_reached x hx := ⟨x, hx, .refl x⟩
  starts_covered s hs := .inr hs
  closed := by simp

/-- A number on the stack that is marked may be passed over. -/
theorem SearchInvariant.dropWhile {starts stack : List Nat} {seen : Marks}
    (h : SearchInvariant next starts stack seen) :
    SearchInvariant next starts (stack.dropWhile seen.has) seen := by
  have keep : ∀ y ∈ stack, seen.has y = true ∨ y ∈ stack.dropWhile seen.has := by
    intro y hy
    rw [← List.takeWhile_append_dropWhile (p := seen.has) (l := stack), List.mem_append] at hy
    exact hy.imp (fun hy => List.mem_takeWhile_imp hy) id
  have cover : ∀ y, seen.has y = true ∨ y ∈ stack →
      seen.has y = true ∨ y ∈ stack.dropWhile seen.has := by
    rintro y (hy | hy)
    · exact .inl hy
    · exact keep y hy
  exact {
    seen_reached := h.seen_reached
    stack_reached := fun x hx => h.stack_reached x ((List.dropWhile_sublist _).subset hx)
    starts_covered := fun s hs => cover s (h.starts_covered s hs)
    closed := fun x found hx hn y hy => cover y (h.closed x found hx hn y hy) }

/-- One round: the number on top of the stack is marked and its successors are put on the stack. -/
theorem SearchInvariant.visit {starts stack found : List Nat} {seen : Marks} {x : Nat}
    (h : SearchInvariant next starts (x :: stack) seen) (hx : x < seen.size)
    (hn : next x = .ok found) :
    SearchInvariant next starts (found.reverse ++ stack) (seen.mark x) := by
  have hreached : Reached next starts x := h.stack_reached x (by simp)
  have cover : ∀ y, seen.has y = true ∨ y ∈ x :: stack →
      (seen.mark x).has y = true ∨ y ∈ found.reverse ++ stack := by
    rintro y (hy | hy)
    · exact .inl (Marks.has_mark_of_has hy)
    · obtain rfl | hy := List.mem_cons.1 hy
      · exact .inl (Marks.has_mark_self hx)
      · exact .inr (by simp [hy])
  refine ⟨fun y hy => ?_, fun y hy => ?_, fun s hs => cover s (h.starts_covered s hs),
    fun y found' hy hn' z hz => ?_⟩
  · obtain hy | rfl := (Marks.has_mark_iff hx).1 hy
    · exact h.seen_reached y hy
    · exact hreached
  · obtain hy | hy := List.mem_append.1 hy
    · exact hreached.tail hn (List.mem_reverse.1 hy)
    · exact h.stack_reached y (by simp [hy])
  · obtain hy | rfl := (Marks.has_mark_iff hx).1 hy
    · exact cover z (h.closed y found' hy hn' z hz)
    · rw [hn] at hn'
      cases hn'
      exact .inr (by simp [hz])

/-- A search with enough fuel ends with an empty stack. -/
theorem exists_reach {starts : List Nat} {fuel n : Nat} {stack : List Nat} {seen : Marks}
    (total : ∀ x, Reached next starts x → x < n ∧ ∃ found, next x = .ok found)
    (hsize : seen.size = n) (hfuel : seen.unmarked.card < fuel)
    (h : SearchInvariant next starts stack seen) :
    ∃ m, reach next fuel stack seen = .ok m ∧ m.size = n ∧ SearchInvariant next starts [] m := by
  induction fuel generalizing stack seen with
  | zero => omega
  | succ fuel ih =>
    have hdrop := h.dropWhile
    unfold reach
    split
    · next heq =>
      rw [heq] at hdrop
      exact ⟨seen, rfl, hsize, hdrop⟩
    · next x rest heq =>
      rw [heq] at hdrop
      obtain ⟨hx, found, hn⟩ := total x (hdrop.stack_reached x (by simp))
      have hunmarked : seen.has x = false := by
        have hhead := List.head?_dropWhile_not seen.has stack
        rw [heq] at hhead
        simpa using hhead
      have hlt := Marks.card_unmarked_mark_lt (hsize ▸ hx) hunmarked
      rw [hn]
      exact ih (by rw [Marks.size_mark, hsize]) (by omega) (hdrop.visit (hsize ▸ hx) hn)

/-- A search marks numbers below the same bound. -/
theorem size_of_reach {fuel : Nat} {stack : List Nat} {seen m : Marks}
    (h : reach next fuel stack seen = .ok m) : m.size = seen.size := by
  induction fuel generalizing stack seen with
  | zero =>
    cases h
    rfl
  | succ fuel ih =>
    unfold reach at h
    split at h
    · cases h
      rfl
    · next x rest _ =>
      cases hn : next x with
      | error fault =>
        rw [hn] at h
        cases h
      | ok found =>
        rw [hn] at h
        rw [ih h, Marks.size_mark]

/-- If every number that is reached has successors and lies below the bound, then the search from
nothing marks exactly the reached numbers. -/
theorem exists_reach_none (starts : List Nat) (n : Nat)
    (total : ∀ x, Reached next starts x → x < n ∧ ∃ found, next x = .ok found) :
    ∃ m, reach next (n + 1) starts (.none n) = .ok m ∧ m.size = n ∧
      ∀ x, m.has x = true ↔ Reached next starts x := by
  have hfuel : (Marks.none n).unmarked.card < n + 1 :=
    Nat.lt_succ_of_le (by simpa using Marks.card_unmarked_le (.none n))
  obtain ⟨m, hm, hsize, hinv⟩ := exists_reach total (by simp) hfuel (.start starts n)
  refine ⟨m, hm, hsize, fun x => ⟨hinv.seen_reached x, ?_⟩⟩
  rintro ⟨s, hs, hl⟩
  refine hl.preserves (P := fun y => m.has y = true) (fun a found ha hn b hb => ?_) ?_
  · simpa using hinv.closed a found ha hn b hb
  · simpa using hinv.starts_covered s hs

/-- The order and the repetitions of the starts do not matter. -/
theorem reached_congr {starts starts' : List Nat} (h : ∀ s, s ∈ starts ↔ s ∈ starts') (x : Nat) :
    Reached next starts x ↔ Reached next starts' x := by
  simp only [Reached, h]

end TemporalCheck
