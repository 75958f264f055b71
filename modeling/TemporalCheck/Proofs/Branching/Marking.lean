import Mathlib.Data.List.Nodup
import Mathlib.Data.List.Perm.Subperm
import TemporalCheck.Branching
import TemporalCheck.Proofs.Outcome

/-!
# TemporalCheck.Proofs.Branching.Marking

Marking by repeated sweeps.  Every sweep but the last marks a state, and a state is marked once, so
as many sweeps as there are states and one more are enough.  Where every question for a reason has
an answer (`Branching.Answers`), the sweeps meet no fault (`Branching.exists_leastMarks`), and what
is marked in the end (`Branching.IsLeastMarks`) is

* closed: every state for which the marks give a reason is marked;
* least: it lies in every property that is passed on from the marks to what they give a reason for.
-/

namespace TemporalCheck.Branching

variable {n : Nat} {reason : Marks → Nat → Except Fault Bool} {why : Marks → Nat → Bool}
  {m : Marking}

/-- Whether there is a reason to mark a state is answered for every state below a bound. -/
def Answers (n : Nat) (reason : Marks → Nat → Except Fault Bool) (why : Marks → Nat → Bool) :
    Prop :=
  ∀ marks, ∀ s < n, reason marks s = .ok (why marks s)

/-! ## One state -/

/-- The marks and the order of marking fit together. -/
structure Marking.Consistent (n : Nat) (m : Marking) : Prop where
  size_eq : m.marks.size = n
  has_iff : ∀ s, m.marks.has s = true ↔ s ∈ m.order
  nodup : m.order.Nodup

namespace Marking

theorem Consistent.lt {s : Nat} (h : m.Consistent n) (hs : s ∈ m.order) : s < n := by
  rw [← h.size_eq]
  exact Marks.lt_size_of_has ((h.has_iff s).2 hs)

theorem Consistent.length_le (h : m.Consistent n) : m.order.length ≤ n := by
  have hsub : m.order ⊆ List.range n := fun s hs => List.mem_range.2 (h.lt hs)
  have hle := (List.subperm_of_subset h.nodup hsub).length_le
  rwa [List.length_range] at hle

theorem consistent_start (n : Nat) : (start n).Consistent n where
  size_eq := Marks.size_none n
  has_iff s := by simp [start]
  nodup := .nil

/-- Looking at a state leaves everything as it is, or marks the state for a reason. -/
theorem visit_cases (h : Answers n reason why) (m : Marking) {s : Nat} (hs : s < n) :
    (visit reason m s = .ok m ∧ (m.marks.has s = true ∨ why m.marks s = false)) ∨
      (visit reason m s = .ok (m.mark s) ∧ m.marks.has s = false ∧ why m.marks s = true) := by
  unfold visit
  by_cases hhas : m.marks.has s = true
  · exact .inl ⟨if_pos hhas, .inl hhas⟩
  · rw [if_neg hhas, bind_of_eq_ok (h m.marks s hs)]
    by_cases hwhy : why m.marks s = true
    · exact .inr ⟨if_pos hwhy, Bool.not_eq_true _ ▸ hhas, hwhy⟩
    · exact .inl ⟨if_neg hwhy, .inr (Bool.not_eq_true _ ▸ hwhy)⟩

/-- A mark on a state without one keeps marks and order together. -/
theorem Consistent.mark {s : Nat} (h : m.Consistent n) (hs : s < n)
    (hnew : m.marks.has s = false) : (m.mark s).Consistent n := by
  have hnot : s ∉ m.order := by
    rw [← h.has_iff, hnew]
    exact Bool.false_ne_true
  refine ⟨(Marks.size_mark _ _).trans h.size_eq, fun t => ?_, List.nodup_cons.2 ⟨hnot, h.nodup⟩⟩
  have hiff := h.has_iff t
  simp only [Marking.mark, Marks.has_mark, h.size_eq, Bool.or_eq_true, hiff, Bool.and_eq_true,
    decide_eq_true_eq, List.mem_cons]
  constructor
  · rintro (ht | ⟨rfl, -⟩)
    · exact .inr ht
    · exact .inl rfl
  · rintro (rfl | ht)
    · exact .inr ⟨rfl, hs⟩
    · exact .inl ht

end Marking

/-! ## Sweeps -/

/-- What marking a state for a reason preserves. -/
def PreservedByMarks (n : Nat) (why : Marks → Nat → Bool) (Q : Marking → Prop) : Prop :=
  ∀ m s, s < n → m.marks.has s = false → why m.marks s = true → Q m → Q (m.mark s)

theorem preserved_consistent (n : Nat) (why : Marks → Nat → Bool) :
    PreservedByMarks n why (Marking.Consistent n) :=
  fun _ _ hs hnew _ h => h.mark hs hnew

/-- A sweep meets no fault and keeps what marks preserve.  One that marks nothing has found no
reason to. -/
theorem exists_sweep (h : Answers n reason why) {Q : Marking → Prop}
    (hQ : PreservedByMarks n why Q) (hm : Q m) :
    ∃ m', sweep n reason m = .ok m' ∧ Q m' ∧ (m.order.length < m'.order.length ∨
      (m' = m ∧ ∀ s < n, m.marks.has s = true ∨ why m.marks s = false)) := by
  have hfold : ∀ (l : List Nat) (m : Marking), (∀ s ∈ l, s < n) → Q m →
      ∃ m', l.foldlM (Marking.visit reason) m = .ok m' ∧ Q m' ∧
        (m.order.length < m'.order.length ∨
          (m' = m ∧ ∀ s ∈ l, m.marks.has s = true ∨ why m.marks s = false)) := by
    intro l
    induction l with
    | nil => exact fun m _ hm => ⟨m, rfl, hm, .inr ⟨rfl, fun s hs => absurd hs List.not_mem_nil⟩⟩
    | cons s l ih =>
      intro m hl hm
      have hs := hl s List.mem_cons_self
      have hrest : ∀ t ∈ l, t < n := fun t ht => hl t (List.mem_cons_of_mem s ht)
      rw [List.foldlM_cons]
      obtain ⟨heq, hnone⟩ | ⟨heq, hnew, hwhy⟩ := Marking.visit_cases h m hs
      · rw [bind_of_eq_ok heq]
        obtain ⟨m', hm', hQm', hcases⟩ := ih m hrest hm
        refine ⟨m', hm', hQm', hcases.imp_right fun ⟨hfix, hall⟩ => ⟨hfix, fun t ht => ?_⟩⟩
        obtain rfl | ht := List.mem_cons.1 ht
        · exact hnone
        · exact hall t ht
      · rw [bind_of_eq_ok heq]
        obtain ⟨m', hm', hQm', hcases⟩ := ih (m.mark s) hrest (hQ m s hs hnew hwhy hm)
        refine ⟨m', hm', hQm', .inl ?_⟩
        have hmark : (m.mark s).order.length = m.order.length + 1 := rfl
        obtain hlt | ⟨rfl, -⟩ := hcases <;> omega
  obtain ⟨m', hm', hQm', hcases⟩ := hfold (List.range n) m (fun s hs => List.mem_range.1 hs) hm
  refine ⟨m', hm', hQm', hcases.imp_right fun ⟨hfix, hall⟩ => ⟨hfix, fun s hs => ?_⟩⟩
  exact hall s (List.mem_range.2 hs)

/-- Enough sweeps end with one that finds no reason to mark a state, and keep what marks
preserve. -/
theorem exists_saturate (h : Answers n reason why) {Q : Marking → Prop}
    (hQ : PreservedByMarks n why Q) {sweeps : Nat} (hm : m.Consistent n) (hQm : Q m)
    (henough : n < m.order.length + sweeps) :
    ∃ m', saturate n reason sweeps m = .ok m' ∧ m'.Consistent n ∧ Q m' ∧
      ∀ s < n, m'.marks.has s = true ∨ why m'.marks s = false := by
  induction sweeps generalizing m with
  | zero => exact absurd hm.length_le (by omega)
  | succ k ih =>
    have hboth : PreservedByMarks n why fun m => m.Consistent n ∧ Q m := fun m s hs hnew hwhy hm =>
      ⟨preserved_consistent n why m s hs hnew hwhy hm.1, hQ m s hs hnew hwhy hm.2⟩
    obtain ⟨m', hsweep, ⟨hm', hQm'⟩, hcases⟩ := exists_sweep h hboth ⟨hm, hQm⟩
    rw [saturate, bind_of_eq_ok hsweep]
    obtain hlt | ⟨rfl, hclosed⟩ := hcases
    · rw [if_neg (Nat.ne_of_gt hlt)]
      exact ih hm' hQm' (by omega)
    · rw [if_pos rfl]
      exact ⟨m', rfl, hm', hQm', hclosed⟩

/-! ## The marks in the end -/

/-- What repeated sweeps mark, given the reasons to mark a state: each state once, closed under
reasons, and with every property that marks pass on. -/
structure IsLeastMarks (n : Nat) (why : Marks → Nat → Bool) (marked : List Nat) : Prop where
  nodup : marked.Nodup
  lt : ∀ s ∈ marked, s < n
  closed : ∃ marks : Marks, (∀ s, marks.has s = true ↔ s ∈ marked) ∧
    ∀ s < n, why marks s = true → s ∈ marked
  induction : ∀ P : Nat → Prop, (∀ (marks : Marks) (s : Nat), s < n →
    (∀ t, marks.has t = true → P t) → why marks s = true → P s) → ∀ s ∈ marked, P s

/-- The marks of a marking have every property that marks pass on. -/
theorem preserved_induction {P : Nat → Prop} (step : ∀ (marks : Marks) (s : Nat), s < n →
    (∀ t, marks.has t = true → P t) → why marks s = true → P s) :
    PreservedByMarks n why fun m => ∀ t, m.marks.has t = true → P t := by
  intro m s hs _ hwhy hm t ht
  rw [Marking.mark, Marks.has_mark] at ht
  simp only [Bool.or_eq_true, Bool.and_eq_true, decide_eq_true_eq] at ht
  obtain ht | ⟨rfl, -⟩ := ht
  · exact hm t ht
  · exact step m.marks s hs hm hwhy

/-- Where every question for a reason has an answer, the sweeps meet no fault. -/
theorem exists_leastMarks (h : Answers n reason why) :
    ∃ marked, leastMarks n reason = .ok marked ∧ IsLeastMarks n why marked := by
  have henough : n < (Marking.start n).order.length + (n + 1) := by simp [Marking.start]
  have hstart := Marking.consistent_start n
  obtain ⟨m, hm, hcons, -, hclosed⟩ := exists_saturate h (Q := fun _ => True)
    (fun _ _ _ _ _ _ => trivial) hstart trivial henough
  have hmem : ∀ s, m.marks.has s = true ↔ s ∈ m.order.reverse := fun s => by
    rw [hcons.has_iff, List.mem_reverse]
  refine ⟨m.order.reverse, ?_, List.nodup_reverse.2 hcons.nodup,
    fun s hs => hcons.lt (List.mem_reverse.1 hs), ⟨m.marks, hmem, fun s hs hwhy => ?_⟩,
    fun P step s hs => ?_⟩
  · rw [leastMarks, bind_of_eq_ok hm]
    rfl
  · obtain hhas | hnot := hclosed s hs
    · exact (hmem s).1 hhas
    · rw [hwhy] at hnot
      cases hnot
  · obtain ⟨m', hm', -, hall, -⟩ := exists_saturate h (preserved_induction step) hstart
      (by simp [Marking.start]) henough
    cases hm.symm.trans hm'
    exact hall s ((hmem s).2 hs)

end TemporalCheck.Branching
