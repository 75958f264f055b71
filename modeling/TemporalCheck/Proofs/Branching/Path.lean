import TemporalCheck.Proofs.Branching.Marking
import TemporalCheck.Proofs.Model
import TemporalCheck.Proofs.Sequence

/-!
# TemporalCheck.Proofs.Branching.Path

What the operators of the normal form say about infinite paths, told by single steps: `EX` by the
successors of a state, `AF` and `E[ U ]` as the least properties with their laws.  A state from
which one can avoid something step after step has an infinite path that avoids it
(`TransitionStructure.not_allFinally`), and where no path ends, every step is part of a path.

The second part compares this with marking: the states marked for `AF` and `E[ U ]` of a model are
those in which the operators hold (`Branching.mem_allFinally`, `Branching.mem_existsUntil`).
-/

namespace TemporalCheck

/-! ## Paths -/

namespace TransitionStructure

variable {k : TransitionStructure} {p q : k.State → Prop} {s t : k.State} {π : Nat → k.State}

/-- A path with a step in front. -/
theorem IsPathFrom.cons (hstep : k.Step s t) (hπ : k.IsPathFrom t π) :
    k.IsPathFrom s fun i => i.casesOn s π := by
  refine ⟨rfl, fun i => ?_⟩
  cases i with
  | zero =>
    show k.Step s (π 0)
    rwa [hπ.1]
  | succ i => exact hπ.2 i

/-- A path without its first step. -/
theorem IsPathFrom.tail (hπ : k.IsPathFrom s π) :
    k.Step s (π 1) ∧ k.IsPathFrom (π 1) fun i => π (i + 1) := by
  have hstep := hπ.2 0
  rw [hπ.1] at hstep
  exact ⟨hstep, rfl, fun i => hπ.2 (i + 1)⟩

/-- A property that can be kept step after step is kept along a path. -/
theorem exists_pathFrom {P : k.State → Prop} (hs : P s) (step : ∀ s, P s → ∃ t, P t ∧ k.Step s t) :
    ∃ π, k.IsPathFrom s π ∧ ∀ i, P (π i) := by
  obtain ⟨π, hzero, hπ⟩ := exists_sequence (P := fun _ => P) (R := fun _ => k.Step) hs fun _ => step
  exact ⟨π, ⟨hzero, fun i => (hπ i).2⟩, fun i => (hπ i).1⟩

/-! ## Operators step by step -/

/-- `EX p` holds in a state if and only if `p` holds in a successor, where every successor has a
path. -/
theorem existsNext_iff (hpath : ∀ t, k.Step s t → ∃ π, k.IsPathFrom t π) :
    UnaryOp.existsNext.HoldsIn k p s ↔ ∃ t, k.Step s t ∧ p t := by
  constructor
  · rintro ⟨π, hπ, hp⟩
    exact ⟨π 1, hπ.tail.1, hp⟩
  · rintro ⟨t, hstep, hp⟩
    obtain ⟨π, hπ⟩ := hpath t hstep
    refine ⟨_, hπ.cons hstep, ?_⟩
    show p (π 0)
    rwa [hπ.1]

theorem allFinally_of_now (h : p s) : UnaryOp.allFinally.HoldsIn k p s := by
  intro π hπ
  rw [← hπ.1] at h
  exact ⟨0, Nat.le_refl 0, h⟩

/-- `AF p` holds where it holds in all successors. -/
theorem allFinally_of_next (h : ∀ t, k.Step s t → UnaryOp.allFinally.HoldsIn k p t) :
    UnaryOp.allFinally.HoldsIn k p s := by
  intro π hπ
  obtain ⟨hstep, htail⟩ := hπ.tail
  obtain ⟨j, -, hj⟩ := h _ hstep _ htail
  exact ⟨j + 1, Nat.zero_le _, hj⟩

/-- Where something can be avoided step after step, it does not come about on all paths. -/
theorem not_allFinally {P : k.State → Prop} (hs : P s)
    (step : ∀ s, P s → ¬ p s ∧ ∃ t, P t ∧ k.Step s t) : ¬ UnaryOp.allFinally.HoldsIn k p s := by
  intro h
  obtain ⟨π, hπ, hP⟩ := exists_pathFrom hs fun s hs => (step s hs).2
  obtain ⟨j, -, hj⟩ := h π hπ
  exact (step _ (hP j)).1 hj

theorem existsUntil_of_now (hπ : ∃ π, k.IsPathFrom s π) (h : q s) :
    BinaryOp.existsUntil.HoldsIn k p q s := by
  obtain ⟨π, hπ⟩ := hπ
  refine ⟨π, hπ, BinaryOp.holdsAt_until_iff.2 (.inl ?_)⟩
  rwa [hπ.1]

/-- `E(p U q)` holds where `p` does and a successor has it. -/
theorem existsUntil_of_next (hp : p s) (hstep : k.Step s t)
    (h : BinaryOp.existsUntil.HoldsIn k p q t) : BinaryOp.existsUntil.HoldsIn k p q s := by
  obtain ⟨π, hπ, j, -, hq, hbefore⟩ := h
  refine ⟨_, hπ.cons hstep, j + 1, Nat.zero_le _, hq, fun i _ hi => ?_⟩
  cases i with
  | zero => exact hp
  | succ i => exact hbefore i (Nat.zero_le i) (Nat.lt_of_succ_lt_succ hi)

/-- `E[ U ]` is the least property with its two laws. -/
theorem existsUntil_induction {P : k.State → Prop} (now : ∀ s, q s → P s)
    (next : ∀ s t, p s → k.Step s t → P t → P s) (h : BinaryOp.existsUntil.HoldsIn k p q s) :
    P s := by
  obtain ⟨π, ⟨hzero, hπ⟩, j, -, hq, hbefore⟩ := h
  -- Backwards from the point where the second operand holds.
  have hback : ∀ n i, i + n = j → P (π i) := by
    intro n
    induction n with
    | zero =>
      rintro i rfl
      exact now _ hq
    | succ n ih =>
      intro i hi
      exact next _ _ (hbefore i (Nat.zero_le i) (by omega)) (hπ i) (ih (i + 1) (by omega))
  rw [← hzero]
  exact hback j 0 (Nat.zero_add j)

end TransitionStructure

/-! ## Marks in a model -/

/-- Whether every declared state has a successor that is declared. -/
def Model.IsTotal (m : Model) : Prop :=
  ∀ p ∈ m.states, ∃ target ∈ p.2.successors, (m.index? target).isSome = true

instance (m : Model) : Decidable m.IsTotal :=
  inferInstanceAs (Decidable (∀ p ∈ m.states, ∃ target ∈ p.2.successors,
    (m.index? target).isSome = true))

/-- Where no path ends, a path starts in every state. -/
theorem Model.IsTotal.exists_pathFrom {m : Model} (h : m.IsTotal) (vars : Vars) {s : Nat}
    (hs : s < m.size) : ∃ π, (m.toStructure vars).IsPathFrom s π := by
  have hstep : ∀ s : Nat, s < m.size → ∃ t : Nat, t < m.size ∧ (m.toStructure vars).Step s t := by
    intro s hs
    obtain ⟨target, htarget, hsome⟩ := h m.states[s] (List.getElem_mem hs)
    obtain ⟨t, ht⟩ := Option.isSome_iff_exists.1 hsome
    exact ⟨t, index?_lt ht, m.states[s].1, m.states[s].2, List.getElem?_eq_getElem hs,
      List.mem_filterMap.2 ⟨target, htarget, ht⟩⟩
  obtain ⟨π, hπ, -⟩ := TransitionStructure.exists_pathFrom (k := m.toStructure vars)
    (P := fun s : Nat => s < m.size) hs hstep
  exact ⟨π, hπ⟩

namespace Branching

open TransitionStructure

variable {m : Model} {vars : Vars} {s t : Nat}

variable {holds holds₁ holds₂ : NatSet} {p q : Nat → Prop}

/-- The states marked for `!` are those in which it holds. -/
theorem mem_not (hholds : ∀ s, s ∈ holds ↔ s < m.size ∧ p s) :
    (s ∈ (List.range m.size).filter fun s => !(holds.lookup m.size).has s) ↔
      s < m.size ∧ UnaryOp.not.HoldsIn (m.toStructure vars) p s := by
  rw [List.mem_filter, List.mem_range, NatSet.has_lookup]
  simp only [Bool.not_eq_true', decide_eq_false_iff_not, hholds, not_and]
  exact and_congr_right fun hs => ⟨fun h => h hs, fun h _ => h⟩

/-- The states marked for `&` are those in which it holds. -/
theorem mem_and (hholds₁ : ∀ s, s ∈ holds₁ ↔ s < m.size ∧ p s)
    (hholds₂ : ∀ s, s ∈ holds₂ ↔ s < m.size ∧ q s) :
    (s ∈ (List.range m.size).filter fun s =>
      (holds₁.lookup m.size).has s && (holds₂.lookup m.size).has s) ↔
      s < m.size ∧ BinaryOp.and.HoldsIn (m.toStructure vars) p q s := by
  rw [List.mem_filter, List.mem_range]
  simp only [Bool.and_eq_true, NatSet.has_lookup, decide_eq_true_eq, hholds₁, hholds₂]
  exact and_congr_right fun hs => ⟨fun h => ⟨h.1.2, h.2.2⟩, fun h => ⟨⟨hs, h.1⟩, ⟨hs, h.2⟩⟩⟩

/-- The states of a model that pass a test which has an answer for each of them. -/
theorem statesWhere_eq {test : Nat → Except Fault Bool} {passes : Nat → Bool}
    (h : ∀ s < m.size, test s = .ok (passes s)) :
    statesWhere m test = .ok ((List.range m.size).filter passes) :=
  filterM_eq_ok fun s hs => h s (List.mem_range.1 hs)

/-- The states marked for `EX` are those in which it holds. -/
theorem mem_existsNext (htotal : m.IsTotal) (hholds : ∀ s, s ∈ holds ↔ s < m.size ∧ p s) :
    (s ∈ (List.range m.size).filter fun s => (m.targets s).any (holds.lookup m.size).has) ↔
      s < m.size ∧ UnaryOp.existsNext.HoldsIn (m.toStructure vars) p s := by
  rw [List.mem_filter, List.mem_range]
  refine and_congr_right fun _ => ?_
  have hlt : ∀ t : Nat, (m.toStructure vars).Step s t → t < m.size := by
    intro t hstep
    obtain ⟨name, hname⟩ := Model.exists_index?_of_step hstep
    exact Model.index?_lt hname
  have hnext := existsNext_iff (k := m.toStructure vars) (p := p) (s := s) fun t hstep =>
    htotal.exists_pathFrom vars (hlt t hstep)
  refine Iff.trans ?_ hnext.symm
  simp only [List.any_eq_true, NatSet.has_lookup, decide_eq_true_eq, hholds]
  constructor
  · rintro ⟨t, ht, -, hp⟩
    exact ⟨t, Model.mem_targets_iff.1 ht, hp⟩
  · rintro ⟨t, hstep, hp⟩
    exact ⟨t, Model.mem_targets_iff.2 hstep, hlt t hstep, hp⟩

/-- Every question for a reason to mark a state of the model for `AF` has an answer. -/
theorem answers_finallyReason (m : Model) (holds : NatSet) :
    Answers m.size (finallyReason m (holds.lookup m.size)) fun marks s =>
      decide (s ∈ holds) || (m.targets s).all marks.has := by
  intro marks s hs
  unfold finallyReason
  rw [NatSet.has_lookup, Model.successorIds_of_lt hs]
  by_cases hnow : s ∈ holds <;> simp [hnow, bind, Except.bind, pure, Except.pure]

/-- Every question for a reason to mark a state of the model for `E[ U ]` has an answer. -/
theorem answers_untilReason (m : Model) (holds₁ holds₂ : NatSet) :
    Answers m.size (untilReason m (holds₁.lookup m.size) (holds₂.lookup m.size)) fun marks s =>
      decide (s ∈ holds₂) || (decide (s ∈ holds₁) && (m.targets s).any marks.has) := by
  intro marks s hs
  unfold untilReason
  rw [NatSet.has_lookup, NatSet.has_lookup, Model.successorIds_of_lt hs]
  by_cases hsecond : s ∈ holds₂
  · simp [hsecond, pure, Except.pure]
  · by_cases hfirst : s ∈ holds₁ <;> simp [hsecond, hfirst, bind, Except.bind, pure, Except.pure]

/-- The states marked for `AF` are those in which it holds. -/
theorem mem_allFinally {marked : List Nat} (hmarked : IsLeastMarks m.size
      (fun marks s => decide (s ∈ holds) || (m.targets s).all marks.has) marked)
    (hholds : ∀ s, s ∈ holds ↔ s < m.size ∧ p s) :
    s ∈ marked ↔ s < m.size ∧ UnaryOp.allFinally.HoldsIn (m.toStructure vars) p s := by
  constructor
  · intro hs
    refine ⟨hmarked.lt s hs, ?_⟩
    refine hmarked.induction (UnaryOp.allFinally.HoldsIn (m.toStructure vars) p)
      (fun marks s _ hmarks hreason => ?_) s hs
    simp only [Bool.or_eq_true, decide_eq_true_eq, List.all_eq_true] at hreason
    obtain hnow | hnext := hreason
    · exact allFinally_of_now ((hholds s).1 hnow).2
    · exact allFinally_of_next fun t hstep => hmarks t (hnext t (Model.mem_targets_iff.2 hstep))
  · rintro ⟨hlt, hfinally⟩
    obtain ⟨marks, hmem, hclosed⟩ := hmarked.closed
    by_contra hnot
    refine not_allFinally (k := m.toStructure vars)
      (P := fun s : Nat => s < m.size ∧ ¬ marks.has s = true) ⟨hlt, ?_⟩
      (fun s ⟨hs, hunmarked⟩ => ?_) hfinally
    · rwa [hmem]
    · -- No mark means no reason for one.
      have hreason := mt (hclosed s hs) (mt (hmem s).2 hunmarked)
      simp only [Bool.or_eq_true, decide_eq_true_eq, not_or,
        List.all_eq_true, not_forall] at hreason
      obtain ⟨hnow, t, hnext, ht⟩ := hreason
      have hstep : (m.toStructure vars).Step s t := Model.mem_targets_iff.1 hnext
      obtain ⟨name, hname⟩ := Model.exists_index?_of_step hstep
      exact ⟨fun hp => hnow ((hholds s).2 ⟨hs, hp⟩), t, ⟨Model.index?_lt hname, ht⟩, hstep⟩

/-- The states marked for `E[ U ]` are those in which it holds. -/
theorem mem_existsUntil {marked : List Nat} (hmarked : IsLeastMarks m.size
      (fun marks s => decide (s ∈ holds₂) || (decide (s ∈ holds₁) && (m.targets s).any marks.has))
      marked)
    (htotal : m.IsTotal) (hholds₁ : ∀ s, s ∈ holds₁ ↔ s < m.size ∧ p s)
    (hholds₂ : ∀ s, s ∈ holds₂ ↔ s < m.size ∧ q s) :
    s ∈ marked ↔ s < m.size ∧ BinaryOp.existsUntil.HoldsIn (m.toStructure vars) p q s := by
  constructor
  · intro hs
    refine ⟨hmarked.lt s hs, ?_⟩
    refine hmarked.induction (BinaryOp.existsUntil.HoldsIn (m.toStructure vars) p q)
      (fun marks s hlt hmarks hreason => ?_) s hs
    simp only [Bool.or_eq_true, Bool.and_eq_true, decide_eq_true_eq,
      List.any_eq_true] at hreason
    obtain hnow | ⟨hp, t, hnext, ht⟩ := hreason
    · exact existsUntil_of_now (htotal.exists_pathFrom vars hlt) ((hholds₂ s).1 hnow).2
    · exact existsUntil_of_next ((hholds₁ s).1 hp).2 (Model.mem_targets_iff.1 hnext) (hmarks t ht)
  · rintro ⟨hlt, huntil⟩
    obtain ⟨marks, hmem, hclosed⟩ := hmarked.closed
    simp only [Bool.or_eq_true, Bool.and_eq_true, decide_eq_true_eq,
      List.any_eq_true] at hclosed
    refine (hmem s).1 (existsUntil_induction (k := m.toStructure vars)
      (P := fun s : Nat => s < m.size → marks.has s = true) (fun s hq hs => ?_)
      (fun s t hp hstep ht hs => ?_) huntil hlt)
    · exact (hmem s).2 (hclosed s hs (.inl ((hholds₂ s).2 ⟨hs, hq⟩)))
    · obtain ⟨name, hname⟩ := Model.exists_index?_of_step hstep
      have hmark := ht (Model.index?_lt hname)
      exact (hmem s).2 (hclosed s hs
        (.inr ⟨(hholds₁ s).2 ⟨hs, hp⟩, t, Model.mem_targets_iff.2 hstep, hmark⟩))

end Branching

end TemporalCheck
