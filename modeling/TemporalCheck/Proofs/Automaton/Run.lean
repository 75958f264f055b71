import TemporalCheck.Proofs.Sequence

/-!
# TemporalCheck.Proofs.Automaton.Run

Runs of related automata.  Where the states of one automaton stand for states of another, keeping
initial states, transitions and what the states ask for, its runs are runs of the other
(`Automaton.LiesOver`).
-/

namespace TemporalCheck

namespace Automaton

variable {b c : Automaton} {s t : Nat} {ρ : Nat → Nat} {φ : Nat → Nat}

@[simp] theorem stateD_of_size_le (h : b.size ≤ s) : b.stateD s = {} := by
  simp only [size] at h
  simp [stateD, Array.getD_eq_getD_getElem?, Array.getElem?_eq_none h]

theorem lt_size_of_mem_next (h : t ∈ (b.stateD s).next) : s < b.size := by
  by_cases hs : s < b.size
  · exact hs
  · rw [stateD_of_size_le (Nat.le_of_not_lt hs)] at h
    exact absurd h List.not_mem_nil

theorem stateD_mem (h : s < b.size) : b.stateD s ∈ b.states := by
  simp only [size] at h
  simp [stateD, Array.getD_eq_getD_getElem?, h]

/-- The initial states and the targets of transitions all exist. -/
structure Closed (b : Automaton) : Prop where
  initial : ∀ s ∈ b.initial, s < b.size
  next : ∀ st ∈ b.states, ∀ t ∈ st.next, t < b.size

theorem Closed.lt_of_mem_next (hb : b.Closed) (h : t ∈ (b.stateD s).next) : t < b.size :=
  hb.next _ (stateD_mem (lt_size_of_mem_next h)) t h

theorem WellFormed.closed (hb : b.WellFormed) : b.Closed := ⟨hb.1, hb.2.1⟩

theorem WellFormed.lt_of_mem_next (hb : b.WellFormed) (h : t ∈ (b.stateD s).next) : t < b.size :=
  hb.closed.lt_of_mem_next h

/-- An automaton is well formed if its initial states, the successors of its states and the members
of its accept sets are states. -/
theorem wellFormed_of_stateD (hinit : ∀ s ∈ b.initial, s < b.size)
    (hnext : ∀ s t, t ∈ (b.stateD s).next → t < b.size)
    (haccept : ∀ set ∈ b.acceptSets, ∀ s ∈ set, s < b.size) : b.WellFormed := by
  refine ⟨hinit, fun st hst t ht => ?_, haccept⟩
  obtain ⟨s, hs⟩ := Array.mem_iff_getElem?.1 hst
  refine hnext s t ?_
  simpa [stateD, Array.getD_eq_getD_getElem?, hs] using ht

theorem IsRun.lt_size (h : b.IsRun ρ) (i : Nat) : ρ i < b.size := lt_size_of_mem_next (h.2 i)

theorem acceptSets_eq_of_length (h : b.acceptSets.length = 1) : b.acceptSets = [b.acceptSet] := by
  obtain ⟨set, hset⟩ := List.length_eq_one_iff.1 h
  rw [acceptSet, hset]
  rfl

/-- A run of an ordinary automaton is fair if it comes back to the one accept set for ever. -/
theorem isFair_iff_acceptSet (h : b.acceptSets.length = 1) :
    b.IsFair ρ ↔ InfinitelyOften fun i => ρ i ∈ b.acceptSet := by
  rw [IsFair, acceptSets_eq_of_length h, List.forall_mem_singleton]

theorem state_of_lt (h : s < b.size) : b.state s = .ok (b.stateD s) := by
  simp only [size] at h
  simp [state, stateD, Array.getD_eq_getD_getElem?, h]

theorem successors_of_lt (h : s < b.size) : b.successors s = .ok (b.stateD s).next := by
  unfold successors
  rw [state_of_lt h]
  rfl

/-! Where each of several copies has `n` states, `i + n * x` is the number of state `i` of copy
`x`. -/

theorem mod_copy {n i : Nat} (hi : i < n) (x : Nat) : (i + n * x) % n = i := by
  rw [Nat.add_mul_mod_self_left, Nat.mod_eq_of_lt hi]

theorem div_copy {n i : Nat} (hi : i < n) (x : Nat) : (i + n * x) / n = x := by
  rw [Nat.add_mul_div_left _ _ (Nat.zero_lt_of_lt hi), Nat.div_eq_of_lt hi, Nat.zero_add]

/-- A state is one of the `n` states of a copy exactly if it belongs to this copy. -/
theorem mem_interval_copy_iff {n i x k : Nat} (hi : i < n) :
    i + n * x ∈ NatSet.interval (n * k) n ↔ x = k := by
  rw [NatSet.mem_interval]
  constructor
  · intro h
    have hk : (i + n * x) / n = k := by
      refine Nat.div_eq_of_lt_le (Nat.mul_comm k n ▸ h.1) ?_
      rw [Nat.succ_mul, Nat.mul_comm k]
      exact h.2
    exact (div_copy hi x).symm.trans hk
  · rintro rfl
    omega

/-- Transitions between states that exist lead beyond no number, as long as the states do not. -/
theorem Closed.numbered_eq (hb : b.Closed) (hsize : b.size ≤ numberLimit) :
    b.numbered = .ok b := by
  have hall : (b.states.all fun st => st.next.all (· < numberLimit)) = true := by
    rw [Array.all_eq_true_iff_forall_mem]
    intro st hst
    rw [List.all_eq_true]
    intro t ht
    exact decide_eq_true (Nat.lt_of_lt_of_le (hb.next st hst t ht) hsize)
  rw [numbered, if_pos hall]

/-- The states of one automaton stand for states of another. -/
structure LiesOver (c b : Automaton) (φ : Nat → Nat) : Prop where
  initial : ∀ s ∈ c.initial, φ s ∈ b.initial
  next : ∀ s t, t ∈ (c.stateD s).next → φ t ∈ (b.stateD (φ s)).next
  required : ∀ s < c.size, (c.stateD s).required = (b.stateD (φ s)).required
  forbidden : ∀ s < c.size, (c.stateD s).forbidden = (b.stateD (φ s)).forbidden

theorem LiesOver.isRun (h : c.LiesOver b φ) (hρ : c.IsRun ρ) : b.IsRun fun i => φ (ρ i) :=
  ⟨h.initial _ hρ.1, fun i => h.next _ _ (hρ.2 i)⟩

theorem LiesOver.agrees_iff (h : c.LiesOver b φ) (hs : s < c.size) (letter : Nat → Prop) :
    (c.stateD s).Agrees letter ↔ (b.stateD (φ s)).Agrees letter := by
  unfold AutomatonState.Agrees
  rw [h.required s hs, h.forbidden s hs]

theorem LiesOver.agrees_run_iff (h : c.LiesOver b φ) (hρ : c.IsRun ρ) (w : Word Nat) :
    (∀ i, (c.stateD (ρ i)).Agrees (w i)) ↔ ∀ i, (b.stateD (φ (ρ i))).Agrees (w i) :=
  forall_congr' fun i => h.agrees_iff (hρ.lt_size i) (w i)

/-- An automaton whose runs start in a seed: no transition enters an initial state, an initial
state asks for nothing, and the other states ask for known variables. -/
structure Seeded (b : Automaton) (known : Nat → Prop) : Prop where
  unentered : ∀ s t, t ∈ (b.stateD s).next → t ∉ b.initial
  required_initial : ∀ s ∈ b.initial, (b.stateD s).required = ∅
  forbidden_initial : ∀ s ∈ b.initial, (b.stateD s).forbidden = ∅
  known_of_mem : ∀ s v, v ∈ (b.stateD s).required ∨ v ∈ (b.stateD s).forbidden → known v

theorem Seeded.mono {known known' : Nat → Prop} (h : b.Seeded known)
    (hknown : ∀ v, known v → known' v) : b.Seeded known' :=
  { h with known_of_mem := fun s v hv => hknown v (h.known_of_mem s v hv) }

/-- The seed of an automaton asks for nothing, so that it agrees with every letter. -/
theorem Seeded.agrees_initial {known : Nat → Prop} (h : b.Seeded known) (hs : s ∈ b.initial)
    (letter : Nat → Prop) : (b.stateD s).Agrees letter := by
  constructor
  · rw [h.required_initial s hs]
    exact fun v hv => absurd hv (NatSet.not_mem_empty v)
  · rw [h.forbidden_initial s hs]
    exact fun v hv => absurd hv (NatSet.not_mem_empty v)

/-- An automaton that lies over one with a seed has a seed. -/
theorem LiesOver.seeded {known : Nat → Prop} (h : c.LiesOver b φ)
    (hc : ∀ s ∈ c.initial, s < c.size) (hb : b.Seeded known) : c.Seeded known where
  unentered s t ht hinit := hb.unentered _ _ (h.next s t ht) (h.initial t hinit)
  required_initial s hs := by rw [h.required s (hc s hs), hb.required_initial _ (h.initial s hs)]
  forbidden_initial s hs := by rw [h.forbidden s (hc s hs), hb.forbidden_initial _ (h.initial s hs)]
  known_of_mem s v hv := by
    by_cases hs : s < c.size
    · rw [h.required s hs, h.forbidden s hs] at hv
      exact hb.known_of_mem _ v hv
    · rw [stateD_of_size_le (Nat.le_of_not_lt hs)] at hv
      exact absurd hv (not_or.2 ⟨NatSet.not_mem_empty v, NatSet.not_mem_empty v⟩)

end Automaton

end TemporalCheck
