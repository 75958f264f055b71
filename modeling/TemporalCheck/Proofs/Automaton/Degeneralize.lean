import TemporalCheck.Automaton.Degeneralize
import TemporalCheck.Proofs.Automaton.Run

/-!
# TemporalCheck.Proofs.Automaton.Degeneralize

One accept set is enough.  A run of the ordinary automaton is a run of the general one together
with the copies it passes through, and the copies count off the accept sets: the last copy is
reached again and again exactly if every accept set is visited again and again.  So both accept
the same words (`Automaton.accepts_degeneralize`).
-/

namespace TemporalCheck.Automaton

variable {b : Automaton} {ρ σ x : Nat → Nat}

/-- The copy after a visit to `target`. -/
def nextCopy (b : Automaton) (x target : Nat) : Nat :=
  copyAfter (b.acceptSets.map (·.lookup b.size)) x target

theorem nextCopy_of_mem {x target : Nat} {set : NatSet} (hset : b.acceptSets[x]? = some set)
    (hmem : target ∈ set) : b.nextCopy x target = x + 1 := by
  simp [nextCopy, copyAfter, List.getElem?_map, hset, hmem]

theorem nextCopy_of_not_mem {x target : Nat} {set : NatSet} (hset : b.acceptSets[x]? = some set)
    (hmem : target ∉ set) : b.nextCopy x target = x := by
  simp [nextCopy, copyAfter, List.getElem?_map, hset, hmem]

theorem nextCopy_last {target : Nat} : b.nextCopy b.acceptSets.length target = 0 := by
  simp [nextCopy, copyAfter]

/-- There is one copy more than there are accept sets. -/
theorem nextCopy_le {x target : Nat} (hx : x ≤ b.acceptSets.length) :
    b.nextCopy x target ≤ b.acceptSets.length := by
  obtain hlt | rfl := Nat.lt_or_eq_of_le hx
  · have hset := List.getElem?_eq_getElem hlt
    by_cases hmem : target ∈ b.acceptSets[x]
    · rw [nextCopy_of_mem hset hmem]
      exact hlt
    · rw [nextCopy_of_not_mem hset hmem]
      exact hx
  · rw [nextCopy_last]
    exact Nat.zero_le _

@[simp] theorem size_degeneralize (b : Automaton) :
    b.degeneralize.size = b.size * (b.acceptSets.length + 1) := by
  simp [degeneralize, size]

/-- A state of the copies has the literals of the state that it is a copy of, and leads to the
copies of its successors. -/
theorem stateD_degeneralize {d : Nat} (hd : d < b.size * (b.acceptSets.length + 1)) :
    b.degeneralize.stateD d =
      { b.stateD (d % b.size) with
        next := (b.stateD (d % b.size)).next.map fun target =>
          target + b.size * b.nextCopy (d / b.size) target
        label := none } := by
  simp [degeneralize, stateD, Array.getD_eq_getD_getElem?, hd, nextCopy]

theorem mem_next_degeneralize {d t : Nat} (hd : d < b.size * (b.acceptSets.length + 1)) :
    t ∈ (b.degeneralize.stateD d).next ↔ ∃ r ∈ (b.stateD (d % b.size)).next,
      t = r + b.size * b.nextCopy (d / b.size) r := by
  rw [stateD_degeneralize hd]
  simp [eq_comm]

/-- A number of a state is a state and a copy. -/
theorem lt_degeneralize {i x : Nat} (hi : i < b.size) (hx : x ≤ b.acceptSets.length) :
    i + b.size * x < b.size * (b.acceptSets.length + 1) := by
  have := Nat.mul_le_mul_left b.size hx
  rw [Nat.mul_add, Nat.mul_one]
  omega

theorem div_le_of_lt_degeneralize {d : Nat} (hd : d < b.size * (b.acceptSets.length + 1)) :
    d / b.size ≤ b.acceptSets.length :=
  Nat.le_of_lt_succ (Nat.div_lt_of_lt_mul hd)

/-- The copies of an automaton lead to each other only. -/
theorem wellFormed_degeneralize (hb : b.WellFormed) : b.degeneralize.WellFormed := by
  refine wellFormed_of_stateD (fun s hs => ?_) (fun s t ht => ?_) fun set hset s hs => ?_
  · rw [size_degeneralize]
    exact lt_degeneralize (x := 0) (hb.1 s hs) (Nat.zero_le _)
  · have hlt := lt_size_of_mem_next ht
    rw [size_degeneralize] at hlt ⊢
    obtain ⟨r, hr, rfl⟩ := (mem_next_degeneralize hlt).1 ht
    exact lt_degeneralize (hb.lt_of_mem_next hr) (nextCopy_le (div_le_of_lt_degeneralize hlt))
  · rw [degeneralize, List.mem_singleton] at hset
    subst hset
    rw [NatSet.mem_interval] at hs
    rw [size_degeneralize, Nat.mul_add, Nat.mul_one]
    exact hs.2

/-- The states of the ordinary automaton stand for those of the general one. -/
theorem degeneralize_liesOver (hb : b.WellFormed) :
    b.degeneralize.LiesOver b (· % b.size) where
  initial s hs := by
    rw [Nat.mod_eq_of_lt (hb.1 s hs)]
    exact hs
  next s t ht := by
    have hlt := lt_size_of_mem_next ht
    rw [size_degeneralize] at hlt
    obtain ⟨r, hr, rfl⟩ := (mem_next_degeneralize hlt).1 ht
    rw [mod_copy (hb.lt_of_mem_next hr)]
    exact hr
  required s hs := by
    rw [size_degeneralize] at hs
    rw [stateD_degeneralize hs]
  forbidden s hs := by
    rw [size_degeneralize] at hs
    rw [stateD_degeneralize hs]

/-- The copies that a run passes through. -/
def copies (b : Automaton) (ρ : Nat → Nat) : Nat → Nat
  | 0 => 0
  | i + 1 => b.nextCopy (b.copies ρ i) (ρ (i + 1))

/-- The copies that a run passes go through rounds: each of them waits for its accept set. -/
theorem rounds_copies (b : Automaton) (ρ : Nat → Nat) :
    Rounds b.acceptSets.length (fun j i => ∃ set, b.acceptSets[j]? = some set ∧ ρ i ∈ set)
      (b.copies ρ) where
  start := Nat.zero_le _
  advance i _ hp := by
    obtain ⟨set, hset, hmem⟩ := hp
    exact nextCopy_of_mem hset hmem
  wait i hlt hp := by
    have hset := List.getElem?_eq_getElem hlt
    exact nextCopy_of_not_mem hset fun hmem => hp ⟨_, hset, hmem⟩
  restart i heq := by
    rw [copies, heq, nextCopy_last]

/-- A run is fair exactly if it gets through all copies again and again. -/
theorem isFair_iff_copies :
    b.IsFair ρ ↔ InfinitelyOften fun i => b.copies ρ i = b.acceptSets.length := by
  rw [(rounds_copies b ρ).infinitelyOften_iff]
  constructor
  · intro hfair j hj
    refine (hfair _ (List.getElem_mem hj)).mono fun i hi => ?_
    exact ⟨_, List.getElem?_eq_getElem hj, hi⟩
  · intro hall set hset
    obtain ⟨j, hj⟩ := List.mem_iff_getElem?.1 hset
    refine (hall j (List.getElem?_eq_some_iff.1 hj).1).mono fun i hi => ?_
    obtain ⟨set', hset', hmem⟩ := hi
    rw [hj] at hset'
    exact Option.some.inj hset' ▸ hmem

/-- A run of the ordinary automaton is a run of the general one with its copies. -/
theorem isRun_degeneralize_iff (hb : b.WellFormed) :
    b.degeneralize.IsRun σ ↔ ∃ ρ, b.IsRun ρ ∧ ∀ i, σ i = ρ i + b.size * b.copies ρ i := by
  constructor
  · intro hσ
    have hρ := (degeneralize_liesOver hb).isRun hσ
    have hstart : σ 0 < b.size := hb.1 _ hσ.1
    refine ⟨_, hρ, fun i => ?_⟩
    induction i with
    | zero => rw [copies, Nat.mul_zero, Nat.add_zero, Nat.mod_eq_of_lt hstart]
    | succ i ih =>
      have hlt := hσ.lt_size i
      rw [size_degeneralize] at hlt
      obtain ⟨r, hr, heq⟩ := (mem_next_degeneralize hlt).1 (hσ.2 i)
      have hmod : σ (i + 1) % b.size = r := by rw [heq, mod_copy (hb.lt_of_mem_next hr)]
      have hcopy : σ i / b.size = b.copies (fun i => σ i % b.size) i := by
        have hdiv := congrArg (· / b.size) ih
        rw [hdiv, div_copy (hρ.lt_size i)]
      rw [copies, hmod, ← hcopy]
      exact heq
  · rintro ⟨ρ, hρ, hσ⟩
    have hle := (rounds_copies b ρ).le
    constructor
    · rw [hσ 0, copies, Nat.mul_zero, Nat.add_zero]
      exact hρ.1
    · intro i
      have hi := hρ.lt_size i
      rw [hσ i, mem_next_degeneralize (lt_degeneralize hi (hle i)), mod_copy hi, div_copy hi]
      exact ⟨ρ (i + 1), hρ.2 i, hσ (i + 1)⟩

/-- The ordinary automaton is fair to a run where the general one is. -/
theorem isFair_degeneralize_iff (hρ : b.IsRun ρ) (hσ : ∀ i, σ i = ρ i + b.size * b.copies ρ i) :
    b.degeneralize.IsFair σ ↔ b.IsFair ρ := by
  rw [isFair_iff_copies (b := b), isFair_iff_acceptSet (b := b.degeneralize) rfl]
  refine InfinitelyOften.congr fun i => ?_
  rw [hσ i]
  exact mem_interval_copy_iff (hρ.lt_size i)

/-- The ordinary automaton accepts the same words. -/
theorem accepts_degeneralize (hb : b.WellFormed) (w : Word Nat) :
    b.degeneralize.Accepts w ↔ b.Accepts w := by
  have hover := degeneralize_liesOver hb
  have hmod : ∀ {ρ σ : Nat → Nat}, b.IsRun ρ → (∀ i, σ i = ρ i + b.size * b.copies ρ i) →
      ∀ i, σ i % b.size = ρ i := by
    intro ρ σ hρ hσ i
    rw [hσ i, mod_copy (hρ.lt_size i)]
  constructor
  · rintro ⟨σ, ⟨hrun, hagrees⟩, hfair⟩
    obtain ⟨ρ, hρ, hσ⟩ := (isRun_degeneralize_iff hb).1 hrun
    have hagrees := (hover.agrees_run_iff hrun w).1 hagrees
    simp only [hmod hρ hσ] at hagrees
    exact ⟨ρ, ⟨hρ, hagrees⟩, (isFair_degeneralize_iff hρ hσ).1 hfair⟩
  · rintro ⟨ρ, ⟨hρ, hagrees⟩, hfair⟩
    have hσ : ∀ i, ρ i + b.size * b.copies ρ i = ρ i + b.size * b.copies ρ i := fun _ => rfl
    have hrun := (isRun_degeneralize_iff hb).2 ⟨ρ, hρ, hσ⟩
    refine ⟨_, ⟨hrun, (hover.agrees_run_iff hrun w).2 ?_⟩, (isFair_degeneralize_iff hρ hσ).2 hfair⟩
    simpa only [hmod hρ hσ] using hagrees

/-- **One accept set is enough.**  Let the initial states, the targets of transitions and the
members of accept sets all exist, however many accept sets there are.  The ordinary automaton has
exactly one accept set.  A word has a run that comes back to each accept set for ever exactly if it
has a run of the ordinary automaton that comes back to its accept set for ever.  As long as its
states can be numbered, the ordinary automaton is the checked one. -/
theorem degeneralize_keeps_language (hb : b.WellFormed) :
    b.degeneralize.acceptSets.length = 1 ∧
    (b.degeneralize.size ≤ numberLimit → b.ordinary = .ok b.degeneralize) ∧
    ∀ w : Word Nat,
      (∃ ρ, b.IsRunOver w ρ ∧ ∀ set ∈ b.acceptSets, InfinitelyOften fun i => ρ i ∈ set) ↔
      ∃ σ, b.degeneralize.IsRunOver w σ ∧
        InfinitelyOften fun i => σ i ∈ b.degeneralize.acceptSet := by
  refine ⟨rfl, (wellFormed_degeneralize hb).closed.numbered_eq, fun w => ?_⟩
  have hordinary : b.degeneralize.Accepts w ↔ ∃ σ, b.degeneralize.IsRunOver w σ ∧
      InfinitelyOften fun i => σ i ∈ b.degeneralize.acceptSet :=
    exists_congr fun σ => and_congr_right fun _ => isFair_iff_acceptSet rfl
  exact (accepts_degeneralize hb w).symm.trans hordinary

/-- Two accept sets, of which the second is seen before the first on every round. -/
theorem degeneralize_keeps_language_round :
    let b : Automaton := {
      states := #[{ next := [1] }, { next := [2, 1], required := .ofList [3] }, { next := [0] }]
      initial := [0]
      acceptSets := [.ofList [2], .ofList [0, 1]] }
    b.WellFormed ∧ b.degeneralize.acceptSets.length = 1 ∧
    (b.degeneralize.size ≤ numberLimit → b.ordinary = .ok b.degeneralize) ∧
    ∀ w : Word Nat,
      (∃ ρ, b.IsRunOver w ρ ∧ ∀ set ∈ b.acceptSets, InfinitelyOften fun i => ρ i ∈ set) ↔
      ∃ σ, b.degeneralize.IsRunOver w σ ∧
        InfinitelyOften fun i => σ i ∈ b.degeneralize.acceptSet := by
  intro b
  have hb : b.WellFormed := ⟨by decide, by decide, by decide⟩
  exact ⟨hb, degeneralize_keeps_language hb⟩

end TemporalCheck.Automaton
