import TemporalCheck.Automaton.Product
import TemporalCheck.Proofs.Automaton.Reduce
import TemporalCheck.Proofs.Automaton.Witness

/-!
# TemporalCheck.Proofs.Automaton.Product

The product of two ordinary automata.  A run of it is a run of each of them, side by side, with the
layers it passes through, which count off the two accept sets; so the product accepts the words that
both accept (`Automaton.accepts_productScheme`).  `Automaton.Pairs` says what the useful part of a
product is: its runs are the pairs of runs whose states never ask for opposite things of one
variable (`Automaton.exists_product`).  A search of it tells whether there is a word that both
accept.
-/

namespace TemporalCheck.Automaton

variable {b₁ b₂ r : Automaton} {ρ₁ ρ₂ σ : Nat → Nat}

/-- Whether two states ask for opposite things of one variable. -/
def Clash (b₁ b₂ : Automaton) (i j : Nat) : Prop :=
  (pairState (b₁.stateD i) (b₂.stateD j)).isContradictory = true

/-- The useful part of a product and the two states that each of its states stands for. -/
structure Pairs (r b₁ b₂ : Automaton) (φ₁ φ₂ : Nat → Nat) : Prop where
  initial : ∀ s ∈ r.initial, φ₁ s ∈ b₁.initial ∧ φ₂ s ∈ b₂.initial
  next : ∀ s t, t ∈ (r.stateD s).next →
    φ₁ t ∈ (b₁.stateD (φ₁ s)).next ∧ φ₂ t ∈ (b₂.stateD (φ₂ s)).next
  consistent : ∀ s < r.size, ¬ Clash b₁ b₂ (φ₁ s) (φ₂ s)
  label : ∀ s < r.size, (r.stateD s).label = (b₁.stateD (φ₁ s)).label
  fair_iff : ∀ σ, r.IsRun σ →
    (r.IsFair σ ↔ b₁.IsFair (fun i => φ₁ (σ i)) ∧ b₂.IsFair fun i => φ₂ (σ i))
  exists_run : ∀ ρ₁ ρ₂, b₁.IsRun ρ₁ → b₂.IsRun ρ₂ → (∀ i, ¬ Clash b₁ b₂ (ρ₁ i) (ρ₂ i)) →
    ∃ σ, r.IsRun σ ∧ (∀ i, φ₁ (σ i) = ρ₁ i) ∧ ∀ i, φ₂ (σ i) = ρ₂ i

theorem Pairs.isRun {φ₁ φ₂ : Nat → Nat} (h : Pairs r b₁ b₂ φ₁ φ₂) (hσ : r.IsRun σ) :
    b₁.IsRun (fun i => φ₁ (σ i)) ∧ b₂.IsRun fun i => φ₂ (σ i) :=
  ⟨⟨(h.initial _ hσ.1).1, fun i => (h.next _ _ (hσ.2 i)).1⟩,
    ⟨(h.initial _ hσ.1).2, fun i => (h.next _ _ (hσ.2 i)).2⟩⟩

/-! ## Letters that two states agree with -/

theorem clash_iff {b₁ b₂ : Automaton} {i j : Nat} : Clash b₁ b₂ i j ↔
    ∃ v, (v ∈ (b₁.stateD i).required ∨ v ∈ (b₂.stateD j).required) ∧
      (v ∈ (b₁.stateD i).forbidden ∨ v ∈ (b₂.stateD j).forbidden) := by
  rw [Clash, AutomatonState.isContradictory, NatSet.meets_iff]
  simp [pairState]

/-- States that agree with one letter do not clash. -/
theorem not_clash_of_agrees {b₁ b₂ : Automaton} {i j : Nat} {letter : Nat → Prop}
    (h₁ : (b₁.stateD i).Agrees letter) (h₂ : (b₂.stateD j).Agrees letter) : ¬ Clash b₁ b₂ i j := by
  rw [clash_iff]
  rintro ⟨v, hreq, hforb⟩
  exact hforb.elim (h₁.2 v) (h₂.2 v) (hreq.elim (h₁.1 v) (h₂.1 v))

/-- A letter for two states that do not clash. -/
def commonLetter (b₁ b₂ : Automaton) (i j : Nat) : Nat → Prop :=
  fun v => v ∈ (b₁.stateD i).required ∨ v ∈ (b₂.stateD j).required

/-- Two states that do not clash agree on a letter: the one that has what they ask for and nothing
else. -/
theorem agrees_commonLetter {b₁ b₂ : Automaton} {i j : Nat} (h : ¬ Clash b₁ b₂ i j) :
    (b₁.stateD i).Agrees (commonLetter b₁ b₂ i j) ∧
      (b₂.stateD j).Agrees (commonLetter b₁ b₂ i j) := by
  rw [clash_iff] at h
  exact ⟨⟨fun v hv => .inl hv, fun v hv hreq => h ⟨v, hreq, .inl hv⟩⟩,
    ⟨fun v hv => .inr hv, fun v hv hreq => h ⟨v, hreq, .inr hv⟩⟩⟩

theorem agrees_pairState_iff {s₁ s₂ : AutomatonState} {letter : Nat → Prop} :
    (pairState s₁ s₂).Agrees letter ↔ s₁.Agrees letter ∧ s₂.Agrees letter := by
  simp only [AutomatonState.Agrees, pairState, NatSet.mem_union, or_imp, forall_and]
  exact and_and_and_comm

/-! ## Numbers of pairs -/

/-- The first state of a pair. -/
def firstOf (b₁ b₂ : Automaton) (id : Nat) : Nat := id % (b₁.size * b₂.size) % b₁.size

/-- The second state of a pair. -/
def secondOf (b₁ b₂ : Automaton) (id : Nat) : Nat := id % (b₁.size * b₂.size) / b₁.size

/-- The number of a pair in a layer. -/
def pairId (b₁ b₂ : Automaton) (i j x : Nat) : Nat := i + j * b₁.size + x * (b₁.size * b₂.size)

theorem pair_lt {i j : Nat} (hi : i < b₁.size) (hj : j < b₂.size) :
    i + j * b₁.size < b₁.size * b₂.size := by
  have hmul := Nat.mul_le_mul_right b₁.size (Nat.succ_le_of_lt hj)
  rw [Nat.succ_mul, Nat.mul_comm b₂.size] at hmul
  omega

section PairId

variable {i j x : Nat} (hi : i < b₁.size) (hj : j < b₂.size)
include hi hj

theorem pairId_mod : pairId b₁ b₂ i j x % (b₁.size * b₂.size) = i + j * b₁.size := by
  rw [pairId, Nat.add_mul_mod_self_right, Nat.mod_eq_of_lt (pair_lt hi hj)]

theorem pairId_div : pairId b₁ b₂ i j x / (b₁.size * b₂.size) = x := by
  have hlt := pair_lt hi hj
  rw [pairId, Nat.add_mul_div_right _ _ (by omega), Nat.div_eq_of_lt hlt, Nat.zero_add]

theorem firstOf_pairId : firstOf b₁ b₂ (pairId b₁ b₂ i j x) = i := by
  rw [firstOf, pairId_mod hi hj, Nat.add_mul_mod_self_right, Nat.mod_eq_of_lt hi]

theorem secondOf_pairId : secondOf b₁ b₂ (pairId b₁ b₂ i j x) = j := by
  rw [secondOf, pairId_mod hi hj, Nat.add_mul_div_right _ _ (by omega), Nat.div_eq_of_lt hi,
    Nat.zero_add]

/-- The number of a pair in a layer is one of the product's if and only if the layer is one of the
three. -/
theorem pairId_lt_iff : pairId b₁ b₂ i j x < b₁.size * b₂.size * 3 ↔ x < 3 := by
  have hlt := pair_lt hi hj
  rw [pairId]
  constructor
  · intro h
    by_contra hx
    have := Nat.mul_le_mul_right (b₁.size * b₂.size) (Nat.le_of_not_lt hx)
    omega
  · intro h
    have := Nat.mul_le_mul_right (b₁.size * b₂.size) (Nat.le_of_lt_succ h)
    omega

end PairId

theorem firstOf_lt {id : Nat} (h : id < b₁.size * b₂.size * 3) : firstOf b₁ b₂ id < b₁.size := by
  have hpos : 0 < b₁.size * b₂.size := by omega
  exact Nat.mod_lt _ (Nat.pos_of_mul_pos_right hpos)

theorem secondOf_lt {id : Nat} (h : id < b₁.size * b₂.size * 3) : secondOf b₁ b₂ id < b₂.size := by
  have hpos : 0 < b₁.size * b₂.size := by omega
  exact Nat.div_lt_of_lt_mul (Nat.mod_lt _ hpos)

/-- A number is the one of the pair and the layer that it stands for. -/
theorem pairId_of_id (b₁ b₂ : Automaton) (id : Nat) :
    pairId b₁ b₂ (firstOf b₁ b₂ id) (secondOf b₁ b₂ id) (id / (b₁.size * b₂.size)) = id := by
  have h₁ := Nat.mod_add_div (id % (b₁.size * b₂.size)) b₁.size
  have h₂ := Nat.mod_add_div id (b₁.size * b₂.size)
  rw [pairId, firstOf, secondOf, Nat.mul_comm _ b₁.size, h₁, Nat.mul_comm _ (b₁.size * b₂.size), h₂]

/-! ## The states of the product -/

theorem size_productScheme : (productScheme b₁ b₂).size = b₁.size * b₂.size * 3 := rfl

theorem pairs_getD {d : Nat} (hd : d < b₁.size * b₂.size) :
    (pairs b₁ b₂).getD d {} = pairState (b₁.stateD (d % b₁.size)) (b₂.stateD (d / b₁.size)) := by
  simp [pairs, Array.getD_eq_getD_getElem?, hd]

/-- A state of the product is a contradiction if and only if the two states that it stands for
clash. -/
theorem isContradiction_iff {id : Nat} (h : id < b₁.size * b₂.size * 3) :
    (productScheme b₁ b₂).isContradiction id = true ↔
      Clash b₁ b₂ (firstOf b₁ b₂ id) (secondOf b₁ b₂ id) := by
  have hpos : 0 < b₁.size * b₂.size := by omega
  have hmod := Nat.mod_lt id hpos
  simp [productScheme, h, pairs, Array.getD_eq_getD_getElem?, hmod, Clash, firstOf, secondOf]

/-- The layer after a visit to a pair. -/
def nextLayer (b₁ b₂ : Automaton) (x i j : Nat) : Nat :=
  layerAfter (b₁.acceptSet.lookup b₁.size) (b₂.acceptSet.lookup b₂.size) x i j

/-- There are three layers. -/
theorem nextLayer_lt (x i j : Nat) : nextLayer b₁ b₂ x i j < 3 := by
  unfold nextLayer layerAfter
  split
  · split <;> omega
  · split <;> omega
  · omega

/-- A state of the product leads to the pairs of successors that do not clash, in the layer that its
own layer and the pair say. -/
theorem mem_next_productScheme (h₁ : b₁.Closed) (h₂ : b₂.Closed) {id t : Nat} :
    t ∈ ((productScheme b₁ b₂).state id).next ↔
      ∃ i ∈ (b₁.stateD (firstOf b₁ b₂ id)).next, ∃ j ∈ (b₂.stateD (secondOf b₁ b₂ id)).next,
        ¬ Clash b₁ b₂ i j ∧
          t = pairId b₁ b₂ i j (nextLayer b₁ b₂ (id / (b₁.size * b₂.size)) i j) := by
  have hclash : ∀ i ∈ (b₁.stateD (firstOf b₁ b₂ id)).next,
      ∀ j ∈ (b₂.stateD (secondOf b₁ b₂ id)).next,
      ((productScheme b₁ b₂).isContradiction (i + j * b₁.size) = true ↔ Clash b₁ b₂ i j) := by
    intro i hi j hj
    have hi := h₁.lt_of_mem_next hi
    have hj := h₂.lt_of_mem_next hj
    have hid : i + j * b₁.size = pairId b₁ b₂ i j 0 := by rw [pairId, Nat.zero_mul, Nat.add_zero]
    rw [hid, isContradiction_iff ((pairId_lt_iff hi hj).2 (by omega)), firstOf_pairId hi hj,
      secondOf_pairId hi hj]
  show t ∈ (b₁.stateD (firstOf b₁ b₂ id)).next.flatMap (fun i =>
    (b₂.stateD (secondOf b₁ b₂ id)).next.filterMap fun j =>
      if (productScheme b₁ b₂).isContradiction (i + j * b₁.size) then none
      else some (i + j * b₁.size +
        nextLayer b₁ b₂ (id / (b₁.size * b₂.size)) i j * (b₁.size * b₂.size))) ↔ _
  rw [List.mem_flatMap]
  refine exists_congr fun i => and_congr_right fun hi => ?_
  rw [List.mem_filterMap]
  refine exists_congr fun j => and_congr_right fun hj => ?_
  have hiff := hclash i hi j hj
  by_cases hc : (productScheme b₁ b₂).isContradiction (i + j * b₁.size) = true
  · rw [if_pos hc]
    simp [hiff.1 hc]
  · rw [if_neg hc, Option.some.injEq]
    exact ⟨fun h => ⟨mt hiff.2 hc, h.symm⟩, fun h => h.2.symm⟩

theorem mem_initial_productScheme {s : Nat} : s ∈ (productScheme b₁ b₂).initial ↔
    ∃ i ∈ b₁.initial, ∃ j ∈ b₂.initial, s = pairId b₁ b₂ i j 0 := by
  show s ∈ b₁.initial.flatMap (fun i => b₂.initial.map fun j => i + j * b₁.size) ↔ _
  simp only [List.mem_flatMap, List.mem_map, pairId, Nat.zero_mul, Nat.add_zero, eq_comm]

/-- An initial state of the product stands for two initial states. -/
theorem initial_of_product (h₁ : b₁.Closed) (h₂ : b₂.Closed) {s : Nat}
    (hs : s ∈ (productScheme b₁ b₂).initial) :
    firstOf b₁ b₂ s ∈ b₁.initial ∧ secondOf b₁ b₂ s ∈ b₂.initial := by
  obtain ⟨i, hi, j, hj, rfl⟩ := mem_initial_productScheme.1 hs
  rw [firstOf_pairId (h₁.initial i hi) (h₂.initial j hj),
    secondOf_pairId (h₁.initial i hi) (h₂.initial j hj)]
  exact ⟨hi, hj⟩

/-- A transition of the product stands for two transitions. -/
theorem next_of_product (h₁ : b₁.Closed) (h₂ : b₂.Closed) {s t : Nat}
    (ht : t ∈ ((productScheme b₁ b₂).tabulate.stateD s).next) :
    firstOf b₁ b₂ t ∈ (b₁.stateD (firstOf b₁ b₂ s)).next ∧
      secondOf b₁ b₂ t ∈ (b₂.stateD (secondOf b₁ b₂ s)).next := by
  have hlt := lt_size_of_mem_next ht
  rw [Scheme.size_tabulate] at hlt
  rw [Scheme.stateD_tabulate (b := productScheme b₁ b₂) hlt] at ht
  obtain ⟨i, hi, j, hj, -, rfl⟩ := (mem_next_productScheme h₁ h₂).1 ht
  rw [firstOf_pairId (h₁.lt_of_mem_next hi) (h₂.lt_of_mem_next hj),
    secondOf_pairId (h₁.lt_of_mem_next hi) (h₂.lt_of_mem_next hj)]
  exact ⟨hi, hj⟩

/-- What a state of the product asks for is what the two states ask for. -/
theorem agrees_product_iff {s : Nat} {letter : Nat → Prop} (hs : s < b₁.size * b₂.size * 3) :
    ((productScheme b₁ b₂).tabulate.stateD s).Agrees letter ↔
      (b₁.stateD (firstOf b₁ b₂ s)).Agrees letter ∧
        (b₂.stateD (secondOf b₁ b₂ s)).Agrees letter := by
  have hpos : 0 < b₁.size * b₂.size := by omega
  have hstate := pairs_getD (Nat.mod_lt s hpos)
  rw [Scheme.stateD_tabulate (b := productScheme b₁ b₂) hs]
  show ((∀ v ∈ ((pairs b₁ b₂).getD (s % (b₁.size * b₂.size)) {}).required, letter v) ∧
    ∀ v ∈ ((pairs b₁ b₂).getD (s % (b₁.size * b₂.size)) {}).forbidden, ¬ letter v) ↔ _
  rw [hstate]
  exact agrees_pairState_iff

/-- The product of two automata without stray transitions has none either. -/
theorem wellFormed_productScheme (h₁ : b₁.Closed) (h₂ : b₂.Closed) :
    (productScheme b₁ b₂).tabulate.WellFormed := by
  have hsize : (productScheme b₁ b₂).tabulate.size = b₁.size * b₂.size * 3 := by
    rw [Scheme.size_tabulate, size_productScheme]
  refine wellFormed_of_stateD (fun s hs => ?_) (fun s t ht => ?_) fun set hset s hs => ?_
  · obtain ⟨i, hi, j, hj, rfl⟩ := mem_initial_productScheme.1 hs
    rw [hsize]
    exact (pairId_lt_iff (h₁.initial i hi) (h₂.initial j hj)).2 (by omega)
  · have hlt := lt_size_of_mem_next ht
    rw [hsize] at hlt ⊢
    rw [Scheme.stateD_tabulate (b := productScheme b₁ b₂) hlt] at ht
    obtain ⟨i, hi, j, hj, -, rfl⟩ := (mem_next_productScheme h₁ h₂).1 ht
    exact (pairId_lt_iff (h₁.lt_of_mem_next hi) (h₂.lt_of_mem_next hj)).2 (nextLayer_lt _ i j)
  · rw [hsize]
    have hset : set = .interval (2 * (b₁.size * b₂.size)) (b₁.size * b₂.size) :=
      List.mem_singleton.1 hset
    rw [hset, NatSet.mem_interval] at hs
    omega

/-! ## Runs of the product -/

/-- The layers that two runs pass through. -/
def layers (b₁ b₂ : Automaton) (ρ₁ ρ₂ : Nat → Nat) : Nat → Nat
  | 0 => 0
  | i + 1 => nextLayer b₁ b₂ (layers b₁ b₂ ρ₁ ρ₂ i) (ρ₁ (i + 1)) (ρ₂ (i + 1))

/-- What the layers wait for: the accept set of the first automaton, then that of the second. -/
def Awaits (b₁ b₂ : Automaton) (ρ₁ ρ₂ : Nat → Nat) : Nat → Nat → Prop
  | 0, i => ρ₁ i ∈ b₁.acceptSet
  | _, i => ρ₂ i ∈ b₂.acceptSet

/-- The layers of two runs go through rounds: the first automaton's accept set is waited for, then
the second one's, and then the round is over. -/
theorem rounds_layers (b₁ b₂ : Automaton) (ρ₁ ρ₂ : Nat → Nat) :
    Rounds 2 (Awaits b₁ b₂ ρ₁ ρ₂) (layers b₁ b₂ ρ₁ ρ₂) where
  start := Nat.zero_le 2
  advance i hlt hp := by
    obtain hx | hx : layers b₁ b₂ ρ₁ ρ₂ i = 0 ∨ layers b₁ b₂ ρ₁ ρ₂ i = 1 := by omega
    all_goals
      rw [hx] at hp
      rw [layers, hx]
      simpa [nextLayer, layerAfter, Awaits] using hp
  wait i hlt hp := by
    obtain hx | hx : layers b₁ b₂ ρ₁ ρ₂ i = 0 ∨ layers b₁ b₂ ρ₁ ρ₂ i = 1 := by omega
    all_goals
      rw [hx] at hp
      rw [layers, hx]
      simpa [nextLayer, layerAfter, Awaits] using hp
  restart i hx := by
    rw [layers, hx]
    rfl

/-- The layers are got through again and again exactly if both runs are fair. -/
theorem isFair_iff_layers (h₁ : b₁.acceptSets.length = 1) (h₂ : b₂.acceptSets.length = 1) :
    (b₁.IsFair ρ₁ ∧ b₂.IsFair ρ₂) ↔ InfinitelyOften fun i => layers b₁ b₂ ρ₁ ρ₂ i = 2 := by
  rw [(rounds_layers b₁ b₂ ρ₁ ρ₂).infinitelyOften_iff, isFair_iff_acceptSet h₁,
    isFair_iff_acceptSet h₂]
  constructor
  · rintro ⟨hfair₁, hfair₂⟩ j hj
    obtain rfl | rfl : j = 0 ∨ j = 1 := by omega
    · exact hfair₁
    · exact hfair₂
  · exact fun h => ⟨h 0 (by omega), h 1 (by omega)⟩

theorem lt_of_isRun_product (hσ : (productScheme b₁ b₂).tabulate.IsRun σ) (i : Nat) :
    σ i < b₁.size * b₂.size * 3 := by
  simpa [size_productScheme] using hσ.lt_size i

/-- The states of a run of the product are pairs of states, in the layer that the pairs before them
lead to. -/
theorem eq_pairId_of_isRun_product (h₁ : b₁.Closed) (h₂ : b₂.Closed)
    (hσ : (productScheme b₁ b₂).tabulate.IsRun σ) (i : Nat) :
    σ i = pairId b₁ b₂ (firstOf b₁ b₂ (σ i)) (secondOf b₁ b₂ (σ i))
      (layers b₁ b₂ (fun i => firstOf b₁ b₂ (σ i)) (fun i => secondOf b₁ b₂ (σ i)) i) := by
  have hlayer : ∀ i, σ i / (b₁.size * b₂.size) =
      layers b₁ b₂ (fun i => firstOf b₁ b₂ (σ i)) (fun i => secondOf b₁ b₂ (σ i)) i := by
    intro i
    induction i with
    | zero =>
      obtain ⟨a, ha, c, hc, heq⟩ := mem_initial_productScheme.1 hσ.1
      rw [heq, pairId_div (h₁.initial a ha) (h₂.initial c hc)]
      rfl
    | succ i ih =>
      have hnext := hσ.2 i
      rw [Scheme.stateD_tabulate (b := productScheme b₁ b₂) (lt_of_isRun_product hσ i)] at hnext
      obtain ⟨a, ha, c, hc, -, heq⟩ := (mem_next_productScheme h₁ h₂).1 hnext
      have ha := h₁.lt_of_mem_next ha
      have hc := h₂.lt_of_mem_next hc
      rw [layers, ← ih]
      simp only [heq, pairId_div ha hc, firstOf_pairId ha hc, secondOf_pairId ha hc]
  rw [← hlayer i, pairId_of_id]

/-- A run of the product is accepted if and only if both of the runs that it stands for are. -/
theorem isFair_productScheme_iff (h₁ : b₁.Closed) (h₂ : b₂.Closed)
    (ha₁ : b₁.acceptSets.length = 1) (ha₂ : b₂.acceptSets.length = 1)
    (hσ : (productScheme b₁ b₂).tabulate.IsRun σ) :
    (productScheme b₁ b₂).tabulate.IsFair σ ↔
      b₁.IsFair (fun i => firstOf b₁ b₂ (σ i)) ∧ b₂.IsFair fun i => secondOf b₁ b₂ (σ i) := by
  rw [isFair_iff_layers ha₁ ha₂, isFair_iff_acceptSet (b := (productScheme b₁ b₂).tabulate) rfl]
  refine InfinitelyOften.congr fun i => ?_
  have hlt := lt_of_isRun_product hσ i
  have hpair := pair_lt (firstOf_lt hlt) (secondOf_lt hlt)
  show σ i ∈ NatSet.interval (2 * (b₁.size * b₂.size)) (b₁.size * b₂.size) ↔ _
  rw [eq_pairId_of_isRun_product h₁ h₂ hσ i, pairId, Nat.mul_comm 2,
    Nat.mul_comm _ (b₁.size * b₂.size)]
  exact mem_interval_copy_iff hpair

/-- Two runs that never clash are a run of the product. -/
theorem exists_run_product (h₁ : b₁.Closed) (h₂ : b₂.Closed) (hρ₁ : b₁.IsRun ρ₁)
    (hρ₂ : b₂.IsRun ρ₂) (hok : ∀ i, ¬ Clash b₁ b₂ (ρ₁ i) (ρ₂ i)) :
    ∃ σ, (productScheme b₁ b₂).tabulate.IsRun σ ∧ (∀ i, firstOf b₁ b₂ (σ i) = ρ₁ i) ∧
      ∀ i, secondOf b₁ b₂ (σ i) = ρ₂ i := by
  refine ⟨fun i => pairId b₁ b₂ (ρ₁ i) (ρ₂ i) (layers b₁ b₂ ρ₁ ρ₂ i),
    ⟨mem_initial_productScheme.2 ⟨ρ₁ 0, hρ₁.1, ρ₂ 0, hρ₂.1, rfl⟩, fun i => ?_⟩,
    fun i => firstOf_pairId (hρ₁.lt_size i) (hρ₂.lt_size i),
    fun i => secondOf_pairId (hρ₁.lt_size i) (hρ₂.lt_size i)⟩
  have hi := hρ₁.lt_size i
  have hj := hρ₂.lt_size i
  have hle := (rounds_layers b₁ b₂ ρ₁ ρ₂).le i
  have hlt := (pairId_lt_iff (x := layers b₁ b₂ ρ₁ ρ₂ i) hi hj).2 (by omega)
  rw [Scheme.stateD_tabulate (b := productScheme b₁ b₂) hlt, mem_next_productScheme h₁ h₂,
    firstOf_pairId hi hj, secondOf_pairId hi hj, pairId_div hi hj]
  exact ⟨ρ₁ (i + 1), hρ₁.2 i, ρ₂ (i + 1), hρ₂.2 i, hok (i + 1), rfl⟩

/-- A run of the product is a run of each automaton. -/
theorem runs_of_isRun_product (h₁ : b₁.Closed) (h₂ : b₂.Closed)
    (hσ : (productScheme b₁ b₂).tabulate.IsRun σ) :
    b₁.IsRun (fun i => firstOf b₁ b₂ (σ i)) ∧ b₂.IsRun fun i => secondOf b₁ b₂ (σ i) := by
  have hstart := initial_of_product h₁ h₂ hσ.1
  have hstep := fun i => next_of_product h₁ h₂ (hσ.2 i)
  exact ⟨⟨hstart.1, fun i => (hstep i).1⟩, ⟨hstart.2, fun i => (hstep i).2⟩⟩

/-- The product accepts the words that both automata accept. -/
theorem accepts_productScheme (h₁ : b₁.Closed) (h₂ : b₂.Closed) (ha₁ : b₁.acceptSets.length = 1)
    (ha₂ : b₂.acceptSets.length = 1) (w : Word Nat) :
    (productScheme b₁ b₂).tabulate.Accepts w ↔ b₁.Accepts w ∧ b₂.Accepts w := by
  constructor
  · rintro ⟨σ, ⟨hσ, hagrees⟩, hfair⟩
    obtain ⟨hρ₁, hρ₂⟩ := runs_of_isRun_product h₁ h₂ hσ
    have hboth := fun i => (agrees_product_iff (lt_of_isRun_product hσ i)).1 (hagrees i)
    obtain ⟨hfair₁, hfair₂⟩ := (isFair_productScheme_iff h₁ h₂ ha₁ ha₂ hσ).1 hfair
    exact ⟨⟨_, ⟨hρ₁, fun i => (hboth i).1⟩, hfair₁⟩, ⟨_, ⟨hρ₂, fun i => (hboth i).2⟩, hfair₂⟩⟩
  · rintro ⟨⟨ρ₁, ⟨hρ₁, hagrees₁⟩, hfair₁⟩, ρ₂, ⟨hρ₂, hagrees₂⟩, hfair₂⟩
    obtain ⟨σ, hrun, hfirst, hsecond⟩ := exists_run_product h₁ h₂ hρ₁ hρ₂ fun i =>
      not_clash_of_agrees (hagrees₁ i) (hagrees₂ i)
    refine ⟨σ, ⟨hrun, fun i => (agrees_product_iff (lt_of_isRun_product hrun i)).2 ?_⟩,
      (isFair_productScheme_iff h₁ h₂ ha₁ ha₂ hrun).2 ?_⟩
    · rw [hfirst, hsecond]
      exact ⟨hagrees₁ i, hagrees₂ i⟩
    · simp only [hfirst, hsecond]
      exact ⟨hfair₁, hfair₂⟩

/-! ## The useful part -/

/-- The product of two ordinary automata. -/
theorem product_eq_ok (ha₁ : b₁.acceptSets.length = 1) (ha₂ : b₂.acceptSets.length = 1) :
    b₁.product b₂ = .ok (productScheme b₁ b₂) := by
  simp [product, isGeneral, ha₁, ha₂]

/-- The product of two ordinary automata exists and can be reduced, and its useful part has the
pairs of runs that never clash as its runs. -/
theorem exists_product (h₁ : b₁.Closed) (h₂ : b₂.Closed) (ha₁ : b₁.acceptSets.length = 1)
    (ha₂ : b₂.acceptSets.length = 1) :
    ∃ p r φ₁ φ₂, b₁.product b₂ = .ok p ∧ p.reduce = .ok r ∧ r.WellFormed ∧
      r.acceptSets.length = 1 ∧ Pairs r b₁ b₂ φ₁ φ₂ := by
  have hwf := wellFormed_productScheme h₁ h₂
  obtain ⟨r, kept, hr, h⟩ := Scheme.exists_reduce hwf
  have hover := h.liesOver hwf
  -- A state of the useful part is a state of the product, and so stands for a pair of states.
  have hold : ∀ s < r.size, Scheme.oldNumber kept s < b₁.size * b₂.size * 3 := by
    intro s hs
    obtain ⟨d, hd⟩ := h.lt_size_iff.1 hs
    rw [Scheme.oldNumber_of_getElem? hd]
    exact h.lt_of_getElem? hwf hd
  refine ⟨productScheme b₁ b₂, r, fun s => firstOf b₁ b₂ (Scheme.oldNumber kept s),
    fun s => secondOf b₁ b₂ (Scheme.oldNumber kept s), product_eq_ok ha₁ ha₂, hr,
    h.wellFormed, by rw [h.acceptSets_eq]; rfl, ?_⟩
  constructor
  case initial =>
    exact fun s hs => initial_of_product h₁ h₂ (hover.initial s hs)
  case next =>
    exact fun s t ht => next_of_product h₁ h₂ (hover.next s t ht)
  case consistent =>
    intro s hs
    obtain ⟨d, hd⟩ := h.lt_size_iff.1 hs
    have hreached := (h.mem_kept d).1 (List.mem_of_getElem? hd)
    have hlt := hold s hs
    rw [← isContradiction_iff hlt, Scheme.oldNumber_of_getElem? hd,
      Scheme.not_isContradiction_of_reached hreached]
    exact Bool.false_ne_true
  case label =>
    intro s hs
    have hlt := hold s hs
    have hpos : 0 < b₁.size * b₂.size := by omega
    rw [h.label_eq hwf hs, Scheme.stateD_tabulate (b := productScheme b₁ b₂) hlt]
    show ((pairs b₁ b₂).getD (Scheme.oldNumber kept s % (b₁.size * b₂.size)) {}).label = _
    rw [pairs_getD (Nat.mod_lt _ hpos)]
    rfl
  case fair_iff =>
    intro σ hσ
    rw [h.isFair_iff hσ, isFair_productScheme_iff h₁ h₂ ha₁ ha₂ (hover.isRun hσ)]
  case exists_run =>
    intro ρ₁ ρ₂ hρ₁ hρ₂ hok
    obtain ⟨σ, hrun, hfirst, hsecond⟩ := exists_run_product h₁ h₂ hρ₁ hρ₂ hok
    obtain ⟨τ, hτ, hpair⟩ := h.exists_run hrun fun i => by
      rw [Bool.eq_false_iff, Ne, isContradiction_iff (lt_of_isRun_product hrun i), hfirst, hsecond]
      exact hok i
    refine ⟨τ, hτ, fun i => ?_, fun i => ?_⟩
    · simp only [hpair i, hfirst]
    · simp only [hpair i, hsecond]

/-- The useful part of a product has a fair run exactly if some word is accepted by both
automata. -/
theorem Pairs.exists_isFair_iff {φ₁ φ₂ : Nat → Nat} (h : Pairs r b₁ b₂ φ₁ φ₂) :
    (∃ σ, r.IsRun σ ∧ r.IsFair σ) ↔ ∃ w, b₁.Accepts w ∧ b₂.Accepts w := by
  constructor
  · rintro ⟨σ, hσ, hfair⟩
    obtain ⟨hrun₁, hrun₂⟩ := h.isRun hσ
    obtain ⟨hfair₁, hfair₂⟩ := (h.fair_iff σ hσ).1 hfair
    -- No two states of the run clash, so there is a letter for each pair of them.
    have hletter := fun i => agrees_commonLetter (h.consistent _ (hσ.lt_size i))
    exact ⟨fun i => commonLetter b₁ b₂ (φ₁ (σ i)) (φ₂ (σ i)),
      ⟨_, ⟨hrun₁, fun i => (hletter i).1⟩, hfair₁⟩, ⟨_, ⟨hrun₂, fun i => (hletter i).2⟩, hfair₂⟩⟩
  · rintro ⟨w, ⟨ρ₁, ⟨hρ₁, hagrees₁⟩, hfair₁⟩, ρ₂, ⟨hρ₂, hagrees₂⟩, hfair₂⟩
    obtain ⟨σ, hσ, hσ₁, hσ₂⟩ := h.exists_run ρ₁ ρ₂ hρ₁ hρ₂ fun i =>
      not_clash_of_agrees (hagrees₁ i) (hagrees₂ i)
    refine ⟨σ, hσ, (h.fair_iff σ hσ).2 ?_⟩
    simp only [hσ₁, hσ₂]
    exact ⟨hfair₁, hfair₂⟩

/-- **The product decides the intersection.**  Two automata with one accept set each, whose initial
states and targets of transitions all exist, have a product with one accept set, and it accepts a
word exactly if both do.  Reduced, whether written out or not, the product gives an automaton in
which the nested search meets no fault and finds a path exactly if some word is accepted by both.
As long as the states of the product can be numbered, it is the checked intersection. -/
theorem product_decides_intersection (h₁ : b₁.Closed) (h₂ : b₂.Closed)
    (ha₁ : b₁.acceptSets.length = 1) (ha₂ : b₂.acceptSets.length = 1) :
    ∃ p r found, b₁.product b₂ = .ok p ∧
      (p.size ≤ numberLimit → b₁.intersection b₂ = .ok p.tabulate) ∧
      p.tabulate.acceptSets.length = 1 ∧
      (∀ w, p.tabulate.Accepts w ↔ b₁.Accepts w ∧ b₂.Accepts w) ∧
      p.tabulate.reduce = .ok r ∧ p.reduce = .ok r ∧ r.witness? = .ok found ∧
      (found.isSome = true ↔ ∃ w, b₁.Accepts w ∧ b₂.Accepts w) := by
  obtain ⟨p, r, φ₁, φ₂, hp, hr, hwf, hord, hpairs⟩ := exists_product h₁ h₂ ha₁ ha₂
  obtain rfl : productScheme b₁ b₂ = p := Except.ok.inj ((product_eq_ok ha₁ ha₂).symm.trans hp)
  obtain ⟨found, hfound, hout⟩ := exists_witness?_finds hwf.closed hord
  have hcontradiction : ∀ s, (productScheme b₁ b₂).isContradiction s = true →
      s < (productScheme b₁ b₂).size := fun s hs =>
    of_decide_eq_true (Bool.and_eq_true_iff.1 hs).1
  refine ⟨_, r, found, hp, fun hsize => ?_, rfl, accepts_productScheme h₁ h₂ ha₁ ha₂,
    (Scheme.reduce_tabulate hcontradiction).trans hr, hr, hfound,
    hout.isSome_iff.trans hpairs.exists_isFair_iff⟩
  rw [intersection, hp]
  exact (wellFormed_productScheme h₁ h₂).closed.numbered_eq (by rwa [Scheme.size_tabulate])

/-- The second automaton starts in one of two states, and one of them clashes with the only state of
the first.  An accept set names a state that does not exist. -/
theorem product_decides_intersection_clash :
    let b₁ : Automaton := {
      states := #[{ next := [0], required := .ofList [7] }]
      initial := [0]
      acceptSets := [.ofList [0, 5]] }
    let b₂ : Automaton := {
      states := #[{ next := [1, 0] }, { next := [0], forbidden := .ofList [7] }]
      initial := [0, 1]
      acceptSets := [.ofList [0]] }
    b₁.Closed ∧ b₂.Closed ∧ b₁.acceptSets.length = 1 ∧ b₂.acceptSets.length = 1 ∧
    ∃ p r found, b₁.product b₂ = .ok p ∧
      (p.size ≤ numberLimit → b₁.intersection b₂ = .ok p.tabulate) ∧
      p.tabulate.acceptSets.length = 1 ∧
      (∀ w, p.tabulate.Accepts w ↔ b₁.Accepts w ∧ b₂.Accepts w) ∧
      p.tabulate.reduce = .ok r ∧ p.reduce = .ok r ∧ r.witness? = .ok found ∧
      (found.isSome = true ↔ ∃ w, b₁.Accepts w ∧ b₂.Accepts w) := by
  intro b₁ b₂
  have h₁ : b₁.Closed := ⟨by decide, by decide⟩
  have h₂ : b₂.Closed := ⟨by decide, by decide⟩
  exact ⟨h₁, h₂, rfl, rfl, product_decides_intersection h₁ h₂ rfl rfl⟩

end TemporalCheck.Automaton
