import TemporalCheck.Automaton.Reduce
import TemporalCheck.Proofs.Automaton.Run
import TemporalCheck.Proofs.Outcome
import TemporalCheck.Proofs.Reach

/-!
# TemporalCheck.Proofs.Automaton.Reduce

The useful part of an automaton.  `Scheme.Reduces` says what the reduced automaton is, in terms of
the list of the states that are kept: state `j` of it is the `j`-th of them.  So its runs are runs
of the whole automaton, and every run of the whole automaton that passes no contradiction is one of
its runs (`Scheme.Reduces.exists_run`).  A scheme may be written out as a table before it is reduced
(`Scheme.reduce_tabulate`).
-/

namespace TemporalCheck

/-! ## Numbering the states that are kept -/

theorem Marks.toList_toSet (m : Marks) : m.toSet.toList = (List.range m.size).filter m.has := by
  rw [List.range_eq_range']
  rfl

namespace Scheme

variable {b : Scheme} {kept : Marks} {r : Automaton}

/-- The states below `n` that are kept. -/
def keptBelow (kept : Marks) (n : Nat) : List Nat := (List.range n).filter kept.has

theorem keptBelow_succ (kept : Marks) (n : Nat) :
    keptBelow kept (n + 1) = if kept.has n then keptBelow kept n ++ [n] else keptBelow kept n := by
  unfold keptBelow
  rw [List.range_succ, List.filter_append]
  by_cases h : kept.has n <;> simp [h]

/-- A state that is kept stands behind those below it that are kept, too. -/
theorem getElem?_keptBelow_eq_some_iff {n j s : Nat} :
    (keptBelow kept n)[j]? = some s ↔
      s < n ∧ kept.has s = true ∧ j = (keptBelow kept s).length := by
  induction n with
  | zero => simp [keptBelow]
  | succ n ih =>
    rw [keptBelow_succ]
    by_cases hkept : kept.has n = true
    · have hlast : ∀ l : List Nat, (l ++ [n])[j]? = some s ↔
          l[j]? = some s ∨ j = l.length ∧ n = s := by grind
      rw [if_pos hkept, hlast, ih]
      constructor
      · rintro (⟨hs, hrest⟩ | ⟨rfl, rfl⟩)
        · exact ⟨Nat.lt_succ_of_lt hs, hrest⟩
        · exact ⟨Nat.lt_succ_self n, hkept, rfl⟩
      · rintro ⟨hs, hrest⟩
        obtain hs | rfl := Nat.lt_succ_iff_lt_or_eq.1 hs
        · exact .inl ⟨hs, hrest⟩
        · exact .inr ⟨hrest.2, rfl⟩
    · rw [if_neg hkept, ih]
      refine and_congr_left fun hrest => ?_
      have hne : s ≠ n := fun heq => hkept (heq ▸ hrest.1)
      omega

/-- The number of a state that is kept is the number of those below it that are kept, too. -/
def newNumber? (kept : Marks) (s : Nat) : Option Nat :=
  if kept.has s then some (keptBelow kept s).length else none

theorem newNumber?_eq_some_iff {s j : Nat} :
    newNumber? kept s = some j ↔ kept.has s = true ∧ j = (keptBelow kept s).length := by
  simp [newNumber?, eq_comm (a := j)]

/-- After the states below `n`, each of them has its number. -/
theorem foldl_add_range (kept : Marks) (n : Nat) :
    (List.range n).foldl (Numbering.add kept) {} =
      ⟨((List.range n).map (newNumber? kept)).toArray, (keptBelow kept n).length⟩ := by
  induction n with
  | zero => rfl
  | succ n ih =>
    rw [List.range_succ, List.foldl_append, ih, keptBelow_succ]
    by_cases hkept : kept.has n = true <;> simp [Numbering.add, newNumber?, hkept]

theorem renumbering_eq (b : Scheme) (kept : Marks) :
    b.renumbering kept = ((List.range b.size).map (newNumber? kept)).toArray := by
  rw [renumbering, foldl_add_range]

theorem size_renumbering (b : Scheme) (kept : Marks) : (b.renumbering kept).size = b.size := by
  simp [renumbering_eq]

/-- The new number of a state is the place at which it stands among those that are kept. -/
theorem join_renumbering_iff (hsize : kept.size = b.size) {s j : Nat} :
    ((b.renumbering kept)[s]?).join = some j ↔ kept.toSet.toList[j]? = some s := by
  rw [Marks.toList_toSet, hsize]
  show _ ↔ (keptBelow kept b.size)[j]? = some s
  have hrange : ∀ a, (List.range b.size)[s]? = some a ↔ s < b.size ∧ s = a := by
    simp [List.getElem?_eq_some_iff]
  rw [getElem?_keptBelow_eq_some_iff, ← newNumber?_eq_some_iff, renumbering_eq,
    Option.join_eq_some_iff, List.getElem?_toArray, List.getElem?_map, Option.map_eq_some_iff]
  simp only [hrange, and_assoc, exists_and_left, exists_eq_left']

theorem mem_renumber (hsize : kept.size = b.size) {l : List Nat} {j : Nat} :
    j ∈ renumber (b.renumbering kept) l ↔ ∃ s ∈ l, kept.toSet.toList[j]? = some s := by
  simp only [renumber, List.mem_filterMap, join_renumbering_iff hsize]

/-! ## The reduced automaton -/

/-- The members of a set among the states that are kept, by their new numbers. -/
def restrict (kept : List Nat) (set : NatSet) : NatSet :=
  (NatSet.interval 0 kept.length).filter fun j => kept.getD j 0 ∈ set

/-- A set that has been restricted has the new numbers of its members that are kept. -/
theorem mem_restrict {kept : List Nat} {set : NatSet} {j : Nat} :
    j ∈ restrict kept set ↔ ∃ s ∈ set, kept[j]? = some s := by
  simp only [restrict, NatSet.mem_filter, NatSet.mem_interval, Nat.zero_le, Nat.zero_add, true_and,
    decide_eq_true_eq, List.getD_eq_getElem?_getD]
  cases hj : kept[j]? with
  | none =>
    have hge := List.getElem?_eq_none_iff.1 hj
    simp only [Option.getD_none, reduceCtorEq, and_false, exists_false, iff_false]
    omega
  | some s =>
    have hlt := (List.getElem?_eq_some_iff.1 hj).1
    simp [hlt]

/-- The starts of the search for useful states. -/
def starts (b : Scheme) : List Nat := b.initial.filter fun s => !b.isContradiction s

/-- An automaton is the useful part of a scheme, with `kept` the states that are kept. -/
structure Reduces (b : Scheme) (kept : List Nat) (r : Automaton) : Prop where
  mem_kept : ∀ s, s ∈ kept ↔ Reached b.consistentNext b.starts s
  size_eq : r.size = kept.length
  state : ∀ j s : Nat, kept[j]? = some s → (r.stateD j).required = (b.state s).required ∧
    (r.stateD j).forbidden = (b.state s).forbidden ∧ (r.stateD j).label = (b.state s).label
  mem_next : ∀ j s : Nat, kept[j]? = some s →
    ∀ t, t ∈ (r.stateD j).next ↔ ∃ s' ∈ (b.state s).next, kept[t]? = some s'
  mem_initial : ∀ j, j ∈ r.initial ↔ ∃ s ∈ b.initial, kept[j]? = some s
  acceptSets_eq : r.acceptSets = b.acceptSets.map (restrict kept)

theorem stateD_tabulate {s : Nat} (h : s < b.size) : b.tabulate.stateD s = b.state s := by
  simp [tabulate, Automaton.stateD, Array.getD_eq_getD_getElem?, h]

/-- What is reached without a contradiction is a state. -/
theorem lt_of_reached (hb : b.tabulate.WellFormed) {s : Nat}
    (h : Reached b.consistentNext b.starts s) : s < b.size := by
  obtain ⟨a, ha, hl⟩ := h
  refine hl.preserves (P := (· < b.size)) (fun x found hx hn y hy => ?_) ?_
  · rw [consistentNext, if_pos hx] at hn
    cases hn
    have hmem : y ∈ (b.tabulate.stateD x).next := by
      rw [stateD_tabulate hx]
      exact (List.mem_filter.1 hy).1
    simpa using hb.lt_of_mem_next hmem
  · simpa using hb.1 a (List.mem_filter.1 ha).1

theorem consistentNext_of_lt {s : Nat} (h : s < b.size) :
    b.consistentNext s = .ok ((b.state s).next.filter fun t => !b.isContradiction t) := by
  rw [consistentNext, if_pos h]

/-- What a search for useful states reaches is no contradiction. -/
theorem not_isContradiction_of_reached {s : Nat} (h : Reached b.consistentNext b.starts s) :
    b.isContradiction s = false := by
  obtain ⟨a, ha, hl⟩ := h
  refine hl.preserves (P := fun s => b.isContradiction s = false) (fun x found _ hn y hy => ?_) ?_
  · unfold consistentNext at hn
    split at hn
    · cases hn
      simpa using (List.mem_filter.1 hy).2
    · cases hn
  · simpa using (List.mem_filter.1 ha).2

/-- Where everything that is named exists, the search for useful states finds them. -/
theorem exists_useful (hb : b.tabulate.WellFormed) :
    ∃ m, b.useful = .ok m ∧ m.size = b.size ∧
      ∀ s, m.has s = true ↔ Reached b.consistentNext b.starts s := by
  have total : ∀ x, Reached b.consistentNext b.starts.reverse x →
      x < b.size ∧ ∃ found, b.consistentNext x = .ok found := by
    intro x hx
    have hx : Reached b.consistentNext b.starts x := (reached_congr (by simp) x).1 hx
    exact ⟨lt_of_reached hb hx, _, consistentNext_of_lt (lt_of_reached hb hx)⟩
  obtain ⟨m, hreach, hsize, hm⟩ := exists_reach_none b.starts.reverse b.size total
  exact ⟨m, hreach, hsize, fun s => (hm s).trans (reached_congr (by simp) s)⟩

/-- The reduced automaton, in terms of the useful states. -/
theorem reduce_of_useful {m : Marks} (hb : b.tabulate.WellFormed) (hm : b.useful = .ok m)
    (hsize : m.size = b.size) :
    b.reduce = .ok {
      states := (m.toSet.toList.map fun s =>
        { b.state s with next := renumber (b.renumbering m) (b.state s).next }).toArray
      initial := renumber (b.renumbering m) b.initial
      acceptSets := b.acceptSets.map (restrict m.toSet.toList) } := by
  have hsets : b.acceptSets.mapM (renumberSet (b.renumbering m)) =
      .ok (b.acceptSets.map (restrict m.toSet.toList)) := by
    refine mapM_eq_ok fun set hset => ?_
    have hall : set.toList.all (· < (b.renumbering m).size) = true := by
      rw [List.all_eq_true]
      intro s hs
      rw [size_renumbering, decide_eq_true_eq]
      simpa using hb.2.2 set hset s hs
    rw [renumberSet, if_pos hall]
    congr 1
    ext j
    rw [NatSet.mem_ofList, mem_renumber hsize, mem_restrict]
    rfl
  rw [reduce, hm]
  simp only [bind, Except.bind, hsets]
  rfl

/-- A scheme in which everything that is named exists can be reduced. -/
theorem exists_reduce (hb : b.tabulate.WellFormed) :
    ∃ r kept, b.reduce = .ok r ∧ Reduces b kept r := by
  obtain ⟨m, huseful, hsize, hm⟩ := exists_useful hb
  refine ⟨_, m.toSet.toList, reduce_of_useful hb huseful hsize, ?_⟩
  have hstate : ∀ j s : Nat, m.toSet.toList[j]? = some s →
      (m.toSet.toList.map fun s => { b.state s with
        next := renumber (b.renumbering m) (b.state s).next })[j]? = some { b.state s with
        next := renumber (b.renumbering m) (b.state s).next } := by
    intro j s hj
    rw [List.getElem?_map, hj]
    rfl
  constructor
  case mem_kept =>
    intro s
    rw [NatSet.mem_toList, Marks.mem_toSet, hm]
  case size_eq =>
    simp [Automaton.size]
  case state =>
    intro j s hj
    simp [Automaton.stateD, Array.getD_eq_getD_getElem?, hj]
  case mem_next =>
    intro j s hj t
    simp only [Automaton.stateD, Array.getD_eq_getD_getElem?, List.getElem?_toArray, hstate j s hj,
      Option.getD_some]
    exact mem_renumber hsize
  case mem_initial =>
    exact fun j => mem_renumber hsize
  case acceptSets_eq =>
    rfl

/-! ## Its runs -/

section Runs

variable {kept : List Nat}

theorem Reduces.lt_size_iff (h : Reduces b kept r) {j : Nat} :
    j < r.size ↔ ∃ s, kept[j]? = some s := by
  rw [h.size_eq]
  exact ⟨fun hj => ⟨_, List.getElem?_eq_getElem hj⟩,
    fun ⟨s, hs⟩ => (List.getElem?_eq_some_iff.1 hs).1⟩

/-- A reduced automaton leads to its own states only. -/
theorem Reduces.wellFormed (h : Reduces b kept r) : r.WellFormed := by
  refine Automaton.wellFormed_of_stateD (fun j hj => ?_) (fun j t ht => ?_) fun set hset j hj => ?_
  · obtain ⟨s, -, hs⟩ := (h.mem_initial j).1 hj
    exact h.lt_size_iff.2 ⟨s, hs⟩
  · obtain ⟨s, hs⟩ := h.lt_size_iff.1 (Automaton.lt_size_of_mem_next ht)
    obtain ⟨s', -, hs'⟩ := (h.mem_next j s hs t).1 ht
    exact h.lt_size_iff.2 ⟨s', hs'⟩
  · rw [h.acceptSets_eq] at hset
    obtain ⟨set', -, rfl⟩ := List.mem_map.1 hset
    obtain ⟨s, -, hs⟩ := mem_restrict.1 hj
    exact h.lt_size_iff.2 ⟨s, hs⟩

/-- The old number of a state. -/
def oldNumber (kept : List Nat) (j : Nat) : Nat := kept.getD j 0

theorem oldNumber_of_getElem? {j s : Nat} (h : kept[j]? = some s) : oldNumber kept j = s := by
  simp [oldNumber, List.getD_eq_getElem?_getD, h]

theorem Reduces.lt_of_getElem? (h : Reduces b kept r) (hb : b.tabulate.WellFormed) {j s : Nat}
    (hj : kept[j]? = some s) : s < b.size :=
  lt_of_reached hb ((h.mem_kept s).1 (List.mem_of_getElem? hj))

/-- The states of the reduced automaton stand for those that are kept. -/
theorem Reduces.liesOver (h : Reduces b kept r) (hb : b.tabulate.WellFormed) :
    r.LiesOver b.tabulate (oldNumber kept) where
  initial j hj := by
    obtain ⟨s, hs, hk⟩ := (h.mem_initial j).1 hj
    rw [oldNumber_of_getElem? hk]
    exact hs
  next j t ht := by
    obtain ⟨s, hs⟩ := h.lt_size_iff.1 (Automaton.lt_size_of_mem_next ht)
    obtain ⟨s', hmem, hs'⟩ := (h.mem_next j s hs t).1 ht
    rw [oldNumber_of_getElem? hs, oldNumber_of_getElem? hs',
      stateD_tabulate (h.lt_of_getElem? hb hs)]
    exact hmem
  required j hj := by
    obtain ⟨s, hs⟩ := h.lt_size_iff.1 hj
    rw [oldNumber_of_getElem? hs, stateD_tabulate (h.lt_of_getElem? hb hs), (h.state j s hs).1]
  forbidden j hj := by
    obtain ⟨s, hs⟩ := h.lt_size_iff.1 hj
    rw [oldNumber_of_getElem? hs, stateD_tabulate (h.lt_of_getElem? hb hs), (h.state j s hs).2.1]

theorem Reduces.label_eq (h : Reduces b kept r) (hb : b.tabulate.WellFormed) {j : Nat}
    (hj : j < r.size) : (r.stateD j).label = (b.tabulate.stateD (oldNumber kept j)).label := by
  obtain ⟨s, hs⟩ := h.lt_size_iff.1 hj
  rw [oldNumber_of_getElem? hs, stateD_tabulate (h.lt_of_getElem? hb hs), (h.state j s hs).2.2]

/-- A run of the reduced automaton is accepted if and only if it is one of the full automaton, under
the old numbers. -/
theorem Reduces.isFair_iff (h : Reduces b kept r) {τ : Nat → Nat} (hτ : r.IsRun τ) :
    r.IsFair τ ↔ b.tabulate.IsFair fun i => oldNumber kept (τ i) := by
  have hmem : ∀ set i, τ i ∈ restrict kept set ↔ oldNumber kept (τ i) ∈ set := by
    intro set i
    obtain ⟨s, hs⟩ := h.lt_size_iff.1 (hτ.lt_size i)
    rw [mem_restrict, oldNumber_of_getElem? hs, hs]
    simp
  have hset : ∀ set, InfinitelyOften (fun i => τ i ∈ restrict kept set) ↔
      InfinitelyOften fun i => oldNumber kept (τ i) ∈ set := by
    intro set
    simp only [hmem]
  unfold Automaton.IsFair
  rw [h.acceptSets_eq, List.forall_mem_map]
  simp only [hset]
  rfl

/-- A run of the whole automaton without contradictions is a run of the reduced one. -/
theorem Reduces.exists_run (h : Reduces b kept r) {ρ : Nat → Nat} (hρ : b.tabulate.IsRun ρ)
    (hok : ∀ i, b.isContradiction (ρ i) = false) :
    ∃ τ, r.IsRun τ ∧ ∀ i, oldNumber kept (τ i) = ρ i := by
  have hlt : ∀ i, ρ i < b.size := fun i => by simpa using hρ.lt_size i
  have hnext : ∀ i, ρ (i + 1) ∈ (b.state (ρ i)).next := by
    intro i
    rw [← stateD_tabulate (hlt i)]
    exact hρ.2 i
  have hkept : ∀ i, ρ i ∈ kept := by
    intro i
    rw [h.mem_kept]
    induction i with
    | zero => exact ⟨ρ 0, List.mem_filter.2 ⟨hρ.1, by simp [hok 0]⟩, .refl _⟩
    | succ i ih =>
      refine ih.tail (consistentNext_of_lt (hlt i)) (List.mem_filter.2 ⟨hnext i, ?_⟩)
      simp [hok (i + 1)]
  choose τ hτ using fun i => List.mem_iff_getElem?.1 (hkept i)
  refine ⟨τ, ⟨(h.mem_initial _).2 ⟨ρ 0, hρ.1, hτ 0⟩, fun i => ?_⟩,
    fun i => oldNumber_of_getElem? (hτ i)⟩
  exact (h.mem_next (τ i) (ρ i) (hτ i) _).2 ⟨ρ (i + 1), hnext i, hτ (i + 1)⟩

end Runs

/-! ## Writing out before or after -/

/-- The rule that looks states up in the table of a scheme knows the same contradictions. -/
theorem isContradiction_tabulate (hb : ∀ s, b.isContradiction s = true → s < b.size) (s : Nat) :
    (ofAutomaton b.tabulate).isContradiction s = b.isContradiction s := by
  have hmem : s ∈ b.tabulate.contradictions ↔ b.isContradiction s = true := by
    simp only [tabulate, NatSet.mem_filter, NatSet.mem_interval, Nat.zero_le, Nat.zero_add,
      true_and]
    exact ⟨fun h => h.2, fun h => ⟨hb s h, h⟩⟩
  show (b.tabulate.contradictions.lookup b.tabulate.size).has s = _
  rw [NatSet.has_lookup, Bool.eq_iff_iff, decide_eq_true_eq, hmem]

/-- The states without contradiction that follow a state are the same in the automaton and in what
it was made from. -/
theorem consistentNext_tabulate (hb : ∀ s, b.isContradiction s = true → s < b.size) (s : Nat) :
    (ofAutomaton b.tabulate).consistentNext s = b.consistentNext s := by
  unfold consistentNext
  have hsize : (ofAutomaton b.tabulate).size = b.size := size_tabulate b
  simp only [hsize, isContradiction_tabulate hb]
  by_cases hs : s < b.size
  · rw [if_pos hs, if_pos hs, show (ofAutomaton b.tabulate).state s = b.state s from
      stateD_tabulate hs]
  · rw [if_neg hs, if_neg hs]

/-- It does not matter whether a scheme is written out before it is reduced, if only its states are
known to be contradictions. -/
theorem reduce_tabulate (hb : ∀ s, b.isContradiction s = true → s < b.size) :
    b.tabulate.reduce = b.reduce := by
  have hsize : (ofAutomaton b.tabulate).size = b.size := size_tabulate b
  have huseful : (ofAutomaton b.tabulate).useful = b.useful := by
    unfold useful
    simp only [hsize, isContradiction_tabulate hb, funext (consistentNext_tabulate hb)]
    rfl
  unfold Automaton.reduce reduce
  rw [huseful]
  cases hkept : b.useful with
  | error fault => rfl
  | ok kept =>
    have hnumbers : (ofAutomaton b.tabulate).renumbering kept = b.renumbering kept := by
      unfold renumbering
      rw [hsize]
    have hstate : ∀ s ∈ kept.toSet.toList, (ofAutomaton b.tabulate).state s = b.state s := by
      intro s hs
      rw [NatSet.mem_toList, Marks.mem_toSet] at hs
      have hlt := Marks.lt_size_of_has hs
      rw [size_of_reach hkept, Marks.size_none] at hlt
      exact stateD_tabulate hlt
    simp only [bind, Except.bind, hnumbers]
    rw [List.map_congr_left fun s hs => by rw [hstate s hs]]
    rfl

end Scheme

/-! ## Reducing a table -/

namespace Automaton

variable {b : Automaton}

/-- An automaton made a scheme and tabulated again has the same states. -/
theorem stateD_tabulate_ofAutomaton (b : Automaton) (s : Nat) :
    (Scheme.ofAutomaton b).tabulate.stateD s = b.stateD s := by
  by_cases hs : s < b.size
  · exact Scheme.stateD_tabulate (b := Scheme.ofAutomaton b) hs
  · have hge := Nat.le_of_not_lt hs
    rw [stateD_of_size_le hge, stateD_of_size_le (by simpa [Scheme.ofAutomaton] using hge)]

/-- Tabulating keeps all transitions inside. -/
theorem WellFormed.tabulate (hb : b.WellFormed) : (Scheme.ofAutomaton b).tabulate.WellFormed := by
  have hsize : (Scheme.ofAutomaton b).tabulate.size = b.size := by simp [Scheme.ofAutomaton]
  refine wellFormed_of_stateD (fun s hs => ?_) (fun s t ht => ?_) fun set hset s hs => ?_
  · rw [hsize]
    exact hb.1 s hs
  · rw [stateD_tabulate_ofAutomaton] at ht
    rw [hsize]
    exact hb.lt_of_mem_next ht
  · rw [hsize]
    exact hb.2.2 set hset s hs

theorem isRun_tabulate_iff {ρ : Nat → Nat} :
    (Scheme.ofAutomaton b).tabulate.IsRun ρ ↔ b.IsRun ρ := by
  simp only [IsRun, stateD_tabulate_ofAutomaton]
  rfl

/-- The rule that looks states up in a table knows the contradictions of the table. -/
@[simp] theorem isContradiction_ofAutomaton (b : Automaton) (s : Nat) :
    (Scheme.ofAutomaton b).isContradiction s = decide (s ∈ b.contradictions) := by
  simp [Scheme.ofAutomaton]

/-- An automaton can be reduced, and then accepts the words of its runs without contradictions. -/
theorem exists_reduce_avoiding (hb : b.WellFormed) :
    ∃ r φ, b.reduce = .ok r ∧ r.WellFormed ∧ r.LiesOver b φ ∧
      r.acceptSets.length = b.acceptSets.length ∧ ∀ w, r.Accepts w ↔
        ∃ ρ, b.IsRunOver w ρ ∧ b.IsFair ρ ∧ ∀ i, ρ i ∉ b.contradictions := by
  obtain ⟨r, kept, hr, h⟩ := Scheme.exists_reduce hb.tabulate
  have hover : r.LiesOver b (Scheme.oldNumber kept) := by
    obtain ⟨hinit, hnext, hreq, hforb⟩ := h.liesOver hb.tabulate
    simp only [stateD_tabulate_ofAutomaton] at hnext hreq hforb
    exact ⟨hinit, hnext, hreq, hforb⟩
  refine ⟨r, Scheme.oldNumber kept, hr, h.wellFormed, hover, ?_, fun w => ⟨?_, ?_⟩⟩
  · rw [h.acceptSets_eq, List.length_map]
    rfl
  · rintro ⟨τ, ⟨hτ, hagrees⟩, hfair⟩
    refine ⟨_, ⟨hover.isRun hτ, (hover.agrees_run_iff hτ w).1 hagrees⟩, (h.isFair_iff hτ).1 hfair,
      fun i => ?_⟩
    obtain ⟨s, hs⟩ := h.lt_size_iff.1 (hτ.lt_size i)
    have hok := Scheme.not_isContradiction_of_reached ((h.mem_kept s).1 (List.mem_of_getElem? hs))
    rw [Scheme.oldNumber_of_getElem? hs]
    simpa using hok
  · rintro ⟨ρ, ⟨hρ, hagrees⟩, hfair, hok⟩
    obtain ⟨τ, hτ, hold⟩ := h.exists_run (isRun_tabulate_iff.2 hρ) fun i => by simpa using hok i
    have hold' : (fun i => Scheme.oldNumber kept (τ i)) = ρ := funext hold
    refine ⟨τ, ⟨hτ, (hover.agrees_run_iff hτ w).2 fun i => ?_⟩, (h.isFair_iff hτ).2 ?_⟩
    · rw [hold i]
      exact hagrees i
    · rw [hold']
      exact hfair

/-- An automaton without known contradictions can be reduced, and accepts the same words then. -/
theorem exists_reduce (hb : b.WellFormed) (hok : b.contradictions = ∅) :
    ∃ r φ, b.reduce = .ok r ∧ r.WellFormed ∧ r.LiesOver b φ ∧
      r.acceptSets.length = b.acceptSets.length ∧ ∀ w, r.Accepts w ↔ b.Accepts w := by
  obtain ⟨r, φ, hr, hwf, hover, hlength, hsame⟩ := exists_reduce_avoiding hb
  refine ⟨r, φ, hr, hwf, hover, hlength, fun w => (hsame w).trans ?_⟩
  simp [Accepts, hok]

end Automaton

end TemporalCheck
