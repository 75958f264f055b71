import TemporalCheck.Automaton.OfModel
import TemporalCheck.Proofs.Automaton.Product
import TemporalCheck.Proofs.Model

/-!
# TemporalCheck.Proofs.Automaton.OfModel

The automaton of a model.  It is built without a fault, one state and one transition after another,
since every look-up is by the name of a state of the model (`Automaton.ofModel_eq`).

Its runs are the paths of the model from an initial state, behind the seed
(`Automaton.isRun_pathsOf_iff`), and a state of it agrees with a letter that says what holds in the
model (`Automaton.agrees_valuation`).
-/

namespace TemporalCheck

/-! ## Building an automaton -/

namespace Automaton

variable {m : Model} {vars : Vars}

section Building

variable {b : Automaton} {before after : List AutomatonState} {st : AutomatonState}

/-- Changing a state leaves those before and behind it as they are. -/
theorem modifyState_of_states (h : b.states = (before ++ st :: after).toArray)
    (change : AutomatonState → AutomatonState) : b.modifyState before.length change =
      .ok { b with states := (before ++ change st :: after).toArray } := by
  unfold modifyState
  rw [if_pos (by simp [size, h]), h, List.modify_toArray]
  simp [List.modify_eq_take_cons_drop]

/-- Changing one state several times. -/
theorem foldlM_modifyState {γ : Type} {step : Automaton → γ → Except Fault Automaton}
    {l : List γ} (change : γ → AutomatonState → AutomatonState)
    (hstep : ∀ b, ∀ a ∈ l, step b a = b.modifyState before.length (change a))
    (h : b.states = (before ++ st :: after).toArray) : l.foldlM step b =
      .ok { b with
        states := (before ++ l.foldl (fun st a => change a st) st :: after).toArray } := by
  induction l generalizing b st with
  | nil =>
    rw [List.foldlM_nil, List.foldl_nil, ← h]
    rfl
  | cons a l ih =>
    have hfirst := (hstep b a List.mem_cons_self).trans (modifyState_of_states h (change a))
    rw [List.foldlM_cons, bind_of_eq_ok hfirst,
      ih (fun b a' ha' => hstep b a' (List.mem_cons_of_mem a ha')) rfl]
    rfl

/-- Transitions are added behind the others. -/
theorem foldl_addMoves (ids : List Nat) (st : AutomatonState) :
    ids.foldl (fun st id => { st with next := st.next ++ [id + 1] }) st =
      { st with next := st.next ++ ids.map (· + 1) } := by
  induction ids generalizing st with
  | nil => simp
  | cons id ids ih => rw [List.foldl_cons, ih]; simp

/-- Asking for every variable below a bound what a valuation says of it. -/
theorem foldl_addLiterals (valuation : NatSet) (n : Nat) (name : Option String) :
    (List.range n).foldl (fun (st : AutomatonState) v =>
        if decide (v ∈ valuation) then { st with required := st.required.insert v }
        else { st with forbidden := st.forbidden.insert v }) { label := name } =
      { required := (NatSet.interval 0 n).filter fun v => v ∈ valuation
        forbidden := (NatSet.interval 0 n).filter fun v => v ∉ valuation
        label := name } := by
  have hgrow : ∀ (test : Nat → Bool) (n : Nat), (NatSet.interval 0 (n + 1)).filter test =
      if test n then ((NatSet.interval 0 n).filter test).insert n
      else (NatSet.interval 0 n).filter test := by
    intro test n
    ext v
    by_cases hv : v = n
    · subst hv
      by_cases htest : test v <;> simp [htest]
    · have hlt : v < n + 1 ↔ v < n := by omega
      by_cases htest : test n <;> simp [htest, hv, hlt]
  induction n with
  | zero => rfl
  | succ n ih =>
    rw [List.range_succ, List.foldl_append, ih, hgrow, hgrow]
    by_cases hmem : n ∈ valuation <;> simp [hmem]

end Building

/-! ## The automaton of a model -/

/-- The state of a state of a model, before anything but its name is known. -/
def named (p : Int × ModelState) : AutomatonState := { label := some (toString p.1) }

/-- The state of a state of a model. -/
def described (m : Model) (vars : Vars) (p : Int × ModelState) : AutomatonState where
  next := (p.2.successors.filterMap m.index?).map (· + 1)
  required := (NatSet.interval 0 vars.size).filter fun v => v ∈ p.2.valuation
  forbidden := (NatSet.interval 0 vars.size).filter fun v => v ∉ p.2.valuation
  label := some (toString p.1)

/-- The automaton of the paths of a model as a whole. -/
def pathsOf (m : Model) (vars : Vars) : Automaton where
  states := ({ next := (m.initial.filterMap m.index?).map (· + 1) } ::
    m.states.map (described m vars)).toArray
  initial := [0]
  acceptSets := [.interval 0 (m.size + 1)]

/-- Adding transitions from the state between `before` and `after` changes that state only. -/
theorem addMoves_of_states {b : Automaton} {before after : List AutomatonState}
    {st : AutomatonState} (h : b.states = (before ++ st :: after).toArray) (ids : List Nat) :
    addMoves before.length ids b = .ok { b with
      states := (before ++ { st with next := st.next ++ ids.map (· + 1) } :: after).toArray } := by
  rw [← foldl_addMoves]
  exact foldlM_modifyState (fun id st => { st with next := st.next ++ [id + 1] })
    (fun _ _ _ => rfl) h

/-- A state of a model is added behind those before it. -/
theorem addNamed_eq {b : Automaton} {states : List AutomatonState} {id : Nat}
    {p : Int × ModelState} (hp : m.states[id]? = some p) (h : b.states = states.toArray) :
    addNamed m b id = .ok { b with states := (states ++ [named p]).toArray } := by
  have hadd : (b.addState false).2.states = (states ++ ({} : AutomatonState) :: []).toArray := by
    simp [addState, h]
  have hlabel := modifyState_of_states hadd fun st => { st with label := some (toString p.1) }
  have hsize : (b.addState false).1 = states.length := by simp [addState, size, h]
  unfold addNamed
  obtain ⟨name, st⟩ := p
  rw [Model.name_of_getElem? hp]
  show (b.addState false).2.addLabel (b.addState false).1 (toString name) = _
  rw [hsize]
  exact hlabel

/-- What a state of a model asks for and where it leads is added to it. -/
theorem describe_eq {b : Automaton} {before after : List AutomatonState} {id : Nat}
    {p : Int × ModelState} (hp : m.states[id]? = some p) (hlength : before.length = id + 1)
    (h : b.states = (before ++ named p :: after).toArray) : describe m vars b id =
      .ok { b with states := (before ++ described m vars p :: after).toArray } := by
  obtain ⟨name, st⟩ := p
  have hstep : ∀ b : Automaton, ∀ v ∈ List.range vars.size,
      (do b.addLiteral (id + 1) v (← m.holds name v) : Except Fault Automaton) =
        b.modifyState before.length fun s =>
          if decide (v ∈ st.valuation) then { s with required := s.required.insert v }
          else { s with forbidden := s.forbidden.insert v } := by
    intro b v _
    rw [bind_of_eq_ok (Model.holds_of_getElem? hp v), hlength]
    rfl
  have hliterals := foldlM_modifyState _ hstep h
  rw [named, foldl_addLiterals] at hliterals
  unfold describe
  rw [bind_of_eq_ok (Model.name_of_getElem? hp), bind_of_eq_ok hliterals,
    bind_of_eq_ok (Model.successors_of_getElem? hp), ← hlength, addMoves_of_states rfl]
  rfl

/-- All states of a model are added before the first transition. -/
theorem foldlM_addNamed (m : Model) (b : Automaton) (start : AutomatonState)
    (h : b.states = #[start]) : (List.range m.size).foldlM (addNamed m) b =
      .ok { b with states := (start :: m.states.map named).toArray } := by
  have hfold := foldlM_range_eq_ok (addNamed m) m.size
    (fun k => { b with states := (start :: (m.states.take k).map named).toArray })
    fun k hk => ?_
  · simpa [← h, Model.size] using hfold
  · have hget : m.states[k]? = some m.states[k] := List.getElem?_eq_getElem hk
    rw [addNamed_eq hget rfl, List.take_add_one, hget]
    simp

/-- The states of a model are described one after another. -/
theorem foldlM_describe (m : Model) (vars : Vars) (b : Automaton) (start : AutomatonState)
    (h : b.states = (start :: m.states.map named).toArray) :
    (List.range m.size).foldlM (describe m vars) b =
      .ok { b with states := (start :: m.states.map (described m vars)).toArray } := by
  have hfold := foldlM_range_eq_ok (describe m vars) m.size
    (fun k => { b with states := (start :: (m.states.take k).map (described m vars) ++
      (m.states.drop k).map named).toArray }) fun k hk => ?_
  · simpa [← h, Model.size] using hfold
  · have hget : m.states[k]? = some m.states[k] := List.getElem?_eq_getElem hk
    have hlength : (start :: (m.states.take k).map (described m vars)).length = k + 1 := by
      simp only [List.length_cons, List.length_map, List.length_take_of_le (Nat.le_of_lt hk)]
    rw [List.drop_eq_getElem_cons hk, List.map_cons, describe_eq hget hlength rfl,
      List.take_add_one, hget]
    simp

/-- The automaton of a model is built without a fault. -/
theorem ofModel_eq (m : Model) (vars : Vars) : ofModel m vars = .ok (pathsOf m vars) := by
  unfold ofModel
  have hnamed := foldlM_addNamed m (addState {} true).2 {} rfl
  have hdescribed := foldlM_describe m vars
    { (addState {} true).2 with states := ({} :: m.states.map named).toArray } {} rfl
  have hstates : ({ (addState {} true).2 with
      states := ({} :: m.states.map (described m vars)).toArray } : Automaton).states =
        ([] ++ ({} : AutomatonState) :: m.states.map (described m vars)).toArray := rfl
  have hmoves := addMoves_of_states hstates (m.initial.filterMap m.index?)
  show ((List.range m.size).foldlM (addNamed m) (addState {} true).2 >>= _) = _
  rw [bind_of_eq_ok hnamed, bind_of_eq_ok hdescribed]
  show (addMoves ([] : List AutomatonState).length _ _ >>= _) = _
  rw [bind_of_eq_ok hmoves]
  simp [pathsOf, addState, addAcceptSet, size, Model.size, pure, Except.pure]

variable {ρ : Nat → Nat}

@[simp] theorem size_pathsOf (m : Model) (vars : Vars) : (pathsOf m vars).size = m.size + 1 := by
  simp [pathsOf, size, Model.size]

theorem stateD_pathsOf_zero (m : Model) (vars : Vars) :
    (pathsOf m vars).stateD 0 = { next := (m.initial.filterMap m.index?).map (· + 1) } := by
  simp [pathsOf, stateD, Array.getD_eq_getD_getElem?]

theorem stateD_pathsOf_succ {s : Nat} {p : Int × ModelState} (h : m.states[s]? = some p) :
    (pathsOf m vars).stateD (s + 1) = described m vars p := by
  simp [pathsOf, stateD, Array.getD_eq_getD_getElem?, h]

theorem mem_next_pathsOf_zero {t : Nat} :
    t ∈ ((pathsOf m vars).stateD 0).next ↔ ∃ s, m.IsStart s ∧ t = s + 1 := by
  rw [stateD_pathsOf_zero]
  simp only [List.mem_map, List.mem_filterMap, Model.IsStart, eq_comm]

/-- The automaton of a model follows the steps of the model, with all numbers one higher to make
room for the seed. -/
theorem mem_next_pathsOf_succ {s t : Nat} :
    t ∈ ((pathsOf m vars).stateD (s + 1)).next ↔
      ∃ s' : Nat, (m.toStructure vars).Step s s' ∧ t = s' + 1 := by
  cases hs : m.states[s]? with
  | none =>
    have hge : m.size ≤ s := List.getElem?_eq_none_iff.1 hs
    rw [stateD_of_size_le (by rw [size_pathsOf]; omega)]
    simp [Model.toStructure, hs]
  | some p =>
    obtain ⟨name, st⟩ := p
    rw [stateD_pathsOf_succ hs]
    simp [Model.toStructure, described, hs, eq_comm]

/-- A transition leads to a state of the model, behind the seed. -/
theorem exists_of_mem_next_pathsOf {s t : Nat} (ht : t ∈ ((pathsOf m vars).stateD s).next) :
    ∃ s', s' < m.size ∧ t = s' + 1 := by
  cases s with
  | zero =>
    obtain ⟨s', ⟨name, -, hname⟩, rfl⟩ := mem_next_pathsOf_zero.1 ht
    exact ⟨s', Model.index?_lt hname, rfl⟩
  | succ s =>
    obtain ⟨s', hstep, rfl⟩ := mem_next_pathsOf_succ.1 ht
    obtain ⟨name, hname⟩ := Model.exists_index?_of_step hstep
    exact ⟨s', Model.index?_lt hname, rfl⟩

/-- The automaton of a model leads to its own states only. -/
theorem wellFormed_pathsOf (m : Model) (vars : Vars) : (pathsOf m vars).WellFormed := by
  refine wellFormed_of_stateD (fun s hs => ?_) (fun s t ht => ?_) fun set hset s hs => ?_
  · rw [List.mem_singleton.1 hs, size_pathsOf]
    exact Nat.succ_pos _
  · obtain ⟨s', hlt, rfl⟩ := exists_of_mem_next_pathsOf ht
    rw [size_pathsOf]
    exact Nat.succ_lt_succ hlt
  · rw [List.mem_singleton.1 hset, NatSet.mem_interval] at hs
    rw [size_pathsOf]
    omega

/-- The runs of the automaton are the paths of the model behind the seed. -/
theorem isRun_pathsOf_iff : (pathsOf m vars).IsRun ρ ↔ ρ 0 = 0 ∧ ∃ π : Nat → Nat,
    (∀ i, ρ (i + 1) = π i + 1) ∧ m.IsStart (π 0) ∧ (m.toStructure vars).IsPath π := by
  constructor
  · rintro ⟨hstart, hstep⟩
    have hzero : ρ 0 = 0 := List.mem_singleton.1 hstart
    choose π _ hπ using fun i => exists_of_mem_next_pathsOf (hstep i)
    refine ⟨hzero, π, hπ, ?_, fun i => ?_⟩
    · have hnext := hstep 0
      rw [hzero, hπ 0] at hnext
      obtain ⟨s, hs, heq⟩ := mem_next_pathsOf_zero.1 hnext
      rwa [Nat.succ.inj heq]
    · have hnext := hstep (i + 1)
      rw [hπ i, hπ (i + 1)] at hnext
      obtain ⟨s, hs, heq⟩ := mem_next_pathsOf_succ.1 hnext
      rwa [Nat.succ.inj heq]
  · rintro ⟨hzero, π, hπ, hstart, hpath⟩
    refine ⟨List.mem_singleton.2 hzero, fun i => ?_⟩
    cases i with
    | zero =>
      rw [hzero, hπ 0]
      exact mem_next_pathsOf_zero.2 ⟨π 0, hstart, rfl⟩
    | succ i =>
      rw [hπ i, hπ (i + 1)]
      exact mem_next_pathsOf_succ.2 ⟨π (i + 1), hpath i, rfl⟩

/-- Every run of a model is fair. -/
theorem isFair_pathsOf (hρ : (pathsOf m vars).IsRun ρ) : (pathsOf m vars).IsFair ρ := by
  intro set hset n
  have hlt := hρ.lt_size n
  rw [size_pathsOf] at hlt
  rw [List.mem_singleton.1 hset]
  exact ⟨n, Nat.le_refl n, NatSet.mem_interval.2 (by omega)⟩

theorem mem_required_pathsOf {s v : Nat} (hs : s < m.size) :
    v ∈ ((pathsOf m vars).stateD (s + 1)).required ↔ v < vars.size ∧ v ∈ m.valuation s := by
  have hget := List.getElem?_eq_getElem hs
  rw [stateD_pathsOf_succ hget]
  simp [Model.valuation, described, hget]

theorem mem_forbidden_pathsOf {s v : Nat} (hs : s < m.size) :
    v ∈ ((pathsOf m vars).stateD (s + 1)).forbidden ↔ v < vars.size ∧ v ∉ m.valuation s := by
  have hget := List.getElem?_eq_getElem hs
  rw [stateD_pathsOf_succ hget]
  simp [Model.valuation, described, hget]

/-- No transition leads back to the seed. -/
theorem unentered_pathsOf (m : Model) (vars : Vars) (s t : Nat)
    (ht : t ∈ ((pathsOf m vars).stateD s).next) : t ∉ (pathsOf m vars).initial := by
  intro hinit
  obtain ⟨s', -, heq⟩ := exists_of_mem_next_pathsOf ht
  rw [List.mem_singleton.1 hinit] at heq
  exact absurd heq (Nat.succ_ne_zero s').symm

/-- A state of a model agrees with the letter that says what holds there. -/
theorem agrees_valuation {s : Nat} (hs : s < m.size) :
    ((pathsOf m vars).stateD (s + 1)).Agrees fun v => v ∈ m.valuation s :=
  ⟨fun _ hv => ((mem_required_pathsOf hs).1 hv).2, fun _ hv => ((mem_forbidden_pathsOf hs).1 hv).2⟩

/-- A state that does not clash with the state of a model agrees with what holds there, if it asks
only for variables that the model was given with. -/
theorem agrees_valuation_of_not_clash {b : Automaton} (hb : b.Seeded vars.Numbers) {s j : Nat}
    (hs : s < m.size) (h : ¬ Clash (pathsOf m vars) b (s + 1) j) :
    (b.stateD j).Agrees fun v => v ∈ m.valuation s := by
  rw [clash_iff] at h
  constructor
  · intro v hv
    by_contra hnot
    obtain ⟨name, hname⟩ := hb.known_of_mem j v (.inl hv)
    exact h ⟨v, .inr hv, .inl ((mem_forbidden_pathsOf hs).2 ⟨Vars.index?_lt hname, hnot⟩)⟩
  · intro v hv hval
    obtain ⟨name, hname⟩ := hb.known_of_mem j v (.inr hv)
    exact h ⟨v, .inl ((mem_required_pathsOf hs).2 ⟨Vars.index?_lt hname, hval⟩), .inr hv⟩

end Automaton

end TemporalCheck
