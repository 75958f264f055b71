import TemporalCheck.Proofs.Automaton.Emptiness
import TemporalCheck.Proofs.Lasso

/-!
# TemporalCheck.Proofs.Automaton.Witness

What the nested search finds is a lasso.  The path runs into itself, so it is cut where its last
state occurred before (`Automaton.RunsIntoItself.exists_lasso`): a stem from an initial state and a
cycle of distinct states, one of them accepting.  Gone along for ever it is a run that comes back
to the accept set (`Automaton.IsLasso.isRun`), so the search finds something exactly if there is
such a run (`Automaton.exists_witness?_finds`).
-/

namespace TemporalCheck.Automaton

variable {b : Automaton} {l : Lasso Nat} {path : List Nat} {ρ : Nat → Nat}

/-- A lasso that starts in an initial state and follows transitions, with an accepting state on its
cycle and no state there twice. -/
structure IsLasso (b : Automaton) (l : Lasso Nat) : Prop where
  initial : ∃ s ∈ b.initial, l.once.head? = some s
  chain : l.once.IsChain b.Step
  cycle_ne_nil : l.cycle ≠ []
  nodup : l.cycle.Nodup
  accepting : ∃ s ∈ l.cycle, s ∈ b.acceptSet

/-- A path that runs into itself is one round of a lasso. -/
theorem RunsIntoItself.exists_lasso (h : RunsIntoItself b path) :
    ∃ l, Lasso.ofWitness path = some l ∧ l.once = path ∧ b.IsLasso l := by
  obtain ⟨before, t, round, rfl, hnodup, hchain, hinitial, hacc⟩ := h
  refine ⟨⟨before, t :: round⟩, Lasso.ofWitness_append (List.nodup_cons.1 hnodup).1, rfl, ?_⟩
  exact ⟨hinitial, hchain, List.cons_ne_nil t round, hnodup, hacc⟩

/-- The infinite path of a lasso is a run that comes back to the accept set for ever. -/
theorem IsLasso.isRun (h : b.IsLasso l) (hρ : l.Unrolls ρ) :
    b.IsRun ρ ∧ InfinitelyOften fun i => ρ i ∈ b.acceptSet := by
  obtain ⟨s, hs, hhead⟩ := h.initial
  obtain ⟨a, ha, hacc⟩ := h.accepting
  have hstart : ρ 0 = s := by
    rw [hρ.head?_once h.cycle_ne_nil] at hhead
    exact Option.some.inj hhead
  refine ⟨⟨hstart ▸ hs, (hρ.step_iff h.cycle_ne_nil).1 h.chain⟩, ?_⟩
  exact (hρ.infinitelyOften ha).mono fun i hi => hi ▸ hacc

/-- What the search of an ordinary automaton finds: a path that is cut into a lasso of which the
infinite path is a fair run, or nothing if no run is fair. -/
def Finds (b : Automaton) : Option (List Nat) → Prop
  | none => ∀ ρ, b.IsRun ρ → ¬ b.IsFair ρ
  | some path => ∃ l ρ, Lasso.ofWitness path = some l ∧ l.cycle ≠ [] ∧ l.Unrolls ρ ∧
    b.IsRun ρ ∧ b.IsFair ρ

/-- The search of an ordinary automaton meets no fault and finds a fair run if there is one. -/
theorem exists_witness?_finds (hb : b.Closed) (hord : b.acceptSets.length = 1) :
    ∃ found, b.witness? = .ok found ∧ b.Finds found := by
  obtain ⟨found, hfound, hout⟩ := exists_witness? hb
  refine ⟨found, hfound, ?_⟩
  cases found with
  | none =>
    intro ρ hρ hfair
    exact IsAcyclic.not_fair hout hρ ((isFair_iff_acceptSet hord).1 hfair)
  | some path =>
    obtain ⟨l, hcut, -, hl⟩ := RunsIntoItself.exists_lasso hout
    obtain ⟨ρ, hρ⟩ := Lasso.exists_unrolls hl.cycle_ne_nil
    obtain ⟨hrun, hfair⟩ := hl.isRun hρ
    exact ⟨l, ρ, hcut, hl.cycle_ne_nil, hρ, hrun, (isFair_iff_acceptSet hord).2 hfair⟩

/-- The search finds a path if and only if some run is accepted. -/
theorem Finds.isSome_iff {found : Option (List Nat)} (h : b.Finds found) :
    found.isSome = true ↔ ∃ ρ, b.IsRun ρ ∧ b.IsFair ρ := by
  cases found with
  | none => exact iff_of_false Bool.false_ne_true fun ⟨ρ, hρ, hfair⟩ => h ρ hρ hfair
  | some path =>
    obtain ⟨l, ρ, -, -, -, hrun, hfair⟩ := h
    exact iff_of_true rfl ⟨ρ, hrun, hfair⟩

/-- **What the nested search finds is an accepting lasso.**  Where the initial states and the
targets of transitions all exist, the search meets no fault.  A path that it finds starts in an
initial state and follows transitions.  It is cut into a stem and a cycle of distinct states, with
the first state of the cycle once more at the end of the path, and there is an accepting state on
the cycle. -/
theorem found_path_is_accepting_lasso (hinitial : ∀ s ∈ b.initial, s < b.size)
    (hnext : ∀ st ∈ b.states, ∀ t ∈ st.next, t < b.size) :
    ∃ found, b.witness? = .ok found ∧ ∀ path, found = some path →
      (∃ s ∈ b.initial, path.head? = some s) ∧ path.IsChain b.Step ∧
      ∃ l t round, Lasso.ofWitness path = some l ∧ l.cycle = t :: round ∧
        l.stem ++ l.cycle ++ [t] = path ∧ l.cycle.Nodup ∧ ∃ s ∈ l.cycle, s ∈ b.acceptSet := by
  obtain ⟨found, hfound, hout⟩ := exists_witness? ⟨hinitial, hnext⟩
  refine ⟨found, hfound, ?_⟩
  rintro path rfl
  obtain ⟨l, hcut, rfl, hl⟩ := RunsIntoItself.exists_lasso hout
  obtain ⟨t, round, hcycle⟩ := List.exists_cons_of_ne_nil hl.cycle_ne_nil
  refine ⟨hl.initial, hl.chain, l, t, round, hcut, hcycle, ?_, hl.nodup, hl.accepting⟩
  rw [Lasso.once, hcycle]
  rfl

/-- The cycle starts before the accepting state, on the outer stack, and comes back through a state
that the outer search has left already. -/
theorem found_path_is_accepting_lasso_late :
    let b : Automaton := {
      states := #[{ next := [1] }, { next := [2] }, { next := [3] }, { next := [1] }]
      initial := [0]
      acceptSets := [.ofList [2]] }
    (∀ s ∈ b.initial, s < b.size) ∧ (∀ st ∈ b.states, ∀ t ∈ st.next, t < b.size) ∧
    b.witness? = .ok (some [0, 1, 2, 3, 1]) ∧
    ∃ found, b.witness? = .ok found ∧ ∀ path, found = some path →
      (∃ s ∈ b.initial, path.head? = some s) ∧ path.IsChain b.Step ∧
      ∃ l t round, Lasso.ofWitness path = some l ∧ l.cycle = t :: round ∧
        l.stem ++ l.cycle ++ [t] = path ∧ l.cycle.Nodup ∧ ∃ s ∈ l.cycle, s ∈ b.acceptSet := by
  intro b
  have hinitial : ∀ s ∈ b.initial, s < b.size := by decide
  have hnext : ∀ st ∈ b.states, ∀ t ∈ st.next, t < b.size := by decide
  exact ⟨hinitial, hnext, by decide, found_path_is_accepting_lasso hinitial hnext⟩

end TemporalCheck.Automaton
