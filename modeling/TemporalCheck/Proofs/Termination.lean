import TemporalCheck.Proofs.Forest.History
import TemporalCheck.Proofs.NormalForm
import TemporalCheck.Proofs.Sequence

/-!
# TemporalCheck.Proofs.Termination

Normalising ends.  It consists of two loops: at a node rules are applied until none matches, and
passes over the formula are repeated until one changes nothing.  `Build.RuleRound` and
`Build.PassRound` are one round of each, without a bound on their number.

A round of either loop makes the formula lighter (`Build.Weighted.ruleRound`,
`Build.Weighted.passRound`), so its weight bounds the rounds.  The bounds that the loops carry with
them only cut them short: a loop that has ended under one bound ends in the same way under every
larger one (`Build.normalizePasses_mono`).
-/

namespace TemporalCheck

namespace Build

variable {rules : List Rule} {f : Forest} {id : NodeId} {W : Expr → Nat}

/-! ## Larger bounds -/

/-- More steps allowed do not change what the rules make of a root. -/
theorem applyRules_mono {steps steps' : Nat} {changed : Bool} {r : (NodeId × Bool) × Forest}
    (h : applyRules rules steps id changed f = .ok r) (hle : steps ≤ steps') :
    applyRules rules steps' id changed f = .ok r := by
  induction steps generalizing steps' id changed f with
  | zero => cases h
  | succ n ih =>
    obtain ⟨m, rfl⟩ : ∃ m, steps' = m + 1 := Nat.exists_eq_succ_of_ne_zero (by omega)
    unfold applyRules at h ⊢
    obtain ⟨replaced?, k, hfirst, hrest⟩ := run_bind_eq_ok_iff.1 h
    refine run_bind_eq_ok_iff.2 ⟨replaced?, k, hfirst, ?_⟩
    cases replaced? with
    | none => exact hrest
    | some replaced => exact ih hrest (Nat.le_of_succ_le_succ hle)

/-- The same for a root that may have to be built anew. -/
theorem rebuild_mono {steps steps' : Nat} {node : Node} {changed : Bool}
    {r : (NodeId × Bool) × Forest}
    (h : (if changed = true then do
        let root ← add node
        applyRules rules steps root changed
      else do
        let root ← pure id
        applyRules rules steps root changed : Build (NodeId × Bool)) f = .ok r)
    (hle : steps ≤ steps') :
    (if changed = true then do
        let root ← add node
        applyRules rules steps' root changed
      else do
        let root ← pure id
        applyRules rules steps' root changed : Build (NodeId × Bool)) f = .ok r := by
  by_cases hch : changed = true
  · rw [if_pos hch] at h ⊢
    obtain ⟨root, k, hadd, h⟩ := run_bind_eq_ok_iff.1 h
    exact run_bind_eq_ok_iff.2 ⟨root, k, hadd, applyRules_mono h hle⟩
  · rw [if_neg hch] at h ⊢
    obtain ⟨root, k, hpure, h⟩ := run_bind_eq_ok_iff.1 h
    exact run_bind_eq_ok_iff.2 ⟨root, k, hpure, applyRules_mono h hle⟩

/-- More steps and more depth allowed do not change the result of a pass. -/
theorem normalizePass_mono {steps steps' d d' : Nat} {r : (NodeId × Bool) × Forest}
    (h : normalizePass rules steps d id f = .ok r) (hsteps : steps ≤ steps') (hd : d ≤ d') :
    normalizePass rules steps' d' id f = .ok r := by
  induction d generalizing d' id f r with
  | zero => cases h
  | succ n ih =>
    obtain ⟨m, rfl⟩ : ∃ m, d' = m + 1 := Nat.exists_eq_succ_of_ne_zero (by omega)
    have hnm := Nat.le_of_succ_le_succ hd
    unfold normalizePass at h ⊢
    obtain ⟨stored, f₁, hnode, h⟩ := run_bind_eq_ok_iff.1 h
    refine run_bind_eq_ok_iff.2 ⟨stored, f₁, hnode, ?_⟩
    cases stored with
    | top | bottom | prop => exact applyRules_mono h hsteps
    | unary op arg =>
      obtain ⟨passed, f₂, harg, h⟩ := run_bind_eq_ok_iff.1 h
      exact run_bind_eq_ok_iff.2 ⟨passed, f₂, ih harg hnm, rebuild_mono h hsteps⟩
    | binary op left right =>
      obtain ⟨passed, f₂, hleft, h⟩ := run_bind_eq_ok_iff.1 h
      refine run_bind_eq_ok_iff.2 ⟨passed, f₂, ih hleft hnm, ?_⟩
      obtain ⟨passed', f₃, hright, h⟩ := run_bind_eq_ok_iff.1 h
      exact run_bind_eq_ok_iff.2 ⟨passed', f₃, ih hright hnm, rebuild_mono h hsteps⟩

/-- More passes allowed do not change the result of a normalization. -/
theorem normalizePasses_mono {bound bound' passes passes' : Nat} {r : NodeId × Forest}
    (h : normalizePasses rules bound passes id f = .ok r) (hbound : bound ≤ bound')
    (hle : passes ≤ passes') : normalizePasses rules bound' passes' id f = .ok r := by
  induction passes generalizing passes' id f with
  | zero => cases h
  | succ n ih =>
    obtain ⟨m, rfl⟩ : ∃ m, passes' = m + 1 := Nat.exists_eq_succ_of_ne_zero (by omega)
    unfold normalizePasses at h ⊢
    obtain ⟨passed, k, hpass, h⟩ := run_bind_eq_ok_iff.1 h
    refine run_bind_eq_ok_iff.2 ⟨passed, k, normalizePass_mono hpass hbound hbound, ?_⟩
    obtain ⟨root, changed⟩ := passed
    cases changed with
    | false => exact h
    | true => exact ih h (Nat.le_of_succ_le_succ hle)

/-! ## Rounds -/

/-- One round of the loop at a node: a rule matches, and the node is replaced. -/
def RuleRound (rules : List Rule) (s t : NodeId × Forest) : Prop :=
  applyFirst s.1 rules s.2 = .ok (some t.1, t.2)

/-- One round of the loop over passes: a pass changes something, so that another one follows. -/
def PassRound (rules : List Rule) (s t : NodeId × Forest) : Prop :=
  ∃ steps depth, normalizePass rules steps depth s.1 s.2 = .ok ((t.1, true), t.2)

/-- A node of a tidy forest stands for a formula of a given weight. -/
def Weighted (W : Expr → Nat) (s : NodeId × Forest) (n : Nat) : Prop :=
  s.2.Tidy ∧ ∃ e, s.2.Denotes s.1 e ∧ W e = n

/-- A rule that is applied makes the formula lighter. -/
theorem Weighted.ruleRound (hw : Weighs W rules) (closed : ∀ r ∈ rules, r.IsClosed)
    {s t : NodeId × Forest} {n : Nat} (hs : Weighted W s n) (h : RuleRound rules s t) :
    ∃ m < n, Weighted W t m := by
  obtain ⟨hf, e, he, rfl⟩ := hs
  obtain ⟨replaced?, k, hfirst, happlied⟩ := yields_applyFirst hf he closed
  obtain ⟨rfl, rfl⟩ := Prod.mk.inj (Except.ok.inj (hfirst.symm.trans h))
  cases hrule : Rule.first? rules e with
  | none =>
    rw [hrule] at happlied
    cases happlied.1
  | some e' =>
    rw [hrule] at happlied
    obtain ⟨id', hid, hbuilt⟩ := happlied
    obtain rfl := Option.some.inj hid
    exact ⟨W e', hw.lt_of_rewrites (Rule.rewrites_of_first? hrule), hbuilt.tidy, e',
      hbuilt.denotes, rfl⟩

/-- A pass that changes something makes the formula lighter. -/
theorem Weighted.passRound (hw : Weighs W rules) (closed : ∀ r ∈ rules, r.IsClosed)
    {s t : NodeId × Forest} {n : Nat} (hs : Weighted W s n) (h : PassRound rules s t) :
    ∃ m < n, Weighted W t m := by
  obtain ⟨hf, e, he, rfl⟩ := hs
  obtain ⟨steps, depth, hpass⟩ := h
  -- Both bounds are made large enough for the formula.
  have hdepth : e.height ≤ max depth e.height := Nat.le_max_right _ _
  have hsteps : W e < max steps (W e + 1) := Nat.le_max_right _ _
  obtain ⟨r, k, hdone, e', hout⟩ := yields_normalizePass hw closed hf he hdepth hsteps
  have hsame := normalizePass_mono hpass (Nat.le_max_left steps (W e + 1))
    (Nat.le_max_left depth e.height)
  obtain ⟨rfl, rfl⟩ := Prod.mk.inj (Except.ok.inj (hdone.symm.trans hsame))
  obtain ⟨hfalse, -⟩ | ⟨-, hlt⟩ := hout.progress
  · cases hfalse
  · exact ⟨W e', hlt, hout.built.tidy, e', hout.built.denotes, rfl⟩

/-- **Normalising ends.**  In a forest whose list of empty slots is right, in which the operands of
stored nodes are stored and no node lies below itself, let a stored node be normalised with rules of
one of the two tables, in any selection and order.  There is a number that neither the rounds in
which rules are applied at the node nor the rounds in which passes change something can exceed.
Under every larger bound both loops end, whatever the bound in the same way, and normalising meets
no fault. -/
theorem normalizing_ends (hsub : rules ⊆ Rule.linear ∨ rules ⊆ Rule.branching) (hf : f.Orderly)
    (hid : id ∈ f.live) :
    ∃ bound,
      (∀ rounds, List.IsChain (RuleRound rules) ((id, f) :: rounds) → rounds.length ≤ bound) ∧
      (∀ rounds, List.IsChain (PassRound rules) ((id, f) :: rounds) → rounds.length ≤ bound) ∧
      (∀ changed, ∃ r g, ∀ steps, bound < steps →
        applyRules rules steps id changed f = .ok (r, g)) ∧
      (∃ root g, ∀ steps passes, bound < steps → bound < passes →
        normalizePasses rules steps passes id f = .ok (root, g)) ∧
      ∃ root g, normalize rules id f = .ok (root, g) := by
  obtain ⟨e, he⟩ := hf.exists_denotes hid
  obtain ⟨W, hw, closed, -⟩ := exists_weighs hsub
  have hstart : Weighted W (id, f) (W e) := ⟨hf.tidy, e, he, rfl⟩
  have hlt : W e < W e + 1 := Nat.lt_succ_self _
  refine ⟨W e, fun rounds hrounds => ?_, fun rounds hrounds => ?_, fun changed => ?_, ?_, ?_⟩
  · exact length_le_of_isChain (fun _ _ _ hs hround => hs.ruleRound hw closed hround) hstart hrounds
  · exact length_le_of_isChain (fun _ _ _ hs hround => hs.passRound hw closed hround) hstart hrounds
  · obtain ⟨r, g, hdone, -⟩ : Yields (applyRules rules (W e + 1) id changed) f _ :=
      yields_applyRules hw closed hf.tidy he hlt
    exact ⟨r, g, fun steps hsteps => applyRules_mono hdone hsteps⟩
  · obtain ⟨root, g, hdone, -⟩ := yields_normalizePasses hw closed hf.tidy he hlt hlt
    exact ⟨root, g, fun steps passes hsteps hpasses => normalizePasses_mono hdone hsteps hpasses⟩
  · obtain ⟨root, g, hdone, -⟩ := yields_normalize_table hsub hf.tidy he
    exact ⟨root, g, hdone⟩

/-- An implication above a slot that a collection has emptied, with the rules in the opposite
order. -/
theorem normalizing_ends_reused :
    let acts : List Forest.Act := [.add (.prop "p"), .add .top, .collect [0],
      .add (.unary .allGlobally 0), .add (.binary .implies 1 0)]
    let f : Forest :=
      { slots := #[some (.prop "p"), some (.unary .allGlobally 0), some (.binary .implies 1 0)] }
    let rules := Rule.branching.reverse
    Forest.After acts f ∧ rules ⊆ Rule.branching ∧ f.Orderly ∧ 2 ∈ f.live ∧
    ∃ bound,
      (∀ rounds, List.IsChain (RuleRound rules) ((2, f) :: rounds) → rounds.length ≤ bound) ∧
      (∀ rounds, List.IsChain (PassRound rules) ((2, f) :: rounds) → rounds.length ≤ bound) ∧
      (∀ changed, ∃ r g, ∀ steps, bound < steps →
        applyRules rules steps 2 changed f = .ok (r, g)) ∧
      (∃ root g, ∀ steps passes, bound < steps → bound < passes →
        normalizePasses rules steps passes 2 f = .ok (root, g)) ∧
      ∃ root g, normalize rules 2 f = .ok (root, g) := by
  intro acts f rules
  have hafter : Forest.After acts f := by
    refine .act (.act (.act (.act (.act .start ?_ rfl) ?_ rfl) ?_ rfl) ?_ rfl) ?_ rfl
    all_goals decide
  have hsub : rules ⊆ Rule.branching := fun r hr => List.mem_reverse.1 hr
  have hf : f.Orderly := hafter.invariant.1.orderly
  have hlive : 2 ∈ f.live := by decide
  exact ⟨hafter, hsub, hf, hlive, normalizing_ends (.inr hsub) hf hlive⟩

end Build

end TemporalCheck
