import TemporalCheck.Linear
import TemporalCheck.Proofs.Automaton.Degeneralize
import TemporalCheck.Proofs.Automaton.Product
import TemporalCheck.Proofs.Automaton.Witness
import TemporalCheck.Proofs.Handle
import TemporalCheck.Proofs.Meaning
import TemporalCheck.Proofs.Model
import TemporalCheck.Proofs.Tableau.Language

/-!
# TemporalCheck.Proofs.Linear.Automaton

The automata that linear-time checks are made of.  The ordinary automaton of a formula, or of its
negation, exists and has the words of the formula (`Linear.succeeds_automaton`), and the search for
an accepted run of an automaton finds one exactly if there is one
(`Linear.exists_acceptedRun?`).
-/

namespace TemporalCheck

namespace Linear

variable {c : Context} {f : Formula} {e : Expr}

/-- What the automaton of a formula is: an ordinary automaton behind a seed that accepts the words
in which the formula holds, whatever further names the table of variables gets. -/
structure IsAutomatonOf (vars : Vars) (e : Expr) (b : Automaton) : Prop where
  wellFormed : b.WellFormed
  ordinary : b.acceptSets.length = 1
  seeded : b.Seeded vars.Numbers
  accepts_iff : ∀ vars', vars.Extends vars' → ∀ w, b.Accepts w ↔ e.HoldsOf (vars'.read w.tail)

theorem IsAutomatonOf.mono {vars vars' : Vars} {b : Automaton} (h : IsAutomatonOf vars e b)
    (hv : vars.Extends vars') : IsAutomatonOf vars' e b :=
  { h with
    seeded := h.seeded.mono fun _ => hv.numbers
    accepts_iff := fun vars'' hv' => h.accepts_iff vars'' (hv.trans hv') }

/-- The formula that an automaton is built for. -/
def target (negated : Bool) (e : Expr) : Expr := if negated then .unary .not e else e

/-- Building the automaton of a handle on a linear-time formula. -/
theorem succeeds_automaton (hc : c.forest.Tidy) (hf : f.StandsFor c.forest e)
    (hlin : f.isLinear = true) (negated : Bool) :
    Succeeds (automaton f negated) c fun b c' =>
      c.Continues c' ∧ IsAutomatonOf c'.vars (target negated e) b := by
  -- What happens once the formula is there.
  have hrest : ∀ (g : Formula) (c₁ : Context), c.Continues c₁ →
      g.StandsFor c₁.forest (target negated e) → g.isLinear = true → Succeeds (do
        let normal ← g.normalized
        let general ← Tableau.construct normal.root
        general.degeneralize.reduce : Attempt Automaton) c₁ fun b c' =>
          c.Continues c' ∧ IsAutomatonOf c'.vars (target negated e) b := by
    intro g c₁ hcont hg hglin
    have hnormalize := Formula.yields_normalized_linear hcont.tidy hg hglin
    refine .bind (.lift (hnormalize.mono fun g' c₂ h => ?_))
    obtain ⟨e', hgiven, hrw, hnnf⟩ := h
    have hconstruct := Tableau.yields_construct hgiven.stands.denotes hnnf
    refine .bind (.lift (hconstruct.mono fun b c₃ h => ?_))
    obtain ⟨hgrows, hwf, -, hseeded, haccepts⟩ := h
    have hdwf := Automaton.wellFormed_degeneralize hwf
    obtain ⟨r, φ, hr, hrwf, hover, hlen, hsame⟩ := Automaton.exists_reduce hdwf rfl
    have hdover := Automaton.degeneralize_liesOver hwf
    have hcont₃ :=
      (hcont.trans (.of_given hgiven)).trans (.of_learns (.of_grows hgrows) hgiven.tidy)
    refine .lift_except hr ⟨hcont₃, ?_⟩
    refine ⟨hrwf, hlen, hover.seeded hrwf.1 (hdover.seeded hdwf.1 hseeded), fun vars hv w => ?_⟩
    rw [hsame, Automaton.accepts_degeneralize hwf, haccepts vars hv]
    unfold Expr.HoldsOf
    rw [holdsAt_eq_of_linear (List.Subset.refl _) hrw]
  unfold automaton
  rw [hlin]
  cases negated with
  | false => exact .bind (.pure (hrest f c (.refl hc) hf hlin))
  | true =>
    refine .bind (.lift ((Formula.yields_negate hc hf).mono fun g c₁ h => ?_))
    have husage : g.usage = f.usage := by
      rw [h.stands.usage_eq, hf.usage_eq]
      simp [Expr.usage, UnaryOp.usage, Usage.join, Usage.boolean]
    exact hrest g c₁ (.of_given h) h.stands (by rwa [Formula.isLinear, husage])

/-- Formulas that are not of linear time are refused. -/
theorem automaton_of_not_linear (hf : f.StandsFor c.forest e) (hlin : f.isLinear = false)
    (negated : Bool) : automaton f negated c =
      .ok (.error (.check (.notLinear (e.render c.allParens))), c) := by
  unfold automaton
  rw [hlin]
  exact (bind_eq_of_ok rfl).trans (bind_eq_of_ok hf.lift_render)

/-- Only linear-time formulas are given an automaton. -/
theorem isLinear_of_automaton {negated : Bool} {b : Automaton} {c' : Context}
    (h : automaton f negated c = .ok (.ok b, c')) : f.isLinear = true := by
  by_contra hlin
  unfold automaton at h
  rw [Bool.not_eq_true] at hlin
  rw [hlin] at h
  obtain ⟨c₁, _, -, h⟩ := exists_of_bind_eq_ok h
  obtain ⟨text, _, -, h⟩ := exists_of_bind_eq_ok h
  cases h

/-- A run of a product does not come back to its start, if the first automaton does not. -/
theorem stem_ne_nil {r b₁ b₂ : Automaton} {φ₁ φ₂ σ : Nat → Nat} {run : Lasso Nat}
    (hpairs : Automaton.Pairs r b₁ b₂ φ₁ φ₂)
    (hunentered : ∀ s t, t ∈ (b₁.stateD s).next → t ∉ b₁.initial) (hrun : run.Unrolls σ)
    (hσ : r.IsRun σ) : run.stem ≠ [] := by
  intro hstem
  have hmem : σ 0 ∈ run.cycle := by
    have hzero := hrun.mem 0
    rw [hstem] at hzero
    exact hzero.resolve_left List.not_mem_nil
  obtain ⟨i, hi, hback⟩ := hrun.infinitelyOften hmem 1
  obtain ⟨k, rfl⟩ : ∃ k, i = k + 1 := ⟨i - 1, by omega⟩
  have hnext := (hpairs.next _ _ (hσ.2 k)).1
  rw [hback] at hnext
  exact hunentered _ _ hnext (hpairs.initial _ hσ.1).1

/-- The search for an accepted run meets no fault and finds one exactly if there is one. -/
theorem exists_acceptedRun? {b : Automaton} (hb : b.WellFormed) (hord : b.acceptSets.length = 1) :
    ∃ found, acceptedRun? b = .ok found ∧
      match found with
      | none => ∀ ρ, b.IsRun ρ → ¬ b.IsFair ρ
      | some run => run.cycle ≠ [] ∧ ∃ ρ, run.Unrolls ρ ∧ b.IsRun ρ ∧ b.IsFair ρ := by
  obtain ⟨found, hfound, hout⟩ := Automaton.exists_witness?_finds hb.closed hord
  unfold acceptedRun?
  rw [hfound]
  cases found with
  | none => exact ⟨none, rfl, hout⟩
  | some path =>
    obtain ⟨l, ρ, hcut, hcycle, hρ, hrun, hfair⟩ := hout
    refine ⟨some l, ?_, hcycle, ρ, hρ, hrun, hfair⟩
    show Except.ok (Lasso.ofWitness path) = _
    rw [hcut]

/-- The label of a state that exists, or its number if it has none. -/
def labelOf (b : Automaton) (s : Nat) : String := ((b.stateD s).label).getD (toString s)

/-- What is shown of a run without its first `skip` states. -/
def shown (b : Automaton) (skip : Nat) (run : Lasso Nat) : Trace :=
  ({ run with stem := run.stem.drop skip } : Lasso Nat).map (labelOf b)

theorem stateText_of_lt {b : Automaton} {s : Nat} (h : s < b.size) :
    stateText b s = .ok (labelOf b s) := by
  rw [stateText, Automaton.label, Automaton.state_of_lt h]
  rfl

/-- The labels along a run of states that exist are read without a fault. -/
theorem traceOf_eq {b : Automaton} {run : Lasso Nat}
    (h : ∀ s, s ∈ run.stem ∨ s ∈ run.cycle → s < b.size) (skip : Nat) :
    traceOf b skip run = .ok (shown b skip run) := by
  have hstem : (run.stem.drop skip).mapM (stateText b) =
      .ok ((run.stem.drop skip).map (labelOf b)) :=
    mapM_eq_ok fun s hs => stateText_of_lt (h s (.inl (List.mem_of_mem_drop hs)))
  have hcycle : run.cycle.mapM (stateText b) = .ok (run.cycle.map (labelOf b)) :=
    mapM_eq_ok fun s hs => stateText_of_lt (h s (.inr hs))
  rw [traceOf, bind_of_eq_ok hstem, bind_of_eq_ok hcycle]
  rfl

/-- The trace of an accepted run is found exactly if there is such a run. -/
theorem exists_acceptedTrace? {b : Automaton} (hb : b.WellFormed)
    (hord : b.acceptSets.length = 1) (skip : Nat) :
    ∃ found : Option (Lasso Nat), acceptedTrace? b skip = .ok (found.map (shown b skip)) ∧
      match found with
      | none => ∀ ρ, b.IsRun ρ → ¬ b.IsFair ρ
      | some run => run.cycle ≠ [] ∧ ∃ ρ, run.Unrolls ρ ∧ b.IsRun ρ ∧ b.IsFair ρ := by
  obtain ⟨found, hfound, hout⟩ := exists_acceptedRun? hb hord
  refine ⟨found, ?_, hout⟩
  rw [acceptedTrace?, bind_of_eq_ok hfound]
  cases found with
  | none => rfl
  | some run =>
    obtain ⟨-, ρ, hρ, hrun, -⟩ := hout
    have hlt : ∀ s, s ∈ run.stem ∨ s ∈ run.cycle → s < b.size := by
      intro s hs
      obtain ⟨i, rfl⟩ := hρ.exists_of_mem hs
      exact hrun.lt_size i
    exact bind_of_eq_ok (traceOf_eq hlt skip)

end Linear

end TemporalCheck
