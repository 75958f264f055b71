import TemporalCheck.Proofs.Automaton.OfModel
import TemporalCheck.Proofs.Linear.Automaton

/-!
# TemporalCheck.Proofs.Linear.Check

Checking a model against a linear-time formula.  The product of the automaton of the model and the
automaton of the negated formula has a fair run exactly if some path of the model violates the
formula: `Linear.violates_of_runs` reads a path off two runs that do not clash, and
`Linear.exists_runs_of_violates` goes the other way.  With what is known of the search for a fair
run this gives both main results.

* `Linear.check_satisfied_iff`: the verdict is right.
* `Linear.counterexample_refutes`: a counterexample is a path of the model that violates the
  formula.
-/

namespace TemporalCheck

variable {m : Model} {vars vars' : Vars} {e : Expr}

/-! ## Paths of a model as words -/

namespace Model

/-- The letters that say what holds along a path, behind a first one that says nothing. -/
def letters (m : Model) (π : Nat → Nat) : Word Nat
  | 0 => fun _ => False
  | i + 1 => fun v => v ∈ m.valuation (π i)

theorem read_letters (m : Model) (vars : Vars) (π : Nat → Nat) :
    vars.read (m.letters π).tail = (m.toStructure vars).word π := by
  funext i name
  exact propext (toStructure_holds_eq m vars (π i) name).symm

/-- What holds along a path that is given by the names of its states. -/
def wordAlong (m : Model) (vars : Vars) (names : Lasso Int) : Word String :=
  fun i p => ∃ name v, names.get? i = some name ∧ vars.index? p = some v ∧ m.holds name v = .ok true

/-- A lasso of names is a path of a model, from an initial state, that violates a formula. -/
structure Refutes (m : Model) (vars : Vars) (names : Lasso Int) (e : Expr) : Prop where
  cycle_ne_nil : names.cycle ≠ []
  declared : ∀ name, name ∈ names.stem ∨ name ∈ names.cycle → (m.index? name).isSome
  starts : ∃ name ∈ m.initial, names.get? 0 = some name
  /-- Neighbours are joined by transitions, and the end of the cycle is joined to its start. -/
  steps : names.once.IsChain fun a b => ∃ st, m.state? a = some st ∧ b ∈ st.successors
  violates : ¬ e.HoldsOf (m.wordAlong vars names)

/-- The names along a path that violates a formula. -/
theorem refutes_of_unrolls {names : Lasso Int} {ν : Nat → Int} {π : Nat → Nat}
    (hcycle : names.cycle ≠ []) (hν : names.Unrolls ν) (hname : ∀ i, m.index? (ν i) = some (π i))
    (hstart : m.IsStart (π 0)) (hpath : (m.toStructure vars).IsPath π)
    (hviolates : ¬ e.HoldsOf ((m.toStructure vars).word π)) : m.Refutes vars names e := by
  refine ⟨hcycle, fun name hmem => ?_, ?_, ?_, ?_⟩
  · obtain ⟨i, rfl⟩ := hν.exists_of_mem hmem
    rw [hname i]
    rfl
  · obtain ⟨name, hinit, hindex⟩ := hstart
    exact ⟨name, hinit, by rw [hν 0, index?_inj (hname 0) hindex]⟩
  · rw [hν.step_iff hcycle]
    exact fun i => mem_successors_of_step (hname i) (hname (i + 1)) (hpath i)
  · have hword : m.wordAlong vars names = (m.toStructure vars).word π := by
      funext i p
      refine propext (Iff.trans ?_ (toStructure_holds_iff (hname i) p).symm)
      simp only [wordAlong, hν i, Option.some.injEq, exists_and_left, exists_eq_left']
    rwa [hword]

end Model

/-! ## Violations and runs -/

namespace Linear

open Automaton

variable {F : Automaton} {ρ₁ ρ₂ : Nat → Nat}

/-- Two runs that do not clash give a path that the second run is one over. -/
theorem violates_of_runs (hF : IsAutomatonOf vars (.unary .not e) F)
    (h₁ : (pathsOf m vars).IsRun ρ₁) (h₂ : F.IsRun ρ₂) (hfair : F.IsFair ρ₂)
    (hclash : ∀ i, ¬ Clash (pathsOf m vars) F (ρ₁ i) (ρ₂ i)) :
    ∃ π : Nat → Nat, (∀ i, ρ₁ (i + 1) = π i + 1) ∧ m.IsStart (π 0) ∧
      (m.toStructure vars).IsPath π ∧ ∀ vars', vars.Extends vars' →
        ¬ e.HoldsOf ((m.toStructure vars').word π) := by
  obtain ⟨-, π, hπ, hstart, hpath⟩ := isRun_pathsOf_iff.1 h₁
  refine ⟨π, hπ, hstart, hpath, fun vars' hvars => ?_⟩
  have hagrees : ∀ i, (F.stateD (ρ₂ i)).Agrees (m.letters π i) := by
    intro i
    cases i with
    | zero => exact hF.seeded.agrees_initial h₂.1 _
    | succ i =>
      obtain ⟨name, hname⟩ := Model.exists_index?_of_path hstart hpath i
      have hnot := hclash (i + 1)
      rw [hπ i] at hnot
      exact agrees_valuation_of_not_clash hF.seeded (Model.index?_lt hname) hnot
  have haccepts : F.Accepts (m.letters π) := ⟨ρ₂, ⟨h₂, hagrees⟩, hfair⟩
  rw [hF.accepts_iff vars' hvars, Model.read_letters] at haccepts
  exact haccepts

/-- A path that violates the formula gives two runs that do not clash. -/
theorem exists_runs_of_violates (hF : IsAutomatonOf vars (.unary .not e) F)
    (hvars : vars.Extends vars') {π : Nat → Nat} (hstart : m.IsStart (π 0))
    (hpath : (m.toStructure vars).IsPath π)
    (hviolates : ¬ e.HoldsOf ((m.toStructure vars').word π)) :
    ∃ ρ₁ ρ₂, (pathsOf m vars).IsRun ρ₁ ∧ F.IsRun ρ₂ ∧ F.IsFair ρ₂ ∧
      ∀ i, ¬ Clash (pathsOf m vars) F (ρ₁ i) (ρ₂ i) := by
  rw [← Model.read_letters] at hviolates
  obtain ⟨ρ₂, ⟨h₂, hagrees⟩, hfair⟩ := (hF.accepts_iff vars' hvars (m.letters π)).2 hviolates
  let ρ₁ : Nat → Nat := fun i => i.casesOn 0 fun i => π i + 1
  have h₁ : (pathsOf m vars).IsRun ρ₁ := isRun_pathsOf_iff.2 ⟨rfl, π, fun _ => rfl, hstart, hpath⟩
  refine ⟨ρ₁, ρ₂, h₁, h₂, hfair, fun i => not_clash_of_agrees ?_ (hagrees i)⟩
  cases i with
  | zero =>
    show ((pathsOf m vars).stateD 0).Agrees _
    rw [stateD_pathsOf_zero]
    exact ⟨fun v hv => absurd hv (NatSet.not_mem_empty v),
      fun v hv => absurd hv (NatSet.not_mem_empty v)⟩
  | succ i =>
    obtain ⟨name, hname⟩ := Model.exists_index?_of_path hstart hpath i
    exact agrees_valuation (Model.index?_lt hname)

/-! ## Verdicts -/

/-- What a verdict says of the paths of a model, whichever variables are numbered later. -/
def Judges (m : Model) (vars : Vars) (e : Expr) : Verdict → Prop
  | .satisfied => ∀ vars', vars.Extends vars' → ∀ π : Nat → Nat, m.IsStart (π 0) →
      (m.toStructure vars').IsPath π → e.HoldsOf ((m.toStructure vars').word π)
  | .counterexample trace => ∃ (names : Lasso Int) (ν : Nat → Int) (π : Nat → Nat),
      trace = names.map (fun n => toString n) ∧ names.cycle ≠ [] ∧ names.Unrolls ν ∧
      (∀ i, m.index? (ν i) = some (π i)) ∧ m.IsStart (π 0) ∧ (m.toStructure vars).IsPath π ∧
      ∀ vars', vars.Extends vars' → ¬ e.HoldsOf ((m.toStructure vars').word π)

/-- A verdict stays right when more variables are numbered. -/
theorem Judges.mono {vars' : Vars} {verdict : Verdict} (h : Judges m vars e verdict)
    (hvars : vars.Extends vars') : Judges m vars' e verdict := by
  cases verdict with
  | satisfied => exact fun vars'' hvars' => h vars'' (hvars.trans hvars')
  | counterexample trace =>
    obtain ⟨names, ν, π, htrace, hcycle, hν, hπ, hstart, hpath, hfails⟩ := h
    exact ⟨names, ν, π, htrace, hcycle, hν, hπ, hstart, hpath,
      fun vars'' hvars' => hfails vars'' (hvars.trans hvars')⟩

/-- A verdict is `satisfied` if and only if the formula holds on all paths from the initial
states. -/
theorem Judges.satisfied_iff {verdict : Verdict} (h : Judges m vars e verdict) :
    verdict = .satisfied ↔ ∀ π : Nat → Nat, m.IsStart (π 0) → (m.toStructure vars).IsPath π →
      e.HoldsOf ((m.toStructure vars).word π) := by
  cases verdict with
  | satisfied => exact iff_of_true rfl (h vars (.refl vars))
  | counterexample trace =>
    obtain ⟨names, ν, π, -, -, -, -, hstart, hpath, hfails⟩ := h
    exact iff_of_false nofun fun hall => hfails vars (.refl vars) (hall π hstart hpath)

/-- The labels along a run of the product are the names of the states of a path. -/
theorem shown_eq {r : Automaton} {φ₁ φ₂ σ π : Nat → Nat} {run : Lasso Nat}
    (hpairs : Pairs r (pathsOf m vars) F φ₁ φ₂) (hlt : ∀ i, σ i < r.size)
    (hrun : ({ run with stem := run.stem.drop 1 } : Lasso Nat).Unrolls fun i => σ (i + 1))
    (hπ : ∀ i, φ₁ (σ (i + 1)) = π i + 1) (hnamed : ∀ i, ∃ name, m.index? name = some (π i)) :
    ∃ (names : Lasso Int) (ν : Nat → Int), shown r 1 run = names.map (fun n => toString n) ∧
      (run.cycle ≠ [] → names.cycle ≠ []) ∧ names.Unrolls ν ∧ ∀ i, m.index? (ν i) = some (π i) := by
  -- The name of the state of the model that a state of the product stands for.
  let nameOf : Nat → Int := fun q => ((m.states[φ₁ q - 1]?).map Prod.fst).getD 0
  have hnameOf : ∀ i, m.index? (nameOf (σ (i + 1))) = some (π i) ∧
      labelOf r (σ (i + 1)) = toString (nameOf (σ (i + 1))) := by
    intro i
    obtain ⟨name, hname⟩ := hnamed i
    obtain ⟨st, hst, -⟩ := Model.exists_of_index? hname
    have heq : nameOf (σ (i + 1)) = name := by
      simp only [nameOf, hπ i, Nat.add_sub_cancel, hst, Option.map_some, Option.getD_some]
    rw [heq, labelOf, hpairs.label _ (hlt (i + 1)), hπ i, stateD_pathsOf_succ hst]
    exact ⟨hname, rfl⟩
  refine ⟨({ run with stem := run.stem.drop 1 } : Lasso Nat).map nameOf, _, ?_, ?_, hrun.map nameOf,
    fun i => (hnameOf i).1⟩
  · rw [shown, Lasso.map_map]
    exact hrun.map_eq_map fun i => (hnameOf i).2
  · intro hne
    simpa [Lasso.map] using hne

/-- The verdict that is read off the product of a model and the automaton of the negated formula. -/
theorem exists_verdict (m : Model) (hF : IsAutomatonOf vars (.unary .not e) F) :
    ∃ p r found, (pathsOf m vars).product F = .ok p ∧ p.reduce = .ok r ∧
      acceptedTrace? r 1 = .ok found ∧ Judges m vars e (match found with
        | some trace => .counterexample trace
        | none => .satisfied) := by
  obtain ⟨p, r, φ₁, φ₂, hp, hr, hwf, hord, hpairs⟩ :=
    exists_product (wellFormed_pathsOf m vars).closed hF.wellFormed.closed rfl hF.ordinary
  obtain ⟨found, hfound, hout⟩ := exists_acceptedTrace? hwf hord 1
  refine ⟨p, r, _, hp, hr, hfound, ?_⟩
  cases found with
  | none =>
    intro vars' hvars π hstart hpath
    by_contra hviolates
    obtain ⟨ρ₁, ρ₂, h₁, h₂, hfair, hclash⟩ :=
      exists_runs_of_violates hF hvars hstart hpath hviolates
    obtain ⟨σ, hσ, hσ₁, hσ₂⟩ := hpairs.exists_run ρ₁ ρ₂ h₁ h₂ hclash
    have hfair₁ := isFair_pathsOf h₁
    refine hout σ hσ ((hpairs.fair_iff σ hσ).2 ⟨?_, ?_⟩)
    · simpa only [hσ₁] using hfair₁
    · simpa only [hσ₂] using hfair
  | some run =>
    obtain ⟨hcycle, σ, hrun, hσ, hfair⟩ := hout
    obtain ⟨h₁, h₂⟩ := hpairs.isRun hσ
    have hlt := fun i => hσ.lt_size i
    obtain ⟨π, hπ, hstart, hpath, hviolates⟩ := violates_of_runs hF h₁ h₂
      ((hpairs.fair_iff σ hσ).1 hfair).2 fun i => hpairs.consistent _ (hlt i)
    have hstem := stem_ne_nil hpairs (unentered_pathsOf m vars) hrun hσ
    obtain ⟨names, ν, htrace, hne, hν, hname⟩ := shown_eq hpairs hlt (hrun.drop_one hstem) hπ
      (Model.exists_index?_of_path hstart hpath)
    exact ⟨names, ν, π, htrace, hne hcycle, hν, hname, hstart, hpath, hviolates⟩

/-! ## The check -/

variable {c c' : Context} {f : Formula}

/-- The variables of a formula are collected, and then each is reported or not. -/
theorem yields_unusedVars_of {Q : List String → Context → Prop} (hf : f.StandsFor c.forest e)
    (h : ∀ (names : List String) (c₁ : Context), c.Grows c₁ →
      (∀ x, x ∈ names ↔ .prop x ∈ e.subformulas) → Yields (names.filterM m.reportUnused) c₁ Q) :
    Yields (unusedVars m f) c Q := by
  obtain ⟨ids, hids, hmem⟩ := Forest.exists_reachable hf.denotes
  refine .bind (.get (.bind (.lift_work hids (.bind ((Yields.filterMapM
    (R := fun id o _ => ∀ x, o = some x ↔ c.forest.node? id = some (.prop x))
    (fun _ _ _ _ h _ => h) fun id hid c₁ hgrows => ?_).mono fun names c₁ hnames => ?_)))))
  · -- Every node below the root is stored, so reading it meets no fault.
    obtain ⟨_, _, hdenotes⟩ := hf.denotes.of_below ((hmem id).1 (NatSet.mem_toList.1 hid))
    obtain ⟨node, hnode⟩ := hdenotes.exists_node
    rw [hnode]
    rw [← hgrows.forest_eq] at hnode
    refine .bind ((Work.yields_node hnode).mono fun n c₂ h => ?_)
    obtain ⟨rfl, rfl⟩ := h
    cases n with
    | prop name => exact .pure ⟨.refl _, by simp⟩
    | _ => exact .pure ⟨.refl _, by simp⟩
  · obtain ⟨hgrows, hgiven, hfrom⟩ := hnames
    refine h names c₁ hgrows fun x => ⟨fun hx => ?_, fun hx => ?_⟩
    · obtain ⟨id, hid, ho⟩ := hfrom x hx
      obtain ⟨a, ha, hd⟩ := hf.denotes.of_below ((hmem id).1 (NatSet.mem_toList.1 hid))
      rwa [hd.unique (.prop ((ho x).1 rfl))] at ha
    · obtain ⟨id, hid, hd⟩ := hf.denotes.exists_below hx
      cases hd with
      | prop hnode =>
        obtain ⟨o, ho, hadded⟩ := hgiven id (NatSet.mem_toList.2 ((hmem id).2 hid))
        exact hadded x ((ho x).2 hnode)

theorem yields_unusedVars (m : Model) (hf : f.StandsFor c.forest e) :
    Yields (unusedVars m f) c fun _ c' => c.Learns c' :=
  yields_unusedVars_of hf fun names c₁ hgrows _ =>
    (m.yields_filterM_reportUnused names c₁).mono fun _ _ h =>
      (Context.Learns.of_grows hgrows).trans h

/-- A check of a defined model meets no fault and no error, and its verdict is right. -/
theorem succeeds_check (hc : c.forest.Tidy) (hf : f.StandsFor c.forest e)
    (hlin : f.isLinear = true) (hm : m.isDefined = true) :
    Succeeds (check m f) c fun chk c' => c.Continues c' ∧
      Judges m c'.vars e chk.verdict := by
  unfold check
  rw [hm]
  refine .bind ((succeeds_automaton hc hf hlin true).mono fun F c₁ h => ?_)
  obtain ⟨hcont, hF⟩ := h
  refine .bind (.lift ((yields_unusedVars m (hcont.standsFor hf)).mono fun unused c₂ hlearns => ?_))
  obtain ⟨p, r, found, hp, hr, hfound, hjudges⟩ := exists_verdict m (hF.mono hlearns.vars)
  have hcont₂ : c.Continues c₂ := hcont.trans (.of_learns hlearns hcont.tidy)
  refine .bind (.get (.bind (.lift_except (ofModel_eq m c₂.vars) ?_)))
  refine .bind (.lift_except hp (.bind (.lift_except hr (.bind (.lift_except hfound ?_)))))
  exact .pure ⟨hcont₂, hjudges⟩

theorem check_of_undefined (hm : m.isDefined = false) :
    check m f c = .ok (.error (.check .undefinedModel), c) := by
  unfold check
  rw [hm]
  rfl

/-- Formulas that are not of linear time are refused, and nothing else is done. -/
theorem check_of_not_linear (hf : f.StandsFor c.forest e) (hm : m.isDefined = true)
    (hlin : f.isLinear = false) :
    check m f c = .ok (.error (.check (.notLinear (e.render c.allParens))), c) := by
  unfold check
  rw [hm]
  exact bind_eq_of_error (automaton_of_not_linear hf hlin true)

/-- Only linear-time formulas and defined models are checked. -/
theorem guards_of_check {chk : Check} (h : check m f c = .ok (.ok chk, c')) :
    f.isLinear = true ∧ m.isDefined = true := by
  unfold check at h
  by_cases hm : m.isDefined = true
  · rw [hm] at h
    obtain ⟨F, c₁, hF, -⟩ := exists_of_bind_eq_ok h
    exact ⟨isLinear_of_automaton hF, hm⟩
  · rw [Bool.not_eq_true] at hm
    rw [hm] at h
    cases h

/-- **The verdict of a check is right.**  A check of a defined model against a linear-time formula
ends with a verdict, and the verdict is `satisfied` exactly if every infinite path of the model from
an initial state satisfies the formula. -/
theorem check_satisfied_iff (hc : c.forest.Tidy) (hf : f.StandsFor c.forest e)
    (hlin : f.isLinear = true) (hm : m.isDefined = true) :
    ∃ chk c', check m f c = .ok (.ok chk, c') ∧ c.vars.Extends c'.vars ∧
      ∀ vars, c'.vars.Extends vars → (chk.verdict = .satisfied ↔
        ∀ π : Nat → Nat, m.IsStart (π 0) → (m.toStructure vars).IsPath π →
          e.HoldsOf ((m.toStructure vars).word π)) := by
  obtain ⟨chk, c', hcheck, hcont, hjudges⟩ := succeeds_check hc hf hlin hm
  refine ⟨chk, c', hcheck, hcont.vars, fun vars hvars => ?_⟩
  cases hv : chk.verdict with
  | satisfied =>
    rw [hv] at hjudges
    exact ⟨fun _ => hjudges vars hvars, fun _ => rfl⟩
  | counterexample trace =>
    rw [hv] at hjudges
    obtain ⟨names, ν, π, -, -, -, -, hstart, hpath, hviolates⟩ := hjudges
    refine ⟨fun h => Verdict.noConfusion h, fun hall => ?_⟩
    exact absurd (hall π hstart hpath) (hviolates vars hvars)

/-- Two states in turn, with the first variable in the second state only. -/
def turns : Model where
  states := [(1, { successors := [2] }), (2, { successors := [1], valuation := .ofList [0] })]
  initial := [1]

/-- The formulas `F p` and `G p` in the second and the third slot. -/
def stored : Context where
  forest := { slots := #[some (.prop "p"), some (.unary .future 0), some (.unary .global 0)] }

theorem tidy_stored : stored.forest.Tidy := Forest.tidy_of_full rfl (by simp [stored])

/-- On a model whose two states take turns, `F p` is decided. -/
theorem check_satisfied_iff_turns :
    stored.forest.Tidy ∧ turns.isDefined = true ∧
    ∃ chk c', check turns ⟨1, .ofLinear⟩ stored = .ok (.ok chk, c') ∧ stored.vars.Extends c'.vars ∧
      ∀ vars, c'.vars.Extends vars → (chk.verdict = .satisfied ↔
        ∀ π : Nat → Nat, turns.IsStart (π 0) → (turns.toStructure vars).IsPath π →
          (Expr.unary .future (.prop "p")).HoldsOf ((turns.toStructure vars).word π)) :=
  ⟨tidy_stored, rfl, check_satisfied_iff tidy_stored ⟨Forest.denotes_of_tree rfl, rfl⟩ rfl rfl⟩

/-- **Counterexamples are genuine.**  The labels of a counterexample are the names of the states of
an infinite path of the model, from an initial state, that violates the formula. -/
theorem counterexample_refutes {chk : Check} {trace : Trace} (hc : c.forest.Tidy)
    (hf : f.StandsFor c.forest e) (hcheck : check m f c = .ok (.ok chk, c'))
    (hverdict : chk.verdict = .counterexample trace) :
    ∃ names : Lasso Int, trace = names.map (fun n => toString n) ∧
      ∀ vars, c'.vars.Extends vars → m.Refutes vars names e := by
  obtain ⟨hlin, hm⟩ := guards_of_check hcheck
  obtain ⟨_, _, hcheck', -, hjudges⟩ := succeeds_check hc hf hlin hm
  rw [hcheck] at hcheck'
  cases hcheck'
  rw [hverdict] at hjudges
  obtain ⟨names, ν, π, htrace, hcycle, hν, hname, hstart, hpath, hviolates⟩ := hjudges
  exact ⟨names, htrace, fun vars hvars =>
    Model.refutes_of_unrolls hcycle hν hname hstart hpath (hviolates vars hvars)⟩

/-- On the same model `G p` fails, and the counterexample goes round both states. -/
theorem counterexample_refutes_turns :
    ∃ chk c', check turns ⟨2, .ofLinear⟩ stored = .ok (.ok chk, c') ∧
      chk.verdict = .counterexample ⟨["1", "2", "1"], ["2", "1", "2", "1"]⟩ ∧
      ∃ names : Lasso Int,
        ⟨["1", "2", "1"], ["2", "1", "2", "1"]⟩ = names.map (fun n => toString n) ∧
        ∀ vars, c'.vars.Extends vars → turns.Refutes vars names (.unary .global (.prop "p")) := by
  have hverdict : (check turns ⟨2, .ofLinear⟩ stored).toOption.bind (·.1.toOption.map (·.verdict)) =
      some (.counterexample ⟨["1", "2", "1"], ["2", "1", "2", "1"]⟩) := by decide +kernel
  cases hcheck : check turns ⟨2, .ofLinear⟩ stored with
  | error fault =>
    rw [hcheck] at hverdict
    cases hverdict
  | ok p =>
    obtain ⟨outcome, c'⟩ := p
    rw [hcheck] at hverdict
    cases outcome with
    | error err => cases hverdict
    | ok chk =>
      have hchk : chk.verdict = _ := Option.some.inj hverdict
      exact ⟨chk, c', rfl, hchk, counterexample_refutes tidy_stored
        ⟨Forest.denotes_of_tree rfl, rfl⟩ hcheck hchk⟩

end Linear

end TemporalCheck
