import TemporalCheck.Proofs.Linear.Check

/-!
# TemporalCheck.Proofs.Linear.Comparison

Comparing two linear-time formulas.  A pass finds a run exactly if some word satisfies the one
formula and not the other, and the labels along the run say which words those are
(`Linear.succeeds_pass`).  A label is the text of a list of demands (`Linear.literalLabel_eq`), so
that what a trace says is stated without reading texts.
-/

namespace TemporalCheck

namespace Linear

open Automaton

/-! ## Labels -/

/-- The text of a demand: a variable, and whether it has to hold. -/
def demandText : String × Bool → String
  | (name, true) => name
  | (name, false) => "!" ++ name

/-- The label for some demands. -/
def labelText (demands : List (String × Bool)) : String :=
  match demands.map demandText with
  | [] => "T"
  | [demand] => demand
  | several => "(" ++ " ^ ".intercalate several ++ ")"

/-- Whether a letter meets some demands. -/
def Meets (letter : String → Prop) (demands : List (String × Bool)) : Prop :=
  ∀ d ∈ demands, letter d.1 ↔ d.2 = true

/-- What a state demands of a variable, by name. -/
def demand? (vars : Vars) (st : AutomatonState) (v : Nat) : Option (String × Bool) :=
  if v ∈ st.required then (vars.name? v).map (·, true)
  else if v ∈ st.forbidden then (vars.name? v).map (·, false)
  else none

/-- What a state demands by name. -/
def demands (vars : Vars) (st : AutomatonState) : List (String × Bool) :=
  (List.range vars.size).filterMap (demand? vars st)

variable {vars vars' : Vars} {st : AutomatonState}

/-- A state demands of a variable that it holds if it requires it, and otherwise that it fails if it
forbids it. -/
theorem mem_demands {name : String} {value : Bool} : (name, value) ∈ demands vars st ↔
    ∃ v, vars.name? v = some name ∧ (v ∈ st.required ∧ value = true ∨
      v ∉ st.required ∧ v ∈ st.forbidden ∧ value = false) := by
  simp only [demands, List.mem_filterMap, List.mem_range]
  constructor
  · rintro ⟨v, -, hsome⟩
    unfold demand? at hsome
    split at hsome
    · next hreq =>
      obtain ⟨other, hv, heq⟩ := Option.map_eq_some_iff.1 hsome
      cases heq
      exact ⟨v, hv, .inl ⟨hreq, rfl⟩⟩
    · next hreq =>
      split at hsome
      · next hforb =>
        obtain ⟨other, hv, heq⟩ := Option.map_eq_some_iff.1 hsome
        cases heq
        exact ⟨v, hv, .inr ⟨hreq, hforb, rfl⟩⟩
      · cases hsome
  · rintro ⟨v, hv, hasked⟩
    refine ⟨v, (List.getElem?_eq_some_iff.1 hv).1, ?_⟩
    obtain ⟨hreq, rfl⟩ | ⟨hreq, hforb, rfl⟩ := hasked
    · simp [demand?, hreq, hv]
    · simp [demand?, hreq, hforb, hv]

/-- The names of all variables of the table are found. -/
theorem literals_eq (vars : Vars) (st : AutomatonState) :
    literals vars st = .ok ((demands vars st).map demandText) := by
  have hname : ∀ v ∈ List.range vars.size, ∃ name, vars.name? v = some name := fun v hv =>
    ⟨_, List.getElem?_eq_getElem (List.mem_range.1 hv)⟩
  rw [demands, List.map_filterMap]
  refine filterMapM_eq_ok fun v hv => ?_
  obtain ⟨name, hv⟩ := hname v hv
  by_cases hreq : v ∈ st.required
  · simp [demand?, hreq, Vars.name, hv, demandText, bind, Except.bind, pure, Except.pure]
  · by_cases hforb : v ∈ st.forbidden <;>
      simp [demand?, hreq, hforb, Vars.name, hv, demandText, bind, Except.bind, pure, Except.pure]

/-- The label of a state as a whole. -/
def literalText (vars : Vars) (st : AutomatonState) : String :=
  if st.isContradictory then "B" else labelText (demands vars st)

/-- A label is the text of what its state demands. -/
theorem literalLabel_eq (vars : Vars) (st : AutomatonState) :
    literalLabel vars st = .ok (literalText vars st) := by
  unfold literalLabel literalText labelText
  by_cases h : st.isContradictory = true
  · rw [if_pos h, if_pos h]
    rfl
  · rw [if_neg h, if_neg h, bind_of_eq_ok (literals_eq vars st)]
    cases (demands vars st).map demandText with
    | nil => rfl
    | cons first rest => cases rest <;> rfl

/-- A letter that meets the demands of a state agrees with it. -/
theorem agrees_of_meets (hst : ¬ st.isContradictory = true)
    (hknown : ∀ v, v ∈ st.required ∨ v ∈ st.forbidden → vars.Numbers v) (hvars : vars.Extends vars')
    {letter : String → Prop} (h : Meets letter (demands vars st)) :
    st.Agrees fun v => ∃ name, vars'.index? name = some v ∧ letter name := by
  constructor
  · intro v hv
    obtain ⟨name, hname⟩ := hknown v (.inl hv)
    have hmem : (name, true) ∈ demands vars st :=
      mem_demands.2 ⟨v, Vars.name?_of_index? hname, .inl ⟨hv, rfl⟩⟩
    exact ⟨name, hvars.index? hname, (h _ hmem).2 rfl⟩
  · rintro v hv ⟨other, hother, hletter⟩
    obtain ⟨name, hname⟩ := hknown v (.inr hv)
    have hreq : v ∉ st.required := fun hreq =>
      hst (NatSet.meets_iff.2 ⟨v, hreq, hv⟩)
    have hmem : (name, false) ∈ demands vars st :=
      mem_demands.2 ⟨v, Vars.name?_of_index? hname, .inr ⟨hreq, hv, rfl⟩⟩
    rw [Vars.index?_inj hother (hvars.index? hname)] at hletter
    exact Bool.noConfusion ((h _ hmem).1 hletter)

/-- A letter that agrees with a state meets its demands. -/
theorem meets_of_agrees (hknown : ∀ v, v ∈ st.required ∨ v ∈ st.forbidden → vars.Numbers v)
    {letter : Nat → Prop} (h : st.Agrees letter) :
    Meets (fun name => ∃ v, vars.index? name = some v ∧ letter v) (demands vars st) := by
  rintro ⟨name, value⟩ hmem
  obtain ⟨v, hv, hasked⟩ := mem_demands.1 hmem
  have hindex : vars.index? name = some v := by
    obtain ⟨other, hother⟩ := hknown v (hasked.imp And.left fun h => h.2.1)
    have heq := Vars.name?_of_index? hother
    rw [hv] at heq
    rwa [Option.some.inj heq]
  simp only [hindex, Option.some.injEq, exists_eq_left']
  obtain ⟨hreq, rfl⟩ | ⟨-, hforb, rfl⟩ := hasked
  · exact iff_of_true (h.1 v hreq) rfl
  · exact iff_of_false (h.2 v hforb) Bool.false_ne_true

/-- A seed demands nothing. -/
theorem demands_initial {b : Automaton} {known : Nat → Prop} (hb : b.Seeded known) {s : Nat}
    (hs : s ∈ b.initial) : demands vars (b.stateD s) = [] := by
  refine List.eq_nil_iff_forall_not_mem.2 fun d hd => ?_
  obtain ⟨v, -, hasked⟩ := mem_demands.1 hd
  have hmem := hasked.imp And.left fun h => h.2.1
  rw [hb.required_initial s hs, hb.forbidden_initial s hs] at hmem
  exact hmem.elim (NatSet.not_mem_empty v) (NatSet.not_mem_empty v)

/-! ## Labelled automata -/

variable {b : Automaton} {e e₁ e₂ : Expr}

/-- The automaton with every state labelled. -/
def labelled (b : Automaton) (vars : Vars) : Automaton :=
  { b with states := b.states.map fun st => { st with label := some (literalText vars st) } }

/-- Labelling meets no fault. -/
theorem labelLiterals_eq (b : Automaton) (vars : Vars) :
    b.labelLiterals vars = .ok (labelled b vars) := by
  have hstates : (fun st => do
      return { st with label := some (← literalLabel vars st) } : AutomatonState → Except Fault _) =
      fun st => pure { st with label := some (literalText vars st) } := by
    funext st
    rw [literalLabel_eq]
    rfl
  rw [labelLiterals, hstates, Array.mapM_pure]
  rfl

theorem stateD_labelled (b : Automaton) (vars : Vars) {s : Nat} (hs : s < b.size) :
    (labelled b vars).stateD s =
      { b.stateD s with label := some (literalText vars (b.stateD s)) } := by
  have hs : s < b.states.size := hs
  simp [labelled, stateD, Array.getD_eq_getD_getElem?, hs]

/-- Labels change neither the transitions of a state nor what it asks for. -/
theorem labelled_fields (b : Automaton) (vars : Vars) (s : Nat) :
    ((labelled b vars).stateD s).next = (b.stateD s).next ∧
      ((labelled b vars).stateD s).required = (b.stateD s).required ∧
      ((labelled b vars).stateD s).forbidden = (b.stateD s).forbidden := by
  by_cases hs : s < b.size
  · rw [stateD_labelled b vars hs]
    exact ⟨rfl, rfl, rfl⟩
  · have hge : b.size ≤ s := Nat.le_of_not_lt hs
    have hge' : (labelled b vars).size ≤ s := by simpa [labelled, size] using hge
    rw [stateD_of_size_le hge, stateD_of_size_le hge']
    exact ⟨rfl, rfl, rfl⟩

/-- Labelling an automaton changes nothing else in it. -/
theorem IsAutomatonOf.labelled (h : IsAutomatonOf vars e b) (vars' : Vars) :
    IsAutomatonOf vars e (labelled b vars') := by
  have hfields := labelled_fields b vars'
  have hsize : (Linear.labelled b vars').size = b.size := by simp [Linear.labelled, size]
  refine ⟨?_, h.ordinary, ?_, fun vars'' hvars w => ?_⟩
  · refine wellFormed_of_stateD ?_ (fun s t ht => ?_) ?_
    · rw [hsize]
      exact h.wellFormed.1
    · rw [(hfields s).1] at ht
      rw [hsize]
      exact h.wellFormed.lt_of_mem_next ht
    · rw [hsize]
      exact h.wellFormed.2.2
  · constructor
    · intro s t ht
      rw [(hfields s).1] at ht
      exact h.seeded.unentered s t ht
    · intro s hs
      rw [(hfields s).2.1]
      exact h.seeded.required_initial s hs
    · intro s hs
      rw [(hfields s).2.2]
      exact h.seeded.forbidden_initial s hs
    · intro s v hv
      rw [(hfields s).2.1, (hfields s).2.2] at hv
      exact h.seeded.known_of_mem s v hv
  · rw [← h.accepts_iff vars'' hvars w]
    simp only [Accepts, IsRunOver, IsRun, AutomatonState.Agrees, hfields]
    rfl

/-! ## One direction -/

/-- Whether a word meets what is demanded along a path. -/
def IsMetBy (asked : Lasso (List (String × Bool))) (w : Word String) : Prop :=
  ∀ i ds, asked.get? i = some ds → Meets (w i) ds

/-- A trace shows that the one formula allows what the other forbids.  Its labels are demands on the
variables of a table.  The first label demands nothing and stands before the start; every word that
meets the others satisfies the one formula, and some such word violates the other. -/
def Separates (vars : Vars) (trace : Trace) (e₁ e₂ : Expr) : Prop :=
  ∃ asked : Lasso (List (String × Bool)), trace = asked.map labelText ∧ asked.cycle ≠ [] ∧
    asked.stem.head? = some [] ∧ trace.stem.head? = some "T" ∧
    (∀ i ds, asked.get? i = some ds → ∀ d ∈ ds, d.1 ∈ vars.names) ∧
    (∀ w, IsMetBy { asked with stem := asked.stem.drop 1 } w → e₁.HoldsOf w) ∧
    ∃ w, IsMetBy { asked with stem := asked.stem.drop 1 } w ∧ ¬ e₂.HoldsOf w

theorem Separates.mono {trace : Trace} (h : Separates vars trace e₁ e₂)
    (hvars : vars.Extends vars') : Separates vars' trace e₁ e₂ := by
  obtain ⟨asked, htrace, hcycle, hseed, hfirst, hnames, hwords⟩ := h
  exact ⟨asked, htrace, hcycle, hseed, hfirst,
    fun i ds hds d hd => List.IsPrefix.subset hvars (hnames i ds hds d hd), hwords⟩

section Pass

variable {b₁ b₂ r : Automaton} {φ₁ φ₂ σ : Nat → Nat}

/-- A word that satisfies the one formula and violates the other gives a fair run of the product. -/
theorem exists_run_of_word (h₁ : IsAutomatonOf vars e₁ b₁)
    (h₂ : IsAutomatonOf vars (.unary .not e₂) b₂) (hpairs : Pairs r b₁ b₂ φ₁ φ₂) {w : Word String}
    (hw₁ : e₁.HoldsOf w) (hw₂ : ¬ e₂.HoldsOf w) : ∃ σ, r.IsRun σ ∧ r.IsFair σ := by
  obtain ⟨vars₁, hext₁, hcovers₁⟩ := vars.exists_extends e₁
  obtain ⟨vars₂, hext₂, hcovers₂⟩ := vars₁.exists_extends e₂
  have hext := hext₁.trans hext₂
  have haccepts₁ : b₁.Accepts (vars₂.spell w) := by
    rw [h₁.accepts_iff vars₂ hext, Vars.holdsOf_read_spell (hcovers₁.mono hext₂)]
    exact hw₁
  have haccepts₂ : b₂.Accepts (vars₂.spell w) := by
    rw [h₂.accepts_iff vars₂ hext]
    exact fun h => hw₂ ((Vars.holdsOf_read_spell hcovers₂ w).1 h)
  obtain ⟨ρ₁, ⟨hrun₁, hagrees₁⟩, hfair₁⟩ := haccepts₁
  obtain ⟨ρ₂, ⟨hrun₂, hagrees₂⟩, hfair₂⟩ := haccepts₂
  obtain ⟨σ, hσ, hσ₁, hσ₂⟩ := hpairs.exists_run ρ₁ ρ₂ hrun₁ hrun₂
    fun i => not_clash_of_agrees (hagrees₁ i) (hagrees₂ i)
  refine ⟨σ, hσ, (hpairs.fair_iff σ hσ).2 ⟨?_, ?_⟩⟩
  · simpa only [hσ₁] using hfair₁
  · simpa only [hσ₂] using hfair₂

/-- A word that meets the demands along a fair run of the automaton of a formula satisfies it. -/
theorem holdsOf_of_meets (h : IsAutomatonOf vars e b) {ρ : Nat → Nat} (hrun : b.IsRun ρ)
    (hfair : b.IsFair ρ) (hconsistent : ∀ i, ¬ (b.stateD (ρ i)).isContradictory = true)
    {w : Word String} (hw : ∀ i, Meets (w i) (demands vars (b.stateD (ρ (i + 1))))) :
    e.HoldsOf w := by
  obtain ⟨vars', hext, hcovers⟩ := vars.exists_extends e
  rw [← Vars.holdsOf_read_spell hcovers w, ← h.accepts_iff vars' hext]
  refine ⟨ρ, ⟨hrun, fun i => ?_⟩, hfair⟩
  cases i with
  | zero => exact h.seeded.agrees_initial hrun.1 _
  | succ i => exact agrees_of_meets (hconsistent (i + 1)) (h.seeded.known_of_mem _) hext (hw i)

/-- Two runs that do not clash have a word in common, which meets the demands of the first. -/
theorem exists_word_of_runs (h₁ : IsAutomatonOf vars e₁ b₁)
    (h₂ : IsAutomatonOf vars (.unary .not e₂) b₂) {ρ₁ ρ₂ : Nat → Nat} (hrun : b₂.IsRun ρ₂)
    (hfair : b₂.IsFair ρ₂) (hclash : ∀ i, ¬ Clash b₁ b₂ (ρ₁ i) (ρ₂ i)) :
    ∃ w : Word String, (∀ i, Meets (w i) (demands vars (b₁.stateD (ρ₁ (i + 1))))) ∧
      ¬ e₂.HoldsOf w := by
  let letters : Word Nat := fun i => commonLetter b₁ b₂ (ρ₁ i) (ρ₂ i)
  have haccepts : b₂.Accepts letters :=
    ⟨ρ₂, ⟨hrun, fun i => (agrees_commonLetter (hclash i)).2⟩, hfair⟩
  rw [h₂.accepts_iff vars (.refl vars)] at haccepts
  refine ⟨vars.read letters.tail, fun i => ?_, haccepts⟩
  exact meets_of_agrees (h₁.seeded.known_of_mem _) (agrees_commonLetter (hclash (i + 1))).1

/-- The labels along a fair run of the product separate the formulas. -/
theorem separates_of_run (h₁ : IsAutomatonOf vars e₁ b₁)
    (h₂ : IsAutomatonOf vars (.unary .not e₂) b₂)
    (hlabel : ∀ s < b₁.size, (b₁.stateD s).label = some (literalText vars (b₁.stateD s)))
    (hpairs : Pairs r b₁ b₂ φ₁ φ₂) {run : Lasso Nat} (hcycle : run.cycle ≠ [])
    (hrun : run.Unrolls σ) (hσ : r.IsRun σ) (hfair : r.IsFair σ) :
    Separates vars (shown r 0 run) e₁ e₂ := by
  obtain ⟨hrun₁, hrun₂⟩ := hpairs.isRun hσ
  obtain ⟨hfair₁, hfair₂⟩ := (hpairs.fair_iff σ hσ).1 hfair
  have hclash := fun i => hpairs.consistent _ (hσ.lt_size i)
  have hstem := stem_ne_nil hpairs h₁.seeded.unentered hrun hσ
  have hconsistent : ∀ i, ¬ (b₁.stateD (φ₁ (σ i))).isContradictory = true := by
    intro i hcontra
    obtain ⟨v, hreq, hforb⟩ := NatSet.meets_iff.1 hcontra
    exact hclash i (clash_iff.2 ⟨v, .inl hreq, .inl hforb⟩)
  let asks : Nat → List (String × Bool) := fun q => demands vars (b₁.stateD (φ₁ q))
  have htext : ∀ i, labelOf r (σ i) = labelText (asks (σ i)) := by
    intro i
    rw [labelOf, hpairs.label _ (hσ.lt_size i), hlabel _ (hrun₁.lt_size i), literalText,
      if_neg (hconsistent i)]
    rfl
  have hseed : asks (σ 0) = [] := demands_initial h₁.seeded (hpairs.initial _ hσ.1).1
  have hhead := hrun.head?_stem hstem
  have hasks := hrun.map asks
  have hrest := hasks.drop_one (by simpa [Lasso.map] using hstem)
  have hmeets : ∀ w, IsMetBy { run.map asks with stem := (run.map asks).stem.drop 1 } w ↔
      ∀ i, Meets (w i) (asks (σ (i + 1))) := by
    intro w
    simp only [IsMetBy, hrest _, Option.some.injEq, forall_eq']
  have hshown : shown r 0 run = run.map (labelOf r) := rfl
  rw [hshown]
  refine ⟨run.map asks, ?_, ?_, ?_, ?_, ?_, ?_⟩
  · rw [Lasso.map_map]
    exact hrun.map_eq_map htext
  · simpa [Lasso.map] using hcycle
  · simp only [Lasso.map, List.head?_map, hhead, Option.map_some, hseed]
  · simp only [Lasso.map, List.head?_map, hhead, Option.map_some, htext 0, hseed]
    rfl
  · intro i ds hds d hd
    rw [hasks i] at hds
    cases hds
    obtain ⟨v, hv, -⟩ := mem_demands.1 hd
    exact List.mem_of_getElem? hv
  · obtain ⟨w, hw, hviolates⟩ := exists_word_of_runs h₁ h₂ hrun₂ hfair₂ hclash
    refine ⟨fun w hw => ?_, w, (hmeets w).2 hw, hviolates⟩
    exact holdsOf_of_meets h₁ hrun₁ hfair₁ hconsistent ((hmeets w).1 hw)

end Pass

/-! ## Both directions -/

variable {c c' : Context} {f g : Formula}

/-- What a pass finds out about two formulas. -/
def Decides (vars : Vars) (e₁ e₂ : Expr) : Option Trace → Prop
  | none => ∀ w : Word String, e₁.HoldsOf w → e₂.HoldsOf w
  | some trace => Separates vars trace e₁ e₂

theorem Decides.mono {found : Option Trace} (h : Decides vars e₁ e₂ found)
    (hvars : vars.Extends vars') : Decides vars' e₁ e₂ found := by
  cases found with
  | none => exact h
  | some trace => exact Separates.mono h hvars

/-- One direction of a comparison ends, and tells whether some word meets the first formula and not
the second. -/
theorem succeeds_pass (hc : c.forest.Tidy) (hf : f.StandsFor c.forest e₁)
    (hg : g.StandsFor c.forest e₂) (hflin : f.isLinear = true) (hglin : g.isLinear = true) :
    Succeeds (pass f g) c fun p c' => c.Continues c' ∧ Decides c'.vars e₁ e₂ p.allows := by
  refine .bind ((succeeds_automaton hc hf hflin false).mono fun b c₁ h => ?_)
  obtain ⟨hcont₁, hb⟩ := h
  have hsecond := succeeds_automaton hcont₁.tidy (hcont₁.standsFor hg) hglin true
  refine .bind (hsecond.mono fun b₂ c₂ h => ?_)
  obtain ⟨hcont₂, h₂⟩ := h
  have h₁ : IsAutomatonOf c₂.vars e₁ (labelled b c₂.vars) :=
    (hb.mono hcont₂.vars).labelled c₂.vars
  obtain ⟨p, r, φ₁, φ₂, hp, hr, hwf, hord, hpairs⟩ :=
    exists_product h₁.wellFormed.closed h₂.wellFormed.closed h₁.ordinary h₂.ordinary
  obtain ⟨found, hfound, hout⟩ := exists_acceptedTrace? hwf hord 0
  refine .bind (.get (.bind (.lift_except (labelLiterals_eq b c₂.vars) ?_)))
  refine .bind (.lift_except hp (.bind (.lift_except hr (.bind (.lift_except hfound ?_)))))
  refine .pure ⟨hcont₁.trans hcont₂, ?_⟩
  cases found with
  | none =>
    intro w hw₁
    by_contra hw₂
    obtain ⟨σ, hσ, hfair⟩ := exists_run_of_word h₁ h₂ hpairs hw₁ hw₂
    exact hout σ hσ hfair
  | some run =>
    obtain ⟨hcycle, σ, hrun, hσ, hfair⟩ := hout
    refine separates_of_run h₁ h₂ (fun s hs => ?_) hpairs hcycle hrun hσ hfair
    have hs : s < b.size := by simpa [labelled, size] using hs
    rw [stateD_labelled b c₂.vars hs]
    rfl

/-- A pass finds a run exactly if there is one. -/
theorem Decides.isSome_iff {found : Option Trace} (h : Decides vars e₁ e₂ found) :
    found.isSome = true ↔ ∃ w : Word String, e₁.HoldsOf w ∧ ¬ e₂.HoldsOf w := by
  cases found with
  | none => exact ⟨fun hsome => Bool.noConfusion hsome, fun ⟨w, hw₁, hw₂⟩ => absurd (h w hw₁) hw₂⟩
  | some trace =>
    obtain ⟨asked, -, -, -, -, -, hall, w, hmet, hw₂⟩ := h
    exact ⟨fun _ => ⟨w, hall w hmet, hw₂⟩, fun _ => rfl⟩

/-- A comparison ends, and each of its directions is decided. -/
theorem succeeds_compare (hc : c.forest.Tidy) (hf : f.StandsFor c.forest e₁)
    (hg : g.StandsFor c.forest e₂) (hflin : f.isLinear = true) (hglin : g.isLinear = true) :
    Succeeds (compare f g) c fun cmp c' => c.Continues c' ∧
      Decides c'.vars e₁ e₂ cmp.first.allows ∧ Decides c'.vars e₂ e₁ cmp.second.allows := by
  refine .bind ((succeeds_pass hc hf hg hflin hglin).mono fun first c₁ h => ?_)
  obtain ⟨hcont, hfirst⟩ := h
  have hsecond := succeeds_pass hcont.tidy (hcont.standsFor hg) (hcont.standsFor hf) hglin hflin
  refine .bind (hsecond.mono fun second c₂ h => ?_)
  exact .pure ⟨hcont.trans h.1, hfirst.mono h.1.vars, h.2⟩

/-- The two directions together tell whether the formulas hold on the same words. -/
theorem isEquivalence_iff {cmp : Comparison} (hfirst : Decides vars e₁ e₂ cmp.first.allows)
    (hsecond : Decides vars e₂ e₁ cmp.second.allows) :
    cmp.isEquivalence = true ↔ ∀ w : Word String, e₁.HoldsOf w ↔ e₂.HoldsOf w := by
  unfold Comparison.isEquivalence
  cases h₁ : cmp.first.allows with
  | some trace =>
    obtain ⟨w, hw₁, hw₂⟩ := hfirst.isSome_iff.1 (by simp [h₁])
    exact iff_of_false (by simp) fun h => hw₂ ((h w).1 hw₁)
  | none =>
    cases h₂ : cmp.second.allows with
    | some trace =>
      obtain ⟨w, hw₂, hw₁⟩ := hsecond.isSome_iff.1 (by simp [h₂])
      exact iff_of_false (by simp) fun h => hw₁ ((h w).2 hw₂)
    | none =>
      rw [h₁] at hfirst
      rw [h₂] at hsecond
      exact iff_of_true rfl fun w => ⟨hfirst w, hsecond w⟩

/-- A comparison with a formula that is not of linear time is refused. -/
theorem compare_of_not_linear (hc : c.forest.Tidy) (hf : f.StandsFor c.forest e₁)
    (hg : g.StandsFor c.forest e₂) (hlin : f.isLinear = false ∨ g.isLinear = false) :
    ∃ text c', compare f g c = .ok (.error (.check (.notLinear text)), c') ∧ c.Continues c' := by
  cases hflin : f.isLinear with
  | false =>
    have hpass : pass f g c = _ := bind_eq_of_error (automaton_of_not_linear hf hflin false)
    exact ⟨_, c, bind_eq_of_error hpass, .refl hc⟩
  | true =>
    have hglin : g.isLinear = false := by simpa [hflin] using hlin
    obtain ⟨b, c₁, hfirst, hcont, -⟩ := succeeds_automaton hc hf hflin false
    have hsecond := automaton_of_not_linear (hcont.standsFor hg) hglin true
    have hpass : pass f g c = _ :=
      (bind_eq_of_ok hfirst).trans (bind_eq_of_error hsecond)
    exact ⟨_, c₁, bind_eq_of_error hpass, hcont⟩

/-- **A comparison decides equivalence.**  Comparing two linear-time formulas ends with a result.
Each pass finds a trace exactly if some word satisfies its first formula and violates the other, and
the trace separates the two; so the formulas are found equivalent exactly if they hold of the same
words. -/
theorem compare_decides (hc : c.forest.Tidy) (hf : f.StandsFor c.forest e₁)
    (hg : g.StandsFor c.forest e₂) (hflin : f.isLinear = true) (hglin : g.isLinear = true) :
    ∃ cmp c', compare f g c = .ok (.ok cmp, c') ∧
      (cmp.first.allows.isSome = true ↔ ∃ w : Word String, e₁.HoldsOf w ∧ ¬ e₂.HoldsOf w) ∧
      (cmp.second.allows.isSome = true ↔ ∃ w : Word String, e₂.HoldsOf w ∧ ¬ e₁.HoldsOf w) ∧
      (cmp.isEquivalence = true ↔ ∀ w : Word String, e₁.HoldsOf w ↔ e₂.HoldsOf w) ∧
      (∀ trace, cmp.first.allows = some trace → Separates c'.vars trace e₁ e₂) ∧
      ∀ trace, cmp.second.allows = some trace → Separates c'.vars trace e₂ e₁ := by
  obtain ⟨cmp, c', hok, -, hfirst, hsecond⟩ := succeeds_compare hc hf hg hflin hglin
  refine ⟨cmp, c', hok, hfirst.isSome_iff, hsecond.isSome_iff, isEquivalence_iff hfirst hsecond,
    fun trace h => ?_, fun trace h => ?_⟩
  · rwa [h] at hfirst
  · rwa [h] at hsecond

/-- The formulas `F p` and `G p` are told apart. -/
theorem compare_decides_stored :
    stored.forest.Tidy ∧
    ∃ cmp c', compare ⟨1, .ofLinear⟩ ⟨2, .ofLinear⟩ stored = .ok (.ok cmp, c') ∧
      (cmp.first.allows.isSome = true ↔ ∃ w : Word String,
        (Expr.unary .future (.prop "p")).HoldsOf w ∧ ¬ (Expr.unary .global (.prop "p")).HoldsOf w) ∧
      (cmp.second.allows.isSome = true ↔ ∃ w : Word String,
        (Expr.unary .global (.prop "p")).HoldsOf w ∧ ¬ (Expr.unary .future (.prop "p")).HoldsOf w) ∧
      (cmp.isEquivalence = true ↔ ∀ w : Word String,
        (Expr.unary .future (.prop "p")).HoldsOf w ↔ (Expr.unary .global (.prop "p")).HoldsOf w) ∧
      (∀ trace, cmp.first.allows = some trace →
        Separates c'.vars trace (.unary .future (.prop "p")) (.unary .global (.prop "p"))) ∧
      ∀ trace, cmp.second.allows = some trace →
        Separates c'.vars trace (.unary .global (.prop "p")) (.unary .future (.prop "p")) :=
  ⟨tidy_stored, compare_decides tidy_stored ⟨Forest.denotes_of_tree rfl, rfl⟩
    ⟨Forest.denotes_of_tree rfl, rfl⟩ rfl rfl⟩

end Linear

end TemporalCheck
