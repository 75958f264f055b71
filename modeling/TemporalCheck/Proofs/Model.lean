import TemporalCheck.Meaning.Structure
import TemporalCheck.Model
import TemporalCheck.Proofs.Handle
import TemporalCheck.Proofs.Literal

/-!
# TemporalCheck.Proofs.Model

A model has two ways of naming a state, and the structure it describes uses the second: the name it
was declared with and its number.  `Model.exists_of_index?` ties the two together.

Reporting unused variables changes nothing but the table of variables and the list of warnings
(`Model.yields_filterM_reportUnused`).  Such contexts are related by `Context.Learns`; where
formulas are stored as well, by `Context.Continues`.
-/

namespace TemporalCheck

/-! ## States of a model by name and by number -/

namespace Model

variable {m : Model} {vars : Vars}

/-- The variables that hold in the state with a given number. -/
def valuation (m : Model) (s : Nat) : NatSet := (m.states[s]?.map (·.2.valuation)).getD ∅

/-- The declared successors of the state with a given number. -/
def targets (m : Model) (s : Nat) : List Nat :=
  (m.states[s]?.map (·.2.successors.filterMap m.index?)).getD []

/-- Looking a name up finds the first state with it. -/
theorem lookup_eq_some_of_first {l : List (Int × ModelState)} {name : Int} {k : Nat}
    (hk : k < l.length) (hat : l[k].1 = name) (hbefore : ∀ j (hj : j < k), l[j].1 ≠ name) :
    l.lookup name = some l[k].2 := by
  induction l generalizing k with
  | nil => exact absurd hk (Nat.not_lt_zero k)
  | cons p l ih =>
    obtain ⟨n, st⟩ := p
    cases k with
    | zero =>
      have hat : n = name := hat
      simp [hat]
    | succ k =>
      have hne : n ≠ name := hbefore 0 (Nat.succ_pos k)
      rw [List.lookup_cons, beq_eq_false_iff_ne.2 hne.symm]
      exact ih (Nat.lt_of_succ_lt_succ hk) hat fun j hj => hbefore (j + 1) (Nat.succ_lt_succ hj)

/-- A name with a number is declared, and its state is the one with that number. -/
theorem exists_of_index? {name : Int} {s : Nat} (h : m.index? name = some s) :
    ∃ st, m.states[s]? = some (name, st) ∧ m.state? name = some st := by
  obtain ⟨hlt, hname, hfirst⟩ := List.findIdx?_eq_some_iff_getElem.1 h
  simp only [decide_eq_true_eq] at hname
  refine ⟨m.states[s].2, ?_, ?_⟩
  · rw [List.getElem?_eq_getElem hlt, ← hname]
  · exact lookup_eq_some_of_first hlt hname fun j hj => by simpa using hfirst j hj

/-- No name is declared twice, so a state is the one that its name is looked up to. -/
theorem index?_of_getElem? {name : Int} {st : ModelState} {s : Nat}
    (h : m.states[s]? = some (name, st)) : m.index? name = some s := by
  obtain ⟨hlt, hget⟩ := List.getElem?_eq_some_iff.1 h
  refine List.findIdx?_eq_some_iff_getElem.2 ⟨hlt, by simp [hget], fun j hj => ?_⟩
  have hnodup := List.nodup_iff_injective_getElem.1 m.names_nodup
  simp only [decide_eq_true_eq]
  intro heq
  have hsame : (⟨j, by simp; omega⟩ : Fin (m.states.map Prod.fst).length) =
      ⟨s, by simpa using hlt⟩ :=
    hnodup (by simp [heq, hget])
  exact absurd (congrArg Fin.val hsame) (Nat.ne_of_lt hj)

theorem index?_lt {name : Int} {s : Nat} (h : m.index? name = some s) : s < m.size := by
  obtain ⟨st, hst, -⟩ := exists_of_index? h
  exact (List.getElem?_eq_some_iff.1 hst).1

/-- A number belongs to one name only. -/
theorem index?_inj {a b : Int} {s : Nat} (ha : m.index? a = some s) (hb : m.index? b = some s) :
    a = b := by
  obtain ⟨_, hsa, -⟩ := exists_of_index? ha
  obtain ⟨_, hsb, -⟩ := exists_of_index? hb
  rw [hsa] at hsb
  cases hsb
  rfl

section Lookup

variable {name : Int} {st : ModelState} {s : Nat}

theorem name_of_getElem? (h : m.states[s]? = some (name, st)) : m.name s = .ok name := by
  simp [Model.name, h]

/-- The state that is found by the name of a state is the state itself. -/
theorem state_of_getElem? (h : m.states[s]? = some (name, st)) : m.state name = .ok st := by
  obtain ⟨st', hst', hstate⟩ := exists_of_index? (index?_of_getElem? h)
  cases h.symm.trans hst'
  simp [state, hstate]

theorem successors_of_getElem? (h : m.states[s]? = some (name, st)) :
    m.successors name = .ok st.successors := by
  simp [successors, state_of_getElem? h, bind, Except.bind, pure, Except.pure]

theorem successorIds_of_getElem? (h : m.states[s]? = some (name, st)) :
    m.successorIds s = .ok (st.successors.filterMap m.index?) := by
  simp [successorIds, name_of_getElem? h, successors_of_getElem? h, bind, Except.bind, pure,
    Except.pure]

theorem holds_of_getElem? (h : m.states[s]? = some (name, st)) (v : Nat) :
    m.holds name v = .ok (decide (v ∈ st.valuation)) := by
  simp [holds, state_of_getElem? h, bind, Except.bind, pure, Except.pure]

/-- Every number below the number of states is the number of a state. -/
theorem exists_getElem? (h : s < m.size) : ∃ name st, m.states[s]? = some (name, st) :=
  ⟨m.states[s].1, m.states[s].2, List.getElem?_eq_getElem h⟩

theorem name_of_lt (h : s < m.size) : ∃ name, m.name s = .ok name := by
  obtain ⟨name, st, hst⟩ := exists_getElem? h
  exact ⟨name, name_of_getElem? hst⟩

theorem successorIds_of_lt (h : s < m.size) : m.successorIds s = .ok (m.targets s) := by
  obtain ⟨name, st, hst⟩ := exists_getElem? h
  rw [successorIds_of_getElem? hst, targets, hst]
  rfl

theorem holds_name_of_lt (h : s < m.size) (v : Nat) :
    (do m.holds (← m.name s) v) = .ok (decide (v ∈ m.valuation s)) := by
  obtain ⟨name, st, hst⟩ := exists_getElem? h
  rw [bind_of_eq_ok (name_of_getElem? hst), holds_of_getElem? hst, valuation, hst]
  rfl

end Lookup

/-- What holds in a state of the structure is what the model says of the state by its name. -/
theorem toStructure_holds_iff {name : Int} {s : Nat} (h : m.index? name = some s) (p : String) :
    (m.toStructure vars).Holds s p ↔ ∃ v, vars.index? p = some v ∧ m.holds name v = .ok true := by
  obtain ⟨st, hst, -⟩ := exists_of_index? h
  have hholds : ∀ v, m.holds name v = .ok true ↔ v ∈ st.valuation := by
    intro v
    rw [holds_of_getElem? hst, Except.ok.injEq, decide_eq_true_eq]
  simp only [toStructure, hst, hholds, Option.map_some, Option.some.injEq]
  exact ⟨fun ⟨_, v, heq, hv⟩ => ⟨v, heq ▸ hv⟩, fun ⟨v, hv⟩ => ⟨st, v, rfl, hv⟩⟩

/-- A variable holds in a state if it has a number and the state lists that number. -/
theorem toStructure_holds_eq (m : Model) (vars : Vars) (s : Nat) (p : String) :
    (m.toStructure vars).Holds s p ↔ ∃ v, vars.index? p = some v ∧ v ∈ m.valuation s := by
  simp only [valuation, toStructure]
  cases m.states[s]? with
  | none => simp [NatSet.not_mem_empty]
  | some st => simp

/-- The steps of the structure lead to the declared successors. -/
theorem mem_targets_iff {s t : Nat} : t ∈ m.targets s ↔ (m.toStructure vars).Step s t := by
  simp only [targets, toStructure]
  cases m.states[s]? with
  | none => simp
  | some p =>
    obtain ⟨name, st⟩ := p
    simp

/-- A step leads to a declared state. -/
theorem exists_index?_of_step {s t : Nat} (h : (m.toStructure vars).Step s t) :
    ∃ name, m.index? name = some t := by
  obtain ⟨name, st, -, hmem⟩ := h
  obtain ⟨target, -, htarget⟩ := List.mem_filterMap.1 hmem
  exact ⟨target, htarget⟩

/-- Every state of a path from a declared state has a name. -/
theorem exists_index?_of_path {π : Nat → Nat} (hstart : m.IsStart (π 0))
    (hpath : (m.toStructure vars).IsPath π) (i : Nat) : ∃ name, m.index? name = some (π i) := by
  cases i with
  | zero =>
    obtain ⟨name, -, hname⟩ := hstart
    exact ⟨name, hname⟩
  | succ i => exact exists_index?_of_step (hpath i)

/-- Steps of the structure are successors by name. -/
theorem mem_successors_of_step {a b : Int} {s t : Nat} (ha : m.index? a = some s)
    (hb : m.index? b = some t) (h : (m.toStructure vars).Step s t) :
    ∃ st, m.state? a = some st ∧ b ∈ st.successors := by
  obtain ⟨name, st, hst, hmem⟩ := h
  obtain ⟨st', hst', hstate⟩ := exists_of_index? ha
  rw [hst] at hst'
  cases hst'
  obtain ⟨target, htarget, hindex⟩ := List.mem_filterMap.1 hmem
  rw [index?_inj hb hindex]
  exact ⟨st, hstate, htarget⟩

end Model

/-! ## Contexts one after another -/

/-- One context follows another in which variables have been numbered and warnings given. -/
structure Context.Learns (c c' : Context) : Prop where
  forest_eq : c'.forest = c.forest
  allParens_eq : c'.allParens = c.allParens
  vars : c.vars.Extends c'.vars

namespace Context.Learns

variable {c c' c'' : Context}

theorem refl (c : Context) : c.Learns c := ⟨rfl, rfl, .refl _⟩

theorem trans (h : c.Learns c') (h' : c'.Learns c'') : c.Learns c'' :=
  ⟨h'.forest_eq.trans h.forest_eq, h'.allParens_eq.trans h.allParens_eq, h.vars.trans h'.vars⟩

theorem of_grows (h : c.Grows c') : c.Learns c' := by
  refine ⟨h.forest_eq, ?_, h.vars⟩
  rw [h.eq_with]

end Context.Learns

/-- One context comes after another in a session: stored formulas stay and are printed as before,
and variables keep their numbers. -/
structure Context.Continues (c c' : Context) : Prop where
  keeps : c.forest.Keeps c'.forest
  tidy : c'.forest.Tidy
  allParens_eq : c'.allParens = c.allParens
  vars : c.vars.Extends c'.vars

namespace Context.Continues

variable {c c' c'' : Context}

theorem refl (h : c.forest.Tidy) : c.Continues c := ⟨.refl _, h, rfl, .refl _⟩

theorem trans (h : c.Continues c') (h' : c'.Continues c'') : c.Continues c'' :=
  ⟨h.keeps.trans h'.keeps, h'.tidy, h'.allParens_eq.trans h.allParens_eq, h.vars.trans h'.vars⟩

theorem of_learns (h : c.Learns c') (hc : c.forest.Tidy) : c.Continues c' := by
  refine ⟨?_, ?_, h.allParens_eq, h.vars⟩
  all_goals rw [h.forest_eq]
  · exact .refl _
  · exact hc

theorem of_given {e : Expr} {f : Formula} (h : Formula.Given c e f c') : c.Continues c' := by
  refine ⟨h.keeps, h.tidy, ?_, ?_⟩
  all_goals rw [h.context_eq]
  exact .refl _

theorem standsFor (h : c.Continues c') {f : Formula} {e : Expr} (hf : f.StandsFor c.forest e) :
    f.StandsFor c'.forest e :=
  ⟨h.keeps.denotes hf.denotes, hf.usage_eq⟩

end Context.Continues

/-! ## Reporting unused variables -/

namespace Model

/-- Asking whether a variable is unused only numbers it and notes the warning. -/
theorem yields_reportUnused (m : Model) (name : String) (c : Context) :
    Yields (m.reportUnused name) c fun _ c' => c.Learns c' := by
  refine .bind ((Work.yields_var name c).mono fun v c₁ h => ?_)
  by_cases huses : m.uses v = true
  · rw [if_pos huses]
    exact .pure (.of_grows h.1)
  · rw [if_neg huses]
    have hwarn : c₁.Learns { c₁ with warned := c₁.warned.insert v } := ⟨rfl, rfl, .refl _⟩
    exact .bind (.get (.bind (.set (.pure ((Context.Learns.of_grows h.1).trans hwarn)))))

theorem yields_filterM_reportUnused (m : Model) (names : List String) (c : Context) :
    Yields (names.filterM m.reportUnused) c fun _ c' => c.Learns c' :=
  .filterM (fun _ _ c' => c.Learns c') (.refl c) fun _ name _ c₁ _ h =>
    (yields_reportUnused m name c₁).mono fun _ _ h' => h.trans h'

end Model

end TemporalCheck
