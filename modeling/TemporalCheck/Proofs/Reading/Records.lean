import TemporalCheck.Model.Reader
import TemporalCheck.Proofs.Model

/-!
# TemporalCheck.Proofs.Reading.Records

The model that the records of a definition make.  It is built in two phases: all states are declared
before anything is said about one of them.  `BuiltUpTo vars done rest m` says how far the model `m`
has got: the records `done` have been described, and the states of the records `rest` have only been
declared.

The build ends with the model that says all that the records say (`Model.described`), or it stops at
the first conflict among the records (`FirstConflict`): the first name that was declared before, or
else the first successor that is not declared.  It meets no fault (`Model.ofRecords_cases`).
-/

namespace TemporalCheck

variable {r : Record} {rs done rest : List Record}

/-! ## Records that contradict each other -/

/-- The first record with the name of an earlier one; and, if there is none, the first successor
that is not declared. -/
inductive FirstConflict : List Record → ModelError → Prop
  | repeated {before others : List Record} {r : Record} (hbefore : (before.map Record.name).Nodup)
      (h : r.name ∈ before.map Record.name) :
      FirstConflict (before ++ r :: others) (.duplicateState r.name r.span)
  | undeclared {rs before others : List Record} {r : Record} {earlier later : List (Int × Span)}
      {target : Int} {span : Span} (hnames : (rs.map Record.name).Nodup)
      (hrs : rs = before ++ r :: others)
      (hbefore : ∀ r' ∈ before, ∀ p ∈ r'.targets, p.1 ∈ rs.map Record.name)
      (htargets : r.targets = earlier ++ (target, span) :: later)
      (hearlier : ∀ p ∈ earlier, p.1 ∈ rs.map Record.name) (h : target ∉ rs.map Record.name) :
      FirstConflict rs (.unknownTransition r.name target span)

/-- A list has one first element of which something holds together with those before it. -/
theorem first_unique {α : Type} {P : List α → α → Prop} {a b a' b' : List α} {x x' : α}
    (heq : a ++ x :: b = a' ++ x' :: b') (hx : P a x) (hx' : P a' x')
    (ha : ∀ c y d, a = c ++ y :: d → ¬ P c y) (ha' : ∀ c y d, a' = c ++ y :: d → ¬ P c y) :
    a = a' ∧ x = x' := by
  obtain ⟨c, rfl, hrest⟩ | ⟨c, rfl, hrest⟩ := List.append_eq_append_iff.1 heq
  · cases c with
    | nil =>
      cases hrest
      simp
    | cons y c =>
      cases hrest
      exact absurd hx (ha' a x c rfl)
  · cases c with
    | nil =>
      cases hrest
      simp
    | cons y c =>
      cases hrest
      exact absurd hx' (ha a' x' c rfl)

theorem not_mem_of_nodup_names {before c d : List Record}
    (h : (before.map Record.name).Nodup) (heq : before = c ++ r :: d) :
    r.name ∉ c.map Record.name := by
  rw [heq, List.map_append, List.map_cons, List.nodup_append] at h
  exact fun hmem => h.2.2 _ hmem _ (by simp) rfl

namespace FirstConflict

/-- Records have one first conflict only. -/
theorem unique {cause cause' : ModelError} (h : FirstConflict rs cause)
    (h' : FirstConflict rs cause') : cause = cause' := by
  have hclash : ∀ {before others : List Record} {r : Record}, r.name ∈ before.map Record.name →
      ¬ ((before ++ r :: others).map Record.name).Nodup := fun hr hnodup =>
    not_mem_of_nodup_names hnodup rfl hr
  cases h with
  | @repeated before others r hbefore hr =>
    generalize heq : before ++ r :: others = rs at h'
    cases h' with
    | repeated hbefore' hr' =>
      obtain ⟨-, rfl⟩ := first_unique (P := fun c r => r.name ∈ c.map Record.name) heq hr hr'
        (fun _ _ _ => not_mem_of_nodup_names hbefore) fun _ _ _ => not_mem_of_nodup_names hbefore'
      rfl
    | undeclared hnodup => exact absurd (heq ▸ hnodup) (hclash hr)
  | @undeclared _ before others r earlier later target span hnodup hrs hbefore htargets hearlier
      h =>
    cases h' with
    | repeated _ hr' => exact absurd hnodup (hclash hr')
    | @undeclared _ before' others' r' earlier' later' target' span' _ hrs' hbefore' htargets'
        hearlier' h' =>
      have hbad : ∀ {c : List Record}, (∀ r' ∈ c, ∀ p ∈ r'.targets, p.1 ∈ rs.map Record.name) →
          ∀ c' y d, c = c' ++ y :: d → ¬ ∃ p ∈ y.targets, p.1 ∉ rs.map Record.name := by
        rintro c hc c' y d rfl ⟨p, hp, hnot⟩
        exact hnot (hc y (by simp) p hp)
      obtain ⟨-, rfl⟩ := first_unique (P := fun _ y => ∃ p ∈ y.targets, p.1 ∉ rs.map Record.name)
        (hrs.symm.trans hrs') ⟨(target, span), by simp [htargets], h⟩
        ⟨(target', span'), by simp [htargets'], h'⟩ (hbad hbefore) (hbad hbefore')
      obtain ⟨-, hsame⟩ := first_unique (P := fun _ p => p.1 ∉ rs.map Record.name)
        (htargets.symm.trans htargets') h h'
        (by rintro c y d rfl hy; exact hy (hearlier y (by simp)))
        (by rintro c y d rfl hy; exact hy (hearlier' y (by simp)))
      cases hsame
      rfl

/-- Records with a conflict do not have all that a model needs. -/
theorem not_declared {cause : ModelError} (h : FirstConflict rs cause) :
    ¬ ((rs.map Record.name).Nodup ∧ ∀ r ∈ rs, ∀ p ∈ r.targets, p.1 ∈ rs.map Record.name) := by
  rintro ⟨hnodup, hdeclared⟩
  cases h with
  | repeated _ hr => exact not_mem_of_nodup_names hnodup rfl hr
  | @undeclared _ before others r earlier later target span _ hrs _ htargets _ h =>
    exact h (hdeclared r (by simp [hrs]) (target, span) (by simp [htargets]))

end FirstConflict

/-! ## Changing one state -/

namespace Model

variable {m : Model} {vars : Vars} {name : Int} {st : ModelState}
  {before behind : List (Int × ModelState)} {change : ModelState → ModelState}

/-- Models are told apart by what they say. -/
theorem eq_of_fields {m' : Model} (hstates : m.states = m'.states)
    (hinitial : m.initial = m'.initial) (hused : m.used = m'.used)
    (hvarNames : m.varNames = m'.varNames) : m = m' := by
  cases m
  cases m'
  simp_all

@[simp] theorem initial_update : (m.update name change).initial = m.initial := by
  unfold update
  split <;> rfl

@[simp] theorem used_update : (m.update name change).used = m.used := by
  unfold update
  split <;> rfl

/-- An update reaches the state with the name, and no other. -/
theorem states_update (change : ModelState → ModelState)
    (h : m.states = before ++ (name, st) :: behind) :
    (m.update name change).states = before ++ (name, change st) :: behind := by
  have hnodup := m.names_nodup
  rw [h, List.map_append, List.map_cons, List.nodup_append, List.nodup_cons] at hnodup
  have hbefore : name ∉ before.map Prod.fst := fun hmem => hnodup.2.2 _ hmem _ (by simp) rfl
  have hother : ∀ l : List (Int × ModelState), name ∉ l.map Prod.fst →
      l.map (changeNamed name change) = l := by
    intro l hl
    rw [List.map_congr_left (g := id) fun p hp => ?_, List.map_id]
    have hne : p.1 ≠ name := fun heq => hl (heq ▸ List.mem_map_of_mem hp)
    exact if_neg hne
  have hdeclared : (m.index? name).isSome = true := by
    rw [index?_isSome_iff, h]
    simp
  rw [update, dif_pos hdeclared]
  simp only [h, List.map_append, List.map_cons, hother before hbefore, hother behind hnodup.2.1.1]
  rw [changeNamed, if_pos rfl]

/-- A state that has not been declared yet is declared last. -/
theorem states_update_of_not_mem (h : name ∉ m.states.map Prod.fst) :
    (m.update name change).states = m.states ++ [(name, change {})] := by
  rw [update, dif_neg (by rwa [index?_isSome_iff])]

/-- The successors of a state are added up to the first that is not declared. -/
theorem addTargets_cases (targets : List (Int × Span))
    (h : m.states = before ++ (name, st) :: behind) :
    (∃ earlier target span later, targets = earlier ++ (target, span) :: later ∧
      (∀ p ∈ earlier, p.1 ∈ m.states.map Prod.fst) ∧ target ∉ m.states.map Prod.fst ∧
      targets.foldlM (addTarget name) m = .error (.refused (.unknownTransition name target span))) ∨
    (∀ p ∈ targets, p.1 ∈ m.states.map Prod.fst) ∧
      ∃ m', targets.foldlM (addTarget name) m = .ok m' ∧
        m'.states = before ++
          (name, { st with successors := st.successors ++ targets.map Prod.fst }) :: behind ∧
        m'.initial = m.initial ∧ m'.used = m.used := by
  induction targets generalizing m st with
  | nil => exact .inr ⟨by simp, m, rfl, by simp [h], rfl, rfl⟩
  | cons p targets ih =>
    by_cases hp : p.1 ∈ m.states.map Prod.fst
    · have hstep : addTarget name m p = .ok (m.addTransition name p.1) := by
        rw [addTarget, if_pos (index?_isSome_iff.2 hp)]
      have hstates := states_update (fun s => { s with successors := s.successors ++ [p.1] }) h
      have hnames : (m.addTransition name p.1).states.map Prod.fst = m.states.map Prod.fst := by
        rw [addTransition, hstates, h]
        simp
      simp only [List.foldlM_cons, bind_of_eq_ok hstep, ← hnames, List.forall_mem_cons]
      obtain ⟨earlier, target, span, later, rfl, hearlier, hnot, hrun⟩ |
        ⟨hall, m', hrun, hm', hinitial, hused⟩ := ih (m := m.addTransition name p.1) hstates
      · exact .inl ⟨p :: earlier, target, span, later, rfl,
          List.forall_mem_cons.2 ⟨hnames ▸ hp, hearlier⟩, hnot, hrun⟩
      · refine .inr ⟨⟨hnames ▸ hp, hall⟩, m', hrun, ?_, ?_, ?_⟩
        · rw [hm']
          simp
        · rw [hinitial, addTransition, initial_update]
        · rw [hused, addTransition, used_update]
    · refine .inl ⟨[], p.1, p.2, targets, rfl, by simp, hp, ?_⟩
      rw [List.foldlM_cons, addTarget, if_neg (by rwa [index?_isSome_iff])]
      rfl

/-- The variables of a state are added one after another. -/
theorem addVariables_eq (vs : List Nat) (h : m.states = before ++ (name, st) :: behind) :
    ∃ m', vs.foldl (fun m v => m.addVariable name v) m = m' ∧
      m'.states = before ++
        (name, { st with valuation := st.valuation.union (.ofList vs) }) :: behind ∧
      m'.initial = m.initial ∧ m'.used = m.used.union (.ofList vs) := by
  have hnil : ∀ s : NatSet, s.union (.ofList []) = s := by
    intro s
    ext v
    simp
  have hcons : ∀ (s : NatSet) (v : Nat) (vs : List Nat),
      (s.insert v).union (.ofList vs) = s.union (.ofList (v :: vs)) := by
    intro s v vs
    ext k
    simp [or_left_comm, or_assoc]
  induction vs generalizing m st with
  | nil => exact ⟨m, rfl, by simp [h, hnil], rfl, by rw [hnil]⟩
  | cons v vs ih =>
    have hstates := states_update (fun s => { s with valuation := s.valuation.insert v }) h
    obtain ⟨m', hrun, hm', hinitial, hused⟩ := ih (m := m.addVariable name v) hstates
    refine ⟨m', hrun, ?_, ?_, ?_⟩
    · rw [hm', hcons]
    · rw [hinitial]
      exact initial_update
    · rw [hused, ← hcons]
      rfl

/-! ## Building a model -/

/-- What a record says about its state. -/
def stateOf (vars : Vars) (r : Record) : ModelState where
  successors := r.targets.map Prod.fst
  valuation := .ofList (r.holding.filterMap vars.index?)

/-- The model that says what some records say. -/
def described (vars : Vars) (rs : List Record) (h : (rs.map Record.name).Nodup) : Model where
  states := rs.map fun r => (r.name, stateOf vars r)
  initial :=
    if ((rs.filter Record.isInitial).map Record.name).isEmpty then rs.map Record.name
    else (rs.filter Record.isInitial).map Record.name
  used := .ofList ((rs.flatMap Record.holding).filterMap vars.index?)
  varNames := vars.names
  names_nodup := by simpa [Function.comp_def] using h

@[simp] theorem states_described (vars : Vars) (h : (rs.map Record.name).Nodup) :
    (described vars rs h).states = rs.map fun r => (r.name, stateOf vars r) := rfl

@[simp] theorem used_described (vars : Vars) (h : (rs.map Record.name).Nodup) :
    (described vars rs h).used = .ofList ((rs.flatMap Record.holding).filterMap vars.index?) := rfl

/-- How far a model has got that is built from records: the first of them have been described, and
the states of the others have been declared. -/
structure BuiltUpTo (vars : Vars) (done rest : List Record) (m : Model) : Prop where
  states : m.states =
    done.map (fun r => (r.name, stateOf vars r)) ++ rest.map fun r => (r.name, ({} : ModelState))
  initial : m.initial = (done.filter Record.isInitial).map Record.name
  used : m.used = .ofList ((done.flatMap Record.holding).filterMap vars.index?)

namespace BuiltUpTo

theorem names (h : BuiltUpTo vars done rest m) :
    m.states.map Prod.fst = (done ++ rest).map Record.name := by
  simp [h.states, Function.comp_def]

theorem nodup (h : BuiltUpTo vars done rest m) : ((done ++ rest).map Record.name).Nodup :=
  h.names ▸ m.names_nodup

theorem start (vars : Vars) : BuiltUpTo vars [] [] .empty := ⟨rfl, rfl, by ext v; simp [Model.empty]⟩

/-- A state is declared unless it is already. -/
theorem declare_cases (h : BuiltUpTo vars [] done m) (r : Record) :
    (r.name ∈ done.map Record.name ∧
      m.declare r = .error (.refused (.duplicateState r.name r.span))) ∨
    ∃ m', m.declare r = .ok m' ∧ BuiltUpTo vars [] (done ++ [r]) m' := by
  have hnames : m.states.map Prod.fst = done.map Record.name := h.names
  by_cases hr : r.name ∈ done.map Record.name
  · refine .inl ⟨hr, if_pos ?_⟩
    rwa [index?_isSome_iff, hnames]
  · rw [← hnames] at hr
    refine .inr ⟨_, if_neg (by rwa [index?_isSome_iff]), ?_, ?_, ?_⟩
    · rw [addState, states_update_of_not_mem hr, h.states]
      simp
    · rw [addState, initial_update, h.initial]
    · rw [addState, used_update, h.used]

/-- The first phase ends with all states declared, or at the first name that was declared before. -/
theorem declareAll_cases (h : BuiltUpTo vars [] done m) (rest : List Record) :
    (∃ cause, FirstConflict (done ++ rest) cause ∧
      rest.foldlM declare m = .error (.refused cause)) ∨
    ∃ m', rest.foldlM declare m = .ok m' ∧ BuiltUpTo vars [] (done ++ rest) m' := by
  induction rest generalizing done m with
  | nil => exact .inr ⟨m, rfl, by rwa [List.append_nil]⟩
  | cons r rest ih =>
    obtain ⟨hr, hstep⟩ | ⟨m', hstep, hm'⟩ := h.declare_cases r
    · refine .inl ⟨_, .repeated h.nodup hr, ?_⟩
      rw [List.foldlM_cons, hstep]
      rfl
    · rw [List.foldlM_cons, bind_of_eq_ok hstep, ← List.singleton_append, ← List.append_assoc]
      exact ih hm'

/-- A state is described unless a successor is not declared. -/
theorem describe_cases (h : BuiltUpTo vars done (r :: rest) m) :
    (∃ earlier target span later, r.targets = earlier ++ (target, span) :: later ∧
      (∀ p ∈ earlier, p.1 ∈ (done ++ r :: rest).map Record.name) ∧
      target ∉ (done ++ r :: rest).map Record.name ∧
      m.describe vars r = .error (.refused (.unknownTransition r.name target span))) ∨
    (∀ p ∈ r.targets, p.1 ∈ (done ++ r :: rest).map Record.name) ∧
      ∃ m', m.describe vars r = .ok m' ∧ BuiltUpTo vars (done ++ [r]) rest m' := by
  rw [← h.names]
  obtain ⟨earlier, target, span, later, heq, hearlier, hnot, hrun⟩ |
    ⟨hall, m₁, hrun, hstates₁, hinitial₁, hused₁⟩ := addTargets_cases r.targets h.states
  · refine .inl ⟨earlier, target, span, later, heq, hearlier, hnot, ?_⟩
    rw [describe, hrun]
    rfl
  · obtain ⟨m₂, hvars, hstates₂, hinitial₂, hused₂⟩ :=
      addVariables_eq (r.holding.filterMap vars.index?) hstates₁
    refine .inr ⟨hall, if r.isInitial then m₂.setInitial r.name else m₂, ?_, ?_⟩
    · rw [describe, bind_of_eq_ok hrun, hvars]
      rfl
    -- A state that is marked has not been marked before, since no earlier record has its name.
    have hfresh : r.name ∉ m₂.initial := by
      rw [hinitial₂, hinitial₁, h.initial]
      intro hmem
      obtain ⟨r', hr', hname⟩ := List.mem_map.1 hmem
      refine not_mem_of_nodup_names h.nodup rfl ?_
      exact List.mem_map.2 ⟨r', (List.mem_filter.1 hr').1, hname⟩
    have hstates : (if r.isInitial then m₂.setInitial r.name else m₂).states = m₂.states := by
      rw [setInitial, if_neg hfresh]
      split <;> rfl
    have hused : (if r.isInitial then m₂.setInitial r.name else m₂).used = m₂.used := by
      rw [setInitial, if_neg hfresh]
      split <;> rfl
    have hempty : ∀ vs, (∅ : NatSet).union (.ofList vs) = .ofList vs := by
      intro vs
      ext v
      simp
    refine ⟨?_, ?_, ?_⟩
    · rw [hstates, hstates₂]
      simp [stateOf, hempty]
    · rw [setInitial, if_neg hfresh, List.filter_append, List.map_append, ← h.initial, ← hinitial₁,
        ← hinitial₂]
      cases hr : r.isInitial <;> simp [hr]
    · rw [hused, hused₂, hused₁, h.used]
      ext v
      simp

/-- The second phase ends with all states described, or at the first successor that is not
declared. -/
theorem describeAll_cases (h : BuiltUpTo vars done rest m)
    (hdone : ∀ r ∈ done, ∀ p ∈ r.targets, p.1 ∈ (done ++ rest).map Record.name) :
    (∃ cause, FirstConflict (done ++ rest) cause ∧
      rest.foldlM (describe vars) m = .error (.refused cause)) ∨
    (∀ r ∈ done ++ rest, ∀ p ∈ r.targets, p.1 ∈ (done ++ rest).map Record.name) ∧
      ∃ m', rest.foldlM (describe vars) m = .ok m' ∧ BuiltUpTo vars (done ++ rest) [] m' := by
  induction rest generalizing done m with
  | nil =>
    rw [List.append_nil] at hdone ⊢
    exact .inr ⟨hdone, m, rfl, h⟩
  | cons r rest ih =>
    obtain ⟨earlier, target, span, later, heq, hearlier, hnot, hstep⟩ | ⟨hall, m', hstep, hm'⟩ :=
      h.describe_cases
    · refine .inl ⟨_, .undeclared h.nodup rfl hdone heq hearlier hnot, ?_⟩
      rw [List.foldlM_cons, hstep]
      rfl
    · rw [List.foldlM_cons, bind_of_eq_ok hstep]
      rw [← List.singleton_append, ← List.append_assoc] at hdone hall ⊢
      refine ih hm' (List.forall_mem_append.2 ⟨hdone, ?_⟩)
      simpa using hall

end BuiltUpTo

end Model

namespace Vars

theorem extends_internAll (vars : Vars) (names : List String) :
    vars.Extends (vars.internAll names) := by
  induction names generalizing vars with
  | nil => exact .refl vars
  | cons name names ih => exact (vars.extends_intern name).trans (ih (vars.intern name).2)

/-- Names that have all been entered have numbers. -/
theorem exists_index?_internAll (vars : Vars) {names : List String} :
    ∀ x ∈ names, ∃ v, (vars.internAll names).index? x = some v := by
  induction names generalizing vars with
  | nil => simp
  | cons name names ih =>
    refine List.forall_mem_cons.2 ⟨⟨(vars.intern name).1, ?_⟩, ih (vars.intern name).2⟩
    exact (extends_internAll (vars.intern name).2 names).index? (vars.index?_intern name)

/-- The names of a table, one by one. -/
theorem mapM_name (vars : Vars) :
    (List.range vars.size).mapM vars.name = Except.ok vars.names := by
  have hnames : vars.names = (List.range vars.size).map fun i => (vars.names[i]?).getD "" := by
    refine List.ext_getElem (by simp [size]) fun i hi _ => ?_
    simp [hi]
  rw [hnames]
  refine mapM_eq_ok fun i hi => ?_
  rw [List.mem_range, size] at hi
  simp [name, name?, hi]

end Vars

namespace Model

variable {m : Model} {vars : Vars}

/-- Records make the model that says what they say, or there is a first conflict among them. -/
theorem ofRecords_cases (vars : Vars) (rs : List Record) :
    (∃ h : (rs.map Record.name).Nodup,
      (∀ r ∈ rs, ∀ p ∈ r.targets, p.1 ∈ rs.map Record.name) ∧
        ofRecords vars rs = .ok (described vars rs h)) ∨
    ∃ cause, FirstConflict rs cause ∧ ofRecords vars rs = .error (.refused cause) := by
  obtain ⟨cause, hcause, hrun⟩ | ⟨m₁, hrun, hm₁⟩ := (BuiltUpTo.start vars).declareAll_cases rs
  · refine .inr ⟨cause, hcause, ?_⟩
    rw [ofRecords, hrun]
    rfl
  obtain ⟨cause, hcause, hrun'⟩ | ⟨hdeclared, m₂, hrun', hm₂⟩ :=
    hm₁.describeAll_cases (by simp)
  · refine .inr ⟨cause, hcause, ?_⟩
    rw [ofRecords, bind_of_eq_ok hrun]
    simp only [List.nil_append] at hrun'
    rw [hrun']
    rfl
  · refine .inl ⟨hm₁.nodup, hdeclared, ?_⟩
    simp only [List.nil_append] at hrun' hm₂
    have hnames : (liftM ((List.range vars.size).mapM vars.name) :
        Refusable ModelError (List String)) = .ok vars.names := by
      rw [lift_eq_ok_iff, vars.mapM_name]
    rw [ofRecords, bind_of_eq_ok hrun, bind_of_eq_ok hrun', bind_of_eq_ok hnames]
    refine congrArg Except.ok (eq_of_fields ?_ ?_ ?_ rfl)
    · simp [hm₂.states]
    · simp [hm₂.initial, hm₂.states, described, Function.comp_def]
    · simp [hm₂.used]

/-- Records make a model if their names are all different and all successors are among them. -/
theorem ofRecords_eq_ok_iff : ofRecords vars rs = .ok m ↔
    ∃ h : (rs.map Record.name).Nodup,
      (∀ r ∈ rs, ∀ p ∈ r.targets, p.1 ∈ rs.map Record.name) ∧ m = described vars rs h := by
  obtain ⟨hnodup, hdeclared, hbuild⟩ | ⟨cause, hcause, hbuild⟩ := ofRecords_cases vars rs
  · rw [hbuild, Except.ok.injEq, eq_comm]
    exact ⟨fun h => ⟨hnodup, hdeclared, h⟩, fun ⟨_, _, h⟩ => h⟩
  · rw [hbuild]
    exact ⟨nofun, fun ⟨hnodup, hdeclared, _⟩ => absurd ⟨hnodup, hdeclared⟩ hcause.not_declared⟩

/-- Records make no model just if there is a first conflict among them. -/
theorem ofRecords_eq_error_iff {stop : Stop ModelError} :
    ofRecords vars rs = .error stop ↔ ∃ cause, FirstConflict rs cause ∧ stop = .refused cause := by
  obtain ⟨hnodup, hdeclared, hbuild⟩ | ⟨cause, hcause, hbuild⟩ := ofRecords_cases vars rs
  · rw [hbuild]
    exact ⟨nofun, fun ⟨_, hcause, _⟩ => absurd ⟨hnodup, hdeclared⟩ hcause.not_declared⟩
  · rw [hbuild]
    constructor
    · intro h
      cases h
      exact ⟨cause, hcause, rfl⟩
    · rintro ⟨cause', hcause', rfl⟩
      rw [hcause.unique hcause']

end Model

end TemporalCheck
