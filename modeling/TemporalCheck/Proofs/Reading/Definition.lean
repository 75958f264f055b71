import TemporalCheck.Proofs.Reading.Flaw

/-!
# TemporalCheck.Proofs.Reading.Definition

Reading a definition of a model, with every way in which it can end.  A stream is accepted just if
it starts with a definition whose names are all different and whose successors are all declared, and
then the model says what the records say (`Model.Describes`).  Otherwise the error is the first flaw
(`FirstFlaw`); and, if there is none, the first conflict among the records (`FirstConflict`): the
first name that was declared before, or else the first successor that is not declared.
-/

namespace TemporalCheck

variable {ts : List Token} {r : Record} {rs : List Record} {s rest : Stream}

/-! ## What a model says -/

namespace Model

/-- A model says what some records say: it has their states, in order and numbered as they come,
each with the successors of its record and the variables that hold; a variable is used that holds
somewhere; and the marked states are initial, or all if none is marked. -/
structure Describes (m : Model) (vars : Vars) (rs : List Record) : Prop where
  states : List.Forall₂ (fun p r => p.1 = r.name ∧ p.2.successors = r.targets.map Prod.fst ∧
    ∀ v, v ∈ p.2.valuation ↔ ∃ x ∈ r.holding, vars.index? x = some v) m.states rs
  index : ∀ i r, rs[i]? = some r → m.index? r.name = some i
  numbered : ∀ r ∈ rs, ∀ x ∈ r.holding, ∃ v, vars.index? x = some v
  used : ∀ v, v ∈ m.used ↔ ∃ p ∈ m.states, v ∈ p.2.valuation
  initial_of_marked : (∃ r ∈ rs, r.isInitial = true) →
    m.initial = (rs.filter Record.isInitial).map Record.name
  initial_of_unmarked : (∀ r ∈ rs, r.isInitial = false) → m.initial = rs.map Record.name
  varNames : m.varNames = vars.names

/-- The model made of some records is the one that they describe. -/
theorem describes_of_ofRecords {m : Model} {vars : Vars} (h : ofRecords vars rs = .ok m)
    (hnumbered : ∀ r ∈ rs, ∀ x ∈ r.holding, ∃ v, vars.index? x = some v) :
    m.Describes vars rs := by
  obtain ⟨hnodup, -, rfl⟩ := ofRecords_eq_ok_iff.1 h
  refine ⟨?_, fun i r hr => ?_, hnumbered, fun v => ?_, fun hmarked => ?_, fun hunmarked => ?_, rfl⟩
  · rw [states_described, List.forall₂_map_left_iff, List.forall₂_same]
    refine fun r _ => ⟨rfl, rfl, fun v => ?_⟩
    simp [stateOf, NatSet.mem_ofList]
  · obtain ⟨hlt, rfl⟩ := List.getElem?_eq_some_iff.1 hr
    refine List.findIdx?_eq_some_iff_getElem.2 ⟨by simpa using hlt, by simp, fun j hj => ?_⟩
    have hne := (List.nodup_iff_getElem?_ne_getElem?.1 hnodup) j i hj (by simpa using hlt)
    simpa [List.getElem?_eq_getElem, hlt, hj.trans hlt] using hne
  · simp only [states_described, used_described, NatSet.mem_ofList, List.mem_filterMap,
      List.mem_flatMap, List.mem_map, exists_exists_and_eq_and, stateOf]
    constructor
    · rintro ⟨x, ⟨r, hr, hx⟩, hv⟩
      exact ⟨r, hr, x, hx, hv⟩
    · rintro ⟨r, hr, x, hx, hv⟩
      exact ⟨x, ⟨r, hr, hx⟩, hv⟩
  · obtain ⟨r, hr, hmark⟩ := hmarked
    have hmem : r.name ∈ (rs.filter Record.isInitial).map Record.name :=
      List.mem_map_of_mem (List.mem_filter.2 ⟨hr, hmark⟩)
    exact if_neg fun hempty => List.ne_nil_of_mem hmem (List.isEmpty_iff.1 hempty)
  · have hnil : rs.filter Record.isInitial = [] := by simpa using hunmarked
    simp [described, hnil]

/-- Records describe one model only. -/
theorem Describes.unique {m m' : Model} {vars : Vars} (h : m.Describes vars rs)
    (h' : m'.Describes vars rs) : m = m' := by
  have hstates : m.states = m'.states := by
    refine List.left_unique_forall₂' (fun p q r hp hq => ?_) h.states h'.states
    obtain ⟨name, successors, valuation⟩ := p
    obtain ⟨name', successors', valuation'⟩ := q
    obtain ⟨rfl, rfl, hvaluation⟩ := hp
    obtain ⟨rfl, rfl, hvaluation'⟩ := hq
    have hsame : valuation = valuation' := by
      ext v
      rw [hvaluation, hvaluation']
    rw [hsame]
  have hused : m.used = m'.used := by
    ext v
    rw [h.used, h'.used, hstates]
  have hinitial : m.initial = m'.initial := by
    by_cases hmarked : ∃ r ∈ rs, r.isInitial = true
    · rw [h.initial_of_marked hmarked, h'.initial_of_marked hmarked]
    · have hunmarked : ∀ r ∈ rs, r.isInitial = false := by simpa using hmarked
      rw [h.initial_of_unmarked hunmarked, h'.initial_of_unmarked hunmarked]
  exact eq_of_fields hstates hinitial hused (h.varNames.trans h'.varNames.symm)

end Model

/-! ## Every outcome of reading -/

namespace Model

variable {vars : Vars}

theorem numbered_internAll (vars : Vars) (rs : List Record) : ∀ r ∈ rs, ∀ x ∈ r.holding,
    ∃ v, (vars.internAll (rs.flatMap Record.holding)).index? x = some v :=
  fun r hr x hx => vars.exists_index?_internAll x (List.mem_flatMap.2 ⟨r, hr, hx⟩)

/-- A definition is read to its end, and then its records are looked at. -/
theorem read_of_derives (h : DerivesDefinition ts rs) (vars : Vars) (rest : Stream) :
    ∃ vars', vars' = vars.internAll (rs.flatMap Record.holding) ∧
      (∀ m, ofRecords vars' rs = .ok m → read vars (ts ++ rest) = .ok (.ok (m, rest), vars')) ∧
      ∀ cause, ofRecords vars' rs = .error (.refused cause) →
        read vars (ts ++ rest) = .ok (.error (.model cause), vars') := by
  obtain ⟨ht, hrs⟩ := h
  have hopen : Kind.modelOpen ≠ .eof := nofun
  refine ⟨_, rfl, fun m hm => ?_, fun cause hcause => ?_⟩
  · exact read_eq_ok_iff.2 ⟨_, _, rs, ht, rfl, hrs, rfl, hm⟩
  · unfold read
    rw [List.cons_append, (Stream.expect_eq_ok_iff hopen).2 ⟨ht, rfl⟩]
    dsimp only
    rw [Stream.readRecords_of_derives hrs]
    dsimp only
    rw [hcause]

/-- What makes a definition that can be read, said about its records. -/
theorem read_eq_ok_iff_describes {m : Model} {vars' : Vars} :
    read vars s = .ok (.ok (m, rest), vars') ↔
      ∃ ts rs, s = ts ++ rest ∧ DerivesDefinition ts rs ∧ (rs.map Record.name).Nodup ∧
        (∀ r ∈ rs, ∀ p ∈ r.targets, p.1 ∈ rs.map Record.name) ∧
        vars' = vars.internAll (rs.flatMap Record.holding) ∧ m.Describes vars' rs := by
  constructor
  · intro hread
    obtain ⟨t, ts, rs, ht, rfl, hrs, rfl, hm⟩ := read_eq_ok_iff.1 hread
    obtain ⟨hnodup, hdeclared, -⟩ := ofRecords_eq_ok_iff.1 hm
    exact ⟨t :: ts, rs, rfl, .intro ht hrs, hnodup, hdeclared, rfl,
      describes_of_ofRecords hm (numbered_internAll vars rs)⟩
  · rintro ⟨ts, rs, rfl, hdef, hnodup, hdeclared, rfl, hdescribes⟩
    obtain ⟨_, rfl, hok, -⟩ := read_of_derives hdef vars rest
    have hm : ofRecords (vars.internAll (rs.flatMap Record.holding)) rs =
        .ok (described (vars.internAll (rs.flatMap Record.holding)) rs hnodup) :=
      ofRecords_eq_ok_iff.2 ⟨hnodup, hdeclared, rfl⟩
    rw [hok _ hm, hdescribes.unique (describes_of_ofRecords hm (numbered_internAll vars rs))]

/-- A stream starts with a definition, which makes a model or has a first conflict, or it has a
first flaw; or it has no end. -/
theorem read_outcome (vars : Vars) (s : Stream) :
    (∃ ts rest rs, s = ts ++ rest ∧ DerivesDefinition ts rs ∧
      ((∃ m vars', read vars s = .ok (.ok (m, rest), vars')) ∨
        ∃ cause vars', FirstConflict rs cause ∧ read vars s = .ok (.error (.model cause), vars'))) ∨
    (∃ cause vars', FirstFlaw s cause ∧ read vars s = .ok (.error (.parse cause), vars')) ∨
    ∃ fault, read vars s = .error fault ∧ (∀ t ∈ s, t.kind ≠ .eof) ∧
      ∀ cause, ¬ FirstFlaw s cause := by
  obtain ⟨ts, rest, rs, rfl, hdef⟩ | ⟨cause, vars', hread, hhalts⟩ | ⟨fault, q, hread, hq⟩ :=
    read_cases vars s
  · refine .inl ⟨ts, rest, rs, rfl, hdef, ?_⟩
    obtain ⟨vars', -, hok, herror⟩ := read_of_derives hdef vars rest
    cases hm : ofRecords vars' rs with
    | ok m => exact .inl ⟨m, vars', hok m hm⟩
    | error stop =>
      obtain ⟨cause, hcause, rfl⟩ := ofRecords_eq_error_iff.1 hm
      exact .inr ⟨cause, vars', hcause, herror cause hm⟩
  · exact .inr (.inl ⟨cause, vars', firstFlaw_iff.2 hhalts, hread⟩)
  · refine .inr (.inr ⟨fault, hread, Phase.kind_ne_eof_of_after hq, fun cause hflaw => ?_⟩)
    cases hq.symm.trans (firstFlaw_iff.1 hflaw).after_eq_none

/-- What a definition is refused for. -/
theorem exists_read_eq_error_iff {error : Error} :
    (∃ vars', read vars s = .ok (.error error, vars')) ↔
      (∃ cause, error = .parse cause ∧ FirstFlaw s cause) ∨
      ∃ cause, error = .model cause ∧
        ∃ ts rest rs, s = ts ++ rest ∧ DerivesDefinition ts rs ∧ FirstConflict rs cause := by
  constructor
  · rintro ⟨vars', h⟩
    obtain ⟨ts, rest, rs, rfl, hdef, ⟨m, _, hread⟩ | ⟨cause, _, hcause, hread⟩⟩ |
      ⟨cause, _, hflaw, hread⟩ | ⟨fault, hread, -⟩ := read_outcome vars s
    · cases hread.symm.trans h
    · cases hread.symm.trans h
      exact .inr ⟨cause, rfl, ts, rest, rs, rfl, hdef, hcause⟩
    · cases hread.symm.trans h
      exact .inl ⟨cause, rfl, hflaw⟩
    · cases hread.symm.trans h
  · rintro (⟨cause, rfl, hflaw⟩ | ⟨cause, rfl, ts, rest, rs, rfl, hdef, hconflict⟩)
    · obtain ⟨ts, rest, rs, rfl, hdef, -⟩ | ⟨cause', vars', hflaw', hread⟩ | ⟨-, -, -, hno⟩ :=
        read_outcome vars s
      · exact absurd hdef hflaw.not_derives
      · exact ⟨vars', by rw [hread, hflaw.unique hflaw']⟩
      · exact absurd hflaw (hno cause)
    · obtain ⟨vars', -, -, herror⟩ := read_of_derives hdef vars rest
      exact ⟨vars', herror cause (ofRecords_eq_error_iff.2 ⟨cause, hconflict, rfl⟩)⟩

/-- A fault is met only in a stream without an end. -/
theorem kind_ne_eof_of_read {fault : Fault} (h : read vars s = .error fault) :
    ∀ t ∈ s, t.kind ≠ .eof := by
  obtain ⟨ts, rest, rs, rfl, hdef, ⟨m, _, hread⟩ | ⟨cause, _, hcause, hread⟩⟩ |
    ⟨cause, _, hflaw, hread⟩ | ⟨_, _, hall, -⟩ := read_outcome vars s
  · cases hread.symm.trans h
  · cases hread.symm.trans h
  · cases hread.symm.trans h
  · exact hall

/-- Reading a definition keeps all numbers of variables, whether it succeeds or not. -/
theorem extends_of_read {result : Except Error (Model × Stream)} {vars' : Vars}
    (h : read vars s = .ok (result, vars')) : vars.Extends vars' := by
  unfold read at h
  split at h
  · cases h
  · cases h
    exact .refl vars
  · split at h
    · cases h
    · cases h
      exact vars.extends_internAll _
    · dsimp only at h
      split at h
      · cases h
      all_goals
        cases h
        exact vars.extends_internAll _

/-- **Definitions are read exactly.**  A stream is accepted, up to `rest`, just if it starts with
the tokens of a definition, the names of its records are all different and every successor is the
name of a record; then the model says what the records say, with the numbers that the variables have
in the table afterwards.  It is refused for its first flaw, if it has one, and otherwise for the
first conflict of its records.  No fault is met in a stream that has its end.  The integers of a
definition are those that a sign or none and digits, leading zeros among them, spell out in a signed
word of 64 bits. -/
theorem definition_read_exactly (vars : Vars) (s : Stream) :
    (∀ m rest vars', read vars s = .ok (.ok (m, rest), vars') ↔
      ∃ ts rs, s = ts ++ rest ∧ DerivesDefinition ts rs ∧ (rs.map Record.name).Nodup ∧
        (∀ r ∈ rs, ∀ p ∈ r.targets, p.1 ∈ rs.map Record.name) ∧
        vars' = vars.internAll (rs.flatMap Record.holding) ∧ m.Describes vars' rs) ∧
    (∀ error, (∃ vars', read vars s = .ok (.error error, vars')) ↔
      (∃ cause, error = .parse cause ∧ FirstFlaw s cause) ∨
      ∃ cause, error = .model cause ∧
        ∃ ts rest rs, s = ts ++ rest ∧ DerivesDefinition ts rs ∧ FirstConflict rs cause) ∧
    (∀ result vars', read vars s = .ok (result, vars') → vars.Extends vars') ∧
    (∀ fault, read vars s = .error fault → ∀ t ∈ s, t.kind ≠ .eof) ∧
    ∀ (t : Token) (i : Int), t.integer = .ok i ↔ Text.Spells t.text i :=
  ⟨fun _ _ _ => read_eq_ok_iff_describes, fun _ => exists_read_eq_error_iff,
    fun _ _ => extends_of_read, fun _ => kind_ne_eof_of_read, fun _ _ => Token.integer_eq_ok_iff⟩

end Model

end TemporalCheck
