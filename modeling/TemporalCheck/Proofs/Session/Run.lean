import TemporalCheck.Proofs.Collection
import TemporalCheck.Proofs.Reading.Definition
import TemporalCheck.Proofs.Session.Item

/-!
# TemporalCheck.Proofs.Session.Run

Whole inputs.  An item takes tokens from the front of a stream and never its end, so what is left
has a next token again; whether it is carried out or refused, the session stays sound
(`exists_step`).  By induction over the items a session works through every input without a fault
(`exists_items`), and so through any number of inputs, whatever errors they end in
(`runs_meet_no_fault`).
-/

namespace TemporalCheck

namespace Stream

variable {u rest : Stream}

/-- The kind of the next token, if there is one. -/
def kind? (u : Stream) : Option Kind := u.head?.map Token.kind

@[simp] theorem kind?_cons (t : Token) (u : Stream) : kind? (t :: u) = some t.kind := rfl

theorem IsInput.ne_nil (hu : u.IsInput) : u ≠ [] := by
  obtain ⟨t, v, rfl⟩ := hu.exists_cons
  exact List.cons_ne_nil t v

/-- Where a stream has its end, reading a definition from it meets no fault. -/
theorem IsInput.exists_readModel (hu : u.IsInput) (vars : Vars) :
    ∃ result vars', Model.read vars u = .ok (result, vars') := by
  cases hread : Model.read vars u with
  | ok p => exact ⟨p.1, p.2, rfl⟩
  | error fault =>
    obtain ⟨t, ht, hk⟩ := hu.exists_eof
    exact absurd hk (Model.kind_ne_eof_of_read hread t ht)

/-- What has been read of a definition has been taken from the input. -/
theorem exists_takes_of_readModel {m : Model} {vars vars' : Vars}
    (h : Model.read vars u = .ok (.ok (m, rest), vars')) : ∃ ts, u.Takes ts rest := by
  obtain ⟨t, ts, rs, ht, rfl, hrs, -, -⟩ := Model.read_eq_ok_iff.1 h
  refine ⟨t :: ts, rfl, by simp, ?_⟩
  rw [List.forall_mem_cons]
  exact ⟨by simp [ht], hrs.kind_ne_eof⟩

end Stream

namespace Session

variable {s s' : Session} {u rest : Stream}

/-! ## Definitions of models -/

/-- A session whose model and variables have just been replaced. -/
def redefined (s : Session) (model : Model) (vars : Vars) : Session :=
  { s with model, context := { s.context.clear with vars }, modelUsed := false }

/-- Report a model that has been read. -/
def reportModel (u : Stream) (m : Model) (rest : Stream) : Action Stream := do
  echo u rest
  say ("Parsed model, " ++ toString m.size ++ " states\n")
  if (← get).options.verbose then
    say m.render
    modify fun σ => { σ with modelUsed := true }
  return rest

/-- A definition that can be read makes a new context for its model. -/
theorem defineModel_of_read {m : Model} {vars : Vars} (s : Session)
    (h : Model.read {} u = .ok (.ok (m, rest), vars)) :
    defineModel u s = reportModel u m rest (s.redefined m vars) := by
  have hread : (liftM (Model.read {} u) : Action _) (s.redefined {} {}) =
      .ok (.ok (.ok (m, rest), vars), s.redefined {} {}) := by
    rw [h]
    rfl
  have hopen : defineModel u s = _ := (bind_eq_of_ok rfl).trans (bind_eq_of_ok rfl)
  exact hopen.trans ((bind_eq_of_ok hread).trans ((bind_eq_of_ok rfl).trans (bind_eq_of_ok rfl)))

/-- A definition that cannot be read leaves no model. -/
theorem defineModel_of_error {error : Error} {vars : Vars} (s : Session)
    (h : Model.read {} u = .ok (.error error, vars)) :
    defineModel u s = .ok (.error error, s.redefined {} vars) := by
  have hread : (liftM (Model.read {} u) : Action _) (s.redefined {} {}) =
      .ok (.ok (.error error, vars), s.redefined {} {}) := by
    rw [h]
    rfl
  have hopen : defineModel u s = _ := (bind_eq_of_ok rfl).trans (bind_eq_of_ok rfl)
  exact hopen.trans ((bind_eq_of_ok hread).trans (bind_eq_of_ok rfl))

/-- A new model can be reported. -/
theorem says_reportModel {E : Error → Prop} {ts : List Token} (hs : s.context.forest.Tidy)
    (htakes : u.Takes ts rest) (m : Model) :
    Says (reportModel u m rest) s E fun r _ _ => r = rest := by
  refine .bind ((says_echo hs htakes).mono fun _ _ σ₁ hσ₁ _ => ?_)
  refine .bind (.say hσ₁.tidy fun σ₂ hσ₂ => .bind (.get hσ₂.tidy ?_))
  split
  · refine .bind (.say hσ₂.tidy fun σ₃ hσ₃ => .returning ?_)
    exact .modify ⟨rfl, rfl, .refl hσ₃.tidy, Iff.rfl⟩ rfl rfl
  · exact .pure hσ₂.tidy rfl

/-- Defining a model forgets everything before.  Where the definition cannot be read there is no
model; otherwise there is the one that was read. -/
theorem defineModel_outcome (s : Session) (hu : u.IsInput) :
    (∃ error vars, Model.read {} u = .ok (.error error, vars) ∧
      defineModel u s = .ok (.error error, s.redefined {} vars)) ∨
    ∃ m rest vars result s', Model.read {} u = .ok (.ok (m, rest), vars) ∧
      defineModel u s = .ok (result, s') ∧ (s.redefined m vars).Follows s' ∧
      (result = .ok rest ∧ (∃ report, s'.output.text = s.output.text ++ report) ∨
        result = .error .output ∧ s.output.room ≠ none) := by
  obtain ⟨result, vars, hread⟩ := hu.exists_readModel {}
  cases result with
  | error error => exact .inl ⟨error, vars, hread, defineModel_of_error s hread⟩
  | ok p =>
    obtain ⟨m, rest⟩ := p
    obtain ⟨ts, htakes⟩ := Stream.exists_takes_of_readModel hread
    have hsays := says_reportModel (s := s.redefined m vars) (E := fun _ => False)
      Forest.tidy_empty htakes m
    obtain ⟨result, s', hresult, hs', hok, herror⟩ := hsays.exists_outcome
    have hdefine := (defineModel_of_read s hread).trans hresult
    refine .inr ⟨m, rest, vars, result, s', hread, hdefine, hs', ?_⟩
    cases result with
    | ok r =>
      obtain ⟨lines, htext, rfl⟩ := hok r rfl
      exact .inl ⟨rfl, transcript lines, htext⟩
    | error error =>
      obtain ⟨rfl, hroom⟩ := (herror error rfl).resolve_left id
      exact .inr ⟨rfl, hroom⟩

/-! ## Items -/

/-- The first token tells what kind of item follows. -/
theorem item_eq (hu : u ≠ []) : item u =
    if u.kind? = some .modelOpen then defineModel u
    else if u.kind? = some .compare then compareFormulas u
    else checkFormula u := by
  obtain ⟨t, v, rfl⟩ := List.exists_cons_of_ne_nil hu
  have hpeek : (liftM (Stream.peek (t :: v)) : Action Token) = pure t := rfl
  rw [item, hpeek, pure_bind]
  split <;> simp_all

/-- What is left of a session when something has been done with it.  Only where the output was
limited can it be full. -/
structure Leaves (s : Session) (isFull : Prop) (s' : Session) : Prop where
  sound : s'.Sound
  room_iff : s'.output.room = none ↔ s.output.room = none
  room_of_isFull : isFull → s.output.room ≠ none

theorem Leaves.refl (hs : s.Sound) : Leaves s False s := ⟨hs, Iff.rfl, nofun⟩

/-- After two stretches of work only an output that was limited at first can be full. -/
theorem Leaves.trans {s'' : Session} {p q : Prop} (h : Leaves s p s') (h' : Leaves s' q s'') :
    Leaves s (p ∨ q) s'' := by
  refine ⟨h'.sound, h'.room_iff.trans h.room_iff, fun hfull => ?_⟩
  obtain hp | hq := hfull
  · exact h.room_of_isFull hp
  · rw [ne_eq, ← h.room_iff]
    exact h'.room_of_isFull hq

theorem Leaves.imp {p q : Prop} (h : Leaves s p s') (hqp : q → p) : Leaves s q s' :=
  { h with room_of_isFull := fun hq => h.room_of_isFull (hqp hq) }

/-- What is left of a session when an item has been carried out or refused.  What was written
before stays, the forest stays whole, and only a definition changes the model. -/
structure Carries (s : Session) (u : Stream) (result : Except Error Stream) (s' : Session) : Prop
    extends Leaves s (result = .error .output) s' where
  whole : s.context.forest.Whole → s'.context.forest.Whole
  exists_takes : ∀ rest, result = .ok rest → ∃ ts, u.Takes ts rest
  exists_report : ∀ rest, result = .ok rest → ∃ report, s'.output.text = s.output.text ++ report
  model_eq : u.kind? ≠ some .modelOpen →
    s'.model = s.model ∧ s.context.vars.Extends s'.context.vars
  exists_read : u.kind? = some .modelOpen → ∀ rest, result = .ok rest → ∃ vars,
    Model.read {} u = .ok (.ok (s'.model, rest), vars) ∧ vars.Extends s'.context.vars

/-- What says its lines goes on as an item should. -/
theorem carries_of_says {x : Action Stream} {E : Error → Prop}
    {Q : Stream → List String → Session → Prop} (hs : s.Sound) (hkind : u.kind? ≠ some .modelOpen)
    (hx : Says x s E Q) (hE : ∀ error, E error → error ≠ .output)
    (hQ : ∀ rest lines s', Q rest lines s' → ∃ ts, u.Takes ts rest) :
    ∃ result s', x s = .ok (result, s') ∧ Carries s u result s' := by
  obtain ⟨result, s', hresult, hs', hok, herror⟩ := hx.exists_outcome
  have hleaves : Leaves s (result = .error .output) s' := by
    refine ⟨hs.of_follows hs', hs'.room_iff, fun h => ?_⟩
    exact ((herror .output h).resolve_left fun he => hE _ he rfl).2
  refine ⟨result, s', hresult, hleaves, fun h => h.of_keeps hs'.context.keeps hs'.tidy,
    fun rest h => ?_, fun rest h => ?_, fun _ => ⟨hs'.model_eq, hs'.context.vars⟩,
    fun h => absurd h hkind⟩
  · obtain ⟨lines, -, hq⟩ := hok rest h
    exact hQ rest lines s' hq
  · obtain ⟨lines, htext, -⟩ := hok rest h
    exact ⟨transcript lines, htext⟩

/-- A definition goes on as an item should: it replaces the model, or leaves none. -/
theorem exists_defineModel (s : Session) (hu : u.IsInput) (hkind : u.kind? = some .modelOpen) :
    ∃ result s', defineModel u s = .ok (result, s') ∧ Carries s u result s' := by
  obtain ⟨error, vars, hread, hdefine⟩ |
    ⟨m, rest, vars, result, s', hread, hdefine, hs', hresult⟩ := defineModel_outcome s hu
  · have hleaves : Leaves s ((.error error : Except Error Stream) = .error .output)
        (s.redefined {} vars) := by
      refine ⟨⟨Forest.tidy_empty, rfl, nofun, nofun⟩, Iff.rfl, fun h => ?_⟩
      cases h
      exact absurd rfl (Model.ne_output_of_read hread)
    exact ⟨_, _, hdefine, hleaves, fun _ => Forest.whole_empty, nofun, nofun,
      fun h => absurd hkind h, nofun⟩
  · have hsound : (s.redefined m vars).Sound :=
      ⟨Forest.tidy_empty, rfl, Model.isTotal_of_read hread, Model.isOver_of_read hread⟩
    have hwhole := Forest.whole_empty.of_keeps hs'.context.keeps hs'.tidy
    obtain ⟨rfl, hreport⟩ | ⟨rfl, hroom⟩ := hresult
    · have hleaves : Leaves s ((.ok rest : Except Error Stream) = .error .output) s' :=
        ⟨hsound.of_follows hs', hs'.room_iff, nofun⟩
      refine ⟨_, s', hdefine, hleaves, fun _ => hwhole, fun rest' h => ?_, fun _ _ => hreport,
        fun h => absurd hkind h, fun _ rest' h => ?_⟩
      · cases h
        exact Stream.exists_takes_of_readModel hread
      · cases h
        rw [hs'.model_eq]
        exact ⟨vars, hread, hs'.context.vars⟩
    · have hleaves : Leaves s ((.error .output : Except Error Stream) = .error .output) s' :=
        ⟨hsound.of_follows hs', hs'.room_iff, fun _ => hroom⟩
      exact ⟨_, s', hdefine, hleaves, fun _ => hwhole, nofun, nofun, fun h => absurd hkind h,
        nofun⟩

/-- Every item from a sound session goes on as it should. -/
theorem exists_item (hs : s.Sound) (hu : u.IsInput) :
    ∃ result s', item u s = .ok (result, s') ∧ Carries s u result s' := by
  rw [item_eq hu.ne_nil]
  split
  · next hkind => exact exists_defineModel s hu hkind
  next hkind =>
  split
  · refine carries_of_says hs hkind (says_compareFormulas hs.tidy hu) (fun error he => ?_)
      fun rest lines s' h => ?_
    · obtain ⟨⟨cause, rfl⟩, -⟩ := he
      nofun
    · obtain ⟨e₁, e₂, line, hread, -⟩ := h
      obtain ⟨t, ts, t', us, htakes, -⟩ := exists_takes_of_readsComparison hread
      exact ⟨_, htakes⟩
  · refine carries_of_says hs hkind (says_checkFormula hs hu) (fun error he => ?_)
      fun rest lines s' h => ?_
    · obtain ⟨failure, -, rfl⟩ := he
      nofun
    · obtain ⟨e, hread, -⟩ := h
      obtain ⟨ts, htakes, -⟩ := Stream.exists_takes_of_readFormula hread
      exact ⟨ts, htakes⟩

/-- Throwing away the formulas of an item. -/
theorem exists_collect (hs : s.Sound) :
    ∃ forest, collect s = .ok (.ok ⟨⟩, { s with context := { s.context with forest } }) ∧
      forest.Whole ∧ forest.pins = [] := by
  obtain ⟨n, forest, hcollect, htidy, hpins, hnode⟩ :=
    Forest.exists_collect_of_unpinned hs.tidy hs.unpinned
  refine ⟨forest, ?_, htidy.whole_of_vacant hnode hpins, hpins⟩
  have hlift : (liftM (s.context.forest.collect []) : Action (Nat × Forest)) s =
      .ok (.ok (n, forest), s) := by
    rw [hcollect]
    rfl
  exact (bind_eq_of_ok rfl).trans ((bind_eq_of_ok hlift).trans rfl)

/-- Carry out an item and throw away its formulas. -/
def step (u : Stream) : Action Stream := do
  let rest ← item u
  collect
  return rest

/-- Items are worked through one by one up to the end mark. -/
theorem items_succ (n : Nat) (hu : u ≠ []) : items (n + 1) u =
    if u.kind? = some .eof then pure ⟨⟩ else step u >>= items n := by
  obtain ⟨t, v, rfl⟩ := List.exists_cons_of_ne_nil hu
  have hpeek : items (n + 1) (t :: v) = (do
      if decide (t.kind = .eof) then return
      let rest ← item (t :: v)
      collect
      items n rest) := rfl
  rw [hpeek]
  simp [step]

/-- Every step from a sound session goes on as it should. -/
theorem exists_step (hs : s.Sound) (hu : u.IsInput) :
    ∃ result s', step u s = .ok (result, s') ∧ Carries s u result s' := by
  obtain ⟨result, s', hitem, hcarries⟩ := exists_item hs hu
  cases result with
  | error error => exact ⟨_, s', bind_eq_of_error hitem, hcarries⟩
  | ok rest =>
    obtain ⟨forest, hcollect, hwhole, hpins⟩ := exists_collect hcarries.sound
    refine ⟨.ok rest, _, (bind_eq_of_ok hitem).trans ((bind_eq_of_ok hcollect).trans rfl), ?_⟩
    exact { hcarries with
      sound := ⟨hwhole.tidy, hpins, hcarries.sound.total, hcarries.sound.isOver⟩
      whole := fun _ => hwhole }

/-! ## Inputs -/

/-- A session works through a stream item by item, until it meets the end or an item that cannot be
carried out. -/
inductive Works : Session → Stream → Except Error Unit → Session → Prop
  | done {s : Session} {u : Stream} (hu : u.IsInput) (hend : u.kind? = some .eof) :
      Works s u (.ok ()) s
  | next {s s' s'' : Session} {u rest : Stream} {ts : List Token} {result : Except Error Unit}
      (hu : u.IsInput) (hmore : u.kind? ≠ some .eof) (hstep : step u s = .ok (.ok rest, s'))
      (htakes : u.Takes ts rest) (h : Works s' rest result s'') : Works s u result s''
  | stop {s s' : Session} {u : Stream} {error : Error} (hu : u.IsInput)
      (hmore : u.kind? ≠ some .eof) (hstep : step u s = .ok (.error error, s')) :
      Works s u (.error error) s'

/-- All items of an input are worked through, by induction on the steps allowed, since each item
takes tokens. -/
theorem exists_items (hs : s.Sound) (hu : u.IsInput) {n : Nat} (hn : u.length ≤ n) :
    ∃ result s', items n u s = .ok (result, s') ∧ Works s u result s' ∧
      Leaves s (result = .error .output) s' := by
  induction n generalizing s u with
  | zero =>
    -- There is always a token left, so the count never runs out before the stream.
    obtain ⟨ts, last, rfl, -⟩ := hu
    simp at hn
  | succ n ih =>
    rw [items_succ n hu.ne_nil]
    by_cases hend : u.kind? = some .eof
    · rw [if_pos hend]
      exact ⟨.ok (), s, rfl, .done hu hend, (Leaves.refl hs).imp nofun⟩
    · rw [if_neg hend]
      obtain ⟨result, s', hstep, hcarries⟩ := exists_step hs hu
      cases result with
      | error error =>
        refine ⟨_, s', bind_eq_of_error hstep, .stop hu hend hstep,
          hcarries.toLeaves.imp fun h => ?_⟩
        cases h
        rfl
      | ok rest =>
        obtain ⟨ts, htakes⟩ := hcarries.exists_takes rest rfl
        have hlt := htakes.length_lt
        obtain ⟨result, s'', hitems, hworks, hleaves⟩ :=
          ih hcarries.sound (htakes.isInput hu) (by omega)
        exact ⟨result, s'', (bind_eq_of_ok hstep).trans hitems, .next hu hend hstep htakes hworks,
          (hcarries.toLeaves.trans hleaves).imp .inr⟩

/-- A session works through a text: item by item, if it can be cut into tokens. -/
inductive WorksThrough (s : Session) (source : String) : Except Error Unit → Session → Prop
  | unread {cause : ParseError} (h : tokenize source = .error (.refused cause)) :
      WorksThrough s source (.error (.parse cause)) s
  | read {tokens : List Token} {result : Except Error Unit} {s' : Session}
      (h : tokenize source = .ok tokens) (hworks : Works s tokens result s') :
      WorksThrough s source result s'

/-- A text that can be cut into tokens runs through their items. -/
theorem run_of_tokenize {source : String} {tokens : List Token} (s : Session)
    (h : tokenize source = .ok tokens) : run s source = items tokens.length tokens s := by
  have hattempt : attempt (liftM (Stream.ofText source)) s = .ok (.ok tokens, s) := by
    rw [attempt, scan_of_ok (Stream.ofText_eq.trans h)]
    rfl
  exact bind_eq_of_ok hattempt

/-- A text that cannot be cut into tokens changes nothing. -/
theorem run_of_tokenize_error {source : String} {cause : ParseError} (s : Session)
    (h : tokenize source = .error (.refused cause)) :
    run s source = .ok (.error (.parse cause), s) := by
  have hattempt : attempt (liftM (Stream.ofText source)) s = .ok (.error (.parse cause), s) := by
    rw [attempt, scan_of_refused (Stream.ofText_eq.trans h)]
    rfl
  exact bind_eq_of_error hattempt

/-- Every text runs to its end or to its first error. -/
theorem exists_run (hs : s.Sound) (source : String) :
    ∃ result s', run s source = .ok (result, s') ∧ WorksThrough s source result s' ∧
      Leaves s (result = .error .output) s' := by
  cases htokens : tokenize source with
  | error stop =>
    obtain ⟨found, place, rfl⟩ := exists_of_tokenize_error htokens
    exact ⟨_, s, run_of_tokenize_error s htokens, .unread htokens, (Leaves.refl hs).imp nofun⟩
  | ok tokens =>
    obtain ⟨result, s', hitems, hworks, hleaves⟩ :=
      exists_items hs (isInput_of_tokenize htokens) (Nat.le_refl tokens.length)
    exact ⟨result, s', (run_of_tokenize s htokens).trans hitems, .read htokens hworks, hleaves⟩

/-- Work through some texts, one after another, whatever errors they end in. -/
def runAll (s : Session) : List String → Except Fault (List (Except Error Unit) × Session)
  | [] => return ([], s)
  | source :: sources => do
    let (result, s) ← run s source
    let (results, s) ← runAll s sources
    return (result :: results, s)

/-- A session works through some texts, one after another. -/
inductive WorksThroughAll : Session → List String → List (Except Error Unit) → Session → Prop
  | nil {s : Session} : WorksThroughAll s [] [] s
  | cons {s s' s'' : Session} {source : String} {sources : List String}
      {result : Except Error Unit} {results : List (Except Error Unit)}
      (h : WorksThrough s source result s') (hs : WorksThroughAll s' sources results s'') :
      WorksThroughAll s (source :: sources) (result :: results) s''

/-- Texts run one after another, each of them from the session that the one before it has left. -/
theorem exists_runAll (hs : s.Sound) (sources : List String) :
    ∃ results s', runAll s sources = .ok (results, s') ∧ WorksThroughAll s sources results s' ∧
      Leaves s (.error .output ∈ results) s' := by
  induction sources generalizing s with
  | nil => exact ⟨[], s, rfl, .nil, (Leaves.refl hs).imp nofun⟩
  | cons source sources ih =>
    obtain ⟨result, s', hrun, hworks, hleaves⟩ := exists_run hs source
    obtain ⟨results, s'', hruns, hall, hrest⟩ := ih hleaves.sound
    refine ⟨result :: results, s'', ?_, .cons hworks hall, (hleaves.trans hrest).imp fun h => ?_⟩
    · rw [runAll, hrun]
      show (runAll s' sources >>= fun p => pure (result :: p.1, p.2)) = _
      rw [hruns]
      rfl
    · exact (List.mem_cons.1 h).imp_left Eq.symm

/-- Closing the output of a session can only fail if the output does. -/
theorem exists_finish (hs : s.Sound) :
    ∃ result s', finish s = .ok (result, s') ∧ Leaves s (result = .error .output) s' := by
  have hsays : Says closing s (fun _ => False) fun _ _ _ => True := by
    refine .bind (.get hs.tidy ?_)
    split
    · exact .say hs.tidy fun _ _ => trivial
    · exact .pure hs.tidy trivial
  obtain ⟨result, s', hresult, hs', -, herror⟩ := hsays.exists_outcome
  refine ⟨result, s', hresult, hs.of_follows hs', hs'.room_iff, fun h => ?_⟩
  exact ((herror .output h).resolve_left id).2

theorem sound_ofOptions (options : SessionOptions) (table : TableStyle) (output : Output) :
    (ofOptions options table output).Sound :=
  ⟨Forest.tidy_empty, rfl, nofun, nofun⟩

/-- **A session meets no fault**, whatever it is asked to show, however tables are drawn and
whatever it is given to read: it works through every text item by item, also after texts that ended
in an error, and it can be ended.  What it needs to go on is there at the end, and where there is no
limit to what can be written, nothing is missing. -/
theorem runs_meet_no_fault (options : SessionOptions) (table : TableStyle) (output : Output)
    (sources : List String) :
    ∃ results s result s',
      runAll (ofOptions options table output) sources = .ok (results, s) ∧
      WorksThroughAll (ofOptions options table output) sources results s ∧ s.Sound ∧
      finish s = .ok (result, s') ∧ s'.Sound ∧
      (output.room = none → .error .output ∉ results ∧ result ≠ .error .output) := by
  obtain ⟨results, s, hruns, hworks, hleaves⟩ :=
    exists_runAll (sound_ofOptions options table output) sources
  obtain ⟨result, s', hfinish, hleaves'⟩ := exists_finish hleaves.sound
  refine ⟨results, s, result, s', hruns, hworks, hleaves.sound, hfinish, hleaves'.sound,
    fun hroom => ⟨fun h => hleaves.room_of_isFull h hroom, fun h => ?_⟩⟩
  exact (hleaves.trans hleaves').room_of_isFull (.inr h) hroom

end Session

end TemporalCheck
