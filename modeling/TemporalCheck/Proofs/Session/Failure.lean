import TemporalCheck.Proofs.Session.Batch

/-!
# TemporalCheck.Proofs.Session.Failure

What a session is like after an input that could not be read.  An item that fails has written
nothing: a formula or a comparison has left nothing behind but the nodes of what could be read of it
(`Stores`) and names the token that it stopped at, and a definition has left no model.  The items
before it have been carried out as if they had been an input of their own (`Works.exists_failing`).
-/

namespace TemporalCheck.Session

variable {s s' s'' : Session} {u v : Stream} {error : Error}

/-! ## Sessions with more stored formulas -/

/-- Two sessions that differ in what is stored only. -/
def Stores (s s' : Session) : Prop :=
  ∃ forest, s' = { s with context := { s.context with forest } }

theorem Stores.refl (s : Session) : s.Stores s := ⟨s.context.forest, rfl⟩

theorem Stores.trans (h : s.Stores s') (h' : s'.Stores s'') : s.Stores s'' := by
  obtain ⟨f, rfl⟩ := h
  obtain ⟨g, rfl⟩ := h'
  exact ⟨g, rfl⟩

/-- The session when a formula or a comparison is begun. -/
def begun (s : Session) : Session := { s with modelUsed := s.model.isDefined }

/-- Reading a formula stores nodes and does nothing else, whether it succeeds or not. -/
theorem attempt_read_cases (hs : s.context.forest.Tidy) (hu : u.IsInput) :
    (∃ failure s', u.readFormula = .error (.refused failure) ∧ s.Stores s' ∧
      attempt (Formula.read u) s = .ok (.error (.parse failure.cause), s')) ∨
    ∃ e f rest s', u.readFormula = .ok (e, rest) ∧ s.Stores s' ∧ s'.context.forest.Tidy ∧
      attempt (Formula.read u) s = .ok (.ok (f, rest), s') := by
  cases hread : u.readFormula with
  | error stop =>
    obtain ⟨failure, rfl⟩ := hu.exists_refused hread
    obtain ⟨forest, -, -, hfails⟩ := Formula.read_of_error hs hread
    refine .inl ⟨failure, { s with context := { s.context with forest } }, rfl, ⟨forest, rfl⟩, ?_⟩
    simp only [attempt, hfails]
    rfl
  | ok p =>
    obtain ⟨e, rest⟩ := p
    obtain ⟨⟨f, rest'⟩, context, hok, rfl, hgiven⟩ := Formula.succeeds_read hs hread
    refine .inr ⟨e, f, rest', { s with context }, rfl, ?_, hgiven.tidy, ?_⟩
    · refine ⟨context.forest, ?_⟩
      rw [← hgiven.context_eq]
    · simp only [attempt, hok]
      rfl

/-! ## Items that fail -/

/-- A formula that cannot be read leaves the model as it is, and what it has stored of itself. -/
theorem checkFormula_of_error (hs : s.context.forest.Tidy) (hu : u.IsInput) {failure : ReadFailure}
    (h : u.readFormula = .error (.refused failure)) :
    ∃ s', checkFormula u s = .ok (.error (.parse failure.cause), s') ∧ s.begun.Stores s' := by
  obtain ⟨_, s', hfails, hstores, hattempt⟩ | ⟨e, f, rest, s', hread, -⟩ :=
    attempt_read_cases (s := s.begun) hs hu
  · rw [h] at hfails
    cases hfails
    exact ⟨s', (bind_eq_of_ok rfl).trans (bind_eq_of_error hattempt), hstores⟩
  · rw [h] at hread
    cases hread

/-- An expected token is there, or the error says what stops the reader. -/
theorem expect_cases (kind : Kind) (hkind : kind ≠ .eof) (hu : u.IsInput) (s : Session) :
    (∃ cause, expect u kind s = .ok (.error (.parse cause), s) ∧ u.StopsWith cause) ∨
      ∃ t rest, t.kind = kind ∧ u = t :: rest ∧ expect u kind s = .ok (.ok rest, s) := by
  unfold expect
  cases hexpect : u.expect kind with
  | error stop =>
    obtain ⟨rfl, -⟩ | ⟨t, v, rfl, -, rfl⟩ := Stream.expect_of_error hexpect
    · exact absurd rfl hu.ne_nil
    · exact .inl ⟨_, rfl, Stream.stopsWith_cons t v _⟩
  | ok p =>
    obtain ⟨ht, hu⟩ := (Stream.expect_eq_ok_iff hkind).1 hexpect
    exact .inr ⟨p.1, p.2, ht, hu, rfl⟩

/-- A comparison that cannot be read fails at the first of its four parts that is not there. -/
theorem compareFormulas_of_error (hs : s.context.forest.Tidy) (hu : u.IsInput)
    (h : ∀ e₁ e₂ rest, ¬ ReadsComparison u e₁ e₂ rest) :
    ∃ cause s', compareFormulas u s = .ok (.error (.parse cause), s') ∧ s.begun.Stores s' ∧
      u.StopsWith cause := by
  have hopen : compareFormulas u s = _ := bind_eq_of_ok rfl
  obtain ⟨cause, hcompare, hstops⟩ | ⟨t, s₁, ht, rfl, hcompare⟩ :=
    expect_cases .compare nofun hu s.begun
  · exact ⟨cause, s.begun, hopen.trans (bind_eq_of_error hcompare), .refl _, hstops⟩
  have hopen₁ := hopen.trans (bind_eq_of_ok hcompare)
  have hmark : t.kind ≠ .eof := by simp [ht]
  have hu₁ : Stream.IsInput s₁ := hu.of_cons hmark
  obtain ⟨failure, σ₁, h₁, hσ₁, hfirst⟩ | ⟨e₁, f, s₂, σ₁, h₁, hσ₁, htidy, hfirst⟩ :=
    attempt_read_cases (s := s.begun) hs hu₁
  · exact ⟨failure.cause, σ₁, hopen₁.trans (bind_eq_of_error hfirst), hσ₁,
      (Stream.haltsWith_of_readFormula h₁).cons hmark⟩
  have hopen₂ := hopen₁.trans (bind_eq_of_ok hfirst)
  obtain ⟨ts₁, htakes₁, -⟩ := Stream.exists_takes_of_readFormula h₁
  have hu₂ := htakes₁.isInput hu₁
  obtain ⟨cause, hagainst, hstops⟩ | ⟨t', s₃, ht', rfl, hagainst⟩ :=
    expect_cases .against nofun hu₂ σ₁
  · refine ⟨cause, σ₁, hopen₂.trans (bind_eq_of_error hagainst), hσ₁, ?_⟩
    rw [htakes₁.eq_append]
    have hhalts : s₂.HaltsWith (.refused cause) := hstops
    exact (hhalts.append htakes₁.kind_ne_eof).cons hmark
  have hopen₃ := hopen₂.trans (bind_eq_of_ok hagainst)
  have hcolon : t'.kind ≠ .eof := by simp [ht']
  have hu₃ : Stream.IsInput s₃ := hu₂.of_cons hcolon
  obtain ⟨failure, σ₂, h₂, hσ₂, hsecond⟩ | ⟨e₂, g, rest, σ₂, h₂, -⟩ := attempt_read_cases htidy hu₃
  · refine ⟨failure.cause, σ₂, hopen₃.trans (bind_eq_of_error hsecond), hσ₁.trans hσ₂, ?_⟩
    rw [htakes₁.eq_append]
    exact (((Stream.haltsWith_of_readFormula h₂).cons hcolon).append htakes₁.kind_ne_eof).cons hmark
  · exact absurd (.intro ht h₁ ht' h₂) (h e₁ e₂ rest)

/-- An item that fails and is no definition leaves nothing but stored formulas, and has stopped at a
token that was not expected. -/
theorem stores_and_stops_of_item (hs : s.Sound) (hu : u.IsInput)
    (hkind : u.kind? ≠ some .modelOpen) (herror : error ≠ .output)
    (h : item u s = .ok (.error error, s')) :
    s.begun.Stores s' ∧ ∃ cause, error = .parse cause ∧ u.StopsWith cause := by
  rw [item_eq hu.ne_nil, if_neg hkind] at h
  split at h
  · obtain ⟨_, _, hitem, -, -, hE⟩ := (says_compareFormulas hs.tidy hu).exists_outcome
    cases h.symm.trans hitem
    obtain ⟨-, hnone⟩ := (hE error rfl).resolve_right fun hfull => herror hfull.1
    obtain ⟨cause, s'', hfails, hstores, hstops⟩ := compareFormulas_of_error hs.tidy hu hnone
    cases h.symm.trans hfails
    exact ⟨hstores, cause, rfl, hstops⟩
  · obtain ⟨_, _, hitem, -, -, hE⟩ := (says_checkFormula hs hu).exists_outcome
    cases h.symm.trans hitem
    obtain ⟨failure, hread, -⟩ := (hE error rfl).resolve_right fun hfull => herror hfull.1
    obtain ⟨s'', hfails, hstores⟩ := checkFormula_of_error hs.tidy hu hread
    cases h.symm.trans hfails
    exact ⟨hstores, failure.cause, rfl, Stream.haltsWith_of_readFormula hread⟩

theorem stores_of_item (hs : s.Sound) (hu : u.IsInput) (hkind : u.kind? ≠ some .modelOpen)
    (herror : error ≠ .output) (h : item u s = .ok (.error error, s')) : s.begun.Stores s' :=
  (stores_and_stops_of_item hs hu hkind herror h).1

/-- A definition that fails leaves a session without a model. -/
theorem redefined_of_item (hu : u.IsInput) (hkind : u.kind? = some .modelOpen)
    (herror : error ≠ .output) (h : item u s = .ok (.error error, s')) :
    ∃ vars, Model.read {} u = .ok (.error error, vars) ∧ s' = s.redefined {} vars := by
  rw [item_eq hu.ne_nil, if_pos hkind] at h
  obtain ⟨_, vars, hread, hdefine⟩ | ⟨m, rest, vars, result, _, -, hdefine, -, hresult⟩ :=
    defineModel_outcome s hu
  · cases h.symm.trans hdefine
    exact ⟨vars, hread, rfl⟩
  · cases h.symm.trans hdefine
    obtain ⟨hok, -⟩ | ⟨hfull, -⟩ := hresult
    · cases hok
    · cases hfull
      exact absurd rfl herror

/-- An error of a step is the error of its item. -/
theorem item_of_step (hs : s.Sound) (hu : u.IsInput) (h : step u s = .ok (.error error, s')) :
    item u s = .ok (.error error, s') := by
  obtain ⟨result, s₁, hitem, hcarries⟩ := exists_item hs hu
  cases result with
  | error cause =>
    cases (bind_eq_of_error hitem).symm.trans h
    exact hitem
  | ok rest =>
    obtain ⟨forest, hcollect, -⟩ := exists_collect hcarries.sound
    cases ((bind_eq_of_ok hitem).trans (bind_eq_of_ok hcollect)).symm.trans h

/-! ## Inputs that fail -/

/-- The items before the one that fails are carried out as if nothing stood behind them. -/
theorem Works.exists_failing {d : Option (List String)} {result : Except Error Unit}
    (h : Works s v result s') (hresult : result = .error error) (hs : Reached s d) :
    ∃ ts u s₁ d₁, v = ts ++ u ∧ u.IsInput ∧ u.kind? ≠ some .eof ∧ Reached s₁ d₁ ∧
      step u s₁ = .ok (.error error, s') ∧
      ∀ last n, last.kind = .eof → ts.length ≤ n → items n (ts ++ [last]) s = .ok (.ok (), s₁) := by
  induction h generalizing d with
  | done => cases hresult
  | @stop s s' u _ hu hmore hstep =>
    cases hresult
    refine ⟨[], u, s, d, rfl, hu, hmore, hs, hstep, fun last n hlast _ => ?_⟩
    exact items_of_eof hlast [] n s
  | @next s s₂ s' v rest us result hu hmore hstep htakes h ih =>
    obtain ⟨ts, u, s₁, d₁, rfl, hu₁, hend, hs₁, hfails, hitems⟩ := ih hresult (hs.step hu hstep)
    refine ⟨us ++ ts, u, s₁, d₁, ?_, hu₁, hend, hs₁, hfails, fun last n hlast hn => ?_⟩
    · rw [htakes.eq_append, List.append_assoc]
    have hstop := Stream.stopsLayer_of_eof hlast []
    have hstep' : step (us ++ (ts ++ [last])) s = .ok (.ok (ts ++ [last]), s₂) :=
      step_of_unplaced hs.sound hu hstep htakes rfl (Stream.stops_append rfl hstop)
    have htakes' := htakes.of_unplaced rfl (ts ++ [last])
    have hpos := List.length_pos_of_ne_nil htakes.ne_nil
    rw [List.length_append] at hn
    cases n with
    | zero => omega
    | succ n =>
      obtain ⟨hne, hmore'⟩ := htakes'.kind?_ne_eof
      rw [List.append_assoc, items_succ n hne, if_neg hmore', bind_eq_of_ok hstep']
      exact hitems last n hlast (by omega)

/-- **Items that cannot be read leave a session clean.**  Let a session that has been reached in any
way work through a text that ends in an error of reading.  If the text cannot be cut into tokens,
the session is the one before.  Otherwise the tokens before the failing item have been worked
through as an input of their own, and the failing item has written nothing.  If it is a formula or a
comparison, it has changed nothing but what is stored, and noted that there is a model to use; if it
is a definition, there is no model and everything before is forgotten.  In any case the forest is
whole and nothing is pinned. -/
theorem failed_item_leaves_session_clean {d : Option (List String)} {source : String}
    (hs : Reached s d) (hrun : run s source = .ok (.error error, s'))
    (herror : (∃ cause, error = .parse cause) ∨ ∃ cause, error = .model cause) :
    s'.context.forest.Whole ∧ s'.context.forest.pins = [] ∧
    (∀ stop, tokenize source = .error stop →
      ∃ cause, stop = .refused cause ∧ error = .parse cause ∧ s' = s) ∧
    ∀ tokens, tokenize source = .ok tokens →
      ∃ (ts : List Token) (t : Token) (us : List Token) (s₁ : Session),
        tokens = ts ++ t :: us ∧ t.kind ≠ .eof ∧
        (∀ last : Token, last.kind = .eof →
          items (ts ++ [last]).length (ts ++ [last]) s = .ok (.ok (), s₁)) ∧
        item (t :: us) s₁ = .ok (.error error, s') ∧ s'.output = s₁.output ∧
        (t.kind ≠ .modelOpen → ∃ forest, s' = { s₁ with
          modelUsed := s₁.model.isDefined
          context := { s₁.context with forest } }) ∧
        (t.kind = .modelOpen → s'.model = {} ∧ s'.model.isDefined = false ∧ ∃ vars,
          Model.read {} (t :: us) = .ok (.error error, vars) ∧ s' = s₁.redefined {} vars) := by
  have houtput : error ≠ .output := by
    obtain ⟨cause, rfl⟩ | ⟨cause, rfl⟩ := herror <;> nofun
  obtain ⟨_, _, hrun', hworks, hleaves⟩ := exists_run hs.sound source
  cases hrun.symm.trans hrun'
  refine ⟨?_, hleaves.sound.unpinned, fun stop hunread => ?_, fun tokens hread => ?_⟩
  · cases hworks with
    | unread => exact hs.whole
    | read _ hworks =>
      obtain ⟨d', hs'⟩ := Reached.exists_of_works hworks hs
      exact hs'.whole
  · cases hworks with
    | unread h =>
      cases hunread.symm.trans h
      exact ⟨_, rfl, rfl, rfl⟩
    | read h => cases hunread.symm.trans h
  · cases hworks with
    | unread h => cases hread.symm.trans h
    | read h hworks =>
      cases hread.symm.trans h
      obtain ⟨ts, u, s₁, d₁, rfl, hu, hend, hs₁, hstep, hitems⟩ := hworks.exists_failing rfl hs
      have hitem := item_of_step hs₁.sound hu hstep
      obtain ⟨t, us, rfl⟩ := hu.exists_cons
      have hstores : t.kind ≠ .modelOpen → s₁.begun.Stores s' := fun hkind =>
        stores_of_item hs₁.sound hu (by simpa using hkind) houtput hitem
      have hredefined : t.kind = .modelOpen → ∃ vars,
          Model.read {} (t :: us) = .ok (.error error, vars) ∧ s' = s₁.redefined {} vars :=
        fun hkind => redefined_of_item hu (by simpa using hkind) houtput hitem
      refine ⟨ts, t, us, s₁, rfl, by simpa using hend,
        fun last hlast => hitems last _ hlast (by simp), hitem, ?_, hstores, fun hkind => ?_⟩
      · by_cases hkind : t.kind = .modelOpen
        · obtain ⟨vars, -, rfl⟩ := hredefined hkind
          rfl
        · obtain ⟨forest, rfl⟩ := hstores hkind
          rfl
      · obtain ⟨vars, hvars, rfl⟩ := hredefined hkind
        exact ⟨rfl, rfl, vars, hvars, rfl⟩

/-- Why a text could not be worked through, and the session afterwards. -/
def refusal? (s : Session) (source : String) : Option (ParseError × Session) :=
  match run s source with
  | .ok (.error (.parse cause), s') => some (cause, s')
  | _ => none

/-- An evaluated refusal is the error of a run. -/
theorem run_of_refusal? {source : String} {cause : ParseError}
    (h : refusal? s source = some (cause, s')) :
    run s source = .ok (.error (.parse cause), s') := by
  unfold refusal? at h
  split at h
  · next hrun =>
    cases h
    exact hrun
  · cases h

/-- A formula that is checked, and a comparison whose second formula breaks off. -/
theorem failed_item_leaves_session_clean_broken :
    let source := "F p ? p U q : q &"
    ∃ cause s', run busy.1 source = .ok (.error (.parse cause), s') ∧
      s'.context.forest.Whole ∧ s'.context.forest.pins = [] ∧
      (∀ stop, tokenize source = .error stop →
        ∃ cause', stop = .refused cause' ∧ Error.parse cause = .parse cause' ∧ s' = busy.1) ∧
      ∀ tokens, tokenize source = .ok tokens →
        ∃ (ts : List Token) (t : Token) (us : List Token) (s₁ : Session),
          tokens = ts ++ t :: us ∧ t.kind ≠ .eof ∧
          (∀ last : Token, last.kind = .eof →
            items (ts ++ [last]).length (ts ++ [last]) busy.1 = .ok (.ok (), s₁)) ∧
          item (t :: us) s₁ = .ok (.error (.parse cause), s') ∧ s'.output = s₁.output ∧
          (t.kind ≠ .modelOpen → ∃ forest, s' = { s₁ with
            modelUsed := s₁.model.isDefined
            context := { s₁.context with forest } }) ∧
          (t.kind = .modelOpen → s'.model = {} ∧ s'.model.isDefined = false ∧ ∃ vars,
            Model.read {} (t :: us) = .ok (.error (.parse cause), vars) ∧
              s' = s₁.redefined {} vars) := by
  intro source
  have hbusy : Reached busy.1 busy.2 := reached_foldl_follow (.start _ _ _) _
  have hrefused : (refusal? busy.1 source).isSome = true := by decide +kernel
  obtain ⟨⟨cause, s'⟩, hrefusal⟩ := Option.isSome_iff_exists.1 hrefused
  have hrun := run_of_refusal? hrefusal
  exact ⟨cause, s', hrun, failed_item_leaves_session_clean hbusy hrun (.inl ⟨cause, rfl⟩)⟩

end TemporalCheck.Session
