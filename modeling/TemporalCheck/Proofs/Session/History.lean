import TemporalCheck.Proofs.Session.Answer
import TemporalCheck.Proofs.Session.Run

/-!
# TemporalCheck.Proofs.Session.History

What has been done in a session, and what it shows, makes no difference to its answers.  A session
that has been reached by any number of items, and so by any texts (`exists_reached_of_runAll`),
keeps the model of the last definition, with every variable under the number that the definition
gave it (`Reached.exists_read`), and the model depends on the texts of the definition only.  So in
two sessions with the same definition the same formula is given the same answer; for comparisons
there need not be a model at all (`answers_independent_of_history`).
-/

namespace TemporalCheck

/-! ## Questions in a stream -/

namespace Stream

variable {u u₁ u₂ rest rest₁ rest₂ : Stream} {ts ts₁ ts₂ : List Token} {e e₁ e₂ : Expr}
  {q q₁ q₂ : Session.Question}

/-- A question at the front of a stream and the tokens it is written with. -/
inductive Asks (u : Stream) (ts : List Token) : Session.Question → Stream → Prop
  | formula {e : Expr} {rest : Stream} (htakes : u.Takes ts rest)
      (h : u.readFormula = .ok (e, rest)) : Asks u ts (.formula e) rest
  | comparison {e₁ e₂ : Expr} {rest : Stream} (htakes : u.Takes ts rest)
      (h : Session.ReadsComparison u e₁ e₂ rest) : Asks u ts (.comparison e₁ e₂) rest

/-- A question in tokens of its own. -/
inductive Writes : List Token → Session.Question → Prop
  | formula {ts : List Token} {e : Expr} (h : Derives .implication ts e) : Writes ts (.formula e)
  | comparison {t t' : Token} {ts us : List Token} {e₁ e₂ : Expr} (ht : t.kind = .compare)
      (h₁ : Derives .implication ts e₁) (ht' : t'.kind = .against)
      (h₂ : Derives .implication us e₂) : Writes (t :: (ts ++ t' :: us)) (.comparison e₁ e₂)

theorem Asks.takes (h : u.Asks ts q rest) : u.Takes ts rest := by
  cases h with
  | formula htakes | comparison htakes => exact htakes

theorem Takes.eq {us : List Token} (h : u.Takes ts rest) (h' : u.Takes us rest) : ts = us :=
  List.append_cancel_right (h.eq_append.symm.trans h'.eq_append)

/-- What asks a question writes it. -/
theorem Asks.writes (h : u.Asks ts q rest) : Writes ts q := by
  cases h with
  | formula htakes h =>
    obtain ⟨us, htakes', hd⟩ := exists_takes_of_readFormula h
    rw [htakes.eq htakes']
    exact .formula hd
  | comparison htakes h =>
    obtain ⟨t, us, t', vs, htakes', ht, h₁, ht', h₂⟩ := Session.exists_takes_of_readsComparison h
    rw [htakes.eq htakes']
    exact .comparison ht h₁ ht' h₂

/-- Tokens in other places write the same question. -/
theorem Writes.of_unplaced {us : List Token} (h : Writes ts q)
    (hus : us.map Token.unplaced = ts.map Token.unplaced) : Writes us q := by
  cases h with
  | formula h => exact .formula (h.of_unplaced hus)
  | comparison ht h₁ ht' h₂ =>
    obtain ⟨v, vs, rfl, hv, hvs⟩ := List.map_eq_cons_iff.1 hus
    obtain ⟨ts', t', us', rfl, hts', hkind', hus'⟩ := exists_of_map_unplaced hvs
    exact .comparison ((Token.kind_eq_of_unplaced hv).trans ht) (h₁.of_unplaced hts')
      ((Token.kind_eq_of_unplaced hkind').trans ht') (h₂.of_unplaced hus')

/-- Tokens derive one formula only. -/
theorem derives_unique (h₁ : Derives .implication ts e₁) (h₂ : Derives .implication ts e₂) :
    e₁ = e₂ := by
  have hstop : Layer.implication.Stops (Token.finish {}).kind := ⟨rfl, rfl, nofun⟩
  have hread₁ : readFormula (ts ++ [.finish {}]) = .ok (e₁, [.finish {}]) :=
    readFormula_of_derives h₁ hstop
  rw [readFormula_of_derives h₂ hstop] at hread₁
  cases hread₁
  rfl

theorem readFormula_of_derives_against {t : Token} (h : Derives .implication ts e)
    (ht : t.kind = .against) : readFormula (ts ++ t :: rest) = .ok (e, t :: rest) := by
  refine readFormula_of_derives h ?_
  rw [ht]
  exact ⟨rfl, rfl, nofun⟩

/-- No formula starts like a comparison. -/
theorem kind_ne_compare_of_derives {t : Token} (h : Derives .implication (t :: ts) e) :
    t.kind ≠ .compare := by
  obtain ⟨_, _, heq, ht⟩ := h.exists_start nofun
  cases heq
  exact (formulaStarts_disjoint t.kind ht).1

/-- Tokens write one question only. -/
theorem Writes.unique (h₁ : Writes ts q₁) (h₂ : Writes ts q₂) : q₁ = q₂ := by
  cases h₁ with
  | formula hd =>
    cases h₂ with
    | formula hd' => rw [derives_unique hd hd']
    | comparison ht => exact absurd ht (kind_ne_compare_of_derives hd)
  | @comparison t t' vs us e₁ e₂ ht hd₁ ht' hd₂ =>
    generalize hts : t :: (vs ++ t' :: us) = ts at h₂
    cases h₂ with
    | formula hd' =>
      subst hts
      exact absurd ht (kind_ne_compare_of_derives hd')
    | comparison _ hd₁' hu' hd₂' =>
      -- The first formula ends where the reader finds its end.
      have hread : readFormula (vs ++ t' :: us) = .ok (e₁, t' :: us) :=
        readFormula_of_derives_against hd₁ ht'
      rw [(List.cons.inj hts).2, readFormula_of_derives_against hd₁' hu'] at hread
      cases hread
      rw [derives_unique hd₂ hd₂']

theorem Takes.isLexed (h : u.Takes ts rest) (hu : u.IsInput) : ∀ t ∈ ts, t.IsLexed := by
  intro t ht
  refine hu.isLexed t ?_ (h.kind_ne_eof t ht)
  rw [h.eq_append]
  exact List.mem_append_left rest ht

/-- The same texts ask the same question, wherever they stand and whatever follows. -/
theorem Asks.unique (hu₁ : u₁.IsInput) (hu₂ : u₂.IsInput) (h₁ : u₁.Asks ts₁ q₁ rest₁)
    (h₂ : u₂.Asks ts₂ q₂ rest₂) (htexts : ts₁.map Token.text = ts₂.map Token.text) : q₁ = q₂ := by
  have hunplaced := map_unplaced_of_texts (h₁.takes.isLexed hu₁) (h₂.takes.isLexed hu₂) htexts
  exact h₁.writes.unique (h₂.writes.of_unplaced hunplaced)

end Stream

namespace Session

variable {s s' s₁ s₂ : Session} {u rest : Stream} {texts : List String} {d : Option (List String)}

/-! ## Sessions that can be reached -/

/-- The texts of the definition that counts after an item, if there is one.  A definition that
cannot be read counts as none. -/
def definitionAfter (d : Option (List String)) (u : Stream) (result : Except Error Stream) :
    Option (List String) :=
  if u.kind? = some .modelOpen then
    match result with
    | .ok rest => some ((u.take (u.length - rest.length)).map Token.text)
    | .error _ => none
  else d

/-- The sessions that come about from a new one, with the texts of the last definition. -/
inductive Reached : Session → Option (List String) → Prop
  | start (options : SessionOptions) (table : TableStyle) (output : Output) :
      Reached (ofOptions options table output) none
  | step {s s' : Session} {d : Option (List String)} {u : Stream} {result : Except Error Stream}
      (h : Reached s d) (hu : u.IsInput) (hstep : step u s = .ok (result, s')) :
      Reached s' (definitionAfter d u result)

/-- A step from a sound session goes on as it should. -/
theorem carries_of_step {result : Except Error Stream} (hs : s.Sound) (hu : u.IsInput)
    (h : step u s = .ok (result, s')) : Carries s u result s' := by
  obtain ⟨_, _, hstep, hcarries⟩ := exists_step hs hu
  rw [h] at hstep
  cases hstep
  exact hcarries

namespace Reached

theorem sound (h : Reached s d) : s.Sound := by
  induction h with
  | start options table output => exact sound_ofOptions options table output
  | step _ hu hstep ih => exact (carries_of_step ih hu hstep).sound

theorem whole (h : Reached s d) : s.context.forest.Whole := by
  induction h with
  | start => exact Forest.whole_empty
  | step h hu hstep ih => exact (carries_of_step h.sound hu hstep).whole ih

/-- The model is the one that was read from the last definition, and its variables have kept their
numbers. -/
theorem exists_read (h : Reached s d) (hd : d = some texts) :
    ∃ ts rest vars, (∀ t ∈ ts, t.IsLexed) ∧ ts.map Token.text = texts ∧
      Model.read {} (ts ++ rest) = .ok (.ok (s.model, rest), vars) ∧
      vars.Extends s.context.vars := by
  induction h with
  | start => cases hd
  | @step s s' d u result h hu hstep ih =>
    have hcarries := carries_of_step h.sound hu hstep
    by_cases hkind : u.kind? = some .modelOpen
    · unfold definitionAfter at hd
      rw [if_pos hkind] at hd
      cases result with
      | error => cases hd
      | ok rest =>
        obtain ⟨ts, htakes⟩ := hcarries.exists_takes rest rfl
        obtain ⟨vars, hread, hvars⟩ := hcarries.exists_read hkind rest rfl
        have hts : u.take (u.length - rest.length) = ts := by simp [htakes.eq_append]
        refine ⟨ts, rest, vars, htakes.isLexed hu, ?_, ?_, hvars⟩
        · rw [← hts]
          exact Option.some.inj hd
        · rw [← htakes.eq_append]
          exact hread
    · unfold definitionAfter at hd
      rw [if_neg hkind] at hd
      obtain ⟨ts, rest, vars, hts, htexts, hread, hvars⟩ := ih hd
      obtain ⟨hmodel, hmore⟩ := hcarries.model_eq hkind
      rw [hmodel]
      exact ⟨ts, rest, vars, hts, htexts, hread, hvars.trans hmore⟩

/-- The same texts define the same model. -/
theorem model_eq (h₁ : Reached s₁ (some texts)) (h₂ : Reached s₂ (some texts)) :
    s₁.model = s₂.model ∧ ∃ vars, s₁.model.IsOver vars ∧ vars.Extends s₁.context.vars ∧
      vars.Extends s₂.context.vars := by
  obtain ⟨ts₁, rest₁, vars₁, hts₁, htexts₁, hread₁, hvars₁⟩ := h₁.exists_read rfl
  obtain ⟨ts₂, rest₂, vars₂, hts₂, htexts₂, hread₂, hvars₂⟩ := h₂.exists_read rfl
  have hunplaced := map_unplaced_of_texts hts₂ hts₁ (htexts₂.trans htexts₁.symm)
  -- The second definition is read like the first, and both were read into an empty table.
  have hread : Model.read {} (ts₂ ++ rest₂) = .ok (.ok (s₁.model, rest₂), vars₁) :=
    Model.read_of_unplaced hread₁ hunplaced
  rw [hread₂] at hread
  obtain ⟨hmodel, rfl⟩ : s₂.model = s₁.model ∧ vars₂ = vars₁ := by simpa using hread
  exact ⟨hmodel.symm, vars₂, Model.isOver_of_read hread₁, hvars₁, hvars₂⟩

/-- Items lead from a reached session to a reached one. -/
theorem exists_of_works {result : Except Error Unit} (h : Works s u result s') (hs : Reached s d) :
    ∃ d', Reached s' d' := by
  induction h generalizing d with
  | done => exact ⟨d, hs⟩
  | next hu _ hstep _ _ ih => exact ih (hs.step hu hstep)
  | stop hu _ hstep => exact ⟨_, hs.step hu hstep⟩

/-- Texts lead from a reached session to a reached one. -/
theorem exists_of_worksThroughAll {sources : List String} {results : List (Except Error Unit)}
    (h : WorksThroughAll s sources results s') (hs : Reached s d) : ∃ d', Reached s' d' := by
  induction h generalizing d with
  | nil => exact ⟨d, hs⟩
  | cons h _ ih =>
    cases h with
    | unread => exact ih hs
    | read _ hworks =>
      obtain ⟨d', hs'⟩ := exists_of_works hworks hs
      exact ih hs'

end Reached

/-- Every session that has worked through some texts has been reached. -/
theorem exists_reached_of_runAll {options : SessionOptions} {table : TableStyle} {output : Output}
    {sources : List String} {results : List (Except Error Unit)}
    (h : runAll (ofOptions options table output) sources = .ok (results, s)) :
    ∃ d, Reached s d := by
  obtain ⟨_, _, hruns, hworks, -⟩ := exists_runAll (sound_ofOptions options table output) sources
  rw [h] at hruns
  cases hruns
  exact Reached.exists_of_worksThroughAll hworks (.start options table output)

/-! ## Answers -/

/-- A session carries out the item at the front of a stream, up to `rest`, and its report tells just
one answer; or the output is full. -/
def Answers (s : Session) (u rest : Stream) (a : Answer) : Prop :=
  ∃ result s', step u s = .ok (result, s') ∧
    (result = .error .output ∧ s.output.room ≠ none ∨
      result = .ok rest ∧ ∃ report, s'.output.text = s.output.text ++ report ∧
        ∀ b : Answer, b.IsToldBy report ↔ b = a)

/-- An item that can meet no error and closes with the answer answers. -/
theorem answers_of_says {E : Error → Prop} {Q : Stream → List String → Session → Prop} {a : Answer}
    (hs : s.Sound) (h : Says (item u) s E Q) (hE : ∀ error, ¬ E error)
    (hQ : ∀ r lines s', s.Follows s' → Q r lines s' →
      r = rest ∧ ∃ line, Closes lines line ∧ a.IsToldIn line) : s.Answers u rest a := by
  obtain ⟨r, lines, s', hitem, hs', htext, hq⟩ | ⟨error, s', hitem, -, herror⟩ := h
  · obtain ⟨rfl, line, ⟨before, hclose⟩, htold⟩ := hQ r lines s' hs' hq
    obtain ⟨forest, hcollect, -⟩ := exists_collect (hs.of_follows hs')
    refine ⟨_, _, (bind_eq_of_ok hitem).trans ((bind_eq_of_ok hcollect).trans rfl),
      .inr ⟨rfl, transcript lines, htext, fun b => ⟨fun hb => ?_, ?_⟩⟩⟩
    · exact Answer.isToldBy_unique hb ⟨before, line, hclose, htold⟩
    · rintro rfl
      exact ⟨before, line, hclose, htold⟩
  · obtain ⟨rfl, hroom⟩ := herror.resolve_left (hE error)
    exact ⟨_, s', bind_eq_of_error hitem, .inl ⟨rfl, hroom⟩⟩

/-- An item that starts with a formula checks it. -/
theorem item_of_readFormula {e : Expr} (h : u.readFormula = .ok (e, rest)) :
    item u = checkFormula u := by
  obtain ⟨us, htakes, hd⟩ := Stream.exists_takes_of_readFormula h
  obtain ⟨t, v, heq, hcompare, hopen⟩ := Stream.exists_head_of_derives hd nofun rest
  rw [htakes.eq_append, heq, item_eq (List.cons_ne_nil t v), if_neg (by simpa using hopen),
    if_neg (by simpa using hcompare)]

theorem item_of_readsComparison {e₁ e₂ : Expr} (h : ReadsComparison u e₁ e₂ rest) :
    item u = compareFormulas u := by
  obtain ⟨ht, -, -, -⟩ := h
  rw [item_eq (List.cons_ne_nil _ _), if_neg (by simp [ht]), if_pos (by simp [ht])]

/-- The check of a formula answers what it deserves. -/
theorem answers_formula {e : Expr} {a : Answer} (hs : s.Sound) (hu : u.IsInput)
    (hread : u.readFormula = .ok (e, rest)) (hmodel : s.model.isDefined = true)
    (ha : Deserves s.model s.context.vars (.formula e) a) : s.Answers u rest a := by
  have hsays := says_checkFormula hs hu
  rw [← item_of_readFormula hread] at hsays
  refine answers_of_says hs hsays ?_ fun r lines s' hs' h => ?_
  · rintro error ⟨failure, hfails, -⟩
    rw [hread] at hfails
    cases hfails
  · obtain ⟨e', hread', hreport⟩ := h
    rw [hread] at hread'
    cases hread'
    obtain ⟨line, hcloses, hline⟩ := hreport hmodel
    obtain ⟨b, hb, htold⟩ := hline.exists_answer
    -- The check may have numbered further variables.
    rw [hb.unique (ha.mono hs.isOver hs'.context.vars)] at htold
    exact ⟨rfl, line, hcloses, htold⟩

/-- A comparison answers what it deserves. -/
theorem answers_comparison {e₁ e₂ : Expr} {a : Answer} (hs : s.Sound) (hu : u.IsInput)
    (hread : ReadsComparison u e₁ e₂ rest)
    (ha : Deserves s.model s.context.vars (.comparison e₁ e₂) a) : s.Answers u rest a := by
  have hsays := says_compareFormulas hs.tidy hu
  rw [← item_of_readsComparison hread] at hsays
  refine answers_of_says hs hsays ?_ fun r lines s' hs' h => ?_
  · rintro error ⟨-, hnone⟩
    exact hnone e₁ e₂ rest hread
  · obtain ⟨e₁', e₂', line, hread', hcloses, hline⟩ := h
    obtain ⟨rfl, rfl, rfl⟩ := hread.unique hread'
    obtain ⟨b, hb, htold⟩ := hline.exists_answer
    rw [hb.unique ha] at htold
    exact ⟨rfl, line, hcloses, htold⟩

/-- A session gives every question the answer that it deserves. -/
theorem answers_of_deserves {ts : List Token} {q : Question} {a : Answer} (hs : s.Sound)
    (hu : u.IsInput) (hq : u.Asks ts q rest)
    (hmodel : q.isFormula = true → s.model.isDefined = true)
    (ha : Deserves s.model s.context.vars q a) : s.Answers u rest a := by
  cases hq with
  | formula _ hread => exact answers_formula hs hu hread (hmodel rfl) ha
  | comparison _ hread => exact answers_comparison hs hu hread ha

/-- **What was done before, and what is shown, makes no difference to an answer.**  Take two
sessions that have been reached in any way, with any options, and the same formula or comparison at
the front of two streams.  If it is a formula, let the last definition be the same and be one that
could be read; then the models are the same, and if they have states, the formula is given the same
answer.  A comparison is given the same answer in any case.  The answer is the one that the formulas
deserve, and a report tells no other. -/
theorem answers_independent_of_history {d₁ d₂ : Option (List String)} {u₁ u₂ rest₁ rest₂ : Stream}
    {ts₁ ts₂ : List Token} {q₁ q₂ : Question} (h₁ : Reached s₁ d₁) (h₂ : Reached s₂ d₂)
    (hu₁ : u₁.IsInput) (hu₂ : u₂.IsInput) (hq₁ : u₁.Asks ts₁ q₁ rest₁) (hq₂ : u₂.Asks ts₂ q₂ rest₂)
    (htexts : ts₁.map Token.text = ts₂.map Token.text)
    (hmodel : q₁.isFormula = true → ∃ texts, d₁ = some texts ∧ d₂ = some texts) :
    (q₁.isFormula = true → s₁.model = s₂.model) ∧
    ((q₁.isFormula = true → s₁.model.isDefined = true) → ∃ a : Answer,
      Deserves s₁.model s₁.context.vars q₁ a ∧ s₁.Answers u₁ rest₁ a ∧ s₂.Answers u₂ rest₂ a) := by
  obtain rfl : q₁ = q₂ := hq₁.unique hu₁ hu₂ hq₂ htexts
  cases hformula : q₁.isFormula with
  | true =>
    obtain ⟨texts, rfl, rfl⟩ := hmodel hformula
    obtain ⟨heq, vars, hover, hvars₁, hvars₂⟩ := h₁.model_eq h₂
    refine ⟨fun _ => heq, fun hdefined => ?_⟩
    obtain ⟨a, ha⟩ := exists_deserved hover q₁
    have ha₁ := ha.mono hover hvars₁
    have ha₂ := ha.mono hover hvars₂
    rw [heq] at ha₂
    refine ⟨a, ha₁, answers_of_deserves h₁.sound hu₁ hq₁ (fun _ => hdefined rfl) ha₁,
      answers_of_deserves h₂.sound hu₂ hq₂ (fun _ => ?_) ha₂⟩
    rw [← heq]
    exact hdefined rfl
  | false =>
    have hno : ∀ {p : Prop}, q₁.isFormula = true → p := by
      intro p h
      rw [hformula] at h
      cases h
    refine ⟨nofun, fun _ => ?_⟩
    obtain ⟨a, ha⟩ := exists_deserved h₁.sound.isOver q₁
    exact ⟨a, ha, answers_of_deserves h₁.sound hu₁ hq₁ hno ha,
      answers_of_deserves h₂.sound hu₂ hq₂ hno (ha.of_comparison hformula)⟩

/-- A session and the texts of its last definition, after the first item of a text. -/
def follow (p : Session × Option (List String)) (source : String) :
    Session × Option (List String) :=
  match tokenize source with
  | .error _ => p
  | .ok u =>
    match step u p.1 with
    | .error _ => p
    | .ok (result, s) => (s, definitionAfter p.2 u result)

/-- Following texts one after another leads from a reached session to a reached one. -/
theorem reached_foldl_follow {p : Session × Option (List String)} (h : Reached p.1 p.2)
    (sources : List String) :
    Reached (sources.foldl follow p).1 (sources.foldl follow p).2 := by
  induction sources generalizing p with
  | nil => exact h
  | cons source sources ih =>
    refine ih ?_
    unfold follow
    split
    · exact h
    · next u htokens =>
      split
      · exact h
      · next hstep => exact h.step (isInput_of_tokenize htokens) hstep

/-- Two states, the second of which is never left, with `p` in the first. -/
def twoStates : String := "\x7b >1 1 2 p 2 2 _ \x7d"

/-- Tables of which nothing is drawn but the header. -/
def headings : TableStyle := fun header _ => " ".intercalate header

/-- A session in which nothing has been done but to define a model. -/
def fresh : Session × Option (List String) :=
  [twoStates].foldl follow (ofOptions {} headings {}, none)

/-- A session that shows everything, with another model and a formula before the definition, and
with a formula over other variables and an item that cannot be read behind it. -/
def busy : Session × Option (List String) :=
  ["\x7b >3 3 q \x7d", "AG r", twoStates, "q U r", "p &"].foldl follow
    (ofOptions ⟨true, true, true, true, true, true, true⟩ headings {}, none)

/-- The tokens of `G F p`. -/
def recurrence : List Token := [⟨.global, "G", {}⟩, ⟨.future, "F", {}⟩, ⟨.proposition, "p", {}⟩]

theorem isInput_recurrence : Stream.IsInput (recurrence ++ [.finish {}]) := by
  refine ⟨recurrence, .finish {}, rfl, rfl, ?_⟩
  simp only [recurrence, List.forall_mem_cons, List.not_mem_nil, false_imp_iff, implies_true,
    and_true]
  exact ⟨⟨'G', [], by decide, rfl⟩, ⟨'F', [], by decide, rfl⟩, ⟨'p', [], by decide, rfl⟩⟩

/-- The formula `G F p` gets the same answer in a new session and in one that has done much else. -/
theorem answers_independent_of_history_recurrence :
    fresh.2.isSome = true ∧ fresh.2 = busy.2 ∧ fresh.1.model = busy.1.model ∧ ∃ a : Answer,
      Deserves fresh.1.model fresh.1.context.vars
        (.formula (.unary .global (.unary .future (.prop "p")))) a ∧
      fresh.1.Answers (recurrence ++ [.finish {}]) [.finish {}] a ∧
      busy.1.Answers (recurrence ++ [.finish {}]) [.finish {}] a := by
  have hfresh : Reached fresh.1 fresh.2 := reached_foldl_follow (.start _ _ _) _
  have hbusy : Reached busy.1 busy.2 := reached_foldl_follow (.start _ _ _) _
  have htakes : Stream.Takes (recurrence ++ [.finish {}]) recurrence [.finish {}] :=
    ⟨rfl, by decide, by decide⟩
  have hasks : Stream.Asks (recurrence ++ [.finish {}]) recurrence
      (.formula (.unary .global (.unary .future (.prop "p")))) [.finish {}] := .formula htakes rfl
  have hsome : fresh.2.isSome = true := by decide +kernel
  have hsame : fresh.2 = busy.2 := by decide +kernel
  obtain ⟨texts, htexts⟩ := Option.isSome_iff_exists.1 hsome
  obtain ⟨hmodel, hanswers⟩ := answers_independent_of_history hfresh hbusy isInput_recurrence
    isInput_recurrence hasks hasks rfl fun _ => ⟨texts, htexts, hsame ▸ htexts⟩
  exact ⟨hsome, hsame, hmodel rfl, hanswers fun _ => by decide +kernel⟩

end Session

end TemporalCheck
