import TemporalCheck.Proofs.Session.History

/-!
# TemporalCheck.Proofs.Session.Batch

Two inputs may be given as one, on lines of their own.  An item does the same wherever it stands:
neither the places of its tokens nor what follows them makes a difference (`item_of_unplaced`), as
long as what follows does not go on with its last formula.  No item starts with a token that goes on
with a formula (`Works.stops`), and so the items of the second input can stand behind those of the
first, in place of its end (`exists_items_append`).
-/

namespace TemporalCheck

/-! ## The same item in two streams -/

namespace Stream

variable {u rest rest' : Stream} {ts ts' : List Token} {q : Session.Question}

/-- Tokens in other places are taken in the same way. -/
theorem Takes.of_unplaced (h : u.Takes ts rest)
    (hts : ts'.map Token.unplaced = ts.map Token.unplaced) (rest' : Stream) :
    Takes (ts' ++ rest') ts' rest' := by
  refine ⟨rfl, ?_, fun t ht => ?_⟩
  · rintro rfl
    exact h.ne_nil (List.map_eq_nil_iff.1 hts.symm)
  · have hmem := List.mem_map_of_mem (f := Token.unplaced) ht
    rw [hts] at hmem
    obtain ⟨t₀, ht₀, heq⟩ := List.mem_map.1 hmem
    rw [← Token.kind_eq_of_unplaced heq]
    exact h.kind_ne_eof t₀ ht₀

theorem Takes.kind?_ne_eof (h : u.Takes ts rest) : u ≠ [] ∧ u.kind? ≠ some .eof := by
  obtain ⟨t, us, rfl⟩ := List.exists_cons_of_ne_nil h.ne_nil
  rw [h.eq_append, List.cons_append, kind?_cons]
  exact ⟨List.cons_ne_nil _ _, fun hk => h.kind_ne_eof t (by simp) (Option.some.inj hk)⟩

/-- An input that starts with its end mark has nothing in front of it. -/
theorem IsInput.eq_nil_of_kind? {last : Token} (h : IsInput (ts ++ [last]))
    (hend : kind? (ts ++ [last]) = some .eof) : ts = [] := by
  obtain ⟨us, last', heq, -, hus⟩ := h
  obtain ⟨rfl, -⟩ := List.append_inj' heq rfl
  cases ts with
  | nil => rfl
  | cons t ts => exact absurd (Option.some.inj hend) (hus t (by simp)).kind_ne_eof

theorem StopsLayer.of_unplaced {v : Stream} (h : u.StopsLayer .implication)
    (hv : v.map Token.unplaced = u.map Token.unplaced) : v.StopsLayer .implication := by
  obtain ⟨t, us, rfl, ht⟩ := h
  obtain ⟨t', vs, rfl, ht', -⟩ := List.map_eq_cons_iff.1 hv
  exact ⟨t', vs, rfl, Token.kind_eq_of_unplaced ht' ▸ ht⟩

/-- What stands behind a formula ends it also if something else comes later. -/
theorem stops_append (hts : ts'.map Token.unplaced = ts.map Token.unplaced)
    (hrest' : rest'.StopsLayer .implication) (h : StopsLayer (ts ++ rest) .implication) :
    StopsLayer (ts' ++ rest') .implication := by
  cases ts with
  | nil =>
    rw [List.map_eq_nil_iff.1 hts]
    exact hrest'
  | cons t ts =>
    obtain ⟨t', ts', rfl, ht', -⟩ := List.map_eq_cons_iff.1 hts
    obtain ⟨_, _, heq, hstop⟩ := h
    cases heq
    exact ⟨t', ts' ++ rest', rfl, Token.kind_eq_of_unplaced ht' ▸ hstop⟩

theorem stopsLayer_of_eof {t : Token} (ht : t.kind = .eof) (v : Stream) :
    StopsLayer (t :: v) .implication :=
  ⟨t, v, rfl, by simp [ht, Layer.Stops, Kind.temporalOp?, Kind.junctionOp?]⟩

/-- Behind a question nothing goes on with it. -/
theorem Asks.stops_rest (h : u.Asks ts q rest) : rest.StopsLayer .implication := by
  cases h with
  | formula _ h =>
    obtain ⟨_, t, us, -, rfl, -, hstop⟩ := exists_derives_of_readFormula h
    exact ⟨t, us, rfl, hstop⟩
  | comparison _ h =>
    obtain ⟨-, -, -, h₂⟩ := h
    obtain ⟨_, t, us, -, rfl, -, hstop⟩ := exists_derives_of_readFormula h₂
    exact ⟨t, us, rfl, hstop⟩

/-- No question starts with a token that goes on with a formula. -/
theorem Asks.stops (h : u.Asks ts q rest) : u.StopsLayer .implication := by
  cases h with
  | formula _ h =>
    obtain ⟨_, _, _, rfl, -, hd, -⟩ := exists_derives_of_readFormula h
    obtain ⟨t, us, rfl, ht⟩ := hd.exists_start nofun
    exact ⟨t, _, rfl, stops_of_mem_formulaStarts t.kind ht⟩
  | comparison _ h =>
    obtain ⟨ht, -, -, -⟩ := h
    exact ⟨_, _, rfl, by rw [ht]; exact ⟨rfl, rfl, nofun⟩⟩

/-- Tokens that write a question ask it in front of whatever does not go on with it. -/
theorem Writes.asks (h : Writes ts q) (hrest : rest.StopsLayer .implication) :
    Asks (ts ++ rest) ts q rest := by
  obtain ⟨u, us, rfl, hstop⟩ := hrest
  cases h with
  | formula hd =>
    exact .formula ⟨rfl, hd.ne_nil nofun, hd.kind_ne_eof⟩ (readFormula_of_derives hd hstop)
  | @comparison t t' ts vs e₁ e₂ ht h₁ ht' h₂ =>
    have hreads : Session.ReadsComparison (t :: (ts ++ t' :: vs) ++ u :: us) e₁ e₂ (u :: us) := by
      rw [List.cons_append, List.append_assoc]
      exact .intro ht (readFormula_of_derives_against h₁ ht') ht' (readFormula_of_derives h₂ hstop)
    obtain ⟨_, _, _, _, htakes, -⟩ := Session.exists_takes_of_readsComparison hreads
    have hsame := List.append_cancel_right htakes.eq_append
    rw [← hsame] at htakes
    exact .comparison htakes hreads

end Stream

namespace Session

variable {α β : Type} {s s' s₁ s₂ : Session} {u u' rest rest' : Stream} {ts ts' : List Token}
  {e e₁ e₂ : Expr}

/-! ## The same item in two places -/

/-- Attempts in a row are attempted in a row. -/
theorem attempt_bind (x : Attempt α) (k : α → Attempt β) :
    attempt (x >>= k) = attempt x >>= fun a => attempt (k a) := by
  funext s
  rw [bind_apply, attempt, attempt, bind_apply]
  cases x s.context with
  | error fault => rfl
  | ok p =>
    obtain ⟨result, context⟩ := p
    cases result <;> rfl

/-- Reading a formula is reading its tree and then storing it. -/
theorem attempt_read (h : u.readFormula = .ok (e, rest)) :
    attempt (Formula.read u) =
      attempt (liftM (Formula.ofTree e)) >>= fun f => pure (f, rest) := by
  unfold Formula.read
  rw [h]
  exact attempt_bind _ _

theorem expect_cons {t : Token} {kind : Kind} (ht : t.kind = kind) (hkind : kind ≠ .eof)
    (rest : Stream) : expect (t :: rest) kind = pure rest := by
  rw [expect, (Stream.expect_eq_ok_iff hkind).2 ⟨ht, rfl⟩]
  rfl

theorem echo_congr (h : u.Takes ts rest) (h' : u'.Takes ts' rest')
    (htexts : ts'.map Token.text = ts.map Token.text) : echo u' rest' = echo u rest := by
  have hpure : ∀ us : List Token, (liftM (Except.ok us : Except Fault _) : Action _) = pure us :=
    fun _ => rfl
  simp only [echo, h.passed_eq, h'.passed_eq, hpure, pure_bind, htexts]

theorem ite_bind {c : Prop} [Decidable c] (x y : Action α) (k : α → Action β) :
    (if c then x else y) >>= k = if c then x >>= k else y >>= k := by
  split <;> rfl

theorem checkFormula_congr (h : u.readFormula = .ok (e, rest))
    (h' : u'.readFormula = .ok (e, rest')) (hecho : echo u' rest' = echo u rest) :
    checkFormula u' = checkFormula u >>= fun _ => pure rest' := by
  unfold checkFormula
  simp only [attempt_read h, attempt_read h', bind_assoc, pure_bind, ite_bind, hecho]

/-- Comparing from other tokens with the same formulas and the same echo does the same. -/
theorem compareFormulas_congr (h : ReadsComparison u e₁ e₂ rest)
    (h' : ReadsComparison u' e₁ e₂ rest') (hecho : echo u' rest' = echo u rest) :
    compareFormulas u' = compareFormulas u >>= fun _ => pure rest' := by
  obtain ⟨ht, h₁, hv, h₂⟩ := h
  obtain ⟨ht', h₁', hv', h₂'⟩ := h'
  unfold compareFormulas
  simp only [expect_cons ht nofun, expect_cons ht' nofun, expect_cons hv nofun,
    expect_cons hv' nofun, attempt_read h₁, attempt_read h₁', attempt_read h₂, attempt_read h₂',
    bind_assoc, pure_bind, hecho]
  refine bind_congr fun _ => bind_congr fun f => bind_congr fun g => bind_congr fun _ =>
    bind_congr fun _ => bind_congr fun _ => bind_congr fun _ => bind_congr fun result => ?_
  cases result <;> simp only [bind_assoc, pure_bind]

/-- Defining from other tokens with the same model and the same echo does the same. -/
theorem defineModel_congr {m : Model} {vars : Vars}
    (h : Model.read {} u = .ok (.ok (m, rest), vars))
    (h' : Model.read {} u' = .ok (.ok (m, rest'), vars)) (hecho : echo u' rest' = echo u rest) :
    defineModel u' = defineModel u >>= fun _ => pure rest' := by
  have hreport : reportModel u' m rest' = reportModel u m rest >>= fun _ => pure rest' := by
    simp only [reportModel, bind_assoc, pure_bind, ite_bind, hecho]
  funext s
  rw [bind_apply, defineModel_of_read s h, ← bind_apply, ← hreport, defineModel_of_read s h']

theorem item_of_readModel {m : Model} {vars vars' : Vars}
    (h : Model.read vars u = .ok (.ok (m, rest), vars')) : item u = defineModel u := by
  obtain ⟨t, us, rs, ht, rfl, -⟩ := Model.read_eq_ok_iff.1 h
  rw [item_eq (List.cons_ne_nil _ _), if_pos (by simp [ht])]

/-- The item of a question depends on its texts only, up to where the input goes on. -/
theorem item_congr_of_asks {q : Question} (h : u.Asks ts q rest) (h' : u'.Asks ts' q rest')
    (htexts : ts'.map Token.text = ts.map Token.text) :
    item u' = item u >>= fun _ => pure rest' := by
  have hecho := echo_congr h.takes h'.takes htexts
  cases h with
  | formula _ hread =>
    cases h' with
    | formula _ hread' =>
      rw [item_of_readFormula hread, item_of_readFormula hread']
      exact checkFormula_congr hread hread' hecho
  | comparison _ hread =>
    cases h' with
    | comparison _ hread' =>
      rw [item_of_readsComparison hread, item_of_readsComparison hread']
      exact compareFormulas_congr hread hread' hecho

/-- An item that has been worked through, and is no definition, asks a question. -/
theorem exists_asks_of_step (hs : s.Sound) (hu : u.IsInput) (hkind : u.kind? ≠ some .modelOpen)
    (h : step u s = .ok (.ok rest, s')) : ∃ ts q, u.Asks ts q rest := by
  obtain ⟨rest₀, s₀, hitem, hcollect⟩ := exists_of_bind_eq_ok h
  obtain ⟨_, s₁, -, hreturn⟩ := exists_of_bind_eq_ok hcollect
  cases hreturn
  rw [item_eq hu.ne_nil, if_neg hkind] at hitem
  split at hitem
  · obtain ⟨-, e₁, e₂, -, hread, -⟩ := (says_compareFormulas hs.tidy hu).of_eq_ok hitem
    obtain ⟨t, ts, t', us, htakes, -⟩ := exists_takes_of_readsComparison hread
    exact ⟨_, _, .comparison htakes hread⟩
  · obtain ⟨-, e, hread, -⟩ := (says_checkFormula hs hu).of_eq_ok hitem
    obtain ⟨ts, htakes, -⟩ := Stream.exists_takes_of_readFormula hread
    exact ⟨ts, _, .formula htakes hread⟩

/-- An item does the same wherever it stands and whatever follows, if what follows does not go on
with a formula that it ends with. -/
theorem item_of_unplaced (hs : s.Sound) (hu : u.IsInput) (hstep : step u s = .ok (.ok rest, s'))
    (htakes : u.Takes ts rest) (hts : ts'.map Token.unplaced = ts.map Token.unplaced)
    (hstop : rest.StopsLayer .implication → rest'.StopsLayer .implication) :
    item (ts' ++ rest') = item u >>= fun _ => pure rest' := by
  have htakes' := htakes.of_unplaced hts rest'
  have htexts := map_text_of_unplaced hts
  by_cases hkind : u.kind? = some .modelOpen
  · obtain ⟨vars, hread, -⟩ := (carries_of_step hs hu hstep).exists_read hkind rest rfl
    have hread' : Model.read {} (ts' ++ rest') = .ok (.ok (s'.model, rest'), vars) := by
      rw [htakes.eq_append] at hread
      exact Model.read_of_unplaced hread hts
    rw [item_of_readModel hread, item_of_readModel hread']
    exact defineModel_congr hread hread' (echo_congr htakes htakes' htexts)
  · obtain ⟨us, q, hasks⟩ := exists_asks_of_step hs hu hkind hstep
    obtain rfl := htakes.eq hasks.takes
    have hasks' := (hasks.writes.of_unplaced hts).asks (hstop hasks.stops_rest)
    exact item_congr_of_asks hasks hasks' htexts

/-- An item can be worked through from the same tokens in other places and with other tokens behind
it. -/
theorem step_of_unplaced (hs : s.Sound) (hu : u.IsInput) (hstep : step u s = .ok (.ok rest, s'))
    (htakes : u.Takes ts rest) (hts : ts'.map Token.unplaced = ts.map Token.unplaced)
    (hstop : rest.StopsLayer .implication → rest'.StopsLayer .implication) :
    step (ts' ++ rest') s = .ok (.ok rest', s') := by
  have hitem := item_of_unplaced hs hu hstep htakes hts hstop
  have hsame : step (ts' ++ rest') = step u >>= fun _ => pure rest' := by
    simp only [step, hitem, bind_assoc, pure_bind]
  rw [hsame, bind_eq_of_ok hstep]
  rfl

/-! ## Inputs one after another -/

/-- No item starts with a token that goes on with a formula. -/
theorem Works.stops (h : Works s u (.ok ()) s') (hs : s.Sound) : u.StopsLayer .implication := by
  cases h with
  | done hu hend =>
    obtain ⟨t, v, rfl⟩ := hu.exists_cons
    exact Stream.stopsLayer_of_eof (Option.some.inj hend) v
  | next hu _ hstep _ _ =>
    by_cases hkind : u.kind? = some .modelOpen
    · obtain ⟨t, v, rfl⟩ := hu.exists_cons
      refine ⟨t, v, rfl, ?_⟩
      rw [Option.some.inj hkind]
      exact ⟨rfl, rfl, nofun⟩
    · obtain ⟨ts, q, hasks⟩ := exists_asks_of_step hs hu hkind hstep
      exact hasks.stops

/-- What was written before stays. -/
theorem Works.exists_report {result : Except Error Unit} (h : Works s u result s')
    (hresult : result = .ok ()) (hs : s.Sound) :
    ∃ report, s'.output.text = s.output.text ++ report := by
  induction h with
  | done => exact ⟨"", by simp⟩
  | stop => cases hresult
  | @next _ _ _ _ rest _ _ hu _ hstep _ _ ih =>
    have hcarries := carries_of_step hs hu hstep
    obtain ⟨first, hfirst⟩ := hcarries.exists_report rest rfl
    obtain ⟨more, hmore⟩ := ih hresult hcarries.sound
    exact ⟨first ++ more, by rw [hmore, hfirst, String.append_assoc]⟩

/-- Items that a session works through can stand in front of others, in place of which there was the
end of the input. -/
theorem exists_items_append {result : Except Error Unit} {last : Token} {v : Stream} {n : Nat}
    (h : Works s u result s') (hresult : result = .ok ()) (hs : s.Sound) (hu : u = ts ++ [last])
    (hts : ts'.map Token.unplaced = ts.map Token.unplaced)
    (hv : v.StopsLayer .implication) (hn : (ts' ++ v).length ≤ n) :
    ∃ m, v.length ≤ m ∧ items n (ts' ++ v) s = items m v s' := by
  induction h generalizing ts ts' n with
  | stop => cases hresult
  | done hinput hend =>
    subst hu
    obtain rfl := hinput.eq_nil_of_kind? hend
    obtain rfl := List.map_eq_nil_iff.1 hts
    exact ⟨n, hn, rfl⟩
  | @next s s₁ s' u rest us result hinput _ hstep htakes _ ih =>
    obtain ⟨rs, last', rfl, -, -⟩ := htakes.isInput hinput
    have hsplit := htakes.eq_append
    rw [hu, ← List.append_assoc] at hsplit
    obtain ⟨rfl, hlast⟩ := List.append_inj' hsplit rfl
    rw [List.map_append] at hts
    obtain ⟨us', rs', rfl, hus, hrs⟩ := List.map_eq_append_iff.1 hts
    -- The first item is carried out as before, and leaves the others and what stands behind them.
    have htakes' := htakes.of_unplaced hus (rs' ++ v)
    have hstep' := step_of_unplaced hs hinput hstep htakes hus (Stream.stops_append hrs hv)
    have hlt := htakes'.length_lt
    rw [List.append_assoc] at hn ⊢
    cases n with
    | zero => omega
    | succ n =>
      obtain ⟨m, hm, hitems⟩ :=
        ih hresult (carries_of_step hs hinput hstep).sound (by rw [hlast]) hrs (n := n) (by omega)
      refine ⟨m, hm, ?_⟩
      obtain ⟨hne, hmore⟩ := htakes'.kind?_ne_eof
      rw [items_succ n hne, if_neg hmore, bind_eq_of_ok hstep', hitems]

/-- With the end mark in front nothing is left to do. -/
theorem items_of_eof {t : Token} (h : t.kind = .eof) (v : Stream) (n : Nat) (s : Session) :
    items n (t :: v) s = .ok (.ok (), s) := by
  cases n with
  | zero => rfl
  | succ n =>
    rw [items_succ n (List.cons_ne_nil t v), if_pos (by simp [h])]
    rfl

/-- A run that has gone through has worked through all items of its text. -/
theorem exists_works_of_run {source : String} (hs : s.Sound)
    (h : run s source = .ok (.ok (), s')) :
    ∃ ts last, tokenize source = .ok (ts ++ [last]) ∧ last.kind = .eof ∧
      Works s (ts ++ [last]) (.ok ()) s' ∧ s'.Sound := by
  obtain ⟨_, _, hrun, hworks, hleaves⟩ := exists_run hs source
  rw [h] at hrun
  cases hrun
  cases hworks with
  | read htokens hworks =>
    obtain ⟨ts, last, rfl, hlast, -⟩ := isInput_of_tokenize htokens
    exact ⟨ts, last, htokens, hlast, hworks, hleaves.sound⟩

/-- **Two inputs may be given as one.**  Where a session works through a text and then through
another without an error, it also works through the two as one text, the second from a new line on.
It is then in the same state, and has written what it wrote about the first and then what it wrote
about the second. -/
theorem run_append_line {d : Option (List String)} {a b : String} (hs : Reached s d)
    (ha : run s a = .ok (.ok (), s₁)) (hb : run s₁ b = .ok (.ok (), s₂)) :
    run s (a ++ "\n" ++ b) = .ok (.ok (), s₂) ∧
      ∃ first second, s₁.output.text = s.output.text ++ first ∧
        s₂.output.text = s₁.output.text ++ second ∧
        s₂.output.text = s.output.text ++ (first ++ second) := by
  obtain ⟨ts, last, htokens, -, hworks, hs₁⟩ := exists_works_of_run hs.sound ha
  obtain ⟨us, last', htokens', hlast', hworks', -⟩ := exists_works_of_run hs₁ hb
  obtain ⟨ts', vs, hjoined, hts, hvs⟩ := tokenize_append_line htokens htokens'
  have hstops : Stream.StopsLayer vs .implication := (hworks'.stops hs₁).of_unplaced hvs
  constructor
  · rw [List.map_append] at hvs
    obtain ⟨us', ends, rfl, hus, hends⟩ := List.map_eq_append_iff.1 hvs
    obtain ⟨last'', rfl, hunplaced⟩ := List.map_eq_singleton_iff.1 hends
    have hend : last''.kind = .eof := (Token.kind_eq_of_unplaced hunplaced).trans hlast'
    obtain ⟨m, hm, hfirst⟩ :=
      exists_items_append hworks rfl hs.sound rfl hts hstops (Nat.le_refl _)
    obtain ⟨n, -, hsecond⟩ :=
      exists_items_append hworks' rfl hs₁ rfl hus (Stream.stopsLayer_of_eof hend []) hm
    rw [run_of_tokenize s hjoined]
    exact hfirst.trans (hsecond.trans (items_of_eof hend [] n s₂))
  · obtain ⟨first, hfirst⟩ := hworks.exists_report rfl hs.sound
    obtain ⟨second, hsecond⟩ := hworks'.exists_report rfl hs₁
    exact ⟨first, second, hfirst, hsecond, by rw [hsecond, hfirst, String.append_assoc]⟩

/-- The session after a text, if the text could be worked through. -/
def after? (s : Session) (source : String) : Option Session :=
  match run s source with
  | .ok (.ok (), s') => some s'
  | _ => none

/-- What a run that is evaluated ends in. -/
theorem run_of_after? {source : String} (h : after? s source = some s') :
    run s source = .ok (.ok (), s') := by
  unfold after? at h
  split at h
  · next hrun =>
    cases h
    exact hrun
  · cases h

/-- The first text ends in a formula and a comment, the second starts with a formula. -/
theorem run_append_line_comment :
    let s := ofOptions { echo := true } headings {}
    let a := "\x7b >1 1 2 p 2 2 _ \x7d p U q // & p"
    let b := "AG p ? p : q"
    ∃ s₁ s₂, run s a = .ok (.ok (), s₁) ∧ run s₁ b = .ok (.ok (), s₂) ∧
      run s (a ++ "\n" ++ b) = .ok (.ok (), s₂) ∧
      ∃ first second, s₁.output.text = s.output.text ++ first ∧
        s₂.output.text = s₁.output.text ++ second ∧
        s₂.output.text = s.output.text ++ (first ++ second) := by
  intro s a b
  have hboth : ((after? s a).bind fun s₁ => after? s₁ b).isSome = true := by decide +kernel
  obtain ⟨s₂, hs₂⟩ := Option.isSome_iff_exists.1 hboth
  obtain ⟨s₁, ha, hb⟩ := Option.bind_eq_some_iff.1 hs₂
  have ha := run_of_after? ha
  have hb := run_of_after? hb
  exact ⟨s₁, s₂, ha, hb, run_append_line (.start _ _ _) ha hb⟩

end Session

end TemporalCheck
