import TemporalCheck.Proofs.Model
import TemporalCheck.Session

/-!
# TemporalCheck.Proofs.Session.Action

What an action of a session has to end in.  `Says x s E Q` says that `x`, started in the session
`s`, meets no fault.  Either it ends with a result after it has written some lines, and the result,
the lines and the session afterwards satisfy `Q`; or it ends in an error, which satisfies `E` or
means that the output is full.  In any case the session afterwards follows the one before
(`Session.Follows`): options and model are the same, stored formulas stay and variables keep their
numbers.

There is one law for each way of putting actions together, as for the operations on contexts.
-/

namespace TemporalCheck

/-- A text is written in full, or the output was limited. -/
theorem Output.write_cases (o : Output) (text : String) :
    (∃ room, o.write text = (true, ⟨o.text ++ text, room⟩) ∧ (room = none ↔ o.room = none)) ∨
      ∃ o', o.write text = (false, o') ∧ o.room ≠ none ∧ o'.room ≠ none := by
  unfold Output.write
  cases hroom : o.room with
  | none => exact .inl ⟨none, rfl, Iff.rfl⟩
  | some room =>
    by_cases hfits : text.utf8ByteSize ≤ room
    · exact .inl ⟨some (room - text.utf8ByteSize), by simp [hfits], by simp⟩
    · exact .inr ⟨_, by simp [hfits]; rfl, by simp, by simp⟩

namespace Session

variable {α β γ : Type} {s s' s'' : Session}

/-! ## Sessions one after another -/

/-- One session comes after another with the same model. -/
structure Follows (s s' : Session) : Prop where
  options_eq : s'.options = s.options
  model_eq : s'.model = s.model
  context : s.context.Continues s'.context
  room_iff : s'.output.room = none ↔ s.output.room = none

namespace Follows

theorem refl (h : s.context.forest.Tidy) : s.Follows s := ⟨rfl, rfl, .refl h, Iff.rfl⟩

theorem trans (h : s.Follows s') (h' : s'.Follows s'') : s.Follows s'' :=
  ⟨h'.options_eq.trans h.options_eq, h'.model_eq.trans h.model_eq, h.context.trans h'.context,
    h'.room_iff.trans h.room_iff⟩

theorem tidy (h : s.Follows s') : s'.context.forest.Tidy := h.context.tidy

theorem of_context {context : Context} (h : s.context.Continues context) :
    s.Follows { s with context } :=
  ⟨rfl, rfl, h, Iff.rfl⟩

end Follows

/-! ## Actions -/

/-- The text of some lines. -/
def transcript (lines : List String) : String := String.join (lines.map (· ++ "\n"))

theorem transcript_append (lines more : List String) :
    transcript (lines ++ more) = transcript lines ++ transcript more := by
  simp [transcript]

/-- An action meets no fault and ends as required. -/
def Says (x : Action α) (s : Session) (E : Error → Prop) (Q : α → List String → Session → Prop) :
    Prop :=
  (∃ a lines s', x s = .ok (.ok a, s') ∧ s.Follows s' ∧
    s'.output.text = s.output.text ++ transcript lines ∧ Q a lines s') ∨
  ∃ error s', x s = .ok (.error error, s') ∧ s.Follows s' ∧
    (E error ∨ error = .output ∧ s.output.room ≠ none)

namespace Says

variable {x : Action α} {k : α → Action β} {E : Error → Prop}

/-- How an action ends that meets no fault. -/
theorem exists_outcome {Q : α → List String → Session → Prop} (h : Says x s E Q) :
    ∃ result s', x s = .ok (result, s') ∧ s.Follows s' ∧
      (∀ a, result = .ok a → ∃ lines, s'.output.text = s.output.text ++ transcript lines ∧
        Q a lines s') ∧
      ∀ error, result = .error error → E error ∨ error = .output ∧ s.output.room ≠ none := by
  obtain ⟨a, lines, s', hx, hs, htext, hq⟩ | ⟨error, s', hx, hs, he⟩ := h
  · refine ⟨.ok a, s', hx, hs, fun b hb => ?_, fun error he => by cases he⟩
    cases hb
    exact ⟨lines, htext, hq⟩
  · refine ⟨.error error, s', hx, hs, fun b hb => (by cases hb), fun error' h => ?_⟩
    cases h
    exact he

/-- What has a result has said what it is to say. -/
theorem of_eq_ok {a : α} {Q : α → List String → Session → Prop} (h : Says x s E Q)
    (hx : x s = .ok (.ok a, s')) : ∃ lines, Q a lines s' := by
  obtain ⟨_, _, hx', -, hok, -⟩ := h.exists_outcome
  rw [hx] at hx'
  cases hx'
  obtain ⟨lines, -, hq⟩ := hok a rfl
  exact ⟨lines, hq⟩

theorem mono {Q R : α → List String → Session → Prop} (h : Says x s E Q)
    (hQR : ∀ a lines s', s.Follows s' → Q a lines s' → R a lines s') : Says x s E R := by
  obtain ⟨a, lines, s', hx, hs, htext, hq⟩ | herror := h
  · exact .inl ⟨a, lines, s', hx, hs, htext, hQR a lines s' hs hq⟩
  · exact .inr herror

theorem pure {a : α} {Q : α → List String → Session → Prop} (hs : s.context.forest.Tidy)
    (h : Q a [] s) : Says (Pure.pure a : Action α) s E Q :=
  .inl ⟨a, [], s, rfl, .refl hs, by simp [transcript], h⟩

/-- One action after another says the lines of both. -/
theorem bind {Q : β → List String → Session → Prop}
    (h : Says x s E fun a lines s' => Says (k a) s' E fun b more s'' => Q b (lines ++ more) s'') :
    Says (x >>= k) s E Q := by
  obtain ⟨a, lines, s', hx, hs, htext, hk⟩ | ⟨error, s', hx, hs, he⟩ := h
  · unfold Says
    rw [bind_eq_of_ok hx]
    obtain ⟨b, more, s'', hy, hs', htext', hq⟩ | ⟨error, s'', hy, hs', he⟩ := hk
    · refine .inl ⟨b, lines ++ more, s'', hy, hs.trans hs', ?_, hq⟩
      rw [htext', htext, transcript_append, String.append_assoc]
    · refine .inr ⟨error, s'', hy, hs.trans hs', he.imp_right fun h => ⟨h.1, ?_⟩⟩
      rw [ne_eq, ← hs.room_iff]
      exact h.2
  · exact .inr ⟨error, s', bind_eq_of_error hx, hs, he⟩

/-- A result that does not come from the last step. -/
theorem returning {b : β} {Q : β → List String → Session → Prop}
    (h : Says x s E fun _ lines s' => Q b lines s') :
    Says (x >>= fun _ => Pure.pure b) s E Q := by
  refine bind (h.mono fun a lines s' hs' hq => .pure hs'.tidy ?_)
  rwa [List.append_nil]

/-- A step that may be left out. -/
theorem optional {c : Prop} [Decidable c] {y : Action PUnit} {l : PUnit → Action β}
    {Q : β → List String → Session → Prop}
    (h : Says (if c then y else Pure.pure ⟨⟩) s E fun a lines s' =>
      Says (l a) s' E fun b more s'' => Q b (lines ++ more) s'') :
    Says (if c then y >>= l else l ⟨⟩) s E Q := by
  have heq : (if c then y >>= l else l ⟨⟩) = (if c then y else Pure.pure ⟨⟩) >>= l := by
    split <;> simp
  rw [heq]
  exact bind h

/-- Two steps that may be left out. -/
theorem optional₂ {c : Prop} [Decidable c] {y : α → Action PUnit} {l : PUnit → Action β}
    {Q : β → List String → Session → Prop}
    (h : Says (if c then x >>= y else Pure.pure ⟨⟩) s E fun a lines s' =>
      Says (l a) s' E fun b more s'' => Q b (lines ++ more) s'') :
    Says (if c then x >>= fun a => y a >>= l else l ⟨⟩) s E Q := by
  rw [← bind_assoc]
  exact optional h

/-- Three steps that may be left out. -/
theorem optional₃ {c : Prop} [Decidable c] {y : α → Action γ} {z : γ → Action PUnit}
    {l : PUnit → Action β} {Q : β → List String → Session → Prop}
    (h : Says (if c then x >>= fun a => y a >>= z else Pure.pure ⟨⟩) s E fun a lines s' =>
      Says (l a) s' E fun b more s'' => Q b (lines ++ more) s'') :
    Says (if c then x >>= fun a => y a >>= fun b => z b >>= l else l ⟨⟩) s E Q := by
  simp only [← bind_assoc] at h ⊢
  exact optional h

theorem get {Q : Session → List String → Session → Prop} (hs : s.context.forest.Tidy)
    (h : Q s [] s) : Says (MonadState.get : Action Session) s E Q :=
  .inl ⟨s, [], s, rfl, .refl hs, by simp [transcript], h⟩

theorem modify {f : Session → Session} {Q : PUnit → List String → Session → Prop}
    (hs : s.Follows (f s)) (hout : (f s).output = s.output) (h : Q ⟨⟩ [] (f s)) :
    Says (modify f : Action PUnit) s E Q :=
  .inl ⟨⟨⟩, [], f s, rfl, hs, by simp [transcript, hout], h⟩

/-- A computation that does not look at the session. -/
theorem lift {e : Except Fault α} {a : α} {Q : α → List String → Session → Prop}
    (hs : s.context.forest.Tidy) (he : e = .ok a) (h : Q a [] s) :
    Says (liftM e : Action α) s E Q := by
  subst he
  exact .inl ⟨a, [], s, rfl, .refl hs, by simp [transcript], h⟩

/-- Looking something up for each element of a list. -/
theorem mapM_lift {l : List γ} {g : γ → Except Fault β} (hs : s.context.forest.Tidy)
    (hg : ∀ a ∈ l, ∃ b, g a = .ok b) :
    Says (l.mapM fun a => (liftM (g a) : Action β)) s E fun _ lines s' => lines = [] ∧ s' = s := by
  induction l with
  | nil => exact .pure hs ⟨rfl, rfl⟩
  | cons a l ih =>
    rw [List.forall_mem_cons] at hg
    obtain ⟨⟨b, hb⟩, hl⟩ := hg
    rw [List.mapM_cons]
    refine .bind (.lift hs hb (.bind ((ih hl).mono fun _ _ _ _ h => ?_)))
    obtain ⟨rfl, rfl⟩ := h
    exact .pure hs ⟨rfl, rfl⟩

/-- An attempt that succeeds. -/
theorem attempt {a : Attempt α} {Q : α → List String → Session → Prop}
    (h : Succeeds a s.context fun r context =>
      s.context.Continues context ∧ Q r [] { s with context }) :
    Says (Session.attempt a) s E Q := by
  obtain ⟨r, context, ha, hcont, hq⟩ := h
  refine .inl ⟨r, [], _, ?_, .of_context hcont, by simp [transcript], hq⟩
  simp only [Session.attempt, ha]
  rfl

/-- An attempt that ends in an error. -/
theorem attempt_error {a : Attempt α} {error : Error} {context : Context}
    {Q : α → List String → Session → Prop} (ha : a s.context = .ok (.error error, context))
    (hcont : s.context.Continues context) (h : E error) : Says (Session.attempt a) s E Q := by
  refine .inr ⟨error, _, ?_, .of_context hcont, .inl h⟩
  simp only [Session.attempt, ha]
  rfl

/-- An attempt whose outcome is looked at. -/
theorem tryAttempt {a : Attempt α} {result : Except Error α} {context : Context}
    {Q : Except Error α → List String → Session → Prop}
    (ha : a s.context = .ok (result, context)) (hcont : s.context.Continues context)
    (h : Q result [] { s with context }) : Says (Session.tryAttempt a) s E Q := by
  refine .inl ⟨result, [], _, ?_, .of_context hcont, by simp [transcript], h⟩
  simp only [Session.tryAttempt, ha]
  rfl

/-- Writing a line. -/
theorem say {line : String} {Q : PUnit → List String → Session → Prop}
    (hs : s.context.forest.Tidy) (h : ∀ s', s.Follows s' → Q ⟨⟩ [line] s') :
    Says (Session.say line) s E Q := by
  have hopen : Session.say line s = (fun p : Bool × Output => (do
      set { s with output := p.2 }
      if !p.1 then MonadExcept.throw .output : Action Unit) s)
        (s.output.write (line ++ "\n")) := rfl
  unfold Says
  rw [hopen]
  obtain ⟨room, hwrite, hroom⟩ | ⟨output, hwrite, hroom, hroom'⟩ :=
    s.output.write_cases (line ++ "\n")
  · have hfollows : s.Follows { s with output := ⟨s.output.text ++ (line ++ "\n"), room⟩ } :=
      ⟨rfl, rfl, .refl hs, hroom⟩
    rw [hwrite]
    exact .inl ⟨⟨⟩, [line], _, rfl, hfollows, by simp [transcript], h _ hfollows⟩
  · rw [hwrite]
    exact .inr ⟨.output, _, rfl, ⟨rfl, rfl, .refl hs, iff_of_false hroom' hroom⟩, .inr ⟨rfl, hroom⟩⟩

/-- A line for each element of a list. -/
theorem forM_say {text : β → String} {l : List β} {Q : PUnit → List String → Session → Prop}
    (hs : s.context.forest.Tidy) (h : ∀ s', s.Follows s' → Q ⟨⟩ (l.map text) s') :
    Says (l.forM fun b => Session.say (text b)) s E Q := by
  induction l generalizing s Q with
  | nil => exact .pure hs (h s (.refl hs))
  | cons b l ih =>
    refine .bind (.say hs fun σ hσ => ih hσ.tidy fun σ' hσ' => ?_)
    exact h σ' (hσ.trans hσ')

end Says

end Session

end TemporalCheck
