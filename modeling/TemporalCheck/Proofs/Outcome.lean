import TemporalCheck.Context

/-!
# TemporalCheck.Proofs.Outcome

What an operation with a state has to end in.  `Yields x s Q` says that `x`, started in the state
`s`, meets no fault and ends with a result and a state that satisfy `Q`.  There is one law for each
way of putting operations together, so that an operation is opened by following its steps:

* `Yields.bind` for one step after another;
* `Yields.lift`, `Yields.lift_build` for steps that use less than the whole state;
* `Succeeds.bind` and its companions for operations that may also end in an error.

Where the outcome of a step is known, `bind_eq_of_ok` and `bind_eq_of_error` give that of the whole.
-/

namespace TemporalCheck

variable {σ ε α β : Type}

/-- Where each element has an answer, the answers are collected in order. -/
theorem mapM_eq_ok {f : α → Except ε β} {g : α → β} {l : List α}
    (h : ∀ a ∈ l, f a = .ok (g a)) : l.mapM f = .ok (l.map g) := by
  induction l with
  | nil => rfl
  | cons a l ih =>
    have hrest := ih fun b hb => h b (by simp [hb])
    rw [List.mapM_cons, h a (by simp), hrest]
    rfl

/-- A look at each element that meets no fault keeps what a total one keeps. -/
theorem filterMapM_eq_ok {f : α → Except ε (Option β)} {g : α → Option β} {l : List α}
    (h : ∀ a ∈ l, f a = .ok (g a)) : l.filterMapM f = .ok (l.filterMap g) := by
  induction l with
  | nil => rfl
  | cons a l ih =>
    have hrest := ih fun b hb => h b (List.mem_cons_of_mem a hb)
    rw [List.filterMapM_cons, bind_of_eq_ok (h a List.mem_cons_self), List.filterMap_cons]
    cases g a with
    | none => exact hrest
    | some b => exact bind_of_eq_ok hrest

/-- Where a test has an answer for each element, those that pass it are kept in order. -/
theorem filterM_eq_ok {test : α → Except ε Bool} {p : α → Bool} {l : List α}
    (h : ∀ a ∈ l, test a = .ok (p a)) : l.filterM test = .ok (l.filter p) := by
  have haux : ∀ (l kept : List α), (∀ a ∈ l, test a = .ok (p a)) →
      List.filterAuxM test l kept = .ok ((l.filter p).reverse ++ kept) := by
    intro l
    induction l with
    | nil => exact fun kept _ => rfl
    | cons a l ih =>
      intro kept h
      have hrest := ih (bif p a then a :: kept else kept)
        fun b hb => h b (List.mem_cons_of_mem a hb)
      rw [List.filterAuxM, bind_of_eq_ok (h a List.mem_cons_self), hrest]
      cases hp : p a <;> simp [hp]
  rw [List.filterM, bind_of_eq_ok (haux l [] h)]
  simp [pure, Except.pure]

/-- Going through the numbers below a bound, with what has been built before each of them. -/
theorem foldlM_range_eq_ok (step : β → Nat → Except ε β) (n : Nat) (acc : Nat → β)
    (h : ∀ k < n, step (acc k) k = .ok (acc (k + 1))) :
    (List.range n).foldlM step (acc 0) = .ok (acc n) := by
  induction n with
  | zero => rfl
  | succ n ih =>
    rw [List.range_succ, List.foldlM_append, ih fun k hk => h k (Nat.lt_succ_of_lt hk)]
    simp [bind, Except.bind, pure, Except.pure, h n (Nat.lt_succ_self n)]

/-- Following an operation through a list, with what holds after each element.  `W x s Q` may be
any way in which `Q` holds after `x` that has laws for doing nothing and for one step after
another. -/
theorem foldlM_of_laws {m : Type → Type} [Monad m] {γ : Type}
    {W : m β → σ → (β → σ → Prop) → Prop} {step : β → γ → m β} {l : List γ} {acc : β} {s : σ}
    (pure_law : ∀ {b : β} {s : σ} {Q : β → σ → Prop}, Q b s → W (pure b) s Q)
    (bind_law : ∀ {x : m β} {k : β → m β} {s : σ} {P Q : β → σ → Prop}, W x s P →
      (∀ b t, P b t → W (k b) t Q) → W (x >>= k) s Q)
    (P : List γ → β → σ → Prop) (start : P [] acc s)
    (next : ∀ done a rest acc s, l = done ++ a :: rest → P done acc s →
      W (step acc a) s (P (done ++ [a]))) :
    W (l.foldlM step acc) s (P l) := by
  have hrun : ∀ (rest done : List γ) (acc : β) (s : σ), l = done ++ rest → P done acc s →
      W (rest.foldlM step acc) s (P l) := by
    intro rest
    induction rest with
    | nil =>
      intro done acc s hl h
      rw [List.append_nil] at hl
      rw [hl]
      exact pure_law h
    | cons a rest ih =>
      intro done acc s hl h
      refine bind_law (next done a rest acc s hl h) fun acc' t h' => ?_
      exact ih (done ++ [a]) acc' t (by simpa using hl) h'
  exact hrun l [] acc s rfl start

/-- What gives a result has one with the state that it ends in. -/
theorem exists_of_map_fst {x : Except ε (α × σ)} {a : α} (h : x.map Prod.fst = .ok a) :
    ∃ s, x = .ok (a, s) := by
  cases x with
  | error e => cases h
  | ok p =>
    cases h
    exact ⟨p.2, rfl⟩

/-- An operation with a state that ends has ended in each of its steps. -/
theorem run_bind_eq_ok_iff {x : StateT σ (Except ε) α} {k : α → StateT σ (Except ε) β} {s : σ}
    {r : β × σ} : (x >>= k) s = .ok r ↔ ∃ a t, x s = .ok (a, t) ∧ k a t = .ok r := by
  show (x s >>= fun p => k p.1 p.2) = _ ↔ _
  rw [bind_eq_ok_iff, Prod.exists]

section Fallible

variable {x : ExceptT Error (StateT σ (Except Fault)) α}
  {k : α → ExceptT Error (StateT σ (Except Fault)) β} {s s' s'' : σ}

theorem bind_apply (x : ExceptT Error (StateT σ (Except Fault)) α)
    (k : α → ExceptT Error (StateT σ (Except Fault)) β) (s : σ) :
    (x >>= k) s = (x s >>= fun p => ExceptT.bindCont k p.1 p.2) := rfl

/-- An operation goes on after a step that ends with a result. -/
theorem bind_eq_of_ok {a : α} (h : x s = .ok (.ok a, s')) : (x >>= k) s = k a s' := by
  rw [bind_apply, h]
  rfl

/-- An operation ends in an error as soon as one of its steps does. -/
theorem bind_eq_of_error {error : Error} (h : x s = .ok (.error error, s')) :
    (x >>= k) s = .ok (.error error, s') := by
  rw [bind_apply, h]
  rfl

/-- An operation that ended with a result did so in each of its steps. -/
theorem exists_of_bind_eq_ok {b : β} (h : (x >>= k) s = .ok (.ok b, s'')) :
    ∃ a s', x s = .ok (.ok a, s') ∧ k a s' = .ok (.ok b, s'') := by
  rw [bind_apply] at h
  cases hx : x s with
  | error fault =>
    rw [hx] at h
    cases h
  | ok p =>
    obtain ⟨outcome, s'⟩ := p
    rw [hx] at h
    cases outcome with
    | error error => cases h
    | ok a => exact ⟨a, s', rfl, h⟩

end Fallible

/-! ## Reading in an attempt -/

section Reading

variable {x : Scan α} {a : α} {c c' : Context}

theorem scan_of_ok (h : x = .ok a) (c : Context) :
    (liftM x : Attempt α) c = .ok (.ok a, c) := by
  rw [h]
  rfl

theorem scan_of_refused {cause : ParseError} (h : x = .error (.refused cause)) (c : Context) :
    (liftM x : Attempt α) c = .ok (.error (.parse cause), c) := by
  rw [h]
  rfl

/-- An attempt that reads something has a result where reading has one. -/
theorem scan_eq_ok_iff : (liftM x : Attempt α) c = .ok (.ok a, c') ↔ x = .ok a ∧ c' = c := by
  constructor
  · intro h
    cases x with
    | ok b =>
      cases h
      exact ⟨rfl, rfl⟩
    | error stop => cases stop <;> cases h
  · rintro ⟨h, rfl⟩
    exact scan_of_ok h _

end Reading

/-- An operation meets no fault and ends as required. -/
def Yields (x : StateT σ (Except ε) α) (s : σ) (Q : α → σ → Prop) : Prop :=
  ∃ a t, x s = .ok (a, t) ∧ Q a t

namespace Yields

variable {x : StateT σ (Except ε) α} {k : α → StateT σ (Except ε) β} {s : σ}

theorem mono {Q R : α → σ → Prop} (h : Yields x s Q) (hQR : ∀ a t, Q a t → R a t) :
    Yields x s R := by
  obtain ⟨a, t, hx, hq⟩ := h
  exact ⟨a, t, hx, hQR a t hq⟩

theorem pure {a : α} {Q : α → σ → Prop} (h : Q a s) :
    Yields (Pure.pure a : StateT σ (Except ε) α) s Q :=
  ⟨a, s, rfl, h⟩

/-- One operation after another yields what the second one yields in the states that the first one
ends in. -/
theorem bind {Q : β → σ → Prop} (h : Yields x s fun a t => Yields (k a) t Q) :
    Yields (x >>= k) s Q := by
  obtain ⟨a, t, hx, b, u, hk, hq⟩ := h
  refine ⟨b, u, ?_, hq⟩
  show (x s >>= fun p => k p.1 p.2) = _
  rw [hx]
  exact hk

theorem get {Q : σ → σ → Prop} (h : Q s s) :
    Yields (MonadState.get : StateT σ (Except ε) σ) s Q :=
  ⟨s, s, rfl, h⟩

theorem set {t : σ} {Q : PUnit → σ → Prop} (h : Q ⟨⟩ t) :
    Yields (MonadStateOf.set t : StateT σ (Except ε) PUnit) s Q :=
  ⟨⟨⟩, t, rfl, h⟩

theorem modifyGet {f : σ → α × σ} {Q : α → σ → Prop} (h : Q (f s).1 (f s).2) :
    Yields (MonadState.modifyGet f : StateT σ (Except ε) α) s Q :=
  ⟨(f s).1, (f s).2, rfl, h⟩

/-- A computation that does not look at the state. -/
theorem lift {e : Except ε α} {a : α} {Q : α → σ → Prop} (he : e = .ok a) (h : Q a s) :
    Yields (liftM e : StateT σ (Except ε) α) s Q := by
  subst he
  exact ⟨a, s, rfl, h⟩

/-- A computation that does not look at the context. -/
theorem lift_work {e : Except Fault α} {a : α} {c : Context} {Q : α → Context → Prop}
    (he : e = .ok a) (h : Q a c) : Yields (liftM e : Work α) c Q := by
  subst he
  exact ⟨a, c, rfl, h⟩

/-- Building in the forest of a context changes nothing else in it. -/
theorem lift_build {b : Build α} {c : Context} {Q : α → Context → Prop}
    (h : Yields b c.forest fun a forest => Q a { c with forest }) :
    Yields (liftM b : Work α) c Q := by
  obtain ⟨a, forest, hb, hq⟩ := h
  refine ⟨a, { c with forest }, ?_, hq⟩
  show (b c.forest >>= fun p => Except.ok (p.1, { c with forest := p.2 })) = _
  rw [hb]
  rfl

/-- One step after another, with a second state that the steps hand on. -/
theorem bind_run {τ : Type} {y : StateT τ (StateT σ (Except ε)) α}
    {l : α → StateT τ (StateT σ (Except ε)) β} {r : τ} {Q : β × τ → σ → Prop}
    (h : Yields (y r) s fun p t => Yields (l p.1 p.2) t Q) : Yields ((y >>= l) r) s Q :=
  bind h

/-- A step that leaves the second state alone. -/
theorem lift_run {τ : Type} {r : τ} {Q : α × τ → σ → Prop}
    (h : Yields x s fun a t => Q (a, r) t) :
    Yields ((liftM x : StateT τ (StateT σ (Except ε)) α) r) s Q := by
  obtain ⟨a, t, hx, hq⟩ := h
  refine ⟨(a, r), t, ?_, hq⟩
  show (x s >>= fun p => Except.ok ((p.1, r), p.2)) = _
  rw [hx]
  rfl

/-- Following an operation through a list, with what holds after each element. -/
theorem foldlM {γ : Type} {step : β → γ → StateT σ (Except ε) β} {l : List γ} {acc : β}
    (P : List γ → β → σ → Prop) (start : P [] acc s)
    (next : ∀ done a rest acc s, l = done ++ a :: rest → P done acc s →
      Yields (step acc a) s (P (done ++ [a]))) :
    Yields (l.foldlM step acc) s (P l) :=
  foldlM_of_laws .pure (fun h hk => .bind (h.mono hk)) P start next

/-- Following a test through a list, with what holds of the elements that have been kept. -/
theorem filterM {γ : Type} {test : γ → StateT σ (Except ε) Bool} {l : List γ}
    (P : List γ → List γ → σ → Prop) (start : P [] [] s)
    (next : ∀ done a kept s, a ∈ l → P done kept s →
      Yields (test a) s fun b t => P (done ++ [a]) (if b then kept ++ [a] else kept) t) :
    Yields (l.filterM test) s (P l) := by
  have hrun : ∀ (rest done kept : List γ) (s : σ), l = done ++ rest → P done kept s →
      Yields (List.filterAuxM test rest kept.reverse) s fun result t => P l result.reverse t := by
    intro rest
    induction rest with
    | nil =>
      intro done kept s hl h
      rw [List.append_nil] at hl
      rw [hl]
      exact .pure (by rwa [List.reverse_reverse])
    | cons a rest ih =>
      intro done kept s hl h
      refine bind ((next done a kept s (by simp [hl]) h).mono fun b t h' => ?_)
      have hstep := ih (done ++ [a]) _ t (by simpa using hl) h'
      cases b with
      | false => exact hstep
      | true => simpa using hstep
  exact bind ((hrun l [] [] s rfl start).mono fun _ _ h => .pure h)

end Yields

/-- An operation that may end in an error does not, and ends as required. -/
def Succeeds (x : Attempt α) (c : Context) (Q : α → Context → Prop) : Prop :=
  ∃ a c', x c = .ok (.ok a, c') ∧ Q a c'

namespace Succeeds

variable {x : Attempt α} {k : α → Attempt β} {c : Context}

theorem mono {Q R : α → Context → Prop} (h : Succeeds x c Q) (hQR : ∀ a t, Q a t → R a t) :
    Succeeds x c R := by
  obtain ⟨a, t, hx, hq⟩ := h
  exact ⟨a, t, hx, hQR a t hq⟩

theorem pure {a : α} {Q : α → Context → Prop} (h : Q a c) :
    Succeeds (Pure.pure a : Attempt α) c Q :=
  ⟨a, c, rfl, h⟩

/-- One attempt after another succeeds with what the second one succeeds with in the contexts that
the first one ends in. -/
theorem bind {Q : β → Context → Prop} (h : Succeeds x c fun a t => Succeeds (k a) t Q) :
    Succeeds (x >>= k) c Q := by
  obtain ⟨a, t, hx, b, u, hk, hq⟩ := h
  refine ⟨b, u, ?_, hq⟩
  show (x c >>= fun p => ExceptT.bindCont k p.1 p.2) = _
  rw [hx]
  exact hk

/-- Work that meets no fault. -/
theorem lift {w : Work α} {Q : α → Context → Prop} (h : Yields w c Q) :
    Succeeds (liftM w : Attempt α) c Q := by
  obtain ⟨a, t, hw, hq⟩ := h
  refine ⟨a, t, ?_, hq⟩
  show (w c >>= fun p => Except.ok (Except.ok p.1, p.2)) = _
  rw [hw]
  rfl

theorem get {Q : Context → Context → Prop} (h : Q c c) :
    Succeeds (MonadState.get : Attempt Context) c Q :=
  ⟨c, c, rfl, h⟩

/-- A computation that does not look at the context. -/
theorem lift_except {e : Except Fault α} {a : α} {Q : α → Context → Prop} (he : e = .ok a)
    (h : Q a c) : Succeeds (liftM e : Attempt α) c Q := by
  subst he
  exact ⟨a, c, rfl, h⟩

/-- Results that leave the context alone are collected in order. -/
theorem lift_scan {e : Scan α} {a : α} {Q : α → Context → Prop} (he : e = .ok a) (h : Q a c) :
    Succeeds (liftM e : Attempt α) c Q :=
  ⟨a, c, scan_of_ok he c, h⟩

end Succeeds

end TemporalCheck
