import Mathlib.Order.Defs.Unbundled
import TemporalCheck.Branching
import TemporalCheck.Proofs.Model
import TemporalCheck.Tableau

/-!
# TemporalCheck.Proofs.Frame

What holds of work wherever it ends, and what it leaves alone.  `Ensures x c Q` says that `Q` holds
of every result and context that `x` ends with when it is started in `c`; it may also meet a fault.
`Relates R x` says that `x` leads from every context to contexts that stand in the relation `R` to
it, whatever it is applied to.  There is a law for each way of putting work together, so that for a
preorder `R` only the smallest steps have to be looked at.

The construction of a tableau and the marking of states number variables and do nothing else
(`Tableau.relates_construct`, `Branching.relates_marking`).
-/

namespace TemporalCheck

variable {α β γ : Type}

/-! ## Work wherever it ends -/

/-- What work ends with, if it ends. -/
def Ensures (x : Work α) (c : Context) (Q : α → Context → Prop) : Prop :=
  ∀ a c', x c = .ok (a, c') → Q a c'

namespace Ensures

variable {x : Work α} {k : α → Work β} {c : Context}

theorem of_yields {Q : α → Context → Prop} (h : Yields x c Q) : Ensures x c Q := by
  intro a c' hx
  obtain ⟨a', c'', hx', hq⟩ := h
  cases hx.symm.trans hx'
  exact hq

theorem mono {P Q : α → Context → Prop} (h : Ensures x c P) (himp : ∀ a c', P a c' → Q a c') :
    Ensures x c Q :=
  fun a c' hx => himp a c' (h a c' hx)

theorem and {P Q : α → Context → Prop} (h : Ensures x c P) (h' : Ensures x c Q) :
    Ensures x c fun a c' => P a c' ∧ Q a c' :=
  fun a c' hx => ⟨h a c' hx, h' a c' hx⟩

theorem pure {a : α} {Q : α → Context → Prop} (h : Q a c) : Ensures (Pure.pure a : Work α) c Q :=
  .of_yields (.pure h)

theorem get {Q : Context → Context → Prop} (h : Q c c) :
    Ensures (MonadState.get : Work Context) c Q :=
  .of_yields (.get h)

theorem bind {Q : β → Context → Prop} (h : Ensures x c fun a c' => Ensures (k a) c' Q) :
    Ensures (x >>= k) c Q := by
  intro b c' hx
  obtain ⟨a, c₁, hfirst, hrest⟩ := run_bind_eq_ok_iff.1 hx
  exact h a c₁ hfirst b c' hrest

/-- A computation that does not look at the context. -/
theorem lift {e : Except Fault α} {Q : α → Context → Prop} (h : ∀ a, e = .ok a → Q a c) :
    Ensures (liftM e : Work α) c Q := by
  cases e with
  | error fault => exact fun a c' hx => nomatch hx
  | ok a => exact .of_yields (.lift_work rfl (h a rfl))

/-- Following work through a list, with what holds after each element. -/
theorem foldlM {step : β → γ → Work β} {l : List γ} {acc : β} (P : List γ → β → Context → Prop)
    (start : P [] acc c) (next : ∀ done a acc c, a ∈ l → P done acc c →
      Ensures (step acc a) c (P (done ++ [a]))) :
    Ensures (l.foldlM step acc) c (P l) :=
  foldlM_of_laws .pure (fun h hk => .bind (h.mono hk)) P start
    fun done a _ acc c hl h => next done a acc c (by simp [hl]) h

/-! An operation that may end in an error is work with one more outcome. -/

/-- An attempt after another one is reached only if that one has a result; an error of the first one
is that of both. -/
theorem bind_attempt {y : Attempt α} {k : α → Attempt β} {P : Except Error α → Context → Prop}
    {Q : Except Error β → Context → Prop} (h : Ensures y.run c P)
    (hok : ∀ a c', P (.ok a) c' → Ensures (k a).run c' Q)
    (herror : ∀ error c', P (.error error) c' → Q (.error error) c') :
    Ensures (y >>= k).run c Q := by
  refine bind (h.mono fun outcome c' h' => ?_)
  cases outcome with
  | error error => exact .pure (herror error c' h')
  | ok a => exact hok a c' h'

theorem lift_attempt {Q : Except Error α → Context → Prop}
    (h : Ensures x c fun a c' => Q (.ok a) c') : Ensures (liftM x : Attempt α).run c Q :=
  bind (h.mono fun _ _ h' => .pure h')

theorem bind_lift {k : α → Attempt β} {Q : Except Error β → Context → Prop}
    (h : Ensures x c fun a c' => Ensures (k a).run c' Q) :
    Ensures ((liftM x : Attempt α) >>= k).run c Q :=
  bind (lift_attempt h)

theorem lift_except {e : Except Fault α} {Q : Except Error α → Context → Prop}
    (h : ∀ a, e = .ok a → Q (.ok a) c) : Ensures (liftM e : Attempt α).run c Q := by
  cases e with
  | error fault => exact fun _ _ hx => nomatch hx
  | ok a => exact of_yields ⟨.ok a, c, rfl, h a rfl⟩

theorem bind_except {e : Except Fault α} {k : α → Attempt β}
    {Q : Except Error β → Context → Prop} (h : ∀ a, e = .ok a → Ensures (k a).run c Q) :
    Ensures ((liftM e : Attempt α) >>= k).run c Q :=
  bind (lift_except h)

theorem bind_get {k : Context → Attempt β} {Q : Except Error β → Context → Prop}
    (h : Ensures (k c).run c Q) : Ensures ((MonadState.get : Attempt Context) >>= k).run c Q :=
  h

/-- Results that leave the context alone are collected. -/
theorem mapM_attempt {l : List γ} {g : γ → Attempt β}
    (hg : ∀ a, Ensures (g a).run c fun outcome c' => (∃ b, outcome = .ok b) ∧ c' = c) :
    Ensures (l.mapM g).run c fun outcome c' => (∃ bs, outcome = .ok bs) ∧ c' = c := by
  induction l with
  | nil => exact pure ⟨⟨[], rfl⟩, rfl⟩
  | cons a l ih =>
    rw [List.mapM_cons]
    refine bind_attempt (hg a) (fun b c₁ h => ?_) (by simp)
    obtain ⟨-, rfl⟩ := h
    exact bind_attempt ih (fun bs c₂ h => pure ⟨⟨b :: bs, rfl⟩, h.2⟩) (by simp)

end Ensures

/-! ## Work that leaves something alone -/

/-- Work that leads to contexts in a relation to those that it is started in. -/
def Relates (R : Context → Context → Prop) (x : Work α) : Prop :=
  ∀ c, Ensures x c fun _ c' => R c c'

instance : IsPreorder Context Context.Grows where
  refl := .refl
  trans _ _ _ := .trans

instance : IsPreorder Context Context.Learns where
  refl := .refl
  trans _ _ _ := .trans

namespace Relates

variable {R : Context → Context → Prop} {x : Work α} {k : α → Work β}

theorem of_yields (h : ∀ c, Yields x c fun _ c' => R c c') : Relates R x :=
  fun c => .of_yields (h c)

theorem mono {R' : Context → Context → Prop} (h : Relates R x) (himp : ∀ c c', R c c' → R' c c') :
    Relates R' x :=
  fun c => (h c).mono fun _ c' => himp c c'

theorem throw (fault : Fault) : Relates R (MonadExcept.throw fault : Work α) :=
  fun _ _ _ h => nomatch h

variable [IsPreorder Context R]

theorem pure (a : α) : Relates R (Pure.pure a : Work α) := fun c => .pure (refl_of R c)

theorem get : Relates R (MonadState.get : Work Context) := fun c => .get (refl_of R c)

theorem bind (hx : Relates R x) (hk : ∀ a, Relates R (k a)) : Relates R (x >>= k) := fun c =>
  .bind ((hx c).mono fun a c₁ h => (hk a c₁).mono fun _ _ h' => trans_of R h h')

/-- A computation that does not look at the context. -/
theorem lift (e : Except Fault α) : Relates R (liftM e : Work α) :=
  fun c => .lift fun _ _ => refl_of R c

/-- Work on each element of a list goes through related contexts. -/
theorem mapM {l : List γ} {g : γ → Work β} (hg : ∀ a, Relates R (g a)) : Relates R (l.mapM g) := by
  induction l with
  | nil => exact pure _
  | cons a l ih =>
    rw [List.mapM_cons]
    exact (hg a).bind fun b => ih.bind fun bs => pure _

/-- The same for work whose results may be dropped. -/
theorem filterMapM {l : List γ} {g : γ → Work (Option β)} (hg : ∀ a, Relates R (g a)) :
    Relates R (l.filterMapM g) := by
  induction l with
  | nil => exact pure _
  | cons a l ih =>
    rw [List.filterMapM_cons]
    refine (hg a).bind fun o => ?_
    cases o with
    | none => exact ih
    | some b => exact ih.bind fun bs => pure _

theorem foldlM {l : List γ} {step : β → γ → Work β} (h : ∀ acc a, Relates R (step acc a))
    (acc : β) : Relates R (l.foldlM step acc) := fun c =>
  .foldlM (fun _ _ c' => R c c') (refl_of R c) fun _ a acc c₁ _ h₁ =>
    (h acc a c₁).mono fun _ _ h₂ => trans_of R h₁ h₂

theorem bind_attempt {y : Attempt α} {k : α → Attempt β} (hy : Relates R y.run)
    (hk : ∀ a, Relates R (k a).run) : Relates R (y >>= k).run := fun c =>
  .bind_attempt (hy c) (fun a c₁ h => (hk a c₁).mono fun _ _ h' => trans_of R h h') fun _ _ h => h

theorem lift_attempt (hx : Relates R x) : Relates R (liftM x : Attempt α).run := by
  show Relates R (x >>= fun a => Pure.pure (Except.ok a))
  exact hx.bind fun a => pure _

/-- A reader does not look at the context. -/
theorem lift_scan (e : Scan α) : Relates R (liftM e : Attempt α).run := by
  match e with
  | .ok a => exact pure (Except.ok a)
  | .error (.refused cause) => exact pure (Except.error (Error.parse cause))
  | .error (.broken fault) => exact throw fault

theorem lift_except (e : Except Fault α) : Relates R (liftM e : Attempt α).run :=
  lift_scan (liftM e)

theorem get_attempt : Relates R (MonadState.get : Attempt Context).run :=
  .of_yields fun c => ⟨.ok c, c, rfl, refl_of R c⟩

/-- Attempts for each element of a list go through related contexts, also where one of them ends in
an error. -/
theorem mapM_attempt {l : List γ} {g : γ → Attempt β} (hg : ∀ a, Relates R (g a).run) :
    Relates R (l.mapM g).run := by
  induction l with
  | nil => exact pure (Except.ok [])
  | cons a l ih =>
    rw [List.mapM_cons]
    exact (hg a).bind_attempt fun b => ih.bind_attempt fun bs => pure (Except.ok (b :: bs))

end Relates

/-! ## Numbering variables -/

namespace Work

open Context (Grows)

theorem relates_node (id : NodeId) : Relates Grows (node id) := Relates.get.bind fun _ => .lift _

theorem relates_var (name : String) : Relates Grows (var name) :=
  .of_yields fun c => (yields_var name c).mono fun _ _ h => h.1

theorem relates_atom? (node : Node) : Relates Grows (atom? node) :=
  .of_yields fun c => (yields_atom? node c).mono fun _ _ h => h.grows

theorem relates_literal? (id : NodeId) : Relates Grows (literal? id) := by
  refine (relates_node id).bind fun node => ?_
  split
  · exact (relates_node _).bind fun arg => (relates_atom? arg).bind fun l => .pure _
  · exact relates_atom? _

end Work

/-! ## The construction of a tableau -/

open Context (Grows)

/-- Working off a subformula of a cover does no more to the context than number variables. -/
theorem Cover.relates_step (cover : Cover) : Relates Grows cover.step := by
  unfold Cover.step
  split
  · exact .pure _
  · next e rest _ =>
    by_cases hmem : e ∈ cover.old
    · rw [if_pos hmem]
      exact .pure _
    · rw [if_neg hmem]
      refine (Work.relates_literal? e).bind fun l => ?_
      split
      · exact .pure _
      · exact Relates.get.bind fun _ => .pure _
      · exact (Work.relates_node _).bind fun node => (Relates.lift _).bind fun _ => .pure _

namespace Tableau

/-- Expanding covers into states numbers variables and does nothing else to the context. -/
theorem relates_complete (fuel : Nat) (t : Tableau) : Relates Grows (complete fuel t) := by
  induction fuel generalizing t with
  | zero => exact .pure _
  | succ n ih =>
    unfold complete
    split
    · exact .pure _
    · refine (Cover.relates_step _).bind fun step => ?_
      cases step with
      | finished => exact ih _
      | branches covers => exact ih _

/-- Making the automaton of a formula numbers variables and does nothing else to the context. -/
theorem relates_construct (root : NodeId) : Relates Grows (construct root) := by
  refine Relates.get.bind fun _ => (relates_complete _ _).bind fun covers => ?_
  have hstates : ∀ p : Cover × Nat, Relates Grows (toState (#[({} : Cover)] ++ covers) p.2 p.1) :=
    fun p => (Relates.filterMapM Work.relates_literal?).bind fun _ => .pure _
  refine (Relates.mapM hstates).bind fun states => Relates.get.bind fun _ => ?_
  refine (Relates.lift _).bind fun subformulas => ?_
  refine (Relates.filterMapM fun u => (Work.relates_node u).bind fun node => ?_).bind
    fun acceptSets => .pure _
  split
  · exact .pure _
  · exact .pure _

end Tableau

/-! ## Marking -/

/-- Marking states for a subformula numbers its variable, if it is one, and does nothing else to the
context. -/
theorem Branching.relates_marking (m : Model) (operand : Nat → Except Fault NatSet) (node : Node) :
    Relates Grows (marking m operand node) := by
  unfold marking
  split
  case h_3 name => exact (Work.relates_var name).bind fun v => .lift _
  case h_4 => exact (Relates.lift _).bind fun _ => .pure _
  case h_5 => exact (Relates.lift _).bind fun _ => (Relates.lift _).bind fun _ => .pure _
  case h_6 | h_7 => exact (Relates.lift _).bind fun _ => .lift _
  case h_8 => exact (Relates.lift _).bind fun _ => (Relates.lift _).bind fun _ => .lift _
  case h_9 => exact .throw _
  all_goals exact .pure _

end TemporalCheck
