import Mathlib.Order.Bounds.Defs
import TemporalCheck.Proofs.Branching.Labelling

/-!
# TemporalCheck.Proofs.Branching.Sweeps

The sweeps for `AF` and `E[ U ]` find least sets, on every model: states without successors and
successors that are not declared are allowed.  A sweep reads marks that it has made itself, so what
is marked after a number of sweeps depends on the order of the states; what is marked in the end
does not (`Branching.MarksLeast`).

The loop has no bound of its own.  Every sweep but the last marks a state, so it ends, and the bound
that it is run with is never what ends it (`Branching.exists_last_sweep`).  A state is marked once,
so a labelling that shows its progress has one line for each marked state
(`Branching.sweeps_mark_least`).
-/

namespace TemporalCheck

/-- A state has another one among its declared successors. -/
def Model.HasSuccessor (m : Model) (s t : Nat) : Prop :=
  ∃ p, m.states[s]? = some p ∧ ∃ target ∈ p.2.successors, m.index? target = some t

namespace Branching

variable {n : Nat} {reason : Marks → Nat → Except Fault Bool} {why : Marks → Nat → Bool}
  {m m' : Marking}

/-! ## The end of the loop -/

/-- A sweep that marks a state is followed by another. -/
theorem saturate_of_lt (h : sweep n reason m = .ok m') (hlt : m.order.length < m'.order.length)
    (bound : Nat) : saturate n reason (bound + 1) m = saturate n reason bound m' := by
  rw [saturate, bind_of_eq_ok h, if_neg (Nat.ne_of_gt hlt)]

/-- A sweep that changes nothing is the last. -/
theorem saturate_of_eq (h : sweep n reason m = .ok m) (bound : Nat) :
    saturate n reason bound m = .ok m := by
  cases bound with
  | zero => rfl
  | succ bound =>
    rw [saturate, bind_of_eq_ok h, if_pos rfl]
    rfl

/-- The sweeps from `m` on until one of them, the last, changes nothing: `rounds j` is what `j`
sweeps have marked, and each of the `k` sweeps before the last marks a state.  The loop ends with
the last sweep under every bound that allows so many. -/
structure EndsAfter (n : Nat) (reason : Marks → Nat → Except Fault Bool) (m : Marking) (k : Nat)
    (rounds : Nat → Marking) : Prop where
  first : rounds 0 = m
  sweep_eq : ∀ j ≤ k, sweep n reason (rounds j) = .ok (rounds (j + 1))
  marks : ∀ j < k, (rounds j).order.length < (rounds (j + 1)).order.length
  last : rounds (k + 1) = rounds k
  saturate_eq : ∀ bound, k ≤ bound → saturate n reason bound m = .ok (rounds k)

/-- One more sweep in front. -/
theorem EndsAfter.cons {k : Nat} {rounds : Nat → Marking} (h : EndsAfter n reason m' k rounds)
    (hsweep : sweep n reason m = .ok m') (hlt : m.order.length < m'.order.length) :
    EndsAfter n reason m (k + 1) fun j => j.casesOn m rounds where
  first := rfl
  sweep_eq j hj := by
    cases j with
    | zero => exact hsweep.trans (congrArg Except.ok h.first.symm)
    | succ j => exact h.sweep_eq j (Nat.le_of_succ_le_succ hj)
  marks j hj := by
    cases j with
    | zero =>
      show m.order.length < (rounds 0).order.length
      rwa [h.first]
    | succ j => exact h.marks j (Nat.lt_of_succ_lt_succ hj)
  last := h.last
  saturate_eq bound hbound := by
    obtain ⟨bound, rfl⟩ := Nat.exists_eq_add_of_le' (Nat.le_of_add_left_le hbound)
    rw [saturate_of_lt hsweep hlt]
    exact h.saturate_eq bound (Nat.le_of_succ_le_succ hbound)

/-- There is a last sweep, before which there are no more sweeps than states without a mark. -/
theorem exists_last_sweep (h : Answers n reason why) (hm : m.Consistent n) :
    ∃ k rounds, m.order.length + k ≤ n ∧ EndsAfter n reason m k rounds := by
  induction hleft : n - m.order.length using Nat.strong_induction_on generalizing m with
  | _ left ih =>
    subst hleft
    obtain ⟨m', hsweep, hm', hlt | ⟨rfl, -⟩⟩ := exists_sweep h (preserved_consistent n why) hm
    · have hle := hm'.length_le
      obtain ⟨k, rounds, hk, hends⟩ := ih _ (by omega) hm' rfl
      exact ⟨k + 1, _, by omega, hends.cons hsweep hlt⟩
    · refine ⟨0, fun _ => m', hm.length_le, rfl, fun j hj => ?_, fun j hj => ?_, rfl,
        fun bound _ => saturate_of_eq hsweep bound⟩
      · exact hsweep
      · exact absurd hj (Nat.not_lt_zero j)

/-! ## Least sets -/

/-- The sweeps over `n` states end and mark `marked`, in this order: each of them but the last marks
a state, and no bound that allows all of them changes what is marked.  No state is marked twice, and
the marked states are the least set that is closed. -/
structure MarksLeast (n : Nat) (reason : Marks → Nat → Except Fault Bool)
    (IsClosed : Set Nat → Prop) (marked : List Nat) : Prop where
  ends : ∃ k ≤ n, ∃ rounds, EndsAfter n reason (.start n) k rounds ∧
    (rounds k).order.reverse = marked
  nodup : marked.Nodup
  lt : ∀ s ∈ marked, s < n
  least : IsLeast {Z | IsClosed Z} {s | s ∈ marked}

/-- Where more marks give no fewer reasons, the sweeps mark the least set that has every state for
which it gives a reason. -/
theorem exists_marksLeast {R : Set Nat → Nat → Prop} (h : Answers n reason why)
    (mono : ∀ Y Z s, Y ⊆ Z → R Y s → R Z s)
    (hwhy : ∀ marks s, why marks s = true ↔ R {t | marks.has t = true} s) :
    ∃ marked, leastMarks n reason = .ok marked ∧
      MarksLeast n reason (fun Z => ∀ s < n, R Z s → s ∈ Z) marked := by
  obtain ⟨marked, hmarked, hleast⟩ := exists_leastMarks h
  refine ⟨marked, hmarked, ?_, hleast.nodup, hleast.lt, ?_, fun Z hZ s hs => ?_⟩
  · obtain ⟨k, rounds, hk, hends⟩ := exists_last_sweep h (Marking.consistent_start n)
    have hk : k ≤ n := by simpa [Marking.start] using hk
    refine ⟨k, hk, rounds, hends, ?_⟩
    rw [leastMarks, bind_of_eq_ok (hends.saturate_eq (n + 1) (Nat.le_succ_of_le hk))] at hmarked
    exact Except.ok.inj hmarked
  · obtain ⟨marks, hmem, hclosed⟩ := hleast.closed
    have hset : {t | marks.has t = true} = {s | s ∈ marked} := Set.ext hmem
    exact fun s hs hR => hclosed s hs ((hwhy marks s).2 (hset ▸ hR))
  · refine hleast.induction (· ∈ Z) (fun marks s hlt hmarks hgiven => ?_) s hs
    exact hZ s hlt (mono _ Z s hmarks ((hwhy marks s).1 hgiven))

/-! ## Marks for `AF` and `E[ U ]` -/

section Operators

variable (model : Model) (holds holds₁ holds₂ : NatSet)

/-- A set of states has the states in which the operand holds, and those all of whose declared
successors it has. -/
def IsFinallyClosed (Z : Set Nat) : Prop :=
  ∀ s < model.size, (s ∈ holds ∨ ∀ t, model.HasSuccessor s t → t ∈ Z) → s ∈ Z

/-- A set of states has the states in which the second operand holds, and those in which the first
holds and that have a declared successor in it. -/
def IsUntilClosed (Z : Set Nat) : Prop :=
  ∀ s < model.size, (s ∈ holds₂ ∨ s ∈ holds₁ ∧ ∃ t, model.HasSuccessor s t ∧ t ∈ Z) → s ∈ Z

variable {model} in
theorem mem_targets_iff_hasSuccessor {s t : Nat} :
    t ∈ model.targets s ↔ model.HasSuccessor s t := by
  have hstep : t ∈ model.targets s ↔ (model.toStructure {}).Step s t := Model.mem_targets_iff
  rw [hstep]
  simp only [Model.toStructure, Model.HasSuccessor, List.mem_filterMap, Prod.exists]

/-- The sweeps for `AF` end with the least set of states that is closed under its reason. -/
theorem exists_marksLeast_finally :
    ∃ marked, leastMarks model.size (finallyReason model (holds.lookup model.size)) = .ok marked ∧
      MarksLeast model.size (finallyReason model (holds.lookup model.size))
        (IsFinallyClosed model holds) marked := by
  refine exists_marksLeast (answers_finallyReason model holds)
    (R := fun Z s => s ∈ holds ∨ ∀ t, model.HasSuccessor s t → t ∈ Z) ?_ fun marks s => ?_
  · exact fun Y Z s hsub hR => hR.imp_right fun hall t ht => hsub (hall t ht)
  · simp [mem_targets_iff_hasSuccessor]

/-- The sweeps for `E(U)` end with the least set of states that is closed under its reason. -/
theorem exists_marksLeast_until :
    ∃ marked, leastMarks model.size
        (untilReason model (holds₁.lookup model.size) (holds₂.lookup model.size)) = .ok marked ∧
      MarksLeast model.size
        (untilReason model (holds₁.lookup model.size) (holds₂.lookup model.size))
        (IsUntilClosed model holds₁ holds₂) marked := by
  refine exists_marksLeast (answers_untilReason model holds₁ holds₂)
    (R := fun Z s => s ∈ holds₂ ∨ s ∈ holds₁ ∧ ∃ t, model.HasSuccessor s t ∧ t ∈ Z) ?_
    fun marks s => ?_
  · rintro Y Z s hsub (hnow | ⟨hfirst, t, hstep, ht⟩)
    · exact .inl hnow
    · exact .inr ⟨hfirst, t, hstep, hsub ht⟩
  · simp [mem_targets_iff_hasSuccessor]

end Operators

/-! ## Labelling -/

/-- A labelling has got the marks for one more subformula, and a line for each of them, in order, if
progress is shown. -/
structure Labelling.Gains (model : Model) (text : String) (showProgress : Bool) (l : Labelling)
    (marked : List Nat) (l' : Labelling) : Prop where
  marks_eq : l'.marks = l.marks ++ [.ofList marked]
  unused_eq : l'.unused = l.unused
  progress : ∃ lines, l'.progress = l.progress ++ lines ∧ (showProgress = false → lines = []) ∧
    (showProgress = true → List.Forall₂ (Reports model text) marked lines)

variable {model : Model} {c : Context} {id : NodeId} {e : Expr} {marked : List Nat}

/-- Adding a subformula that is no variable adds its marks and their lines. -/
theorem yields_add_gains {node : Node} (l : Labelling) (subs : Subformulas)
    (hden : c.forest.Denotes id e) (hnode : c.forest.node? id = some node)
    (hprop : ∀ name, node ≠ .prop name) (showProgress : Bool)
    (hmarking : Yields (marking model (l.operand subs c.forest id) node) c
      fun found c' => found = marked ∧ c' = c)
    (hlt : ∀ s ∈ marked, s < model.size) :
    Yields (l.add model subs showProgress id) c fun l' c' =>
      c' = c ∧ l.Gains model (e.render c.allParens) showProgress marked l' := by
  refine .bind ((Work.yields_node hnode).mono fun n c₁ h => ?_)
  obtain ⟨rfl, rfl⟩ := h
  extract_lets rest
  have hrest : Yields (rest []) c₁ fun l' c' =>
      c' = c₁ ∧ l.Gains model (e.render c₁.allParens) showProgress marked l' := by
    refine .bind (.get (.bind (hmarking.mono fun found c' h => ?_)))
    obtain ⟨rfl, rfl⟩ := h
    split
    · next hshow =>
      rw [Bool.and_eq_true] at hshow
      refine .bind (.get (.bind (.lift_work (Formula.renderNode_of_denotes hden) (.bind ?_))))
      refine (yields_progress model _ hlt).mono fun lines c' hlines => .pure ?_
      refine ⟨hlines.1, rfl, List.append_nil _, lines, rfl, fun hhide => ?_, fun _ => hlines.2⟩
      rw [hshow.1] at hhide
      cases hhide
    · next hshow =>
      refine .bind (.pure (.pure ⟨rfl, rfl, List.append_nil _, [], rfl, fun _ => rfl, ?_⟩))
      intro hon
      -- Progress is shown, so there is nothing to report.
      have hempty : found = [] := by simpa [hon] using hshow
      rw [hempty]
      exact .nil
  cases n with
  | prop name => exact absurd rfl (hprop name)
  | _ => exact .bind (.pure hrest)

/-- **Sweeps mark least sets and end.**  On every model and over any sets of states in which the
operands hold, the sweeps for `AF` end with the least set that has the states in which the operand
holds and all states whose declared successors all belong to it; the sweeps for `E[ U ]` end with
the least set that has the states in which the second operand holds and all states in which the
first holds and that have a declared successor in it.  No state is marked twice, so the progress of
the labelling has one line for each marked state. -/
theorem sweeps_mark_least (model : Model) (l : Labelling) (subs : Subformulas)
    (showProgress : Bool) (h : c.forest.Denotes id e) :
    (∀ a holds, c.forest.node? id = some (.unary .allFinally a) → l.marksOf subs a = .ok holds →
      ∃ marked l', l.add model subs showProgress id c = .ok (l', c) ∧
        l.Gains model (e.render c.allParens) showProgress marked l' ∧
        MarksLeast model.size (finallyReason model (holds.lookup model.size))
          (IsFinallyClosed model holds) marked) ∧
    ∀ a b holds₁ holds₂, c.forest.node? id = some (.binary .existsUntil a b) →
      l.marksOf subs a = .ok holds₁ → l.marksOf subs b = .ok holds₂ →
      ∃ marked l', l.add model subs showProgress id c = .ok (l', c) ∧
        l.Gains model (e.render c.allParens) showProgress marked l' ∧
        MarksLeast model.size
          (untilReason model (holds₁.lookup model.size) (holds₂.lookup model.size))
          (IsUntilClosed model holds₁ holds₂) marked := by
  constructor
  · intro a holds hnode hholds
    obtain ⟨marked, hmarked, hleast⟩ := exists_marksLeast_finally model holds
    have hoperand : l.operand subs c.forest id 0 = .ok holds := (operand_eq hnode rfl).trans hholds
    obtain ⟨l', _, hadd, rfl, hgains⟩ := yields_add_gains l subs h hnode
      (fun name => Node.noConfusion) showProgress
      (.bind (.lift_work hoperand (.lift_work hmarked ⟨rfl, rfl⟩))) hleast.lt
    exact ⟨marked, l', hadd, hgains, hleast⟩
  · intro a b holds₁ holds₂ hnode hholds₁ hholds₂
    obtain ⟨marked, hmarked, hleast⟩ := exists_marksLeast_until model holds₁ holds₂
    have hoperand₁ : l.operand subs c.forest id 0 = .ok holds₁ :=
      (operand_eq hnode rfl).trans hholds₁
    have hoperand₂ : l.operand subs c.forest id 1 = .ok holds₂ :=
      (operand_eq hnode rfl).trans hholds₂
    obtain ⟨l', _, hadd, rfl, hgains⟩ := yields_add_gains l subs h hnode
      (fun name => Node.noConfusion) showProgress (.bind (.lift_work hoperand₁
        (.bind (.lift_work hoperand₂ (.lift_work hmarked ⟨rfl, rfl⟩))))) hleast.lt
    exact ⟨marked, l', hadd, hgains, hleast⟩

/-- A state in a loop, a state without successors, and a state with a successor that is not
declared. -/
def stuck : Model where
  states := [(1, { successors := [1, 2] }), (2, {}), (3, { successors := [2, 7] })]

/-- The sweeps for `AF p` on the model `stuck`, where `p` holds in the third state. -/
theorem sweeps_mark_least_stuck :
    let c : Context := { forest := { slots := #[some (.prop "p"), some (.unary .allFinally 0)] } }
    let e : Expr := .unary .allFinally (.prop "p")
    let holds : NatSet := .ofList [2]
    let l : Labelling := { marks := [holds] }
    let subs : Subformulas := ⟨[0, 1], [(1, 1), (0, 0)]⟩
    c.forest.Denotes 1 e ∧ c.forest.node? 1 = some (.unary .allFinally 0) ∧
    Subformulas.ofRoot c.forest 1 = .ok subs ∧ l.marksOf subs 0 = .ok holds ∧
    ∃ marked l', l.add stuck subs true 1 c = .ok (l', c) ∧
      l.Gains stuck (e.render c.allParens) true marked l' ∧
      MarksLeast stuck.size (finallyReason stuck (holds.lookup stuck.size))
        (IsFinallyClosed stuck holds) marked := by
  intro c e holds l subs
  have hstored : c.forest.Denotes 1 e := Forest.denotes_of_tree rfl
  exact ⟨hstored, rfl, rfl, rfl, (sweeps_mark_least stuck l subs true hstored).1 0 holds rfl rfl⟩

end Branching

end TemporalCheck
