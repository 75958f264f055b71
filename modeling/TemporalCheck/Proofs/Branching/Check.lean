import TemporalCheck.Proofs.Branching.Labelling
import TemporalCheck.Proofs.Handle
import TemporalCheck.Proofs.Meaning

/-!
# TemporalCheck.Proofs.Branching.Check

Checking a model against a branching-time formula.  On a model in which no path ends, a check labels
every subformula of the normal form with the states in which it holds, and its verdict names the
initial states in which the formula fails (`Branching.check_labels_correctly`).
-/

namespace TemporalCheck

/-- Whether a formula holds in the state with a given name, which has to be declared. -/
def Model.Satisfies (m : Model) (vars : Vars) (e : Expr) (name : Int) : Prop :=
  ∃ s, m.index? name = some s ∧ e.HoldsIn (m.toStructure vars) s

namespace Branching

variable {m : Model} {vars : Vars} {e : Expr} {satisfying : NatSet}

/-! ## Verdicts -/

open Classical in
/-- The states named in a verdict are the initial states in which the formula fails. -/
theorem violating_eq (h : IsExtent m vars e satisfying) :
    violating m satisfying = m.initial.filter fun name => ¬ m.Satisfies vars e name := by
  refine List.filter_congr fun name _ => ?_
  have hext := h vars (.refl vars)
  cases hindex : m.index? name with
  | none => simp [Model.Satisfies, hindex]
  | some s =>
    have hmem : s ∈ satisfying ↔ m.Satisfies vars e name := by
      rw [hext s]
      constructor
      · exact fun hs => ⟨s, hindex, hs.2⟩
      · rintro ⟨s', hs', hholds⟩
        rw [hindex] at hs'
        cases hs'
        exact ⟨Model.index?_lt hindex, hholds⟩
    simp [hmem]

open Classical in
/-- The verdict names the initial states in which the formula fails. -/
theorem verdictOf_eq (h : IsExtent m vars e satisfying) :
    (verdictOf m satisfying = .satisfied ↔ ∀ name ∈ m.initial, m.Satisfies vars e name) ∧
      ((∃ name ∈ m.initial, ¬ m.Satisfies vars e name) → verdictOf m satisfying =
        .violated (m.initial.filter fun name => ¬ m.Satisfies vars e name)) := by
  have hnil : violating m satisfying = [] ↔ ∀ name ∈ m.initial, m.Satisfies vars e name := by
    rw [violating_eq h, List.filter_eq_nil_iff]
    simp
  unfold verdictOf
  cases hviolating : violating m satisfying with
  | nil =>
    have hall := hnil.1 hviolating
    refine ⟨iff_of_true rfl hall, fun ⟨name, hname, hfails⟩ => absurd (hall name hname) hfails⟩
  | cons name names =>
    refine ⟨iff_of_false (fun h => Verdict.noConfusion h) ?_, fun _ => ?_⟩
    · rw [← hnil, hviolating]
      exact List.cons_ne_nil name names
    · rw [← violating_eq h, hviolating]

/-! ## The check -/

variable {c : Context} {f : Formula}

/-- What a check finds out about a formula: the subformulas of a formula with the same meaning, each
of them once and with the states in which it holds, and the states in which the formula itself
holds. -/
structure Finds (m : Model) (c : Context) (e : Expr) (chk : Check) (c' : Context) : Prop extends
    Context.Continues c c' where
  labels : ∃ (es : List Expr) (normal : Expr),
    chk.subformulas = es.map (fun e' => e'.render c.allParens) ∧ es.Nodup ∧
    (∀ e', e' ∈ es ↔ e' ∈ normal.subformulas) ∧ (∀ k, normal.HoldsIn k = e.HoldsIn k) ∧
    List.Forall₂ (IsExtent m c'.vars) es chk.marks
  satisfying : IsExtent m c'.vars e chk.satisfying
  verdict_eq : chk.verdict = verdictOf m chk.satisfying

/-- Listed nodes have the texts of the formulas that they stand for. -/
theorem succeeds_texts {ids : List NodeId} {es : List Expr}
    (h : List.Forall₂ c.forest.Denotes ids es) :
    Succeeds (ids.mapM fun id => do Formula.renderNode (← get) id : Attempt _) c
      fun texts c' => texts = es.map (fun e => e.render c.allParens) ∧ c' = c := by
  induction h with
  | nil => exact .pure ⟨rfl, rfl⟩
  | @cons id e ids es hid _ ih =>
    rw [List.mapM_cons]
    refine .bind (.bind (.get (.lift_except (Formula.renderNode_of_denotes hid) ?_)))
    refine .bind (ih.mono fun texts c' h => .pure ?_)
    exact ⟨by rw [h.1, List.map_cons], h.2⟩

/-- A check of a model in which no path ends finds what it is to find. -/
theorem succeeds_check (hc : c.forest.Tidy) (hf : f.StandsFor c.forest e)
    (hbranch : f.isBranching = true) (hm : m.isDefined = true) (htotal : m.IsTotal)
    (showProgress : Bool) : Succeeds (check m f showProgress) c (Finds m c e) := by
  unfold check
  rw [hbranch, hm]
  refine .bind (.lift ((Formula.yields_normalized_branching hc hf hbranch).mono fun f' c₁ h => ?_))
  obtain ⟨normal, hgiven, hrw, hnormal⟩ := h
  have hsame : ∀ k, normal.HoldsIn k = e.HoldsIn k :=
    holdsIn_eq_of_branching (List.Subset.refl _) hrw
  have hden := hgiven.stands.denotes
  obtain ⟨subs, es, hsubs, hs, hroot, hmem⟩ := Subformulas.exists_ofRoot hden
  have hlabel := yields_label htotal hs
    (fun e' he' => hnormal.of_mem_subformulas ((hmem e').1 he')) showProgress
  refine .bind (.get (.bind (.lift_except hsubs (.bind (.lift (hlabel.mono fun l c₂ hl => ?_))))))
  obtain ⟨set, hset, hext⟩ := exists_marksOf (n := es.length) hs
    (by rw [List.take_length]; exact hl.extents) hden hroot
    (by rw [List.take_length, hmem]; exact Expr.mem_subformulas_self normal)
  have hcont : c.Continues c₂ := (Context.Continues.of_given hgiven).trans
    (.of_learns hl.learns hgiven.tidy)
  have hparens : c₂.allParens = c.allParens := by
    rw [hl.learns.allParens_eq, hgiven.context_eq]
  have hnodes : List.Forall₂ c₂.forest.Denotes subs.order es :=
    hl.learns.forest_eq.symm ▸ hs.denotes
  refine .bind (.lift_except hset (.bind ((succeeds_texts hnodes).mono fun texts c₃ h => .pure ?_)))
  obtain ⟨rfl, rfl⟩ := h
  refine ⟨hcont, ⟨es, normal, by rw [hparens], hs.nodup, hmem, hsame, hl.extents⟩, ?_, rfl⟩
  intro vars' hvars s
  rw [← hsame]
  exact hext vars' hvars s

/-- Formulas that are not of branching time are refused. -/
theorem check_of_not_branching {showProgress : Bool} (hf : f.StandsFor c.forest e)
    (hbranch : f.isBranching = false) : check m f showProgress c =
      .ok (.error (.check (.notBranching (e.render c.allParens))), c) := by
  unfold check
  rw [hbranch]
  exact (bind_eq_of_ok rfl).trans (bind_eq_of_ok hf.lift_render)

/-- A model that has not been defined is refused. -/
theorem check_of_undefined {showProgress : Bool} (hbranch : f.isBranching = true)
    (hm : m.isDefined = false) :
    check m f showProgress c = .ok (.error (.check .undefinedModel), c) := by
  unfold check
  rw [hbranch, hm]
  rfl

open Classical in
/-- **Labelling is correct.**  A check of a defined model in which no path ends, against a
branching-time formula, ends with a result.  It lists the subformulas of a formula with the same
meaning, each of them once and with the states in which it holds; it gives the states in which the
formula holds; and its verdict names the initial states in which the formula fails, in order. -/
theorem check_labels_correctly (hc : c.forest.Tidy) (hf : f.StandsFor c.forest e)
    (hbranch : f.isBranching = true) (hm : m.isDefined = true) (htotal : m.IsTotal)
    (showProgress : Bool) :
    ∃ chk c', check m f showProgress c = .ok (.ok chk, c') ∧ c.vars.Extends c'.vars ∧
      (∃ (es : List Expr) (normal : Expr),
        chk.subformulas = es.map (fun e' => e'.render c.allParens) ∧ es.Nodup ∧
        (∀ e', e' ∈ es ↔ e' ∈ normal.subformulas) ∧ (∀ k, normal.HoldsIn k = e.HoldsIn k) ∧
        List.Forall₂ (IsExtent m c'.vars) es chk.marks) ∧
      IsExtent m c'.vars e chk.satisfying ∧
      ∀ vars, c'.vars.Extends vars →
        (chk.verdict = .satisfied ↔ ∀ name ∈ m.initial, m.Satisfies vars e name) ∧
        ((∃ name ∈ m.initial, ¬ m.Satisfies vars e name) → chk.verdict =
          .violated (m.initial.filter fun name => ¬ m.Satisfies vars e name)) := by
  obtain ⟨chk, c', hcheck, hfinds⟩ := succeeds_check hc hf hbranch hm htotal showProgress
  refine ⟨chk, c', hcheck, hfinds.vars, hfinds.labels, hfinds.satisfying, fun vars hvars => ?_⟩
  rw [hfinds.verdict_eq]
  exact verdictOf_eq (hfinds.satisfying.mono hvars)

/-- Two ways on from the first state, each into a state that is never left. -/
def fork : Model where
  states := [(1, { successors := [2, 3] }), (2, { successors := [2], valuation := .ofList [0] }),
    (3, { successors := [3] })]
  initial := [1, 2]

/-- The formula `AF p` in the second slot. -/
def stored : Context where
  forest := { slots := #[some (.prop "p"), some (.unary .allFinally 0)] }

open Classical in
/-- The formula `AF p` is checked on a model in which it holds in the second initial state only. -/
theorem check_labels_correctly_fork :
    stored.forest.Tidy ∧ fork.IsTotal ∧
    ∃ chk c', check fork ⟨1, .ofBranching⟩ true stored = .ok (.ok chk, c') ∧
      stored.vars.Extends c'.vars ∧
      (∃ (es : List Expr) (normal : Expr),
        chk.subformulas = es.map (fun e' => e'.render stored.allParens) ∧ es.Nodup ∧
        (∀ e', e' ∈ es ↔ e' ∈ normal.subformulas) ∧
        (∀ k, normal.HoldsIn k = (Expr.unary .allFinally (.prop "p")).HoldsIn k) ∧
        List.Forall₂ (IsExtent fork c'.vars) es chk.marks) ∧
      IsExtent fork c'.vars (.unary .allFinally (.prop "p")) chk.satisfying ∧
      ∀ vars, c'.vars.Extends vars →
        (chk.verdict = .satisfied ↔
          ∀ name ∈ fork.initial, fork.Satisfies vars (.unary .allFinally (.prop "p")) name) ∧
        ((∃ name ∈ fork.initial, ¬ fork.Satisfies vars (.unary .allFinally (.prop "p")) name) →
          chk.verdict = .violated (fork.initial.filter fun name =>
            ¬ fork.Satisfies vars (.unary .allFinally (.prop "p")) name)) := by
  have htidy : stored.forest.Tidy := Forest.tidy_of_full rfl (by simp [stored])
  have htotal : fork.IsTotal := by decide
  exact ⟨htidy, htotal, check_labels_correctly htidy ⟨Forest.denotes_of_tree rfl, rfl⟩ rfl rfl
    htotal true⟩

end Branching

end TemporalCheck
