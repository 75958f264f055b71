import Mathlib.Data.Nat.Find
import TemporalCheck.Meaning.Structure
import TemporalCheck.Proofs.NormalForm

/-!
# TemporalCheck.Proofs.Meaning

Rewriting does not change what a formula says.  For linear time the laws are those of the operators
on one word: `U` and `R` are dual, `W` is a form of `R`, and `F` and `G` are forms of `U` and `R`.
For branching time the same laws are used along each path; the one that needs thought is that
`a U b` holds on a path just if `b` holds somewhere on it and there is no point before which `b` has
not held and at which both fail.
-/

namespace TemporalCheck

open Relation (ReflTransGen)

/-! ## Laws of operators on one word -/

/-- What happens from some point on happens there for a first time. -/
theorem exists_first {q : Nat → Prop} {i : Nat} (h : ∃ j, i ≤ j ∧ q j) :
    ∃ j, i ≤ j ∧ q j ∧ ∀ k, i ≤ k → k < j → ¬ q k := by
  classical
  refine ⟨Nat.find h, (Nat.find_spec h).1, (Nat.find_spec h).2, fun k hik hk hqk => ?_⟩
  exact Nat.find_min h hk ⟨hik, hqk⟩

namespace BinaryOp

variable {p q : Nat → Prop} {i : Nat}

/-- The opposite of `U` is `R` of the opposites. -/
theorem not_holdsAt_until :
    ¬ BinaryOp.until.HoldsAt p q i ↔
      BinaryOp.release.HoldsAt (fun j => ¬ p j) (fun j => ¬ q j) i := by
  constructor
  · intro h j hij
    by_cases hq : q j
    · refine .inr (Classical.byContradiction fun hp => h ⟨j, hij, hq, fun k hik hkj => ?_⟩)
      exact Classical.byContradiction fun hpk => hp ⟨k, hik, hkj, hpk⟩
    · exact .inl hq
  · intro h huntil
    obtain ⟨j, hij, hq, hp⟩ := huntil
    obtain hnq | ⟨k, hik, hkj, hnp⟩ := h j hij
    · exact hnq hq
    · exact hnp (hp k hik hkj)

/-- The opposite of `R` is `U` of the opposites. -/
theorem not_holdsAt_release :
    ¬ BinaryOp.release.HoldsAt p q i ↔
      BinaryOp.until.HoldsAt (fun j => ¬ p j) (fun j => ¬ q j) i := by
  have h := not_holdsAt_until (p := fun j => ¬ p j) (q := fun j => ¬ q j) (i := i)
  simp only [Classical.not_not] at h
  rw [← h, Classical.not_not]

/-- The weak `U` is an `R`: the first operand holds as long as the second one has not come. -/
theorem holdsAt_weakUntil :
    BinaryOp.weakUntil.HoldsAt p q i ↔ BinaryOp.release.HoldsAt q (fun j => p j ∨ q j) i := by
  constructor
  · intro h j hij
    obtain ⟨m, him, hq, hp⟩ | hp := h
    · by_cases hmj : m < j
      · exact .inr ⟨m, him, hmj, hq⟩
      · obtain hlt | rfl := Nat.lt_or_eq_of_le (Nat.le_of_not_lt hmj)
        · exact .inl (.inl (hp j hij hlt))
        · exact .inl (.inr hq)
    · exact .inl (.inl (hp j hij))
  · intro h
    by_cases hq : ∃ j, i ≤ j ∧ q j
    · obtain ⟨j, hij, hqj, hfirst⟩ := exists_first hq
      refine .inl ⟨j, hij, hqj, fun k hik hkj => ?_⟩
      obtain (hpk | hqk) | ⟨m, him, hmk, hqm⟩ := h k hik
      · exact hpk
      · exact absurd hqk (hfirst k hik hkj)
      · exact absurd hqm (hfirst m him (Nat.lt_trans hmk hkj))
    · refine .inr fun j hij => ?_
      obtain (hpj | hqj) | ⟨m, him, -, hqm⟩ := h j hij
      · exact hpj
      · exact absurd ⟨j, hij, hqj⟩ hq
      · exact absurd ⟨m, him, hqm⟩ hq

theorem holdsAt_until_top : BinaryOp.until.HoldsAt (fun _ => True) q i ↔ ∃ j, i ≤ j ∧ q j := by
  simp [HoldsAt]

theorem holdsAt_release_bottom :
    BinaryOp.release.HoldsAt (fun _ => False) q i ↔ ∀ j, i ≤ j → q j := by
  simp [HoldsAt]

/-- `a U b` holds if `b` holds at some point and there is no point where both fail and before which
`b` has not held. -/
theorem holdsAt_until_iff_exists_and_not :
    BinaryOp.until.HoldsAt p q i ↔
      ¬ BinaryOp.until.HoldsAt (fun j => ¬ q j) (fun j => ¬ p j ∧ ¬ q j) i ∧ ∃ j, i ≤ j ∧ q j := by
  constructor
  · intro h
    obtain ⟨j, hij, hq, hp⟩ := h
    refine ⟨fun hfail => ?_, j, hij, hq⟩
    obtain ⟨m, him, ⟨hnp, hnq⟩, hbefore⟩ := hfail
    obtain hmj | rfl | hjm := Nat.lt_trichotomy m j
    · exact hnp (hp m him hmj)
    · exact hnq hq
    · exact hbefore j hij hjm hq
  · intro h
    obtain ⟨hnot, hq⟩ := h
    obtain ⟨j, hij, hqj, hfirst⟩ := exists_first hq
    refine ⟨j, hij, hqj, fun k hik hkj => Classical.byContradiction fun hnp => hnot ?_⟩
    exact ⟨k, hik, ⟨hnp, hfirst k hik hkj⟩, fun m him hmk => hfirst m him (Nat.lt_trans hmk hkj)⟩

end BinaryOp

/-! ## Linear time -/

/-- No step for linear time changes on which words a formula holds. -/
theorem LinearStep.holdsAt_eq {e e' : Expr} (h : LinearStep e e') (w : Word String) :
    e'.HoldsAt w = e.HoldsAt w := by
  funext i
  refine propext ?_
  cases h with
  | doubleNegation =>
    simp only [Expr.HoldsAt, UnaryOp.HoldsAt]
    exact Classical.not_not.symm
  | implication a b =>
    simp only [Expr.HoldsAt, UnaryOp.HoldsAt, BinaryOp.HoldsAt]
    exact imp_iff_not_or.symm
  | weakUntil a b =>
    simp only [Expr.HoldsAt]
    exact BinaryOp.holdsAt_weakUntil.symm
  | future a => exact BinaryOp.holdsAt_until_top
  | global a => exact BinaryOp.holdsAt_release_bottom
  | negatedAnd a b =>
    simp only [Expr.HoldsAt, UnaryOp.HoldsAt, BinaryOp.HoldsAt]
    exact Classical.not_and_iff_not_or_not.symm
  | negatedOr a b =>
    simp only [Expr.HoldsAt, UnaryOp.HoldsAt, BinaryOp.HoldsAt]
    exact not_or.symm
  | negatedUntil a b => exact BinaryOp.not_holdsAt_until.symm
  | negatedRelease a b => exact BinaryOp.not_holdsAt_release.symm
  | negatedNext a => exact Iff.rfl

/-- Rules for linear time keep what a formula says at every point of a word. -/
theorem holdsAt_eq_of_linear {rules : List Rule} (hsub : rules ⊆ Rule.linear) {e e' : Expr}
    (h : ReflTransGen (Rewrites rules) e e') (w : Word String) : e'.HoldsAt w = e.HoldsAt w := by
  refine eq_of_rewrites (v := (·.HoldsAt w)) (fun r hr e e' happly => ?_) (fun op a a' ha => ?_)
    (fun op a a' b b' ha hb => ?_) h
  · exact (LinearStep.of_rewrite? (hsub hr) happly).holdsAt_eq w
  · funext i
    simp only [Expr.HoldsAt, ha]
  · funext i
    simp only [Expr.HoldsAt, ha, hb]

/-- **Linear-time rewriting keeps the meaning.**  Normalising a stored formula with rules of the
table for linear time, in any selection and order, meets no fault and ends.  The formula stays what
it is.  The node that is given stands for a formula that no rule of the selection applies to, and it
holds at a point of a word exactly if the formula does. -/
theorem normalize_keeps_linear_meaning {rules : List Rule} (hsub : rules ⊆ Rule.linear) {f : Forest}
    {id : NodeId} {e : Expr} (hf : f.Tidy) (h : f.Denotes id e) :
    ∃ id' g e', Build.normalize rules id f = .ok (id', g) ∧ g.Denotes id e ∧ g.Denotes id' e' ∧
      IsNormal rules e' ∧ ∀ (w : Word String) (i : Nat), e'.HoldsAt w i ↔ e.HoldsAt w i := by
  obtain ⟨id', g, hok, e', hbuilt, hrw, hnormal⟩ := Build.yields_normalize_table (.inl hsub) hf h
  refine ⟨id', g, e', hok, hbuilt.keeps.denotes h, hbuilt.denotes, hnormal, fun w i => ?_⟩
  rw [holdsAt_eq_of_linear hsub hrw]

/-- A negated `W` over a shared operand, with an empty slot in between and the rules in the opposite
order. -/
theorem normalize_keeps_linear_meaning_shared :
    let f : Forest := {
      slots := #[some (.prop "p"), none, some (.unary .next 0), some (.binary .weakUntil 0 2),
        some (.unary .not 3)]
      free := [1] }
    let e : Expr := .unary .not (.binary .weakUntil (.prop "p") (.unary .next (.prop "p")))
    Rule.linear.reverse ⊆ Rule.linear ∧ f.Tidy ∧ f.Denotes 4 e ∧
    ∃ id' g e', Build.normalize Rule.linear.reverse 4 f = .ok (id', g) ∧ g.Denotes 4 e ∧
      g.Denotes id' e' ∧ IsNormal Rule.linear.reverse e' ∧
      ∀ (w : Word String) (i : Nat), e'.HoldsAt w i ↔ e.HoldsAt w i := by
  intro f e
  have hsub : Rule.linear.reverse ⊆ Rule.linear := fun r hr => List.mem_reverse.1 hr
  have hf : f.Tidy := by
    refine ⟨List.nodup_singleton 1, fun id => ?_⟩
    obtain hlt | hge := Nat.lt_or_ge id 5
    · revert id
      decide
    · have hne : id ≠ 1 := (Nat.lt_of_lt_of_le (by decide) hge).ne'
      simp [f, Forest.capacity, hne, Nat.not_lt.2 hge]
  have h : f.Denotes 4 e := Forest.denotes_of_tree rfl
  exact ⟨hsub, hf, h, normalize_keeps_linear_meaning hsub hf h⟩

/-! ## Branching time -/

/-- No step for branching time changes in which states a formula holds. -/
theorem BranchingStep.holdsIn_eq {e e' : Expr} (h : BranchingStep e e')
    (k : TransitionStructure) : e'.HoldsIn k = e.HoldsIn k := by
  funext s
  refine propext ?_
  cases h with
  | doubleNegation =>
    simp only [Expr.HoldsIn, UnaryOp.HoldsIn]
    exact Classical.not_not.symm
  | implication a b =>
    simp only [Expr.HoldsIn, UnaryOp.HoldsIn, BinaryOp.HoldsIn]
    exact ⟨fun h ha => Classical.byContradiction fun hb => h ⟨ha, hb⟩, fun h hab => hab.2 (h hab.1)⟩
  | or a b =>
    simp only [Expr.HoldsIn, UnaryOp.HoldsIn, BinaryOp.HoldsIn]
    rw [← not_or, Classical.not_not]
  | allUntil a b =>
    simp only [Expr.HoldsIn, UnaryOp.HoldsIn, BinaryOp.HoldsIn]
    constructor
    · intro h π hπ
      exact BinaryOp.holdsAt_until_iff_exists_and_not.2 ⟨fun hfail => h.1 ⟨π, hπ, hfail⟩, h.2 π hπ⟩
    · intro h
      refine ⟨fun hex => ?_, fun π hπ => ?_⟩
      · obtain ⟨π, hπ, hfail⟩ := hex
        exact (BinaryOp.holdsAt_until_iff_exists_and_not.1 (h π hπ)).1 hfail
      · exact (BinaryOp.holdsAt_until_iff_exists_and_not.1 (h π hπ)).2
  | top => simp [Expr.HoldsIn, UnaryOp.HoldsIn]
  | allGlobally a =>
    simp only [Expr.HoldsIn, UnaryOp.HoldsIn, BinaryOp.HoldsIn, not_false_iff,
      BinaryOp.holdsAt_until_top, UnaryOp.HoldsAt]
    constructor
    · intro h π hπ j hj
      exact Classical.byContradiction fun hnot => h ⟨π, hπ, j, hj, hnot⟩
    · intro h hex
      obtain ⟨π, hπ, j, hj, hnot⟩ := hex
      exact hnot (h π hπ j hj)
  | existsGlobally a =>
    simp only [Expr.HoldsIn, UnaryOp.HoldsIn, UnaryOp.HoldsAt]
    constructor
    · intro h
      refine Classical.byContradiction fun hno => h fun π hπ => ?_
      refine Classical.byContradiction fun hnever => hno ⟨π, hπ, fun j hj => ?_⟩
      exact Classical.byContradiction fun hj' => hnever ⟨j, hj, hj'⟩
    · intro h hall
      obtain ⟨π, hπ, hglobal⟩ := h
      obtain ⟨j, hj, hnot⟩ := hall π hπ
      exact hnot (hglobal j hj)
  | existsFinally a =>
    simp only [Expr.HoldsIn, UnaryOp.HoldsIn, BinaryOp.HoldsIn, not_false_iff,
      BinaryOp.holdsAt_until_top, UnaryOp.HoldsAt]
  | allNext a =>
    simp only [Expr.HoldsIn, UnaryOp.HoldsIn, UnaryOp.HoldsAt]
    constructor
    · intro h π hπ
      exact Classical.byContradiction fun hnot => h ⟨π, hπ, hnot⟩
    · intro h hex
      obtain ⟨π, hπ, hnot⟩ := hex
      exact hnot (h π hπ)

/-- Rules for branching time keep what a formula says in every state of a structure. -/
theorem holdsIn_eq_of_branching {rules : List Rule} (hsub : rules ⊆ Rule.branching) {e e' : Expr}
    (h : ReflTransGen (Rewrites rules) e e') (k : TransitionStructure) :
    e'.HoldsIn k = e.HoldsIn k := by
  refine eq_of_rewrites (v := (·.HoldsIn k)) (fun r hr e e' happly => ?_) (fun op a a' ha => ?_)
    (fun op a a' b b' ha hb => ?_) h
  · exact (BranchingStep.of_rewrite? (hsub hr) happly).holdsIn_eq k
  · funext s
    simp only [Expr.HoldsIn, ha]
  · funext s
    simp only [Expr.HoldsIn, ha, hb]

/-- **Branching-time rewriting keeps the meaning.**  Normalising a stored formula with rules of the
table for branching time, in any selection and order, meets no fault and ends.  The formula stays
what it is.  The node that is given stands for a formula that no rule of the selection applies to,
and it holds in a state of a structure exactly if the formula does.  Paths are infinite, so the laws
hold whether or not every state has a successor. -/
theorem normalize_keeps_branching_meaning {rules : List Rule} (hsub : rules ⊆ Rule.branching)
    {f : Forest} {id : NodeId} {e : Expr} (hf : f.Tidy) (h : f.Denotes id e) :
    ∃ id' g e', Build.normalize rules id f = .ok (id', g) ∧ g.Denotes id e ∧ g.Denotes id' e' ∧
      IsNormal rules e' ∧
      ∀ (k : TransitionStructure) (s : k.State), e'.HoldsIn k s ↔ e.HoldsIn k s := by
  obtain ⟨id', g, hok, e', hbuilt, hrw, hnormal⟩ := Build.yields_normalize_table (.inr hsub) hf h
  refine ⟨id', g, e', hok, hbuilt.keeps.denotes h, hbuilt.denotes, hnormal, fun k s => ?_⟩
  rw [holdsIn_eq_of_branching hsub hrw]

/-- A negated `A[ U ]` over a shared operand, with an empty slot in between and the rules in the
opposite order. -/
theorem normalize_keeps_branching_meaning_shared :
    let f : Forest := {
      slots := #[some (.prop "p"), none, some (.unary .allNext 0), some (.binary .allUntil 0 2),
        some (.unary .not 3)]
      free := [1] }
    let e : Expr := .unary .not (.binary .allUntil (.prop "p") (.unary .allNext (.prop "p")))
    Rule.branching.reverse ⊆ Rule.branching ∧ f.Tidy ∧ f.Denotes 4 e ∧
    ∃ id' g e', Build.normalize Rule.branching.reverse 4 f = .ok (id', g) ∧ g.Denotes 4 e ∧
      g.Denotes id' e' ∧ IsNormal Rule.branching.reverse e' ∧
      ∀ (k : TransitionStructure) (s : k.State), e'.HoldsIn k s ↔ e.HoldsIn k s := by
  intro f e
  have hsub : Rule.branching.reverse ⊆ Rule.branching := fun r hr => List.mem_reverse.1 hr
  have hf : f.Tidy := by decide
  have h : f.Denotes 4 e := Forest.denotes_of_tree rfl
  exact ⟨hsub, hf, h, normalize_keeps_branching_meaning hsub hf h⟩

end TemporalCheck
