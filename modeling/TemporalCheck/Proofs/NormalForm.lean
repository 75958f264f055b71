import TemporalCheck.Proofs.Rewriting

/-!
# TemporalCheck.Proofs.NormalForm

The two tables of rules, seen as relations on trees.  `LinearStep` and `BranchingStep` list what the
rules of each table do; everything that is said about a table is proved by going through the list.

* Every rule makes the weight of its table smaller, so normalising ends.
* Every rule keeps the logics that a formula belongs to, and its variables.
* A formula that no rule applies to is in the form that its checker works on: negation normal form
  for linear time, and the connectives `B`, `!`, `&`, `AF`, `EX`, `E[ U ]` for branching time.
-/

namespace TemporalCheck

open Relation (ReflTransGen)

/-! ## Rules invent no variables -/

/-- What a pattern finds lies in the formula. -/
theorem Pattern.mem_subformulas_of_match? {p : Pattern} {e x : Expr} {es : List Expr}
    (h : p.match? e = some es) (hx : x ∈ es) : x ∈ e.subformulas := by
  induction p generalizing e es with
  | any =>
    cases match?_any.1 h
    simpa using (List.mem_singleton.1 hx) ▸ e.mem_subformulas_self
  | top =>
    obtain ⟨-, rfl⟩ := match?_top.1 h
    cases hx
  | unary op p ih =>
    obtain ⟨a, rfl, ha⟩ := match?_unary.1 h
    exact List.mem_cons_of_mem _ (ih ha hx)
  | binary op p q ihp ihq =>
    obtain ⟨a, b, left, right, rfl, ha, hb, rfl⟩ := match?_binary.1 h
    refine List.mem_cons_of_mem _ (List.mem_append.2 ?_)
    exact (List.mem_append.1 hx).imp (ihp ha) (ihq hb)

/-- A template brings in no variable that none of its operands has. -/
theorem Template.exists_of_prop_mem {t : Template} {es : List Expr} {e : Expr} {name : String}
    (h : t.tree? es = some e) (hp : .prop name ∈ e.subformulas) :
    ∃ x ∈ es, .prop name ∈ x.subformulas := by
  induction t generalizing e with
  | operand i => exact ⟨e, List.mem_of_getElem? h, hp⟩
  | top | bottom =>
    cases h
    simp [Expr.subformulas] at hp
  | unary op t ih =>
    obtain ⟨a, ha, he⟩ := Option.bind_eq_some_iff.1 h
    cases he
    exact ih ha (by simpa [Expr.subformulas] using hp)
  | binary op t u iht ihu | binaryRightFirst op t u iht ihu =>
    obtain ⟨a, ha, h⟩ := Option.bind_eq_some_iff.1 h
    obtain ⟨b, hb, he⟩ := Option.bind_eq_some_iff.1 h
    cases he
    have hp : .prop name ∈ a.subformulas ∨ .prop name ∈ b.subformulas := by
      simpa [Expr.subformulas] using hp
    exact hp.elim (iht ha) (ihu hb)

/-- The variables of a rewritten formula are variables of the formula, whatever the rules. -/
theorem prop_mem_of_rewrites {rules : List Rule} {e e' : Expr} {name : String}
    (h : ReflTransGen (Rewrites rules) e e') (hp : .prop name ∈ e'.subformulas) :
    .prop name ∈ e.subformulas := by
  refine rewrites_preserves
    (P := fun e e' => .prop name ∈ e'.subformulas → .prop name ∈ e.subformulas) (fun _ => id)
    (fun _ _ _ hab hbc hp => hab (hbc hp)) (fun r _ e e' happly hp => ?_) (fun op a a' ha => ?_)
    (fun op a a' b b' ha hb => ?_) h hp
  · obtain ⟨es, hm, ht⟩ := Option.bind_eq_some_iff.1 happly
    obtain ⟨x, hx, hp⟩ := Template.exists_of_prop_mem ht hp
    exact Expr.subformulas_trans hp (Pattern.mem_subformulas_of_match? hm hx)
  · simpa [Expr.subformulas] using ha
  · simpa [Expr.subformulas] using Or.imp ha hb

/-! ## Rules lose no variables -/

/-- Whether a template names an operand. -/
def Template.names (i : Nat) : Template → Bool
  | .operand j => j = i
  | .top | .bottom => false
  | .unary _ t => t.names i
  | .binary _ t u | .binaryRightFirst _ t u => t.names i || u.names i

/-- The template of a rule names all operands that its pattern leaves open. -/
def Rule.KeepsOperands (r : Rule) : Prop := ∀ i < r.pattern.holes, r.result.names i = true

instance (r : Rule) : Decidable r.KeepsOperands :=
  inferInstanceAs (Decidable (∀ i < r.pattern.holes, r.result.names i = true))

/-- A variable of a formula that a pattern fits is one of what the pattern finds. -/
theorem Pattern.exists_of_prop_mem {p : Pattern} {e : Expr} {es : List Expr} {name : String}
    (h : p.match? e = some es) (hp : .prop name ∈ e.subformulas) :
    ∃ x ∈ es, .prop name ∈ x.subformulas := by
  induction p generalizing e es with
  | any =>
    cases match?_any.1 h
    exact ⟨e, List.mem_singleton_self e, hp⟩
  | top =>
    obtain ⟨rfl, -⟩ := match?_top.1 h
    simp [Expr.subformulas] at hp
  | unary op p ih =>
    obtain ⟨a, rfl, ha⟩ := match?_unary.1 h
    exact ih ha (by simpa [Expr.subformulas] using hp)
  | binary op p q ihp ihq =>
    obtain ⟨a, b, left, right, rfl, ha, hb, rfl⟩ := match?_binary.1 h
    have hp : .prop name ∈ a.subformulas ∨ .prop name ∈ b.subformulas := by
      simpa [Expr.subformulas] using hp
    obtain hp | hp := hp
    · obtain ⟨x, hx, hp⟩ := ihp ha hp
      exact ⟨x, List.mem_append_left right hx, hp⟩
    · obtain ⟨x, hx, hp⟩ := ihq hb hp
      exact ⟨x, List.mem_append_right left hx, hp⟩

/-- What a template names lies in the formula that it makes. -/
theorem Template.mem_subformulas_of_names {t : Template} {es : List Expr} {e x : Expr} {i : Nat}
    (h : t.tree? es = some e) (hi : t.names i = true) (hx : es[i]? = some x) :
    x ∈ e.subformulas := by
  induction t generalizing e with
  | operand j =>
    obtain rfl : j = i := by simpa [names] using hi
    obtain rfl := Option.some.inj (hx.symm.trans h)
    exact x.mem_subformulas_self
  | top | bottom => cases hi
  | unary op t ih =>
    obtain ⟨a, ha, he⟩ := Option.bind_eq_some_iff.1 h
    cases he
    exact List.mem_cons_of_mem _ (ih ha hi)
  | binary op t u iht ihu | binaryRightFirst op t u iht ihu =>
    obtain ⟨a, ha, h⟩ := Option.bind_eq_some_iff.1 h
    obtain ⟨b, hb, he⟩ := Option.bind_eq_some_iff.1 h
    cases he
    refine List.mem_cons_of_mem _ (List.mem_append.2 ?_)
    simp only [names, Bool.or_eq_true] at hi
    exact hi.imp (iht ha) (ihu hb)

/-- Rules that name all their operands keep the variables of a formula. -/
theorem prop_mem_iff_of_rewrites {rules : List Rule} (hkeeps : ∀ r ∈ rules, r.KeepsOperands)
    {e e' : Expr} {name : String} (h : ReflTransGen (Rewrites rules) e e') :
    .prop name ∈ e'.subformulas ↔ .prop name ∈ e.subformulas := by
  refine ⟨prop_mem_of_rewrites h, ?_⟩
  refine rewrites_preserves
    (P := fun e e' => .prop name ∈ e.subformulas → .prop name ∈ e'.subformulas) (fun _ => id)
    (fun _ _ _ hab hbc hp => hbc (hab hp)) (fun r hr e e' happly hp => ?_) (fun op a a' ha => ?_)
    (fun op a a' b b' ha hb => ?_) h
  · obtain ⟨es, hm, ht⟩ := Option.bind_eq_some_iff.1 happly
    obtain ⟨x, hx, hp⟩ := Pattern.exists_of_prop_mem hm hp
    obtain ⟨i, hi, rfl⟩ := List.getElem_of_mem hx
    have hnamed := hkeeps r hr i (Pattern.length_of_match? hm ▸ hi)
    exact Expr.subformulas_trans hp
      (Template.mem_subformulas_of_names ht hnamed (List.getElem?_eq_getElem hi))
  · simpa [Expr.subformulas] using ha
  · simpa [Expr.subformulas] using Or.imp ha hb

/-- Rules that keep the logics that a tree belongs to do so wherever they are applied. -/
theorem usage_eq_of_rewrites {rules : List Rule}
    (hroot : ∀ r ∈ rules, ∀ e e', r.rewrite? e = some e' → e'.usage = e.usage) {e e' : Expr}
    (h : ReflTransGen (Rewrites rules) e e') : e'.usage = e.usage := by
  refine eq_of_rewrites hroot (fun op a a' ha => ?_) (fun op a a' b b' ha hb => ?_) h
  · simp only [Expr.usage, ha]
  · simp only [Expr.usage, ha, hb]

/-! ## Linear time -/

/-- The replacements of the table for linear time. -/
inductive LinearStep : Expr → Expr → Prop
  | doubleNegation (a : Expr) : LinearStep (.unary .not (.unary .not a)) a
  | implication (a b : Expr) :
    LinearStep (.binary .implies a b) (.binary .or (.unary .not a) b)
  | weakUntil (a b : Expr) :
    LinearStep (.binary .weakUntil a b) (.binary .release b (.binary .or a b))
  | future (a : Expr) : LinearStep (.unary .future a) (.binary .until .top a)
  | global (a : Expr) : LinearStep (.unary .global a) (.binary .release .bottom a)
  | negatedAnd (a b : Expr) :
    LinearStep (.unary .not (.binary .and a b)) (.binary .or (.unary .not a) (.unary .not b))
  | negatedOr (a b : Expr) :
    LinearStep (.unary .not (.binary .or a b)) (.binary .and (.unary .not a) (.unary .not b))
  | negatedUntil (a b : Expr) :
    LinearStep (.unary .not (.binary .until a b)) (.binary .release (.unary .not a) (.unary .not b))
  | negatedRelease (a b : Expr) :
    LinearStep (.unary .not (.binary .release a b)) (.binary .until (.unary .not a) (.unary .not b))
  | negatedNext (a : Expr) :
    LinearStep (.unary .not (.unary .next a)) (.unary .next (.unary .not a))

/-- A rule of the linear-time table takes one of the steps listed. -/
theorem LinearStep.of_rewrite? {r : Rule} {e e' : Expr} (hr : r ∈ Rule.linear)
    (h : r.rewrite? e = some e') : LinearStep e e' := by
  obtain ⟨es, hm, ht⟩ := Option.bind_eq_some_iff.1 h
  simp only [Rule.linear, Rule.doubleNegation, List.mem_cons, List.not_mem_nil, or_false] at hr
  obtain rfl | rfl | rfl | rfl | rfl | rfl | rfl | rfl | rfl | rfl := hr <;>
    simp only [Pattern.match?_any, Pattern.match?_unary, Pattern.match?_binary] at hm
  · obtain ⟨_, rfl, a, rfl, rfl⟩ := hm
    cases ht
    exact .doubleNegation _
  · obtain ⟨a, b, _, _, rfl, rfl, rfl, rfl⟩ := hm
    cases ht
    exact .implication a b
  · obtain ⟨a, b, _, _, rfl, rfl, rfl, rfl⟩ := hm
    cases ht
    exact .weakUntil a b
  · obtain ⟨a, rfl, rfl⟩ := hm
    cases ht
    exact .future a
  · obtain ⟨a, rfl, rfl⟩ := hm
    cases ht
    exact .global a
  · obtain ⟨_, rfl, a, b, _, _, rfl, rfl, rfl, rfl⟩ := hm
    cases ht
    exact .negatedAnd a b
  · obtain ⟨_, rfl, a, b, _, _, rfl, rfl, rfl, rfl⟩ := hm
    cases ht
    exact .negatedOr a b
  · obtain ⟨_, rfl, a, b, _, _, rfl, rfl, rfl, rfl⟩ := hm
    cases ht
    exact .negatedUntil a b
  · obtain ⟨_, rfl, a, b, _, _, rfl, rfl, rfl, rfl⟩ := hm
    cases ht
    exact .negatedRelease a b
  · obtain ⟨_, rfl, a, rfl, rfl⟩ := hm
    cases ht
    exact .negatedNext a

/-- Where a replacement is possible, a rule of the table applies. -/
theorem LinearStep.exists_rewrite? {e e' : Expr} (h : LinearStep e e') :
    ∃ r ∈ Rule.linear, r.rewrite? e = some e' := by
  cases h with
  | doubleNegation => exact ⟨_, List.mem_of_getElem? (i := 0) rfl, rfl⟩
  | implication => exact ⟨_, List.mem_of_getElem? (i := 1) rfl, rfl⟩
  | weakUntil => exact ⟨_, List.mem_of_getElem? (i := 2) rfl, rfl⟩
  | future => exact ⟨_, List.mem_of_getElem? (i := 3) rfl, rfl⟩
  | global => exact ⟨_, List.mem_of_getElem? (i := 4) rfl, rfl⟩
  | negatedAnd => exact ⟨_, List.mem_of_getElem? (i := 5) rfl, rfl⟩
  | negatedOr => exact ⟨_, List.mem_of_getElem? (i := 6) rfl, rfl⟩
  | negatedUntil => exact ⟨_, List.mem_of_getElem? (i := 7) rfl, rfl⟩
  | negatedRelease => exact ⟨_, List.mem_of_getElem? (i := 8) rfl, rfl⟩
  | negatedNext => exact ⟨_, List.mem_of_getElem? (i := 9) rfl, rfl⟩

theorem LinearStep.not_rootNormal {e e' : Expr} (h : LinearStep e e') :
    ¬ RootNormal Rule.linear e := by
  obtain ⟨r, hr, happly⟩ := h.exists_rewrite?
  exact not_rootNormal_of_rewrite? hr happly

/-- Every step for linear time makes the weight smaller. -/
theorem LinearStep.linearWeight_lt {e e' : Expr} (h : LinearStep e e') :
    e'.linearWeight < e.linearWeight := by
  cases h with
  | doubleNegation =>
    have := e'.linearWeight_pos
    simp only [Expr.linearWeight]
    omega
  | future a | global a | negatedNext a =>
    simp only [Expr.linearWeight]
    omega
  | implication a b | weakUntil a b | negatedAnd a b | negatedOr a b | negatedUntil a b
  | negatedRelease a b =>
    simp only [Expr.linearWeight]
    omega

/-- The rules for linear time, in any selection and order, have a weight. -/
theorem weighs_linearWeight {rules : List Rule} (h : rules ⊆ Rule.linear) :
    Weighs Expr.linearWeight rules where
  root r hr e e' happly := (LinearStep.of_rewrite? (h hr) happly).linearWeight_lt
  unary op a a' hlt := by
    cases op <;> simp only [Expr.linearWeight] <;> omega
  left op a a' b hlt := by
    cases op <;> simp only [Expr.linearWeight] <;> omega
  right op a b b' hlt := by
    cases op <;> simp only [Expr.linearWeight] <;> omega
  arg_lt op a := by
    have := a.linearWeight_pos
    cases op <;> simp only [Expr.linearWeight] <;> omega
  left_lt op a b := by
    have := b.linearWeight_pos
    cases op <;> simp only [Expr.linearWeight] <;> omega
  right_lt op a b := by
    have := a.linearWeight_pos
    cases op <;> simp only [Expr.linearWeight] <;> omega

theorem isClosed_linear : ∀ r ∈ Rule.linear, r.IsClosed := by decide

theorem keepsOperands_linear : ∀ r ∈ Rule.linear, r.KeepsOperands := by decide

theorem LinearStep.usage_eq {e e' : Expr} (h : LinearStep e e') : e'.usage = e.usage := by
  cases h <;> simp only [Expr.usage, UnaryOp.usage, BinaryOp.usage, Usage.join, Usage.boolean,
    Usage.ofLinear, Usage.mk.injEq] <;> grind

/-- Rules for linear time keep the logics that a formula belongs to. -/
theorem usage_eq_of_linear {rules : List Rule} (hsub : rules ⊆ Rule.linear) {e e' : Expr}
    (h : ReflTransGen (Rewrites rules) e e') : e'.usage = e.usage :=
  usage_eq_of_rewrites (fun _ hr _ _ happly => (LinearStep.of_rewrite? (hsub hr) happly).usage_eq) h

/-- The tree is `T`, `B` or a variable. -/
def Expr.IsAtom : Expr → Prop
  | .top | .bottom | .prop _ => True
  | _ => False

/-- Negation normal form: negations stand before atoms only, and of the other operators there are
only `&`, `|`, `U`, `R` and `X`. -/
def Expr.IsNegationNormal : Expr → Prop
  | .top | .bottom | .prop _ => True
  | .unary .not a => a.IsAtom
  | .unary .next a => a.IsNegationNormal
  | .binary .and a b | .binary .or a b | .binary .until a b | .binary .release a b =>
    a.IsNegationNormal ∧ b.IsNegationNormal
  | _ => False

theorem IsNormal.root {rules : List Rule} {e : Expr} (h : IsNormal rules e) :
    RootNormal rules e :=
  h e e.mem_subformulas_self

theorem IsNormal.arg {rules : List Rule} {op : UnaryOp} {a : Expr}
    (h : IsNormal rules (.unary op a)) : IsNormal rules a :=
  fun s hs => h s (List.mem_cons_of_mem _ hs)

theorem IsNormal.left {rules : List Rule} {op : BinaryOp} {a b : Expr}
    (h : IsNormal rules (.binary op a b)) : IsNormal rules a :=
  fun s hs => h s (List.mem_cons_of_mem _ (List.mem_append_left _ hs))

theorem IsNormal.right {rules : List Rule} {op : BinaryOp} {a b : Expr}
    (h : IsNormal rules (.binary op a b)) : IsNormal rules b :=
  fun s hs => h s (List.mem_cons_of_mem _ (List.mem_append_right _ hs))

/-- A formula in normal form cannot be rewritten. -/
theorem IsNormal.not_rewrites {rules : List Rule} {e e' : Expr} (h : IsNormal rules e) :
    ¬ Rewrites rules e e' := by
  intro hstep
  induction hstep with
  | root hr happly => simp [h.root _ hr] at happly
  | unary _ ih => exact ih h.arg
  | left _ ih => exact ih h.left
  | right _ ih => exact ih h.right

/-- A formula that no rule applies to is not changed by rewriting. -/
theorem IsNormal.eq_of_rewrites {rules : List Rule} {e e' : Expr} (h : IsNormal rules e)
    (hrw : ReflTransGen (Rewrites rules) e e') : e' = e := by
  obtain heq | ⟨_, hstep, -⟩ := ReflTransGen.cases_head_iff.1 hrw
  · exact heq.symm
  · exact absurd hstep h.not_rewrites

/-- A formula of linear time that no rule applies to is in negation normal form. -/
theorem IsNormal.isNegationNormal {e : Expr} (h : IsNormal Rule.linear e)
    (hlin : e.usage.branching = false) : e.IsNegationNormal := by
  induction e with
  | top | bottom | prop => trivial
  | unary op a ih =>
    have hroot := h.root
    simp only [Expr.usage, Usage.branching_join, Bool.or_eq_false_iff] at hlin
    cases op with
    | not =>
      cases a with
      | top | bottom | prop => trivial
      | unary op' b =>
        cases op' with
        | not => exact (LinearStep.doubleNegation b).not_rootNormal hroot
        | next => exact (LinearStep.negatedNext b).not_rootNormal hroot
        | future => exact (LinearStep.future b).not_rootNormal h.arg.root
        | global => exact (LinearStep.global b).not_rootNormal h.arg.root
        | _ => simp [Expr.usage, UnaryOp.usage, Usage.ofBranching] at hlin
      | binary op' b c =>
        cases op' with
        | implies => exact (LinearStep.implication b c).not_rootNormal h.arg.root
        | and => exact (LinearStep.negatedAnd b c).not_rootNormal hroot
        | or => exact (LinearStep.negatedOr b c).not_rootNormal hroot
        | «until» => exact (LinearStep.negatedUntil b c).not_rootNormal hroot
        | release => exact (LinearStep.negatedRelease b c).not_rootNormal hroot
        | weakUntil => exact (LinearStep.weakUntil b c).not_rootNormal h.arg.root
        | _ => simp [Expr.usage, BinaryOp.usage, Usage.ofBranching] at hlin
    | next => exact ih h.arg hlin.2
    | future => exact (LinearStep.future a).not_rootNormal hroot
    | global => exact (LinearStep.global a).not_rootNormal hroot
    | _ => simp [UnaryOp.usage, Usage.ofBranching] at hlin
  | binary op a b iha ihb =>
    have hroot := h.root
    simp only [Expr.usage, Usage.branching_join, Bool.or_eq_false_iff] at hlin
    cases op with
    | implies => exact (LinearStep.implication a b).not_rootNormal hroot
    | weakUntil => exact (LinearStep.weakUntil a b).not_rootNormal hroot
    | and | or | «until» | release => exact ⟨iha h.left hlin.2.1, ihb h.right hlin.2.2⟩
    | _ => simp [BinaryOp.usage, Usage.ofBranching] at hlin

/-- The subformulas of a formula in negation normal form are so, too. -/
theorem Expr.IsNegationNormal.of_mem_subformulas {e a : Expr} (h : e.IsNegationNormal)
    (ha : a ∈ e.subformulas) : a.IsNegationNormal := by
  refine Expr.of_mem_subformulas (fun op b hb => ?_) (fun op b c hbc => ?_) h ha
  · cases op with
    | not => cases b <;> trivial
    | next => exact hb
    | _ => exact hb.elim
  · cases op with
    | and | or | «until» | release => exact hbc
    | _ => exact hbc.elim

/-! ## Branching time -/

/-- The replacements of the table for branching time. -/
inductive BranchingStep : Expr → Expr → Prop
  | doubleNegation (a : Expr) : BranchingStep (.unary .not (.unary .not a)) a
  | implication (a b : Expr) :
    BranchingStep (.binary .implies a b) (.unary .not (.binary .and a (.unary .not b)))
  | or (a b : Expr) : BranchingStep (.binary .or a b)
    (.unary .not (.binary .and (.unary .not a) (.unary .not b)))
  | allUntil (a b : Expr) : BranchingStep (.binary .allUntil a b)
    (.binary .and
      (.unary .not (.binary .existsUntil (.unary .not b)
        (.binary .and (.unary .not a) (.unary .not b))))
      (.unary .allFinally b))
  | top : BranchingStep .top (.unary .not .bottom)
  | allGlobally (a : Expr) : BranchingStep (.unary .allGlobally a)
    (.unary .not (.binary .existsUntil (.unary .not .bottom) (.unary .not a)))
  | existsGlobally (a : Expr) : BranchingStep (.unary .existsGlobally a)
    (.unary .not (.unary .allFinally (.unary .not a)))
  | existsFinally (a : Expr) : BranchingStep (.unary .existsFinally a)
    (.binary .existsUntil (.unary .not .bottom) a)
  | allNext (a : Expr) : BranchingStep (.unary .allNext a)
    (.unary .not (.unary .existsNext (.unary .not a)))

/-- A rule of the branching-time table takes one of the steps listed. -/
theorem BranchingStep.of_rewrite? {r : Rule} {e e' : Expr} (hr : r ∈ Rule.branching)
    (h : r.rewrite? e = some e') : BranchingStep e e' := by
  obtain ⟨es, hm, ht⟩ := Option.bind_eq_some_iff.1 h
  simp only [Rule.branching, Rule.doubleNegation, List.mem_cons, List.not_mem_nil, or_false] at hr
  obtain rfl | rfl | rfl | rfl | rfl | rfl | rfl | rfl | rfl := hr <;>
    simp only [Pattern.match?_any, Pattern.match?_top, Pattern.match?_unary,
      Pattern.match?_binary] at hm
  · obtain ⟨_, rfl, a, rfl, rfl⟩ := hm
    cases ht
    exact .doubleNegation _
  · obtain ⟨a, b, _, _, rfl, rfl, rfl, rfl⟩ := hm
    cases ht
    exact .implication a b
  · obtain ⟨a, b, _, _, rfl, rfl, rfl, rfl⟩ := hm
    cases ht
    exact .or a b
  · obtain ⟨a, b, _, _, rfl, rfl, rfl, rfl⟩ := hm
    cases ht
    exact .allUntil a b
  · obtain ⟨rfl, rfl⟩ := hm
    cases ht
    exact .top
  · obtain ⟨a, rfl, rfl⟩ := hm
    cases ht
    exact .allGlobally a
  · obtain ⟨a, rfl, rfl⟩ := hm
    cases ht
    exact .existsGlobally a
  · obtain ⟨a, rfl, rfl⟩ := hm
    cases ht
    exact .existsFinally a
  · obtain ⟨a, rfl, rfl⟩ := hm
    cases ht
    exact .allNext a

/-- Where a replacement is possible, a rule of the table applies. -/
theorem BranchingStep.exists_rewrite? {e e' : Expr} (h : BranchingStep e e') :
    ∃ r ∈ Rule.branching, r.rewrite? e = some e' := by
  cases h with
  | doubleNegation => exact ⟨_, List.mem_of_getElem? (i := 0) rfl, rfl⟩
  | implication => exact ⟨_, List.mem_of_getElem? (i := 1) rfl, rfl⟩
  | or => exact ⟨_, List.mem_of_getElem? (i := 2) rfl, rfl⟩
  | allUntil => exact ⟨_, List.mem_of_getElem? (i := 3) rfl, rfl⟩
  | top => exact ⟨_, List.mem_of_getElem? (i := 4) rfl, rfl⟩
  | allGlobally => exact ⟨_, List.mem_of_getElem? (i := 5) rfl, rfl⟩
  | existsGlobally => exact ⟨_, List.mem_of_getElem? (i := 6) rfl, rfl⟩
  | existsFinally => exact ⟨_, List.mem_of_getElem? (i := 7) rfl, rfl⟩
  | allNext => exact ⟨_, List.mem_of_getElem? (i := 8) rfl, rfl⟩

theorem BranchingStep.not_rootNormal {e e' : Expr} (h : BranchingStep e e') :
    ¬ RootNormal Rule.branching e := by
  obtain ⟨r, hr, happly⟩ := h.exists_rewrite?
  exact not_rootNormal_of_rewrite? hr happly

theorem BranchingStep.branchingWeight_lt {e e' : Expr} (h : BranchingStep e e') :
    e'.branchingWeight < e.branchingWeight := by
  cases h <;> simp only [Expr.branchingWeight] <;> omega

/-- The rules for branching time, in any selection and order, have a weight. -/
theorem weighs_branchingWeight {rules : List Rule} (h : rules ⊆ Rule.branching) :
    Weighs Expr.branchingWeight rules where
  root r hr e e' happly := (BranchingStep.of_rewrite? (h hr) happly).branchingWeight_lt
  unary op a a' hlt := by
    cases op <;> simp only [Expr.branchingWeight] <;> omega
  left op a a' b hlt := by
    cases op <;> simp only [Expr.branchingWeight] <;> omega
  right op a b b' hlt := by
    cases op <;> simp only [Expr.branchingWeight] <;> omega
  arg_lt op a := by
    cases op <;> simp only [Expr.branchingWeight] <;> omega
  left_lt op a b := by
    cases op <;> simp only [Expr.branchingWeight] <;> omega
  right_lt op a b := by
    cases op <;> simp only [Expr.branchingWeight] <;> omega

theorem isClosed_branching : ∀ r ∈ Rule.branching, r.IsClosed := by decide

theorem keepsOperands_branching : ∀ r ∈ Rule.branching, r.KeepsOperands := by decide

theorem BranchingStep.usage_eq {e e' : Expr} (h : BranchingStep e e') : e'.usage = e.usage := by
  cases h <;> simp only [Expr.usage, UnaryOp.usage, BinaryOp.usage, Usage.join, Usage.boolean,
    Usage.ofBranching, Usage.mk.injEq] <;> grind

/-- Rules for branching time keep the logics that a formula belongs to. -/
theorem usage_eq_of_branching {rules : List Rule} (hsub : rules ⊆ Rule.branching) {e e' : Expr}
    (h : ReflTransGen (Rewrites rules) e e') : e'.usage = e.usage :=
  usage_eq_of_rewrites
    (fun _ hr _ _ happly => (BranchingStep.of_rewrite? (hsub hr) happly).usage_eq) h

/-- The tree is a negation. -/
def Expr.IsNegation : Expr → Prop
  | .unary .not _ => True
  | _ => False

/-- The form that labelling works on: the connectives are `B`, `!`, `&`, `AF`, `EX` and `E[ U ]`,
and no negation stands before a negation. -/
def Expr.IsBranchingNormal : Expr → Prop
  | .bottom | .prop _ => True
  | .unary .not a => a.IsBranchingNormal ∧ ¬ a.IsNegation
  | .unary .allFinally a | .unary .existsNext a => a.IsBranchingNormal
  | .binary .and a b | .binary .existsUntil a b => a.IsBranchingNormal ∧ b.IsBranchingNormal
  | _ => False

/-- A formula of branching time that no rule applies to is in the form that labelling works on. -/
theorem IsNormal.isBranchingNormal {e : Expr} (h : IsNormal Rule.branching e)
    (hbranch : e.usage.linear = false) : e.IsBranchingNormal := by
  induction e with
  | bottom | prop => trivial
  | top => exact BranchingStep.top.not_rootNormal h.root
  | unary op a ih =>
    have hroot := h.root
    simp only [Expr.usage, Usage.linear_join, Bool.or_eq_false_iff] at hbranch
    have ha := ih h.arg hbranch.2
    cases op with
    | not =>
      refine ⟨ha, fun hneg => ?_⟩
      cases a with
      | unary op' b =>
        cases op' with
        | not => exact (BranchingStep.doubleNegation b).not_rootNormal hroot
        | _ => exact hneg
      | _ => exact hneg
    | allFinally | existsNext => exact ha
    | allGlobally => exact (BranchingStep.allGlobally a).not_rootNormal hroot
    | existsGlobally => exact (BranchingStep.existsGlobally a).not_rootNormal hroot
    | existsFinally => exact (BranchingStep.existsFinally a).not_rootNormal hroot
    | allNext => exact (BranchingStep.allNext a).not_rootNormal hroot
    | _ => simp [UnaryOp.usage, Usage.ofLinear] at hbranch
  | binary op a b iha ihb =>
    have hroot := h.root
    simp only [Expr.usage, Usage.linear_join, Bool.or_eq_false_iff] at hbranch
    cases op with
    | implies => exact (BranchingStep.implication a b).not_rootNormal hroot
    | or => exact (BranchingStep.or a b).not_rootNormal hroot
    | allUntil => exact (BranchingStep.allUntil a b).not_rootNormal hroot
    | and | existsUntil => exact ⟨iha h.left hbranch.2.1, ihb h.right hbranch.2.2⟩
    | _ => simp [BinaryOp.usage, Usage.ofLinear] at hbranch

/-- The subformulas of a formula in the form that labelling works on are so, too. -/
theorem Expr.IsBranchingNormal.of_mem_subformulas {e a : Expr} (h : e.IsBranchingNormal)
    (ha : a ∈ e.subformulas) : a.IsBranchingNormal := by
  refine Expr.of_mem_subformulas (fun op b hb => ?_) (fun op b c hbc => ?_) h ha
  · cases op with
    | not => exact hb.1
    | allFinally | existsNext => exact hb
    | _ => exact hb.elim
  · cases op with
    | and | existsUntil => exact hbc
    | _ => exact hbc.elim

/-! ## Normalising with a table -/

/-- The rules of either table, in any selection and order, have a weight, which stays below the
bound of a formula. -/
theorem exists_weighs {rules : List Rule} (hsub : rules ⊆ Rule.linear ∨ rules ⊆ Rule.branching) :
    ∃ W, Weighs W rules ∧ (∀ r ∈ rules, r.IsClosed) ∧ ∀ e, W e < e.ruleBound := by
  obtain hsub | hsub := hsub
  · refine ⟨_, weighs_linearWeight hsub, fun r hr => isClosed_linear r (hsub hr), fun e => ?_⟩
    simp only [Expr.ruleBound]
    omega
  · refine ⟨_, weighs_branchingWeight hsub, fun r hr => isClosed_branching r (hsub hr), fun e => ?_⟩
    simp only [Expr.ruleBound]
    omega

/-- A stored formula is brought into the normal form of rules of one of the two tables, in any
selection and order. -/
theorem Build.yields_normalize_table {rules : List Rule} {f : Forest} {id : NodeId} {e : Expr}
    (hsub : rules ⊆ Rule.linear ∨ rules ⊆ Rule.branching) (hf : f.Tidy) (h : f.Denotes id e) :
    Yields (normalize rules id) f fun id' g => ∃ e', Built f e' id' g ∧
      ReflTransGen (Rewrites rules) e e' ∧ IsNormal rules e' := by
  obtain ⟨W, hw, closed, hbound⟩ := exists_weighs hsub
  exact yields_normalize hw closed hbound hf h

end TemporalCheck
