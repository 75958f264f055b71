import Mathlib.Logic.Relation
import TemporalCheck.Normal
import TemporalCheck.Proofs.Build

/-!
# TemporalCheck.Proofs.Rewriting

Normalising stored formulas is rewriting of trees.  `Rule.rewrite?` says what a rule makes of a
tree, and `Rewrites` closes this under operators; the operations on stored nodes are shown to take
such steps only, and to stop in a tree that no rule applies to.

They stop because a *weight* of trees gets smaller with every step.  The weight also bounds the
depth of a tree, so that one number bounds the depth of a pass, the rules applied at a node and the
number of passes.
-/

namespace TemporalCheck

open Relation (ReflTransGen)

/-! ## Rules on trees -/

/-- The trees that a pattern leaves open in a tree, from left to right, if it matches. -/
def Pattern.match? : Pattern → Expr → Option (List Expr)
  | .any, e => some [e]
  | .top, .top => some []
  | .unary op p, .unary op' a => if op = op' then p.match? a else none
  | .binary op p q, .binary op' a b =>
    if op = op' then do
      let left ← p.match? a
      let right ← q.match? b
      return left ++ right
    else none
  | _, _ => none

/-- What a rule makes of a tree, if it applies to it. -/
def Rule.rewrite? (r : Rule) (e : Expr) : Option Expr := (r.pattern.match? e).bind r.result.tree?

/-- How many operands a pattern leaves open. -/
def Pattern.holes : Pattern → Nat
  | .any => 1
  | .top => 0
  | .unary _ p => p.holes
  | .binary _ p q => p.holes + q.holes

/-- Whether a template names only the first `n` operands. -/
def Template.within (n : Nat) : Template → Bool
  | .operand i => i < n
  | .top | .bottom => true
  | .unary _ t => t.within n
  | .binary _ t u | .binaryRightFirst _ t u => t.within n && u.within n

/-- The template of a rule names only operands that its pattern leaves open. -/
def Rule.IsClosed (r : Rule) : Prop := r.result.within r.pattern.holes = true

instance (r : Rule) : Decidable r.IsClosed := inferInstanceAs (Decidable (_ = true))

/-- What the first rule that applies makes of a tree. -/
def Rule.first? (rules : List Rule) (e : Expr) : Option Expr := rules.findSome? (·.rewrite? e)

/-- One application of a rule somewhere in a tree. -/
inductive Rewrites (rules : List Rule) : Expr → Expr → Prop
  | root {r : Rule} {e e' : Expr} (hr : r ∈ rules) (h : r.rewrite? e = some e') :
    Rewrites rules e e'
  | unary {op : UnaryOp} {a a' : Expr} (h : Rewrites rules a a') :
    Rewrites rules (.unary op a) (.unary op a')
  | left {op : BinaryOp} {a a' b : Expr} (h : Rewrites rules a a') :
    Rewrites rules (.binary op a b) (.binary op a' b)
  | right {op : BinaryOp} {a b b' : Expr} (h : Rewrites rules b b') :
    Rewrites rules (.binary op a b) (.binary op a b')

/-- No rule applies to the tree as a whole. -/
def RootNormal (rules : List Rule) (e : Expr) : Prop := ∀ r ∈ rules, r.rewrite? e = none

/-- No rule applies anywhere in the tree. -/
def IsNormal (rules : List Rule) (e : Expr) : Prop := ∀ s ∈ e.subformulas, RootNormal rules s

namespace Pattern

@[simp] theorem match?_any {e : Expr} {es : List Expr} : any.match? e = some es ↔ [e] = es := by
  cases e <;> simp [match?]

@[simp] theorem match?_top {e : Expr} {es : List Expr} :
    top.match? e = some es ↔ e = .top ∧ [] = es := by
  cases e <;> simp [match?]

/-- A pattern with an operator in front fits formulas with that operator in front. -/
@[simp] theorem match?_unary {op : UnaryOp} {p : Pattern} {e : Expr} {es : List Expr} :
    (unary op p).match? e = some es ↔ ∃ a, e = .unary op a ∧ p.match? a = some es := by
  constructor
  · intro h
    cases e with
    | unary op' a =>
      simp only [match?] at h
      split at h
      · next heq => exact ⟨a, heq ▸ rfl, h⟩
      · cases h
    | _ => cases h
  · intro h
    obtain ⟨a, rfl, ha⟩ := h
    simp [match?, ha]

/-- A pattern with an operator between fits formulas with that operator between, and finds what its
two parts find. -/
@[simp] theorem match?_binary {op : BinaryOp} {p q : Pattern} {e : Expr} {es : List Expr} :
    (binary op p q).match? e = some es ↔ ∃ a b left right, e = .binary op a b ∧
      p.match? a = some left ∧ q.match? b = some right ∧ left ++ right = es := by
  constructor
  · intro h
    cases e with
    | binary op' a b =>
      simp only [match?] at h
      split at h
      · next heq =>
        obtain ⟨left, hl, h⟩ := Option.bind_eq_some_iff.1 h
        obtain ⟨right, hr, h⟩ := Option.bind_eq_some_iff.1 h
        exact ⟨a, b, left, right, heq ▸ rfl, hl, hr, Option.some.inj h⟩
      · cases h
    | _ => cases h
  · intro h
    obtain ⟨a, b, left, right, rfl, hl, hr, rfl⟩ := h
    simp [match?, hl, hr]

end Pattern

/-- A pattern finds a formula for each of its holes. -/
theorem Pattern.length_of_match? {p : Pattern} {e : Expr} {es : List Expr}
    (h : p.match? e = some es) : es.length = p.holes := by
  induction p generalizing e es with
  | any =>
    cases match?_any.1 h
    rfl
  | top =>
    obtain ⟨-, rfl⟩ := match?_top.1 h
    rfl
  | unary op p ih =>
    obtain ⟨a, -, ha⟩ := match?_unary.1 h
    exact ih ha
  | binary op p q ihp ihq =>
    obtain ⟨a, b, left, right, -, ha, hb, rfl⟩ := match?_binary.1 h
    rw [List.length_append, ihp ha, ihq hb, holes]

/-- A template makes a formula if it names no hole that is not there. -/
theorem Template.exists_tree? {t : Template} {es : List Expr} (h : t.within es.length = true) :
    ∃ e, t.tree? es = some e := by
  induction t with
  | operand i =>
    have hi : i < es.length := by simpa [within] using h
    exact ⟨es[i], List.getElem?_eq_getElem hi⟩
  | top | bottom => exact ⟨_, rfl⟩
  | unary op t ih =>
    obtain ⟨a, ha⟩ := ih h
    exact ⟨.unary op a, by simp [tree?, ha]⟩
  | binary op t u iht ihu | binaryRightFirst op t u iht ihu =>
    simp only [within, Bool.and_eq_true] at h
    obtain ⟨a, ha⟩ := iht h.1
    obtain ⟨b, hb⟩ := ihu h.2
    exact ⟨.binary op a b, by simp [tree?, ha, hb]⟩

variable {rules : List Rule}

theorem Rule.first?_eq_none_iff {e : Expr} : Rule.first? rules e = none ↔ RootNormal rules e := by
  simp [first?, RootNormal]

theorem Rule.rewrites_of_first? {e e' : Expr} (h : Rule.first? rules e = some e') :
    Rewrites rules e e' := by
  obtain ⟨r, hr, happly⟩ := List.exists_of_findSome?_eq_some h
  exact .root hr happly

theorem rewrites_unary {op : UnaryOp} {a a' : Expr} (h : ReflTransGen (Rewrites rules) a a') :
    ReflTransGen (Rewrites rules) (.unary op a) (.unary op a') :=
  h.lift _ fun _ _ => .unary

theorem rewrites_binary {op : BinaryOp} {a a' b b' : Expr}
    (ha : ReflTransGen (Rewrites rules) a a') (hb : ReflTransGen (Rewrites rules) b b') :
    ReflTransGen (Rewrites rules) (.binary op a b) (.binary op a' b') :=
  (ha.lift (fun x => Expr.binary op x b) fun _ _ => Rewrites.left).trans
    (hb.lift (fun x => Expr.binary op a' x) fun _ _ => Rewrites.right)

/-- What every rule keeps, and operators pass on, is kept by rewriting. -/
theorem rewrites_preserves {P : Expr → Expr → Prop} (refl : ∀ e, P e e)
    (trans : ∀ a b c, P a b → P b c → P a c)
    (root : ∀ r ∈ rules, ∀ e e', r.rewrite? e = some e' → P e e')
    (unary : ∀ op a a', P a a' → P (.unary op a) (.unary op a'))
    (binary : ∀ op a a' b b', P a a' → P b b' → P (.binary op a b) (.binary op a' b'))
    {e e' : Expr} (h : ReflTransGen (Rewrites rules) e e') : P e e' := by
  have step : ∀ {e e' : Expr}, Rewrites rules e e' → P e e' := by
    intro e e' h
    induction h with
    | root hr happly => exact root _ hr _ _ happly
    | unary _ ih => exact unary _ _ _ ih
    | left _ ih => exact binary _ _ _ _ _ ih (refl _)
    | right _ ih => exact binary _ _ _ _ _ (refl _) ih
  induction h with
  | refl => exact refl e
  | tail _ hstep ih => exact trans _ _ _ ih (step hstep)

/-- A value of trees that every rule keeps, and that a tree has from the values of its operands, is
kept by rewriting. -/
theorem eq_of_rewrites {α : Sort*} {v : Expr → α}
    (root : ∀ r ∈ rules, ∀ e e', r.rewrite? e = some e' → v e' = v e)
    (unary : ∀ op a a', v a' = v a → v (.unary op a') = v (.unary op a))
    (binary : ∀ op a a' b b', v a' = v a → v b' = v b → v (.binary op a' b') = v (.binary op a b))
    {e e' : Expr} (h : ReflTransGen (Rewrites rules) e e') : v e' = v e :=
  rewrites_preserves (P := fun e e' => v e' = v e) (fun _ => rfl)
    (fun _ _ _ hab hbc => hbc.trans hab) root unary binary h

theorem not_rootNormal_of_rewrite? {r : Rule} {e e' : Expr} (hr : r ∈ rules)
    (h : r.rewrite? e = some e') : ¬ RootNormal rules e := by
  intro hnormal
  rw [hnormal r hr] at h
  cases h

/-! ## Weights -/

/-- A weight of trees that every rule makes smaller, wherever it is applied. -/
structure Weighs (W : Expr → Nat) (rules : List Rule) : Prop where
  root : ∀ r ∈ rules, ∀ e e', r.rewrite? e = some e' → W e' < W e
  unary : ∀ op a a', W a' < W a → W (.unary op a') < W (.unary op a)
  left : ∀ op a a' b, W a' < W a → W (.binary op a' b) < W (.binary op a b)
  right : ∀ op a b b', W b' < W b → W (.binary op a b') < W (.binary op a b)
  arg_lt : ∀ op a, W a < W (.unary op a)
  left_lt : ∀ op a b, W a < W (.binary op a b)
  right_lt : ∀ op a b, W b < W (.binary op a b)

variable {W : Expr → Nat}

/-- Rewriting anywhere in a formula makes a weight smaller. -/
theorem Weighs.lt_of_rewrites (hw : Weighs W rules) {e e' : Expr} (h : Rewrites rules e e') :
    W e' < W e := by
  induction h with
  | root hr happly => exact hw.root _ hr _ _ happly
  | unary _ ih => exact hw.unary _ _ _ ih
  | left _ ih => exact hw.left _ _ _ _ ih
  | right _ ih => exact hw.right _ _ _ _ ih

theorem Weighs.le_of_rewrites (hw : Weighs W rules) {e e' : Expr}
    (h : ReflTransGen (Rewrites rules) e e') : W e' ≤ W e := by
  induction h with
  | refl => exact Nat.le_refl _
  | tail _ hstep ih => exact Nat.le_trans (Nat.le_of_lt (hw.lt_of_rewrites hstep)) ih

/-- A formula is at most one higher than it weighs. -/
theorem Weighs.height_le (hw : Weighs W rules) (e : Expr) : e.height ≤ W e + 1 := by
  induction e with
  | top | bottom | prop => simp [Expr.height]
  | unary op a ih =>
    have hlt := hw.arg_lt op a
    simp only [Expr.height]
    omega
  | binary op a b iha ihb =>
    have hleft := hw.left_lt op a b
    have hright := hw.right_lt op a b
    simp only [Expr.height]
    omega

/-! ## Matching and building in a forest -/

variable {f : Forest}

/-- Matching a stored tree is matching the tree.  The operands that are met before a match fails are
kept, too. -/
theorem Pattern.exists_bind {id : NodeId} {e : Expr} (h : f.Denotes id e) (p : Pattern)
    (bound : List NodeId) :
    ∃ ids, p.bind f id bound = .ok ((p.match? e).isSome, bound ++ ids) ∧
      ∀ es, p.match? e = some es → List.Forall₂ f.Denotes ids es := by
  induction p generalizing id e bound with
  | any =>
    obtain ⟨node, hnode⟩ := h.exists_node
    have hm : any.match? e = some [e] := match?_any.2 rfl
    rw [hm, Pattern.bind, Forest.get_bind_of_node? hnode]
    refine ⟨[id], rfl, fun es hes => ?_⟩
    cases hes
    exact .cons h .nil
  | top =>
    refine ⟨[], ?_, fun es hes => ?_⟩
    · cases h with
      | top h | bottom h | prop h | unary h | binary h =>
        simp [Pattern.bind, Forest.get_bind_of_node? h, match?, Pure.pure, Except.pure]
    · obtain ⟨-, rfl⟩ := match?_top.1 hes
      exact .nil
  | unary op p ih =>
    cases h with
    | @unary _ arg op' a h harg =>
      by_cases heq : op = op'
      · obtain ⟨ids, hids, hall⟩ := ih harg bound
        exact ⟨ids, by simp [Pattern.bind, Forest.get_bind_of_node? h, match?, heq, hids],
          by simpa [match?, heq] using hall⟩
      · exact ⟨[], by simp [Pattern.bind, Forest.get_bind_of_node? h, match?, heq, Pure.pure,
          Except.pure], by simp [match?, heq]⟩
    | top h | bottom h | prop h | binary h =>
      exact ⟨[], by simp [Pattern.bind, Forest.get_bind_of_node? h, match?, Pure.pure, Except.pure],
        by simp [match?]⟩
  | binary op p q ihp ihq =>
    cases h with
    | @binary _ left right op' a b h hleft hright =>
      by_cases heq : op = op'
      · subst heq
        obtain ⟨ids, hids, hall⟩ := ihp hleft bound
        obtain ⟨ids', hids', hall'⟩ := ihq hright (bound ++ ids)
        rw [Pattern.bind, Forest.get_bind_of_node? h]
        cases hl : p.match? a with
        | none =>
          exact ⟨ids, by simp [match?, hids, hl, Bind.bind, Except.bind, Pure.pure, Except.pure],
            by simp [match?, hl]⟩
        | some left' =>
          refine ⟨ids ++ ids', ?_, fun es hes => ?_⟩
          · cases hr : q.match? b <;> simp [match?, hids, hids', hl, hr, Bind.bind, Except.bind]
          · obtain ⟨_, _, l, r, heq, hl', hr, rfl⟩ := match?_binary.1 hes
            cases heq
            exact List.rel_append (hall l hl') (hall' r hr)
      · exact ⟨[], by simp [Pattern.bind, Forest.get_bind_of_node? h, match?, heq, Pure.pure,
          Except.pure], by simp [match?, heq]⟩
    | top h | bottom h | prop h | unary h =>
      exact ⟨[], by simp [Pattern.bind, Forest.get_bind_of_node? h, match?, Pure.pure, Except.pure],
        by simp [match?]⟩

theorem Forest.Keeps.forall₂ {g : Forest} (hk : f.Keeps g) {ids : List NodeId} {es : List Expr}
    (h : List.Forall₂ f.Denotes ids es) : List.Forall₂ g.Denotes ids es :=
  h.imp fun _ _ => hk.denotes

/-- A template is stored as the tree that it stands for. -/
theorem Template.yields_build {t : Template} {ids : List NodeId} {es : List Expr} {e : Expr}
    (hf : f.Tidy) (hids : List.Forall₂ f.Denotes ids es) (ht : t.tree? es = some e) :
    Yields (t.build ids) f (Built f e) := by
  induction t generalizing f e with
  | operand i =>
    obtain ⟨hi, he⟩ := List.getElem?_eq_some_iff.1 ht
    have hi' : i < ids.length := hids.length_eq ▸ hi
    simp only [build, List.getElem?_eq_getElem hi']
    exact .pure (.refl hf (he ▸ hids.get hi' hi))
  | top =>
    cases ht
    exact Build.yields_add hf .top
  | bottom =>
    cases ht
    exact Build.yields_add hf .bottom
  | unary op arg ih =>
    obtain ⟨a, ha, he⟩ := Option.bind_eq_some_iff.1 ht
    cases he
    refine .bind ((ih hf hids ha).mono fun id g hg => ?_)
    exact (Build.yields_add hg.tidy (.unary op hg.denotes)).mono fun _ _ => hg.trans
  | binary op left right ihl ihr =>
    obtain ⟨a, ha, he⟩ := Option.bind_eq_some_iff.1 ht
    obtain ⟨b, hb, he⟩ := Option.bind_eq_some_iff.1 he
    cases he
    refine .bind ((ihl hf hids ha).mono fun id g hg => ?_)
    refine .bind ((ihr hg.tidy (hg.keeps.forall₂ hids) hb).mono fun id' k hk => ?_)
    exact (Build.yields_add hk.tidy (.binary op (hk.keeps.denotes hg.denotes) hk.denotes)).mono
      fun _ _ => (hg.trans hk).trans
  | binaryRightFirst op left right ihl ihr =>
    obtain ⟨a, ha, he⟩ := Option.bind_eq_some_iff.1 ht
    obtain ⟨b, hb, he⟩ := Option.bind_eq_some_iff.1 he
    cases he
    refine .bind ((ihr hf hids hb).mono fun id' g hg => ?_)
    refine .bind ((ihl hg.tidy (hg.keeps.forall₂ hids) ha).mono fun id k hk => ?_)
    exact (Build.yields_add hk.tidy (.binary op hk.denotes (hk.keeps.denotes hg.denotes))).mono
      fun _ _ => (hg.trans hk).trans

/-! ## Normalising -/

namespace Build

/-- What one round of rules at a node ends in. -/
def Applied (f : Forest) (result? : Option Expr) (id? : Option NodeId) (g : Forest) : Prop :=
  match result? with
  | some e => ∃ id, id? = some id ∧ Built f e id g
  | none => id? = none ∧ g = f

/-- The first rule that applies to a tree is applied to the node that stands for it. -/
theorem yields_applyFirst {id : NodeId} {e : Expr} (hf : f.Tidy) (h : f.Denotes id e)
    (closed : ∀ r ∈ rules, r.IsClosed) :
    Yields (applyFirst id rules) f (Applied f (Rule.first? rules e)) := by
  induction rules with
  | nil => exact .pure ⟨rfl, rfl⟩
  | cons rule rules ih =>
    unfold applyFirst
    obtain ⟨ids, hids, hall⟩ := rule.pattern.exists_bind h []
    refine .bind (.get (.bind (.lift hids ?_)))
    cases hm : rule.pattern.match? e with
    | none =>
      have hfirst : Rule.first? (rule :: rules) e = Rule.first? rules e := by
        simp [Rule.first?, Rule.rewrite?, hm]
      rw [hfirst]
      exact ih fun r hr => closed r (by simp [hr])
    | some es =>
      have hwithin : rule.result.within es.length = true := by
        rw [Pattern.length_of_match? hm]
        exact closed rule (by simp)
      obtain ⟨e', he'⟩ := Template.exists_tree? hwithin
      have hfirst : Rule.first? (rule :: rules) e = some e' := by
        simp [Rule.first?, Rule.rewrite?, hm, he']
      rw [hfirst]
      refine .bind ((Template.yields_build hf (hall es hm) he').mono fun id' g hg => ?_)
      exact .pure ⟨id', rfl, hg⟩

/-- What applying rules to a tree for as long as possible ends in. -/
structure RootDone (rules : List Rule) (W : Expr → Nat) (f : Forest) (e : Expr) (changed : Bool)
    (r : NodeId × Bool) (g : Forest) (e' : Expr) : Prop where
  built : Built f e' r.1 g
  rewrites : ReflTransGen (Rewrites rules) e e'
  normal : RootNormal rules e'
  progress : r.2 = changed ∧ e' = e ∨ r.2 = true ∧ W e' < W e

/-- Rules can be applied to a node only as often as its weight says. -/
theorem yields_applyRules {id : NodeId} {e : Expr} {steps : Nat} {changed : Bool}
    (hw : Weighs W rules) (closed : ∀ r ∈ rules, r.IsClosed) (hf : f.Tidy) (h : f.Denotes id e)
    (hsteps : W e < steps) :
    Yields (applyRules rules steps id changed) f fun r g =>
      ∃ e', RootDone rules W f e changed r g e' := by
  induction steps generalizing f id e changed with
  | zero => omega
  | succ n ih =>
    unfold applyRules
    refine .bind ((yields_applyFirst hf h closed).mono fun id? g hg => ?_)
    cases hfirst : Rule.first? rules e with
    | none =>
      rw [hfirst] at hg
      obtain ⟨rfl, rfl⟩ := hg
      exact .pure ⟨e, .refl hf h, .refl, Rule.first?_eq_none_iff.1 hfirst, .inl ⟨rfl, rfl⟩⟩
    | some e₁ =>
      rw [hfirst] at hg
      obtain ⟨id₁, rfl, hg⟩ := hg
      have hstep := Rule.rewrites_of_first? hfirst
      have hlt := hw.lt_of_rewrites hstep
      refine (ih hg.tidy hg.denotes (by omega)).mono fun r k hk => ?_
      obtain ⟨e', hdone⟩ := hk
      have hle := hw.le_of_rewrites hdone.rewrites
      refine ⟨e', hg.trans hdone.built, .head hstep hdone.rewrites, hdone.normal, .inr ⟨?_, ?_⟩⟩
      · obtain ⟨hr, -⟩ | ⟨hr, -⟩ := hdone.progress <;> exact hr
      · omega

/-- What a pass over a tree ends in: either nothing has changed, and then the tree is normal, or
the tree has become lighter. -/
structure PassDone (rules : List Rule) (W : Expr → Nat) (f : Forest) (e : Expr)
    (r : NodeId × Bool) (g : Forest) (e' : Expr) : Prop where
  built : Built f e' r.1 g
  rewrites : ReflTransGen (Rewrites rules) e e'
  progress : r.2 = false ∧ e' = e ∧ IsNormal rules e ∨ r.2 = true ∧ W e' < W e

/-- What a pass over the operands of a node has done to its tree `e`, which is now `e₁`. -/
def OperandsDone (rules : List Rule) (W : Expr → Nat) (e e₁ : Expr) (changed : Bool) : Prop :=
  changed = false ∧ e₁ = e ∧ (RootNormal rules e → IsNormal rules e) ∨ changed = true ∧ W e₁ < W e

/-- After the operands, rules are applied to the node itself. -/
theorem yields_applyRules_of_operands {id : NodeId} {e e₁ : Expr} {steps : Nat} {changed : Bool}
    {g : Forest} (hw : Weighs W rules) (closed : ∀ r ∈ rules, r.IsClosed) (hg : Built f e₁ id g)
    (hsteps : W e < steps) (hrw : ReflTransGen (Rewrites rules) e e₁)
    (hops : OperandsDone rules W e e₁ changed) :
    Yields (applyRules rules steps id changed) g fun r k => ∃ e', PassDone rules W f e r k e' := by
  have hle := hw.le_of_rewrites hrw
  refine (yields_applyRules hw closed hg.tidy hg.denotes (by omega)).mono fun r k hk => ?_
  obtain ⟨e', hdone⟩ := hk
  have hle' := hw.le_of_rewrites hdone.rewrites
  refine ⟨e', hg.trans hdone.built, hrw.trans hdone.rewrites, ?_⟩
  obtain ⟨hr, heq⟩ | ⟨hr, hlt⟩ := hdone.progress
  · obtain ⟨hch, heq₁, hnormal⟩ | ⟨hch, hlt⟩ := hops
    · have heq' : e' = e := heq.trans heq₁
      exact .inl ⟨hr.trans hch, heq', hnormal (heq' ▸ hdone.normal)⟩
    · rw [heq]
      exact .inr ⟨hr.trans hch, hlt⟩
  · exact .inr ⟨hr, by omega⟩

/-- The node itself is stored anew if an operand has changed. -/
theorem yields_rebuild {id : NodeId} {node : Node} {e e₁ : Expr} {steps : Nat} {changed : Bool}
    {g : Forest} (hw : Weighs W rules) (closed : ∀ r ∈ rules, r.IsClosed) (hfg : f.Keeps g)
    (hg : g.Tidy) (h : f.Denotes id e) (hm : node.Makes g e₁) (hsteps : W e < steps)
    (hrw : ReflTransGen (Rewrites rules) e e₁) (hops : OperandsDone rules W e e₁ changed) :
    Yields (if changed = true then do
        let root ← add node
        applyRules rules steps root changed
      else do
        let root ← pure id
        applyRules rules steps root changed : Build (NodeId × Bool)) g
      fun r k => ∃ e', PassDone rules W f e r k e' := by
  split
  · refine .bind ((yields_add hg hm).mono fun id' k hk => ?_)
    exact yields_applyRules_of_operands hw closed ⟨hfg.trans hk.keeps, hk.tidy, hk.denotes⟩ hsteps
      hrw hops
  · next hch =>
    have heq : e₁ = e := by
      obtain ⟨-, heq, -⟩ | ⟨htrue, -⟩ := hops
      · exact heq
      · exact absurd htrue hch
    exact yields_applyRules_of_operands hw closed ⟨hfg, hg, heq ▸ hfg.denotes h⟩ hsteps hrw hops

/-- A formula is normal if its operand is and no rule fits at its root. -/
theorem isNormal_unary {op : UnaryOp} {a : Expr} (ha : IsNormal rules a)
    (h : RootNormal rules (.unary op a)) : IsNormal rules (.unary op a) := by
  intro s hs
  obtain rfl | hs := List.mem_cons.1 hs
  · exact h
  · exact ha s hs

/-- The same for an operator with two operands. -/
theorem isNormal_binary {op : BinaryOp} {a b : Expr} (ha : IsNormal rules a)
    (hb : IsNormal rules b) (h : RootNormal rules (.binary op a b)) :
    IsNormal rules (.binary op a b) := by
  intro s hs
  obtain rfl | hs := List.mem_cons.1 hs
  · exact h
  · obtain hs | hs := List.mem_append.1 hs
    · exact ha s hs
    · exact hb s hs

/-- A pass over the operand of a node, as far as the node is concerned. -/
theorem PassDone.unary (hw : Weighs W rules) {op : UnaryOp} {a a' : Expr} {r : NodeId × Bool}
    {g : Forest} (h : PassDone rules W f a r g a') :
    OperandsDone rules W (.unary op a) (.unary op a') r.2 := by
  obtain ⟨hr, rfl, hnormal⟩ | ⟨hr, hlt⟩ := h.progress
  · exact .inl ⟨hr, rfl, isNormal_unary hnormal⟩
  · exact .inr ⟨hr, hw.unary op a a' hlt⟩

/-- Passes over the two operands of a node, as far as the node is concerned. -/
theorem PassDone.binary (hw : Weighs W rules) {op : BinaryOp} {a a' b b' : Expr}
    {r r' : NodeId × Bool} {g k : Forest} (ha : PassDone rules W f a r g a')
    (hb : PassDone rules W g b r' k b') :
    OperandsDone rules W (.binary op a b) (.binary op a' b') (r.2 || r'.2) := by
  have hle : W (.binary op a' b') ≤ W (.binary op a b) :=
    hw.le_of_rewrites (rewrites_binary ha.rewrites hb.rewrites)
  obtain ⟨hr, rfl, hnormal⟩ | ⟨hr, hlt⟩ := ha.progress
  · obtain ⟨hr', rfl, hnormal'⟩ | ⟨hr', hlt'⟩ := hb.progress
    · exact .inl ⟨by rw [hr, hr']; rfl, rfl, isNormal_binary hnormal hnormal'⟩
    · exact .inr ⟨by rw [hr', Bool.or_true], hw.right op a' b b' hlt'⟩
  · have hstep := hw.left op a a' b hlt
    have hrest : W (.binary op a' b') ≤ W (.binary op a' b) :=
      hw.le_of_rewrites (rewrites_binary .refl hb.rewrites)
    exact .inr ⟨by rw [hr, Bool.true_or], Nat.lt_of_le_of_lt hrest hstep⟩

/-- One pass over a formula ends, and tells whether it has rewritten anything. -/
theorem yields_normalizePass {id : NodeId} {e : Expr} {steps d : Nat} (hw : Weighs W rules)
    (closed : ∀ r ∈ rules, r.IsClosed) (hf : f.Tidy) (h : f.Denotes id e) (hd : e.height ≤ d)
    (hsteps : W e < steps) :
    Yields (normalizePass rules steps d id) f fun r g => ∃ e', PassDone rules W f e r g e' := by
  induction d generalizing f id e with
  | zero => exact absurd hd (Nat.not_le_of_lt e.height_pos)
  | succ d ih =>
    unfold normalizePass
    refine .bind ?_
    have hself := h
    cases h with
    | top h | bottom h | prop h =>
      refine yields_node h ?_
      refine yields_applyRules_of_operands hw closed (.refl hf hself) hsteps .refl ?_
      exact .inl ⟨rfl, rfl, fun hroot => by simpa [IsNormal, Expr.subformulas] using hroot⟩
    | @unary _ arg op a h harg =>
      have hlt : W a < steps := Nat.lt_of_le_of_lt (Nat.le_of_lt (hw.arg_lt op a)) hsteps
      refine yields_node h (.bind ?_)
      refine (ih hf harg (by simpa [Expr.height] using hd) hlt).mono fun r g hg => ?_
      obtain ⟨a', hpass⟩ := hg
      exact yields_rebuild hw closed hpass.built.keeps hpass.built.tidy hself
        (.unary op hpass.built.denotes) hsteps (rewrites_unary hpass.rewrites) (hpass.unary hw)
    | @binary _ left right op a b h hleft hright =>
      simp only [Expr.height, Nat.add_le_add_iff_right, Nat.max_le] at hd
      have hlta : W a < steps := Nat.lt_trans (hw.left_lt op a b) hsteps
      have hltb : W b < steps := Nat.lt_trans (hw.right_lt op a b) hsteps
      refine yields_node h (.bind ((ih hf hleft hd.1 hlta).mono fun r g hg => ?_))
      obtain ⟨a', hpass⟩ := hg
      have hright' := hpass.built.keeps.denotes hright
      refine .bind ((ih hpass.built.tidy hright' hd.2 hltb).mono fun r' k hk => ?_)
      obtain ⟨b', hpass'⟩ := hk
      have hleft' := hpass'.built.keeps.denotes hpass.built.denotes
      exact yields_rebuild hw closed (hpass.built.keeps.trans hpass'.built.keeps)
        hpass'.built.tidy hself (.binary op hleft' hpass'.built.denotes) hsteps
        (rewrites_binary hpass.rewrites hpass'.rewrites) (hpass.binary hw hpass')

/-- Passes end in a tree that no rule applies to. -/
theorem yields_normalizePasses {id : NodeId} {e : Expr} {bound passes : Nat} (hw : Weighs W rules)
    (closed : ∀ r ∈ rules, r.IsClosed) (hf : f.Tidy) (h : f.Denotes id e) (hbound : W e < bound)
    (hpasses : W e < passes) :
    Yields (normalizePasses rules bound passes id) f fun id' g => ∃ e', Built f e' id' g ∧
      ReflTransGen (Rewrites rules) e e' ∧ IsNormal rules e' := by
  induction passes generalizing f id e with
  | zero => omega
  | succ n ih =>
    unfold normalizePasses
    have hheight := hw.height_le e
    refine .bind ((yields_normalizePass hw closed hf h (by omega) hbound).mono fun r g hg => ?_)
    obtain ⟨e₁, hpass⟩ := hg
    obtain ⟨root, changed⟩ := r
    obtain ⟨rfl, rfl, hnormal⟩ | ⟨rfl, hlt⟩ := hpass.progress
    · exact .pure ⟨e₁, hpass.built, hpass.rewrites, hnormal⟩
    · refine (ih hpass.built.tidy hpass.built.denotes (by omega) (by omega)).mono fun id' k hk => ?_
      obtain ⟨e', hbuilt, hrw, hnormal⟩ := hk
      exact ⟨e', hpass.built.trans hbuilt, hpass.rewrites.trans hrw, hnormal⟩

/-- A stored formula is brought into the normal form of some rules that have a weight. -/
theorem yields_normalize {id : NodeId} {e : Expr} (hw : Weighs W rules)
    (closed : ∀ r ∈ rules, r.IsClosed) (hbound : ∀ e, W e < e.ruleBound) (hf : f.Tidy)
    (h : f.Denotes id e) :
    Yields (normalize rules id) f fun id' g => ∃ e', Built f e' id' g ∧
      ReflTransGen (Rewrites rules) e e' ∧ IsNormal rules e' := by
  unfold normalize
  by_cases hempty : rules.isEmpty = true
  · rw [if_pos hempty]
    refine (yields_share hf h).mono fun id' g hg => ⟨e, hg, .refl, ?_⟩
    rw [List.isEmpty_iff] at hempty
    intro s _ r hr
    rw [hempty] at hr
    cases hr
  · rw [if_neg hempty]
    have hrule : ruleBound f id = e.ruleBound := by
      simp only [ruleBound, Forest.tree_of_denotes h]
    refine .bind (.get (.bind ?_))
    rw [hrule]
    refine (yields_normalizePasses hw closed hf h (hbound e) (hbound e)).mono fun id' g hg => ?_
    obtain ⟨e', hbuilt, hrw, hnormal⟩ := hg
    refine (yields_share hbuilt.tidy hbuilt.denotes).mono fun id'' k hk => ?_
    exact ⟨e', hbuilt.trans hk, hrw, hnormal⟩

end Build

end TemporalCheck
