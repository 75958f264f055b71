import TemporalCheck.Proofs.Handle

/-!
# TemporalCheck.Proofs.TargetForm

What normalising arrives at, node by node.  The automaton of a formula is built from nodes of
negation normal form only, and labelling knows the nodes of its own form only; `Node.isLinearTarget`
and `Node.isBranchingTarget` are what the two of them rely on.

* Every node below a normalised formula is of the form that its checker works on.
* The same variables are mentioned as before, and the logics are the same.
* Normalising once more gives the same formula again.

The three facts are put together in `Formula.Settled`, and `Formula.normalizing_settles` says that
both ways of normalising end in it.
-/

namespace TemporalCheck

open Relation (ReflTransGen)

/-! ## Forms of nodes -/

namespace Node

/-- Whether a node is `T`, `B` or a variable. -/
def isAtom : Node → Bool
  | .top | .bottom | .prop _ => true
  | _ => false

/-- Whether a node is a negation. -/
def isNegation : Node → Bool
  | .unary .not _ => true
  | _ => false

/-- Whether a node belongs to negation normal form: it is an atom, the negation of one, or one of
`&`, `|`, `U`, `R` and `X`. -/
def isLinearTarget (f : Forest) : Node → Bool
  | .top | .bottom | .prop _ => true
  | .unary .not a => (f.node? a).any isAtom
  | .unary .next _ => true
  | .binary .and _ _ | .binary .or _ _ | .binary .until _ _ | .binary .release _ _ => true
  | _ => false

/-- Whether a node belongs to the form that labelling works on: it is `B`, a variable, `&`, `AF`,
`EX`, `E[ U ]`, or the negation of something else than a negation. -/
def isBranchingTarget (f : Forest) : Node → Bool
  | .bottom | .prop _ => true
  | .unary .not a => (f.node? a).any (!·.isNegation)
  | .unary .allFinally _ | .unary .existsNext _ => true
  | .binary .and _ _ | .binary .existsUntil _ _ => true
  | _ => false

end Node

namespace Forest

variable {f : Forest} {root id : NodeId} {e : Expr} {name : String}

/-- Whether a variable stands at or below a node. -/
def Mentions (f : Forest) (root : NodeId) (name : String) : Prop :=
  ∃ id, f.Below root id ∧ f.node? id = some (.prop name)

/-- A node mentions a variable if and only if its formula has it. -/
theorem Denotes.mentions_iff (h : f.Denotes root e) :
    f.Mentions root name ↔ .prop name ∈ e.subformulas := by
  constructor
  · intro hm
    obtain ⟨id, hid, hnode⟩ := hm
    obtain ⟨a, ha, hd⟩ := h.of_below hid
    rwa [hd.unique (.prop hnode)] at ha
  · intro hp
    obtain ⟨id, hid, hd⟩ := h.exists_below hp
    cases hd with
    | prop hnode => exact ⟨id, hid, hnode⟩

theorem Denotes.any_isAtom (h : f.Denotes id e) (ha : e.IsAtom) :
    (f.node? id).any Node.isAtom = true := by
  cases h with
  | top h | bottom h | prop h => simp [h, Node.isAtom]
  | unary | binary => exact ha.elim

/-- A formula that is no negation has a node that is none. -/
theorem Denotes.any_not_isNegation (h : f.Denotes id e) (hn : ¬ e.IsNegation) :
    (f.node? id).any (!·.isNegation) = true := by
  cases h with
  | top h | bottom h | prop h | binary h => simp [h, Node.isNegation]
  | @unary _ arg op a h =>
    cases op with
    | not => exact absurd trivial hn
    | _ => simp [h, Node.isNegation]

/-- The root of a formula in negation normal form. -/
theorem Denotes.any_isLinearTarget (h : f.Denotes id e) (hn : e.IsNegationNormal) :
    (f.node? id).any (Node.isLinearTarget f) = true := by
  cases h with
  | top h | bottom h | prop h => simp [h, Node.isLinearTarget]
  | @unary _ arg op a h harg =>
    cases op with
    | not => simpa [h, Node.isLinearTarget] using harg.any_isAtom hn
    | next => simp [h, Node.isLinearTarget]
    | _ => exact hn.elim
  | @binary _ left right op a b h =>
    cases op with
    | and | or | «until» | release => simp [h, Node.isLinearTarget]
    | _ => exact hn.elim

/-- The root of a formula in the form that labelling works on. -/
theorem Denotes.any_isBranchingTarget (h : f.Denotes id e) (hn : e.IsBranchingNormal) :
    (f.node? id).any (Node.isBranchingTarget f) = true := by
  cases h with
  | top => exact hn.elim
  | bottom h | prop h => simp [h, Node.isBranchingTarget]
  | @unary _ arg op a h harg =>
    cases op with
    | not => simpa [h, Node.isBranchingTarget] using harg.any_not_isNegation hn.2
    | allFinally | existsNext => simp [h, Node.isBranchingTarget]
    | _ => exact hn.elim
  | @binary _ left right op a b h =>
    cases op with
    | and | existsUntil => simp [h, Node.isBranchingTarget]
    | _ => exact hn.elim

end Forest

/-! ## Normalising handles -/

namespace Formula

variable {c : Context} {f : Formula} {e : Expr} {rules : List Rule}

/-- What normalising a formula `f` with some rules arrives at: a formula `f'` of which every node is
of a given form, with the variables and the logics of `f`, and which normalising with the same rules
gives again. -/
structure Settled (target : Forest → Node → Bool) (rules : List Rule) (c : Context) (f : Formula)
    (f' : Formula) (c' : Context) : Prop where
  form : ∀ id, c'.forest.Below f'.root id → (c'.forest.node? id).any (target c'.forest) = true
  mentions_iff : ∀ name, c'.forest.Mentions f'.root name ↔ c.forest.Mentions f.root name
  usage_eq : f'.usage = f.usage
  again : ∃ f'' c'', f'.normalizedWith rules c' = .ok (f'', c'') ∧
    c''.forest.equal f'.root f''.root = .ok true ∧
    ∃ e, c''.forest.Denotes f'.root e ∧ c''.forest.Denotes f''.root e

/-- A formula that the rules of a table have been applied to for as long as possible is settled, if
the logics are kept and every subformula is of the required form where it is stored. -/
theorem Settled.of_given {target : Forest → Node → Bool} {f' : Formula} {c' : Context} {e' : Expr}
    (hsub : rules ⊆ Rule.linear ∨ rules ⊆ Rule.branching) (hkeeps : ∀ r ∈ rules, r.KeepsOperands)
    (hf : f.StandsFor c.forest e) (hgiven : Given c e' f' c')
    (hrw : ReflTransGen (Rewrites rules) e e') (hnormal : IsNormal rules e')
    (husage : e'.usage = e.usage)
    (hform : ∀ id a, c'.forest.Denotes id a → a ∈ e'.subformulas →
      (c'.forest.node? id).any (target c'.forest) = true) :
    Settled target rules c f f' c' where
  form id hid := by
    obtain ⟨a, ha, hd⟩ := hgiven.stands.denotes.of_below hid
    exact hform id a hd ha
  mentions_iff name := by
    rw [hgiven.stands.denotes.mentions_iff, hf.denotes.mentions_iff]
    exact prop_mem_iff_of_rewrites hkeeps hrw
  usage_eq := by rw [hgiven.stands.usage_eq, hf.usage_eq, husage]
  again := by
    obtain ⟨f'', c'', hok, e'', hgiven', hrw', -⟩ :=
      yields_normalizedWith_table hsub hgiven.tidy hgiven.stands
    obtain rfl := hnormal.eq_of_rewrites hrw'
    have hkept := hgiven'.keeps.denotes hgiven.stands.denotes
    have hnew := hgiven'.stands.denotes
    exact ⟨f'', c'', hok, Forest.equal_of_denotes hkept hnew, e'', hkept, hnew⟩

/-- **Normalising arrives at its target form.**  A formula of linear time is normalised without a
fault.  Every node below the result is of negation normal form, the variables and the logics are
those of the formula, and normalising once more with the same table gives the same formula.  A
formula of branching time is normalised with the other table in the same way, to nodes of the form
that labelling works on. -/
theorem normalizing_settles (hc : c.forest.Tidy) (hf : f.StandsFor c.forest e) :
    (f.isLinear = true → ∃ f' c', f.normalized c = .ok (f', c') ∧
      Settled Node.isLinearTarget Rule.linear c f f' c') ∧
    (f.isBranching = true → ∃ f' c', f.normalizedWith Rule.branching c = .ok (f', c') ∧
      Settled Node.isBranchingTarget Rule.branching c f f' c') := by
  constructor
  · intro hlin
    have hsub : Rule.linear ⊆ Rule.linear := List.Subset.refl _
    rw [normalized_of_isLinear hlin]
    obtain ⟨f', c', hok, e', hgiven, hrw, hnormal⟩ := yields_normalizedWith_table (.inl hsub) hc hf
    have husage := usage_eq_of_linear hsub hrw
    have hnnf : e'.IsNegationNormal := by
      refine hnormal.isNegationNormal ?_
      rw [husage, ← hf.usage_eq]
      simpa [isLinear] using hlin
    refine ⟨f', c', hok, .of_given (.inl hsub) keepsOperands_linear hf hgiven hrw hnormal husage ?_⟩
    exact fun id a hd ha => hd.any_isLinearTarget (hnnf.of_mem_subformulas ha)
  · intro hbranch
    have hsub : Rule.branching ⊆ Rule.branching := List.Subset.refl _
    obtain ⟨f', c', hok, e', hgiven, hrw, hnormal⟩ := yields_normalizedWith_table (.inr hsub) hc hf
    have husage := usage_eq_of_branching hsub hrw
    have hform : e'.IsBranchingNormal := by
      refine hnormal.isBranchingNormal ?_
      rw [husage, ← hf.usage_eq]
      simpa [isBranching] using hbranch
    refine ⟨f', c', hok,
      .of_given (.inr hsub) keepsOperands_branching hf hgiven hrw hnormal husage ?_⟩
    exact fun id a hd ha => hd.any_isBranchingTarget (hform.of_mem_subformulas ha)

/-- A negated `G` and an `EG` of an implication over the same variable, with an empty slot in
between. -/
theorem normalizing_settles_both :
    let c : Context := {
      forest := {
        slots := #[some (.prop "p"), none, some (.unary .global 0), some (.unary .not 2),
          some (.binary .implies 0 0), some (.unary .existsGlobally 4)]
        free := [1] } }
    let f : Formula := ⟨3, .ofLinear⟩
    let g : Formula := ⟨5, .ofBranching⟩
    c.forest.Tidy ∧ f.StandsFor c.forest (.unary .not (.unary .global (.prop "p"))) ∧
    g.StandsFor c.forest (.unary .existsGlobally (.binary .implies (.prop "p") (.prop "p"))) ∧
    (∃ f' c', f.normalized c = .ok (f', c') ∧
      Settled Node.isLinearTarget Rule.linear c f f' c') ∧
    ∃ g' c', g.normalizedWith Rule.branching c = .ok (g', c') ∧
      Settled Node.isBranchingTarget Rule.branching c g g' c' := by
  intro c f g
  have hc : c.forest.Tidy := by decide
  have hf : f.StandsFor c.forest (.unary .not (.unary .global (.prop "p"))) :=
    ⟨Forest.denotes_of_tree rfl, rfl⟩
  have hg : g.StandsFor c.forest
      (.unary .existsGlobally (.binary .implies (.prop "p") (.prop "p"))) :=
    ⟨Forest.denotes_of_tree rfl, rfl⟩
  exact ⟨hc, hf, hg, (normalizing_settles hc hf).1 rfl, (normalizing_settles hc hg).2 rfl⟩

end Formula

end TemporalCheck
