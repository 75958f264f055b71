import TemporalCheck.Proofs.NormalForm

/-!
# TemporalCheck.Proofs.Handle

Handles on stored formulas.  A handle stands for a formula if its root does and if it tells the
logics of the formula.  The operations on handles are those on stored trees, carried over to the
context that holds the forest; of the context they change the forest only.
-/

namespace TemporalCheck

open Relation (ReflTransGen)

/-! ## The logics of a formula, node by node -/

namespace Usage

/-- Joining the usages of nodes tells for each logic whether one of them uses it. -/
theorem foldl_join (nodes : List Node) (u : Usage) :
    nodes.foldl (fun u node => u.join node.usage) u =
      ⟨u.linear || nodes.any (·.usage.linear), u.branching || nodes.any (·.usage.branching)⟩ := by
  induction nodes generalizing u with
  | nil => simp
  | cons node nodes ih => simp [ih, Bool.or_assoc]

end Usage

/-- The logic that the outermost operator of a formula belongs to. -/
def Expr.rootUsage : Expr → Usage
  | .top | .bottom | .prop _ => .boolean
  | .unary op _ => op.usage
  | .binary op _ _ => op.usage

/-- A formula belongs to a logic as soon as one of its subformulas has an operator of it. -/
theorem Expr.usage_eq_any (e : Expr) :
    e.usage = ⟨e.subformulas.any (·.rootUsage.linear),
      e.subformulas.any (·.rootUsage.branching)⟩ := by
  induction e with
  | top | bottom | prop => rfl
  | unary op a ih => simp [usage, subformulas, rootUsage, ih, Usage.join]
  | binary op a b iha ihb => simp [usage, subformulas, rootUsage, iha, ihb, Usage.join]

theorem Node.Makes.usage_eq {f : Forest} {node : Node} {e : Expr} (h : node.Makes f e) :
    node.usage = e.rootUsage := by
  cases h <;> rfl

namespace Formula

open Forest

/-- The nodes of a formula belong to the logics that its subformulas belong to. -/
theorem any_node?_usage {f : Forest} {root : NodeId} {e : Expr} {ids : NatSet}
    (h : f.Denotes root e) (hids : ∀ id, id ∈ ids ↔ f.Below root id) (p : Usage → Bool) :
    (ids.toList.map fun id => (f.node? id).getD .top).any (fun node => p node.usage) =
      e.subformulas.any fun s => p s.rootUsage := by
  rw [Bool.eq_iff_iff, List.any_eq_true, List.any_eq_true]
  constructor
  · intro hany
    obtain ⟨node, hnode, hp⟩ := hany
    obtain ⟨id, hid, rfl⟩ := List.mem_map.1 hnode
    obtain ⟨s, hs, hd⟩ := h.of_below ((hids id).1 hid)
    obtain ⟨node, hnode, hmakes⟩ := denotes_iff_exists_makes.1 hd
    rw [hnode, Option.getD_some, hmakes.usage_eq] at hp
    exact ⟨s, hs, hp⟩
  · intro hany
    obtain ⟨s, hs, hp⟩ := hany
    obtain ⟨id, hid, hd⟩ := h.exists_below hs
    obtain ⟨node, hnode, hmakes⟩ := denotes_iff_exists_makes.1 hd
    refine ⟨node, List.mem_map.2 ⟨id, (hids id).2 hid, ?_⟩, hmakes.usage_eq ▸ hp⟩
    rw [hnode, Option.getD_some]

/-- The handle of a stored formula tells the logics of the formula. -/
theorem ofRoot_of_denotes {f : Forest} {root : NodeId} {e : Expr} (h : f.Denotes root e) :
    ofRoot f root = .ok ⟨root, e.usage⟩ := by
  obtain ⟨ids, hreach, hids⟩ := exists_reachable h
  have hnodes : ids.toList.mapM f.get = .ok (ids.toList.map fun id => (f.node? id).getD .top) := by
    refine mapM_eq_ok fun id hid => ?_
    obtain ⟨_, _, hd⟩ := h.of_below ((hids id).1 hid)
    obtain ⟨node, hnode⟩ := hd.exists_node
    rw [get_of_node? hnode, hnode, Option.getD_some]
  have hlinear := any_node?_usage h hids Usage.linear
  have hbranching := any_node?_usage h hids Usage.branching
  simp only [ofRoot, hreach, hnodes, bind, Except.bind, pure, Except.pure, Usage.foldl_join,
    hlinear, hbranching]
  rw [e.usage_eq_any]
  simp [Usage.boolean]

/-! ## Handles -/

/-- A handle stands for a stored formula: its root does, and it tells the logics of the formula. -/
structure StandsFor (f : Formula) (forest : Forest) (e : Expr) : Prop where
  denotes : forest.Denotes f.root e
  usage_eq : f.usage = e.usage

variable {c : Context} {f : Formula} {e : Expr}

theorem renderNode_of_denotes {id : NodeId} (h : c.forest.Denotes id e) :
    renderNode c id = .ok (e.render c.allParens) := by
  simp [renderNode, Forest.tree_of_denotes h, bind, Except.bind, pure, Except.pure]

theorem StandsFor.render_eq (h : f.StandsFor c.forest e) :
    f.render c = .ok (e.render c.allParens) :=
  renderNode_of_denotes h.denotes

theorem StandsFor.lift_render (h : f.StandsFor c.forest e) :
    (liftM (f.render c) : Attempt String) c = .ok (.ok (e.render c.allParens), c) := by
  rw [h.render_eq]
  rfl

/-- What an operation on handles ends in: a handle on a known formula, in a context that differs
from the one before in its forest only. -/
structure Given (c : Context) (e : Expr) (f : Formula) (c' : Context) : Prop where
  keeps : c.forest.Keeps c'.forest
  tidy : c'.forest.Tidy
  stands : f.StandsFor c'.forest e
  context_eq : c' = { c with forest := c'.forest }

/-- A tree is stored with a handle on it. -/
theorem yields_ofTree (hc : c.forest.Tidy) (e : Expr) : Yields (ofTree e) c (Given c e) := by
  have hplant := built_plant hc e
  refine .bind (.modifyGet (.bind (.lift_build ?_)))
  refine (Build.yields_share hplant.tidy hplant.denotes).mono fun root g hg => ?_
  refine .bind (.get (.lift_work (ofRoot_of_denotes hg.denotes) ?_))
  exact ⟨hplant.keeps.trans hg.keeps, hg.tidy, ⟨hg.denotes, rfl⟩, rfl⟩

/-- The negation of a formula. -/
theorem yields_negate (hc : c.forest.Tidy) (hf : f.StandsFor c.forest e) :
    Yields f.negate c (Given c (.unary .not e)) := by
  refine .bind (.lift_build ?_)
  refine (Build.yields_add hc (.unary .not hf.denotes)).mono fun root g hg => ?_
  refine .pure ⟨hg.keeps, hg.tidy, ⟨hg.denotes, ?_⟩, rfl⟩
  rw [hf.usage_eq]
  simp [Expr.usage, UnaryOp.usage, Usage.join, Usage.boolean]

/-- A copy of a formula, of which no node was there before. -/
theorem yields_copy (hc : c.forest.Tidy) (hf : f.StandsFor c.forest e) :
    Yields f.copy c fun f' c' => Given c e f' c' ∧
      ∀ below, c'.forest.Below f'.root below → c.forest.node? below = none := by
  refine .bind (.lift_build ((Build.yields_copy hc hf.denotes).mono fun root g hg => ?_))
  exact .pure ⟨⟨hg.keeps, hg.tidy, ⟨hg.denotes, hf.usage_eq⟩, rfl⟩, hg.below_new⟩

/-- A copy of a formula in the normal form of rules of one of the two tables. -/
theorem yields_normalizedWith_table {rules : List Rule}
    (hsub : rules ⊆ Rule.linear ∨ rules ⊆ Rule.branching) (hc : c.forest.Tidy)
    (hf : f.StandsFor c.forest e) :
    Yields (f.normalizedWith rules) c fun f' c' => ∃ e', Given c e' f' c' ∧
      ReflTransGen (Rewrites rules) e e' ∧ IsNormal rules e' := by
  refine .bind ((yields_copy hc hf).mono fun copied c₁ h => ?_)
  obtain ⟨hg, -⟩ := h
  refine .bind (.lift_build ?_)
  refine (Build.yields_normalize_table hsub hg.tidy hg.stands.denotes).mono fun root k hk => ?_
  obtain ⟨e', hbuilt, hrw, hnormal⟩ := hk
  refine .bind (.get (.lift_work (ofRoot_of_denotes hbuilt.denotes) ⟨e', ?_, hrw, hnormal⟩))
  refine ⟨hg.keeps.trans hbuilt.keeps, hbuilt.tidy, ⟨hbuilt.denotes, rfl⟩, ?_⟩
  rw [hg.context_eq]

/-- The rules that are applied to a formula all stem from the table of one logic. -/
theorem table_subset (u : Usage) :
    Rule.table u ⊆ Rule.linear ∨ Rule.table u ⊆ Rule.branching := by
  unfold Rule.table
  split
  · exact .inl (List.Subset.refl _)
  · split
    · exact .inr (List.Subset.refl _)
    · exact .inl (List.nil_subset _)

/-- The table for linear time is used for every formula that belongs to it. -/
theorem normalized_of_isLinear (h : f.isLinear = true) :
    f.normalized = f.normalizedWith Rule.linear := by
  rw [isLinear, Bool.not_eq_true'] at h
  simp [normalized, Rule.table, h]

/-- A formula of linear time is brought into negation normal form. -/
theorem yields_normalized_linear (hc : c.forest.Tidy) (hf : f.StandsFor c.forest e)
    (hlin : f.isLinear = true) :
    Yields f.normalized c fun f' c' => ∃ e', Given c e' f' c' ∧
      ReflTransGen (Rewrites Rule.linear) e e' ∧ e'.IsNegationNormal := by
  have hbranching : e.usage.branching = false := by
    rw [← hf.usage_eq]
    simpa [isLinear] using hlin
  rw [normalized_of_isLinear hlin]
  refine (yields_normalizedWith_table (.inl (List.Subset.refl _)) hc hf).mono fun f' c' h => ?_
  obtain ⟨e', hgiven, hrw, hnormal⟩ := h
  refine ⟨e', hgiven, hrw, hnormal.isNegationNormal ?_⟩
  rw [usage_eq_of_linear (List.Subset.refl _) hrw, hbranching]

/-- A formula of branching time is brought into the form that labelling works on. -/
theorem yields_normalized_branching (hc : c.forest.Tidy) (hf : f.StandsFor c.forest e)
    (hbranch : f.isBranching = true) :
    Yields (f.normalizedWith Rule.branching) c fun f' c' => ∃ e', Given c e' f' c' ∧
      ReflTransGen (Rewrites Rule.branching) e e' ∧ e'.IsBranchingNormal := by
  have hlinear : e.usage.linear = false := by
    rw [← hf.usage_eq]
    simpa [isBranching] using hbranch
  refine (yields_normalizedWith_table (.inr (List.Subset.refl _)) hc hf).mono fun f' c' h => ?_
  obtain ⟨e', hgiven, hrw, hnormal⟩ := h
  refine ⟨e', hgiven, hrw, hnormal.isBranchingNormal ?_⟩
  rw [usage_eq_of_branching (List.Subset.refl _) hrw, hlinear]

end Formula

end TemporalCheck
