import TemporalCheck.Formula.Printer

/-!
# TemporalCheck.Forest.Denotes

The formula that a stored node stands for, as a relation.  A node stands for at most one formula,
and for none if a slot below it is empty or if it lies below itself.  `Forest.tree` computes only
formulas that are denoted.
-/

namespace TemporalCheck

namespace Forest

/-- Whether a node stands for a formula. -/
inductive Denotes (f : Forest) : NodeId → Expr → Prop
  | top {id : NodeId} (h : f.node? id = some .top) : Denotes f id .top
  | bottom {id : NodeId} (h : f.node? id = some .bottom) : Denotes f id .bottom
  | prop {id : NodeId} {name : String} (h : f.node? id = some (.prop name)) :
    Denotes f id (.prop name)
  | unary {id arg : NodeId} {op : UnaryOp} {a : Expr} (h : f.node? id = some (.unary op arg))
    (arg_denotes : Denotes f arg a) : Denotes f id (.unary op a)
  | binary {id left right : NodeId} {op : BinaryOp} {a b : Expr}
    (h : f.node? id = some (.binary op left right)) (left_denotes : Denotes f left a)
    (right_denotes : Denotes f right b) : Denotes f id (.binary op a b)

/-- A node stands for one formula only. -/
theorem Denotes.unique {f : Forest} {id : NodeId} {a b : Expr} (ha : f.Denotes id a)
    (hb : f.Denotes id b) : a = b := by
  induction ha generalizing b with
  | top h => cases hb <;> simp_all
  | bottom h => cases hb <;> simp_all
  | prop h => cases hb <;> simp_all
  | unary h _ ih =>
    cases hb with
    | unary h' d =>
      rw [h] at h'
      cases h'
      rw [ih d]
    | _ => simp_all
  | binary h _ _ ihl ihr =>
    cases hb with
    | binary h' dl dr =>
      rw [h] at h'
      cases h'
      rw [ihl dl, ihr dr]
    | _ => simp_all

/-- The nodes of a formula stay what they are when a forest keeps the slots it has filled. -/
theorem Denotes.mono {f g : Forest}
    (keeps : ∀ id node, f.node? id = some node → g.node? id = some node)
    {id : NodeId} {e : Expr} (h : f.Denotes id e) : g.Denotes id e := by
  induction h with
  | top h => exact .top (keeps _ _ h)
  | bottom h => exact .bottom (keeps _ _ h)
  | prop h => exact .prop (keeps _ _ h)
  | unary h _ ih => exact .unary (keeps _ _ h) ih
  | binary h _ _ ihl ihr => exact .binary (keeps _ _ h) ihl ihr

/-- A tree that is computed is the one that the node stands for. -/
theorem denotes_of_treeWithin {f : Forest} {d : Nat} {id : NodeId} {e : Expr}
    (h : f.treeWithin d id = .ok e) : f.Denotes id e := by
  induction d generalizing id e with
  | zero => simp [treeWithin, throw, throwThe, MonadExceptOf.throw] at h
  | succ d ih =>
    simp only [treeWithin, bind, Except.bind] at h
    split at h
    · cases h
    · next node hget =>
      have hnode := get_eq_ok_iff.1 hget
      cases node with
      | top => cases h; exact .top hnode
      | bottom => cases h; exact .bottom hnode
      | prop name => cases h; exact .prop hnode
      | unary op arg =>
        simp only at h
        split at h
        · cases h
        · next a harg => cases h; exact .unary hnode (ih harg)
      | binary op left right =>
        simp only at h
        split at h
        · cases h
        · next a hleft =>
          split at h
          · cases h
          · next b hright => cases h; exact .binary hnode (ih hleft) (ih hright)

/-- `Forest.tree` gives the formula that a node stands for. -/
theorem denotes_of_tree {f : Forest} {id : NodeId} {e : Expr} (h : f.tree id = .ok e) :
    f.Denotes id e :=
  denotes_of_treeWithin h

end Forest

end TemporalCheck
