import Mathlib.Data.List.Range
import TemporalCheck.Forest.Denotes
import TemporalCheck.Proofs.Reach

/-!
# TemporalCheck.Proofs.Forest

What a forest promises.  A forest is *tidy* if its list of empty slots is right: every empty slot is
in it once, and no other slot is.  In a tidy forest a new node takes a slot of its own, so
everything stored before stays what it is.  Forests that come about in this way are related by
`Forest.Keeps`.

The second half turns what a node stands for into computations: where a node stands for a formula,
`Forest.tree` finds the formula and `Forest.reachable` finds the nodes of its subformulas.  The
bounds in both are large enough because a node never lies below itself: the nodes on the way down
are different slots.
-/

namespace TemporalCheck

/-! ## Subformulas -/

namespace Expr

/-- The number of operators and atoms on the longest way down. -/
def height : Expr → Nat
  | .top | .bottom | .prop _ => 1
  | .unary _ a => a.height + 1
  | .binary _ a b => max a.height b.height + 1

/-- The subformulas of a formula, itself included. -/
def subformulas : Expr → List Expr
  | .top => [.top]
  | .bottom => [.bottom]
  | .prop name => [.prop name]
  | .unary op a => .unary op a :: a.subformulas
  | .binary op a b => .binary op a b :: (a.subformulas ++ b.subformulas)

@[simp] theorem mem_subformulas_self (e : Expr) : e ∈ e.subformulas := by
  cases e <;> simp [subformulas]

theorem height_pos (e : Expr) : 0 < e.height := by
  cases e <;> simp [height]

/-- What operators pass on to their operands holds of all subformulas. -/
theorem of_mem_subformulas {P : Expr → Prop} (unary : ∀ op a, P (.unary op a) → P a)
    (binary : ∀ op a b, P (.binary op a b) → P a ∧ P b) {e a : Expr} (h : P e)
    (ha : a ∈ e.subformulas) : P a := by
  induction e with
  | top | bottom | prop =>
    simp only [subformulas, List.mem_singleton] at ha
    exact ha ▸ h
  | unary op b ih =>
    obtain rfl | ha := List.mem_cons.1 ha
    · exact h
    · exact ih (unary op b h) ha
  | binary op b c ihb ihc =>
    obtain rfl | ha := List.mem_cons.1 ha
    · exact h
    · exact (List.mem_append.1 ha).elim (ihb (binary op b c h).1) (ihc (binary op b c h).2)

/-- Subformulas of subformulas are subformulas. -/
theorem subformulas_trans {a b c : Expr} (hab : a ∈ b.subformulas) (hbc : b ∈ c.subformulas) :
    a ∈ c.subformulas := by
  refine of_mem_subformulas (P := (·.subformulas ⊆ c.subformulas)) (fun op d hd => ?_)
    (fun op d d' hd => ?_) (List.Subset.refl _) hbc hab
  · exact List.Subset.trans (List.subset_cons_self _ _) hd
  · exact List.append_subset.1 (List.Subset.trans (List.subset_cons_self _ _) hd)

end Expr

namespace Forest

variable {f g : Forest}

/-! ## Tidy forests -/

/-- The list of empty slots is right. -/
structure Tidy (f : Forest) : Prop where
  nodup : f.free.Nodup
  mem_free : ∀ id, id ∈ f.free ↔ id < f.capacity ∧ f.node? id = none

/-- Everything that is stored in one forest is stored in another under the same numbers, what is
stored in the other besides stands for formulas, and the same nodes are pinned. -/
structure Keeps (f g : Forest) : Prop where
  stored : ∀ id node, f.node? id = some node → g.node? id = some node
  fresh : ∀ id node, f.node? id = none → g.node? id = some node → ∃ e, g.Denotes id e
  pins_eq : g.pins = f.pins

theorem Keeps.refl (f : Forest) : f.Keeps f where
  stored _ _ h := h
  fresh id node hnone hsome := by simp [hnone] at hsome
  pins_eq := rfl

theorem Keeps.denotes (h : f.Keeps g) {id : NodeId} {e : Expr} (he : f.Denotes id e) :
    g.Denotes id e :=
  he.mono h.stored

/-- What is kept from a forest to a second one and on to a third is kept from the first to the
third. -/
theorem Keeps.trans {h : Forest} (hfg : f.Keeps g) (hgh : g.Keeps h) : f.Keeps h where
  stored id node hid := hgh.stored id node (hfg.stored id node hid)
  fresh id node hnone hsome := by
    cases hg : g.node? id with
    | none => exact hgh.fresh id node hg hsome
    | some stored =>
      obtain ⟨e, he⟩ := hfg.fresh id stored hnone hg
      exact ⟨e, hgh.denotes he⟩
  pins_eq := hgh.pins_eq.trans hfg.pins_eq

theorem tidy_empty : Tidy {} := ⟨.nil, by simp [capacity]⟩

/-- A forest without empty slots is tidy if it does not list any. -/
theorem tidy_of_full (hfree : f.free = []) (hfull : none ∉ f.slots) : f.Tidy := by
  refine ⟨by simp [hfree], fun id => ?_⟩
  simp only [hfree, List.not_mem_nil, false_iff, not_and]
  intro hlt hnone
  have hget : f.slots[id]? = some f.slots[id] := Array.getElem?_eq_getElem hlt
  have hslot : f.slots[id] = none := by simpa [node?, hget] using hnone
  exact hfull (hslot ▸ Array.getElem_mem hlt)

/-- A forest is tidy if its free list names exactly the empty slots, each of them once. -/
theorem tidy_iff : f.Tidy ↔ f.free.Nodup ∧ (∀ id ∈ f.free, id < f.capacity ∧ f.node? id = none) ∧
    ∀ id < f.capacity, f.node? id = none → id ∈ f.free := by
  constructor
  · intro h
    exact ⟨h.nodup, fun id => (h.mem_free id).1, fun id hlt hnone => (h.mem_free id).2 ⟨hlt, hnone⟩⟩
  · intro h
    exact ⟨h.1, fun id => ⟨h.2.1 id, fun hid => h.2.2 id hid.1 hid.2⟩⟩

instance (f : Forest) : Decidable f.Tidy := decidable_of_iff _ tidy_iff.symm

theorem lt_capacity {id : NodeId} {node : Node} (h : f.node? id = some node) :
    id < f.capacity := by
  by_contra hge
  have hnone : f.slots[id]? = none := Array.getElem?_eq_none (Nat.le_of_not_lt hge)
  simp [node?, hnone] at h

/-- In a forest of at most `slotLimit` slots the number of a node is one of 32 bits. -/
theorem toNat_ofNat_of_node? {id : NodeId} {node : Node} (h : f.node? id = some node)
    (hlimit : f.capacity ≤ slotLimit) : (UInt32.ofNat id).toNat = id :=
  UInt32.toNat_ofNat_of_lt' ((lt_capacity h).trans_le hlimit)

theorem get_of_node? {id : NodeId} {node : Node} (h : f.node? id = some node) :
    f.get id = .ok node :=
  get_eq_ok_iff.2 h

/-- Reading a slot that is filled goes on with its node. -/
theorem get_bind_of_node? {α : Type} {id : NodeId} {node : Node} (h : f.node? id = some node)
    (k : Node → Except Fault α) : (f.get id >>= k) = k node := by
  rw [get_of_node? h]
  rfl

theorem children_of_node? {id : NodeId} {node : Node} (h : f.node? id = some node) :
    f.children id = .ok node.children :=
  get_bind_of_node? h _

/-- The operands of a node are those of what its slot holds. -/
theorem children_eq_ok_iff {id : NodeId} {ids : List NodeId} :
    f.children id = .ok ids ↔ ∃ node, f.node? id = some node ∧ node.children = ids := by
  constructor
  · intro h
    cases hnode : f.node? id with
    | none => simp [children, get, hnode, bind, Except.bind] at h
    | some node =>
      rw [children_of_node? hnode] at h
      exact ⟨node, rfl, Except.ok.inj h⟩
  · rintro ⟨node, hnode, rfl⟩
    exact children_of_node? hnode

/-! ## Adding a node -/

theorem Tidy.slot_lt (h : f.Tidy) {id : NodeId} {free : List NodeId} (hf : f.free = id :: free) :
    id < f.slots.size :=
  ((h.mem_free id).1 (by simp [hf])).1

/-- The slot of a new node holds it, and all other slots hold what they held. -/
theorem node?_add (h : f.Tidy) (node : Node) (id : NodeId) :
    (f.add node).2.node? id = if id = (f.add node).1 then some node else f.node? id := by
  unfold add
  split
  · next slot free hfree =>
    have hlt := h.slot_lt hfree
    simp only [node?, Array.getElem?_setIfInBounds]
    by_cases hid : slot = id
    · subst hid
      simp [hlt]
    · simp [hid, Ne.symm hid]
  · simp only [node?, Array.getElem?_push]
    by_cases hid : id = f.slots.size <;> simp [hid]

/-- The slot that a new node takes was empty. -/
theorem node?_add_fst (h : f.Tidy) (node : Node) : f.node? (f.add node).1 = none := by
  unfold add
  split
  · next slot free hfree => exact ((h.mem_free slot).1 (by simp [hfree])).2
  · simp [node?]

theorem node?_add_self (h : f.Tidy) (node : Node) :
    (f.add node).2.node? (f.add node).1 = some node := by
  rw [node?_add h, if_pos rfl]

/-- Storing a node changes no slot that is filled. -/
theorem node?_add_of_some (h : f.Tidy) (node : Node) {id : NodeId} {stored : Node}
    (hid : f.node? id = some stored) : (f.add node).2.node? id = some stored := by
  have hne : id ≠ (f.add node).1 := by
    rintro rfl
    rw [node?_add_fst h] at hid
    cases hid
  rw [node?_add h, if_neg hne, hid]

/-- A tidy forest is tidy after a node has been stored: the slot taken leaves the free list, or a
new slot is filled at once. -/
theorem Tidy.add (h : f.Tidy) (node : Node) : (f.add node).2.Tidy := by
  have hnode := node?_add h node
  unfold Forest.add at hnode ⊢
  split at hnode
  · next slot free hfree =>
    have hnodup := h.nodup
    rw [hfree, List.nodup_cons] at hnodup
    simp only at hnode ⊢
    refine ⟨hnodup.2, fun id => ?_⟩
    have hmem := h.mem_free id
    rw [hfree, List.mem_cons] at hmem
    rw [hnode id]
    by_cases hid : id = slot
    · subst hid
      simp [hnodup.1]
    · simp only [hid, false_or, if_false] at hmem ⊢
      simpa [capacity] using hmem
  · next hfree =>
    simp only [hfree] at hnode ⊢
    refine ⟨.nil, fun id => ?_⟩
    have hmem := h.mem_free id
    rw [hfree] at hmem
    rw [hnode id]
    simp only [capacity, Array.size_push] at hmem ⊢
    by_cases hid : id = f.slots.size
    · simp [hid]
    · simp only [hid, if_false]
      rw [hmem]
      constructor
      · exact fun ⟨hlt, hnone⟩ => ⟨Nat.lt_succ_of_lt hlt, hnone⟩
      · exact fun ⟨hlt, hnone⟩ => ⟨Nat.lt_of_le_of_ne (Nat.le_of_lt_succ hlt) hid, hnone⟩

/-! ## Nodes below a node -/

/-- One node is another or lies below it. -/
abbrev Below (f : Forest) (id below : NodeId) : Prop := Leads f.children id below

/-- A stored formula is kept in slots that are filled. -/
theorem Denotes.exists_node {id : NodeId} {e : Expr} (h : f.Denotes id e) :
    ∃ node, f.node? id = some node := by
  cases h with
  | top h | bottom h | prop h => exact ⟨_, h⟩
  | unary h | binary h => exact ⟨_, h⟩

/-- The operands of a stored formula stand for smaller subformulas. -/
theorem Denotes.of_child {id child : NodeId} {e : Expr} {node : Node} (h : f.Denotes id e)
    (hnode : f.node? id = some node) (hchild : child ∈ node.children) :
    ∃ a ∈ e.subformulas, f.Denotes child a ∧ a.size < e.size := by
  cases h with
  | top h | bottom h | prop h =>
    cases hnode.symm.trans h
    simp [Node.children] at hchild
  | unary h harg =>
    cases hnode.symm.trans h
    obtain rfl : child = _ := by simpa [Node.children] using hchild
    exact ⟨_, by simp [Expr.subformulas], harg, by simp [Expr.size]⟩
  | binary h hleft hright =>
    cases hnode.symm.trans h
    obtain rfl | rfl : child = _ ∨ child = _ := by simpa [Node.children] using hchild
    · exact ⟨_, by simp [Expr.subformulas], hleft, by simp only [Expr.size]; omega⟩
    · exact ⟨_, by simp [Expr.subformulas], hright, by simp only [Expr.size]; omega⟩

/-- The nodes below a formula stand for its subformulas. -/
theorem Denotes.of_below {id below : NodeId} {e : Expr} (h : f.Denotes id e)
    (hb : f.Below id below) : ∃ e' ∈ e.subformulas, f.Denotes below e' := by
  refine hb.preserves (P := fun j => ∃ e' ∈ e.subformulas, f.Denotes j e')
    (fun a found ha hn b hmem => ?_) ⟨e, e.mem_subformulas_self, h⟩
  obtain ⟨e', he', hd⟩ := ha
  obtain ⟨node, hnode, rfl⟩ := children_eq_ok_iff.1 hn
  obtain ⟨c, hc, hb, -⟩ := hd.of_child hnode hmem
  exact ⟨c, Expr.subformulas_trans hc he', hb⟩

/-- Every subformula of a stored formula is stored below it. -/
theorem Denotes.exists_below {id : NodeId} {e e' : Expr} (h : f.Denotes id e)
    (he : e' ∈ e.subformulas) : ∃ below, f.Below id below ∧ f.Denotes below e' := by
  induction h with
  | top h | bottom h | prop h =>
    simp only [Expr.subformulas, List.mem_singleton] at he
    subst he
    exact ⟨_, .refl _, by constructor; exact h⟩
  | unary h harg ih =>
    obtain rfl | he := List.mem_cons.1 he
    · exact ⟨_, .refl _, .unary h harg⟩
    · obtain ⟨below, hb, hd⟩ := ih he
      exact ⟨below, .step (children_of_node? h) (by simp [Node.children]) hb, hd⟩
  | binary h hleft hright ihl ihr =>
    obtain rfl | he := List.mem_cons.1 he
    · exact ⟨_, .refl _, .binary h hleft hright⟩
    · obtain he | he := List.mem_append.1 he
      · obtain ⟨below, hb, hd⟩ := ihl he
        exact ⟨below, .step (children_of_node? h) (by simp [Node.children]) hb, hd⟩
      · obtain ⟨below, hb, hd⟩ := ihr he
        exact ⟨below, .step (children_of_node? h) (by simp [Node.children]) hb, hd⟩

/-- The nodes of a formula are found. -/
theorem exists_reachable {root : NodeId} {e : Expr} (h : f.Denotes root e) :
    ∃ ids, f.reachable root = .ok ids ∧ ∀ id, id ∈ ids ↔ f.Below root id := by
  have total : ∀ x, Reached f.children [root] x →
      x < f.capacity ∧ ∃ found, f.children x = .ok found := by
    rintro x ⟨s, hs, hl⟩
    rw [List.mem_singleton] at hs
    subst hs
    obtain ⟨_, _, hx⟩ := h.of_below hl
    obtain ⟨node, hnode⟩ := hx.exists_node
    exact ⟨lt_capacity hnode, _, children_of_node? hnode⟩
  obtain ⟨m, hm, -, hmarks⟩ := exists_reach_none [root] f.capacity total
  refine ⟨m.toSet, ?_, fun id => ?_⟩
  · simp [reachable, hm, bind, Except.bind, pure, Except.pure]
  · rw [Marks.mem_toSet, hmarks]
    simp [Reached]

/-! ## The tree of a node -/

/- On the way down through a formula the trees get smaller, so no node is met twice.  The nodes on
the longest way are therefore as many different slots. -/

/-- As many different nodes as a stored formula is high stand for formulas that are no larger than
it. -/
theorem Denotes.exists_chain {id : NodeId} {e : Expr} (h : f.Denotes id e) :
    ∃ l : List NodeId, l.length = e.height ∧ l.Nodup ∧
      ∀ j ∈ l, ∃ e', f.Denotes j e' ∧ e'.size ≤ e.size := by
  have extend : ∀ {id : NodeId} {e a : Expr}, f.Denotes id e → a.size < e.size →
      (∃ l : List NodeId, l.length = a.height ∧ l.Nodup ∧
        ∀ j ∈ l, ∃ e', f.Denotes j e' ∧ e'.size ≤ a.size) →
      ∃ l : List NodeId, l.length = a.height + 1 ∧ l.Nodup ∧
        ∀ j ∈ l, ∃ e', f.Denotes j e' ∧ e'.size ≤ e.size := by
    rintro id e a hid hlt ⟨l, hlen, hnodup, hl⟩
    refine ⟨id :: l, by simp [hlen], List.nodup_cons.2 ⟨fun hmem => ?_, hnodup⟩, ?_⟩
    · obtain ⟨e', he', hsize⟩ := hl id hmem
      rw [he'.unique hid] at hsize
      omega
    · intro j hj
      obtain rfl | hj := List.mem_cons.1 hj
      · exact ⟨e, hid, Nat.le_refl _⟩
      · obtain ⟨e', he', hsize⟩ := hl j hj
        exact ⟨e', he', by omega⟩
  induction h with
  | @top id h => exact ⟨[id], rfl, by simp, by simpa using ⟨_, .top h, Nat.le_refl _⟩⟩
  | @bottom id h => exact ⟨[id], rfl, by simp, by simpa using ⟨_, .bottom h, Nat.le_refl _⟩⟩
  | @prop id name h => exact ⟨[id], rfl, by simp, by simpa using ⟨_, .prop h, Nat.le_refl _⟩⟩
  | unary h harg ih => exact extend (.unary h harg) (by simp [Expr.size]) ih
  | @binary id left right op a b h hleft hright ihl ihr =>
    simp only [Expr.height]
    obtain hab | hab := Nat.le_total a.height b.height
    · rw [Nat.max_eq_right hab]
      exact extend (.binary h hleft hright) (by simp only [Expr.size]; omega) ihr
    · rw [Nat.max_eq_left hab]
      exact extend (.binary h hleft hright) (by simp only [Expr.size]; omega) ihl

/-- No formula is higher than its forest has slots, since the nodes of a chain of operands
differ. -/
theorem Denotes.height_le {id : NodeId} {e : Expr} (h : f.Denotes id e) :
    e.height ≤ f.capacity := by
  obtain ⟨l, hlen, hnodup, hl⟩ := h.exists_chain
  have hsub : l ⊆ List.range f.capacity := by
    intro j hj
    obtain ⟨_, hd, _⟩ := hl j hj
    obtain ⟨node, hnode⟩ := hd.exists_node
    exact List.mem_range.2 (lt_capacity hnode)
  have hle := (List.subperm_of_subset hnodup hsub).length_le
  rwa [List.length_range, hlen] at hle

/-- The formula of a node is found if the search may go as deep as the formula is high. -/
theorem treeWithin_of_denotes {d : Nat} {id : NodeId} {e : Expr} (h : f.Denotes id e)
    (hd : e.height ≤ d) : f.treeWithin d id = .ok e := by
  induction h generalizing d with
  | top h | bottom h | prop h =>
    obtain ⟨d, rfl⟩ := Nat.exists_eq_add_of_le' hd
    simp [treeWithin, Expr.height, get_of_node? h, bind, Except.bind, pure, Except.pure]
  | unary h _ ih =>
    obtain ⟨d, rfl⟩ := Nat.exists_eq_add_of_le' (Nat.le_trans (Nat.le_add_left 1 _) hd)
    have harg := ih (d := d) (by simpa [Expr.height] using hd)
    simp [treeWithin, get_of_node? h, harg, bind, Except.bind, pure, Except.pure]
  | binary h _ _ ihl ihr =>
    obtain ⟨d, rfl⟩ := Nat.exists_eq_add_of_le' (Nat.le_trans (Nat.le_add_left 1 _) hd)
    simp only [Expr.height, Nat.add_le_add_iff_right] at hd
    have hleft := ihl (d := d) (Nat.le_trans (Nat.le_max_left _ _) hd)
    have hright := ihr (d := d) (Nat.le_trans (Nat.le_max_right _ _) hd)
    simp [treeWithin, get_of_node? h, hleft, hright, bind, Except.bind, pure, Except.pure]

/-- `Forest.tree` finds the formula that a node stands for. -/
theorem tree_of_denotes {id : NodeId} {e : Expr} (h : f.Denotes id e) : f.tree id = .ok e :=
  treeWithin_of_denotes h (Nat.le_succ_of_le h.height_le)

/-! ## Comparing nodes -/

theorem equalWithin_self (d : Nat) (a : NodeId) : f.equalWithin d a a = .ok true := by
  cases d <;> simp [equalWithin]

theorem equalWithin_of_eq {d : Nat} {a b : NodeId} {e e' : Expr} (h : f.Denotes a e)
    (h' : f.Denotes b e') (hab : a = b) : f.equalWithin d a b = .ok (decide (e = e')) := by
  subst hab
  rw [equalWithin_self, h.unique h', decide_eq_true rfl]

/-- Two nodes are found equal if and only if they stand for the same formula, if the comparison may
go as deep as the first formula is high. -/
theorem equalWithin_of_denotes {d : Nat} {a b : NodeId} {e e' : Expr} (h : f.Denotes a e)
    (h' : f.Denotes b e') (hd : e.height ≤ d) : f.equalWithin d a b = .ok (decide (e = e')) := by
  have hself := h
  induction h generalizing d b e' with
  | @top a h | @bottom a h | @prop a name h =>
    obtain ⟨d, rfl⟩ := Nat.exists_eq_add_of_le' hd
    by_cases hab : a = b
    · exact equalWithin_of_eq hself h' hab
    · cases h' with
      | _ h' =>
        simp [equalWithin, Expr.height, hab, get_of_node? h, get_of_node? h', bind, Except.bind,
          pure, Except.pure]
  | @unary a arg op x h harg ih =>
    obtain ⟨d, rfl⟩ := Nat.exists_eq_add_of_le' (Nat.le_trans (Nat.le_add_left 1 _) hd)
    by_cases hab : a = b
    · exact equalWithin_of_eq hself h' hab
    · cases h' with
      | @unary _ _ op' _ h' harg' =>
        have harg := ih (d := d) harg' (by simpa [Expr.height] using hd) harg
        by_cases hop : op = op' <;>
          simp [equalWithin, hab, hop, get_of_node? h, get_of_node? h', harg, bind, Except.bind,
            pure, Except.pure]
      | _ h' =>
        simp [equalWithin, hab, get_of_node? h, get_of_node? h', bind, Except.bind, pure,
          Except.pure]
  | @binary a left right op x y h hleft hright ihl ihr =>
    obtain ⟨d, rfl⟩ := Nat.exists_eq_add_of_le' (Nat.le_trans (Nat.le_add_left 1 _) hd)
    by_cases hab : a = b
    · exact equalWithin_of_eq hself h' hab
    · cases h' with
      | @binary _ _ _ op' x' y' h' hleft' hright' =>
        simp only [Expr.height, Nat.add_le_add_iff_right] at hd
        have hleft := ihl (d := d) hleft' (Nat.le_trans (Nat.le_max_left _ _) hd) hleft
        have hright := ihr (d := d) hright' (Nat.le_trans (Nat.le_max_right _ _) hd) hright
        by_cases hop : op = op' <;> by_cases hx : x = x' <;>
          simp [equalWithin, hab, hop, hx, get_of_node? h, get_of_node? h', hleft, hright, bind,
            Except.bind, pure, Except.pure]
      | _ h' =>
        simp [equalWithin, hab, get_of_node? h, get_of_node? h', bind, Except.bind, pure,
          Except.pure]

/-- Two nodes are found to be equal if they stand for the same formula. -/
theorem equal_eq_decide {a b : NodeId} {e e' : Expr} (h : f.Denotes a e) (h' : f.Denotes b e') :
    f.equal a b = .ok (decide (e = e')) := by
  refine equalWithin_of_denotes h h' (Nat.le_trans h.height_le ?_)
  unfold pairBound
  exact Nat.le_succ_of_le (Nat.le_mul_self _)

theorem equal_of_denotes {id id' : NodeId} {e : Expr} (h : f.Denotes id e)
    (h' : f.Denotes id' e) : f.equal id id' = .ok true := by
  rw [equal_eq_decide h h', decide_eq_true rfl]

/-- Among stored nodes a search for one that is equal to a stored node finds one for the same
formula, unless there is none. -/
theorem findM?_equal {ids : List NodeId} {id : NodeId} {e : Expr}
    (hids : ∀ k ∈ ids, ∃ e', f.Denotes k e') (h : f.Denotes id e) :
    (∃ k ∈ ids, f.Denotes k e ∧ ids.findM? (f.equal · id) = .ok (some k)) ∨
      (∀ k ∈ ids, ¬ f.Denotes k e) ∧ ids.findM? (f.equal · id) = .ok none := by
  induction ids with
  | nil => exact .inr ⟨by simp, rfl⟩
  | cons k ids ih =>
    rw [List.forall_mem_cons] at hids
    obtain ⟨⟨e', hk⟩, hids⟩ := hids
    rw [List.findM?, bind_of_eq_ok (equal_eq_decide hk h)]
    by_cases he : e' = e
    · subst he
      exact .inl ⟨k, by simp, hk, by simp [pure, Except.pure]⟩
    · rw [decide_eq_false he]
      obtain ⟨k', hk', hden, hfind⟩ | ⟨hnone, hfind⟩ := ih hids
      · exact .inl ⟨k', List.mem_cons_of_mem k hk', hden, hfind⟩
      · refine .inr ⟨List.forall_mem_cons.2 ⟨fun hke => he (hk.unique hke), hnone⟩, hfind⟩

end Forest

end TemporalCheck
