import TemporalCheck.Proofs.Forest

/-!
# TemporalCheck.Proofs.Collection

Throwing formulas away.  Emptying a slot that holds a node keeps the forest tidy, so emptying
several different ones does (`Tidy.vacateAll`), and the garbage of a collection is such a list.
Where nothing is pinned, a collection without further roots has nothing to follow and so meets no
fault (`exists_collect_of_unpinned`).

A forest is *whole* if every stored node stands for a formula and every pinned node is stored.  Then
the nodes that a collection follows are all there, and it keeps exactly the nodes at or below a
pinned node or a root (`Whole.exists_collect`), so that what is left is whole again.
-/

namespace TemporalCheck.Forest

open Relation (ReflTransGen TransGen)

variable {f : Forest} {id : NodeId}

/-! ## Emptying slots -/

@[simp] theorem capacity_vacate (f : Forest) (id : NodeId) :
    (f.vacate id).capacity = f.capacity := by
  simp [vacate, capacity]

/-- Emptying a slot changes no other slot. -/
theorem node?_vacate (f : Forest) (id k : NodeId) :
    (f.vacate id).node? k = if k = id then none else f.node? k := by
  simp only [vacate, node?, Array.getElem?_setIfInBounds]
  by_cases hid : id = k
  · subst hid
    by_cases hlt : id < f.slots.size <;> simp [hlt]
  · simp [hid, Ne.symm hid]

/-- A forest stays tidy when a filled slot is emptied. -/
theorem Tidy.vacate (h : f.Tidy) (hid : (f.node? id).isSome = true) : (f.vacate id).Tidy := by
  obtain ⟨node, hnode⟩ := Option.isSome_iff_exists.1 hid
  have hnew : id ∉ f.free := by
    intro hmem
    rw [((h.mem_free id).1 hmem).2] at hnode
    cases hnode
  refine ⟨List.nodup_cons.2 ⟨hnew, h.nodup⟩, fun k => ?_⟩
  rw [node?_vacate, capacity_vacate]
  show k ∈ id :: f.free ↔ _
  rw [List.mem_cons, h.mem_free]
  by_cases hk : k = id
  · subst hk
    simp [lt_capacity hnode]
  · simp [hk]

/-- Emptying different slots that hold nodes. -/
theorem Tidy.vacateAll {ids : List NodeId} (h : f.Tidy) (hnodup : ids.Nodup)
    (hids : ∀ id ∈ ids, (f.node? id).isSome = true) : (ids.foldl Forest.vacate f).Tidy := by
  induction ids generalizing f with
  | nil => exact h
  | cons id ids ih =>
    rw [List.nodup_cons] at hnodup
    refine ih (h.vacate (hids id (by simp))) hnodup.2 fun k hk => ?_
    have hne : k ≠ id := fun heq => hnodup.1 (heq ▸ hk)
    rw [node?_vacate, if_neg hne]
    exact hids k (by simp [hk])

theorem pins_vacateAll (f : Forest) (ids : List NodeId) :
    (ids.foldl Forest.vacate f).pins = f.pins := by
  induction ids generalizing f with
  | nil => rfl
  | cons id ids ih => exact ih (f.vacate id)

/-- Emptying some slots changes no other slots. -/
theorem node?_vacateAll (f : Forest) (ids : List NodeId) (k : NodeId) :
    (ids.foldl Forest.vacate f).node? k = if k ∈ ids then none else f.node? k := by
  induction ids generalizing f with
  | nil => simp
  | cons id ids ih =>
    rw [List.foldl_cons, ih, node?_vacate]
    by_cases hk : k = id <;> by_cases hmem : k ∈ ids <;> simp [hk, hmem]

/-! ## Collections -/

theorem tidy_collected (h : f.Tidy) (kept : Marks) : ((f.garbage kept).foldl vacate f).Tidy := by
  refine h.vacateAll (List.nodup_range.filter _) fun id hid => ?_
  simp only [garbage, List.mem_filter, Bool.and_eq_true] at hid
  exact hid.2.1

/-- A collection without roots and pins empties every slot. -/
theorem exists_collect_of_unpinned (h : f.Tidy) (hpins : f.pins = []) :
    ∃ n g, f.collect [] = .ok (n, g) ∧ g.Tidy ∧ g.pins = [] ∧ ∀ id, g.node? id = none := by
  have hmarked : f.marked [] = .ok (.none f.capacity) := by
    simp [marked, hpins, reach]
  refine ⟨(f.garbage (.none f.capacity)).length, _, ?_, tidy_collected h (.none f.capacity), ?_,
    fun id => ?_⟩
  · rw [collect, hmarked]
    rfl
  · rw [pins_vacateAll, hpins]
  · rw [node?_vacateAll]
    cases hid : f.node? id with
    | none => simp
    | some node => simp [garbage, hid, lt_capacity hid]

/-! ## Stored nodes -/

/-- The slots that hold a node. -/
def live (f : Forest) : Finset NodeId :=
  (Finset.range f.capacity).filter fun id => (f.node? id).isSome = true

theorem mem_live : id ∈ f.live ↔ ∃ node, f.node? id = some node := by
  rw [live, Finset.mem_filter, Finset.mem_range, Option.isSome_iff_exists]
  exact ⟨fun h => h.2, fun ⟨node, h⟩ => ⟨lt_capacity h, node, h⟩⟩

/-- The empty slots and the others are all slots. -/
theorem Tidy.size_eq (h : f.Tidy) : f.size = f.live.card := by
  have hfree : f.free.toFinset =
      (Finset.range f.capacity).filter fun id => ¬ (f.node? id).isSome = true := by
    ext id
    simp [h.mem_free]
  have hsplit := Finset.card_filter_add_card_filter_not (s := Finset.range f.capacity)
    fun id => (f.node? id).isSome = true
  rw [← hfree, List.toFinset_card_of_nodup h.nodup, Finset.card_range] at hsplit
  show f.capacity - f.free.length = f.live.card
  exact Nat.sub_eq_of_eq_add hsplit.symm

theorem mem_garbage {kept : Marks} :
    id ∈ f.garbage kept ↔ id ∈ f.live ∧ kept.has id = false := by
  simp [garbage, live, and_assoc]

/-! ## Following operands -/

/-- One node is an operand of another. -/
def HasChild (f : Forest) (id below : NodeId) : Prop :=
  ∃ node, f.node? id = some node ∧ below ∈ node.children

/-- A collection goes from a node to its operands. -/
theorem markStep_eq_ok_iff {found : List NodeId} :
    f.markStep id = .ok found ↔ ∃ node, f.node? id = some node ∧ node.children = found := by
  rw [← children_eq_ok_iff, markStep]
  split
  · rfl
  · next hge =>
    refine ⟨nofun, fun h => ?_⟩
    obtain ⟨node, hnode, -⟩ := children_eq_ok_iff.1 h
    exact absurd (lt_capacity hnode) hge

/-- What a collection can come to from a node is what lies below it. -/
theorem leads_markStep_iff {below : NodeId} :
    Leads f.markStep id below ↔ ReflTransGen f.HasChild id below := by
  constructor
  · intro h
    induction h with
    | refl => exact .refl
    | step hn hb _ ih =>
      obtain ⟨node, hnode, rfl⟩ := markStep_eq_ok_iff.1 hn
      exact .head ⟨node, hnode, hb⟩ ih
  · intro h
    induction h using ReflTransGen.head_induction_on with
    | refl => exact .refl _
    | head hchild _ ih =>
      obtain ⟨node, hnode, hb⟩ := hchild
      exact .step (markStep_eq_ok_iff.2 ⟨node, hnode, rfl⟩) hb ih

theorem Denotes.of_hasChild {below : NodeId} {e : Expr} (h : f.Denotes id e)
    (hb : f.HasChild id below) : ∃ a, f.Denotes below a ∧ a.size < e.size := by
  obtain ⟨node, hnode, hmem⟩ := hb
  obtain ⟨a, -, ha⟩ := h.of_child hnode hmem
  exact ⟨a, ha⟩

/-- A formula stays where its nodes stay. -/
theorem Denotes.of_agree {g : Forest} {e : Expr} (h : f.Denotes id e)
    (hg : ∀ below, ReflTransGen f.HasChild id below → g.node? below = f.node? below) :
    g.Denotes id e := by
  induction h with
  | top h => exact .top ((hg _ .refl).trans h)
  | bottom h => exact .bottom ((hg _ .refl).trans h)
  | prop h => exact .prop ((hg _ .refl).trans h)
  | unary h _ ih =>
    have harg := ih fun below hb => hg below (.head ⟨_, h, by simp [Node.children]⟩ hb)
    exact .unary ((hg _ .refl).trans h) harg
  | binary h _ _ ihl ihr =>
    have hleft := ihl fun below hb => hg below (.head ⟨_, h, by simp [Node.children]⟩ hb)
    have hright := ihr fun below hb => hg below (.head ⟨_, h, by simp [Node.children]⟩ hb)
    exact .binary ((hg _ .refl).trans h) hleft hright

/-! ## Whole forests -/

/-- The list of empty slots is right, every stored node stands for a formula, and every pinned node
is stored. -/
structure Whole (f : Forest) : Prop where
  tidy : f.Tidy
  denotes : ∀ id ∈ f.live, ∃ e, f.Denotes id e
  pinned : ∀ id ∈ f.pins, id ∈ f.live

theorem whole_empty : Whole {} := ⟨tidy_empty, by simp [live], nofun⟩

/-- A forest in which nothing is stored and nothing is pinned. -/
theorem Tidy.whole_of_vacant (h : f.Tidy) (hnode : ∀ id, f.node? id = none) (hpins : f.pins = []) :
    f.Whole :=
  ⟨h, fun id hid => by simp [mem_live, hnode] at hid, by simp [hpins]⟩

theorem Keeps.mem_live {g : Forest} (h : f.Keeps g) (hid : id ∈ f.live) : id ∈ g.live := by
  obtain ⟨node, hnode⟩ := Forest.mem_live.1 hid
  exact Forest.mem_live.2 ⟨node, h.stored id node hnode⟩

namespace Whole

variable {roots : List NodeId}

/-- What is stored besides in a whole forest stands for formulas. -/
theorem of_keeps {g : Forest} (h : f.Whole) (hk : f.Keeps g) (hg : g.Tidy) : g.Whole where
  tidy := hg
  denotes id hid := by
    obtain ⟨node, hnode⟩ := mem_live.1 hid
    cases hf : f.node? id with
    | none => exact hk.fresh id node hf hnode
    | some stored =>
      obtain ⟨e, he⟩ := h.denotes id (mem_live.2 ⟨stored, hf⟩)
      exact ⟨e, hk.denotes he⟩
  pinned id hid := by
    rw [hk.pins_eq] at hid
    exact hk.mem_live (h.pinned id hid)

/-- The operands of stored nodes are stored. -/
theorem child_mem_live (h : f.Whole) {below : NodeId} (hid : id ∈ f.live)
    (hb : f.HasChild id below) : below ∈ f.live := by
  obtain ⟨e, he⟩ := h.denotes id hid
  obtain ⟨a, ha, -⟩ := he.of_hasChild hb
  exact mem_live.2 ha.exists_node

theorem below_mem_live (h : f.Whole) {below : NodeId} (hid : id ∈ f.live)
    (hb : ReflTransGen f.HasChild id below) : below ∈ f.live := by
  induction hb with
  | refl => exact hid
  | tail _ hchild ih => exact h.child_mem_live ih hchild

/-- No node lies below itself: the formulas get smaller on the way down. -/
theorem not_transGen_self (h : f.Whole) : ¬ TransGen f.HasChild id id := by
  have hsmaller : ∀ below, TransGen f.HasChild id below → ∀ e, f.Denotes id e →
      ∃ a, f.Denotes below a ∧ a.size < e.size := by
    intro below hb e he
    induction hb with
    | single hchild => exact he.of_hasChild hchild
    | tail _ hchild ih =>
      obtain ⟨a, ha, hlt⟩ := ih
      obtain ⟨b, hb, hlt'⟩ := ha.of_hasChild hchild
      exact ⟨b, hb, hlt'.trans hlt⟩
  intro hcycle
  obtain ⟨_, ⟨node, hnode, -⟩, -⟩ := TransGen.head'_iff.1 hcycle
  obtain ⟨e, he⟩ := h.denotes id (mem_live.2 ⟨node, hnode⟩)
  obtain ⟨a, ha, hlt⟩ := hsmaller id hcycle e he
  rw [ha.unique he] at hlt
  exact lt_irrefl _ hlt

/-- The nodes at or below the pinned nodes and the roots are marked. -/
theorem exists_marked (h : f.Whole) (hroots : ∀ r ∈ roots, r ∈ f.live) :
    ∃ kept, f.marked roots = .ok kept ∧
      ∀ id, kept.has id = true ↔ ∃ root ∈ f.pins ++ roots, ReflTransGen f.HasChild root id := by
  have hstarts : ∀ r ∈ f.pins ++ roots, r ∈ f.live := by
    intro r hr
    exact (List.mem_append.1 hr).elim (h.pinned r) (hroots r)
  have hreached : ∀ x, Reached f.markStep (f.pins ++ roots).reverse x ↔
      ∃ root ∈ f.pins ++ roots, ReflTransGen f.HasChild root x := by
    simp only [Reached, List.mem_reverse, leads_markStep_iff, implies_true]
  have total : ∀ x, Reached f.markStep (f.pins ++ roots).reverse x →
      x < f.capacity ∧ ∃ found, f.markStep x = .ok found := by
    intro x hx
    obtain ⟨r, hr, hb⟩ := (hreached x).1 hx
    obtain ⟨node, hnode⟩ := mem_live.1 (h.below_mem_live (hstarts r hr) hb)
    exact ⟨lt_capacity hnode, _, markStep_eq_ok_iff.2 ⟨node, hnode, rfl⟩⟩
  obtain ⟨kept, hkept, -, hmarks⟩ := exists_reach_none _ f.capacity total
  exact ⟨kept, hkept, fun id => (hmarks id).trans (hreached id)⟩

/-- A collection meets no fault, keeps exactly the nodes at or below a pinned node or a root, as
they are, and counts the others. -/
theorem exists_collect (h : f.Whole) (hroots : ∀ r ∈ roots, r ∈ f.live) :
    ∃ g, f.collect roots = .ok ((f.live \ g.live).card, g) ∧ g.Tidy ∧ g.pins = f.pins ∧
      ∀ id node, g.node? id = some node ↔ f.node? id = some node ∧
        ∃ root ∈ f.pins ++ roots, ReflTransGen f.HasChild root id := by
  obtain ⟨kept, hmarked, hkept⟩ := h.exists_marked hroots
  have hnode : ∀ id node, ((f.garbage kept).foldl vacate f).node? id = some node ↔
      f.node? id = some node ∧ kept.has id = true := by
    intro id node
    rw [node?_vacateAll]
    by_cases hmem : id ∈ f.garbage kept
    · simp [hmem, (mem_garbage.1 hmem).2]
    · rw [if_neg hmem]
      refine ⟨fun hsome => ⟨hsome, ?_⟩, And.left⟩
      have hlive : id ∈ f.live := mem_live.2 ⟨node, hsome⟩
      simpa [mem_garbage, hlive] using hmem
  refine ⟨(f.garbage kept).foldl vacate f, ?_, tidy_collected h.tidy kept, pins_vacateAll _ _,
    fun id node => by rw [hnode, hkept]⟩
  have hfreed : (f.garbage kept).toFinset =
      f.live \ ((f.garbage kept).foldl vacate f).live := by
    ext id
    simp only [List.mem_toFinset, mem_garbage, Finset.mem_sdiff, mem_live, hnode]
    cases kept.has id <;> simp
  have hnodup : (f.garbage kept).Nodup := List.nodup_range.filter _
  rw [collect, hmarked, ← hfreed, List.toFinset_card_of_nodup hnodup]
  rfl

/-- What a collection leaves is whole. -/
theorem of_collected {g : Forest} (h : f.Whole) (hg : g.Tidy) (hpins : g.pins = f.pins)
    (hnode : ∀ id node, g.node? id = some node ↔ f.node? id = some node ∧
      ∃ root ∈ f.pins ++ roots, ReflTransGen f.HasChild root id) : g.Whole := by
  have hkept : ∀ id, (∃ root ∈ f.pins ++ roots, ReflTransGen f.HasChild root id) →
      g.node? id = f.node? id := by
    intro id hid
    ext node
    rw [hnode]
    exact and_iff_left hid
  refine ⟨hg, fun id hid => ?_, fun id hid => ?_⟩
  · obtain ⟨node, hstored⟩ := mem_live.1 hid
    obtain ⟨hf, root, hroot, hb⟩ := (hnode id node).1 hstored
    obtain ⟨e, he⟩ := h.denotes id (mem_live.2 ⟨node, hf⟩)
    exact ⟨e, he.of_agree fun below hbelow => hkept below ⟨root, hroot, hb.trans hbelow⟩⟩
  · rw [hpins] at hid
    obtain ⟨node, hf⟩ := mem_live.1 (h.pinned id hid)
    exact mem_live.2 ⟨node, (hnode id node).2 ⟨hf, id, by simp [hid], .refl⟩⟩

end Whole

end TemporalCheck.Forest
