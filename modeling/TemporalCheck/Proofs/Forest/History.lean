import Mathlib.Data.Fintype.Card
import Mathlib.Data.Fintype.EquivFin
import Mathlib.Data.Fintype.Sets
import TemporalCheck.Proofs.Build
import TemporalCheck.Proofs.Collection

/-!
# TemporalCheck.Proofs.Forest.History

What a forest can become.  Nodes are added above stored nodes, stored nodes are pinned and unpinned,
collections are made and the forest is cleared, in any order.  After every such history

* the list of empty slots is right and the stored nodes are counted;
* the operands of stored nodes are stored, and no node lies below itself;
* a collection keeps exactly the nodes at or below its roots and the nodes that are held by a pin
  (`After.collection_exact`).

All of this holds because the forest is whole, which every act preserves (`Whole.exists_perform`).
`Orderly` is the part of it that does not speak of pins; in such a forest every stored node stands
for a formula (`Orderly.exists_denotes`).

A pin holds a node until it is taken back.  Unpinning a node that is not pinned does nothing, so it
does not weigh against a later pin (`After.collection_keeps_overdrawn`): a history says how often a
node is held, not only how often it was pinned and unpinned.
-/

namespace TemporalCheck.Forest

open Relation (ReflTransGen TransGen)

variable {f : Forest} {id : NodeId}

/-! ## Acts -/

/-- What is done to a forest. -/
inductive Act where
  | add (node : Node)
  | pin (id : NodeId)
  | unpin (id : NodeId)
  | collect (roots : List NodeId)
  | clear
deriving DecidableEq

/-- An act names stored nodes only. -/
def Act.Allowed (f : Forest) : Act → Prop
  | .add node => ∀ id ∈ node.children, id ∈ f.live
  | .pin id | .unpin id => id ∈ f.live
  | .collect roots => ∀ id ∈ roots, id ∈ f.live
  | .clear => True

instance (f : Forest) : (a : Act) → Decidable (a.Allowed f)
  | .add node => inferInstanceAs (Decidable (∀ id ∈ node.children, id ∈ f.live))
  | .pin id | .unpin id => inferInstanceAs (Decidable (id ∈ f.live))
  | .collect roots => inferInstanceAs (Decidable (∀ id ∈ roots, id ∈ f.live))
  | .clear => inferInstanceAs (Decidable True)

/-- The forest after an act. -/
def perform (f : Forest) : Act → Except Fault Forest
  | .add node => .ok (f.add node).2
  | .pin id => .ok (f.pin id)
  | .unpin id => .ok (f.unpin id)
  | .collect roots => return (← f.collect roots).2
  | .clear => .ok {}

/-- The forests that there are after some acts, the first of them done to an empty forest. -/
inductive After : List Act → Forest → Prop
  | start : After [] {}
  | act {acts : List Act} {a : Act} {f g : Forest} (before : After acts f) (allowed : a.Allowed f)
      (performed : f.perform a = .ok g) : After (acts ++ [a]) g

/-! ## Pins -/

/-- Pinning a node adds one pin, wherever it is put. -/
theorem insertPin_perm (id : NodeId) (pins : List NodeId) :
    (insertPin id pins).Perm (id :: pins) := by
  induction pins with
  | nil => exact .refl _
  | cons p pins ih =>
    unfold insertPin
    split
    · exact .refl _
    · exact (ih.cons p).trans (.swap id p pins)

/-- How often an act leaves a node held, if the node was held `n` times before. -/
def Act.hold (id : NodeId) (n : Nat) : Act → Nat
  | .pin k => if k = id then n + 1 else n
  | .unpin k => if k = id then n - 1 else n
  | .clear => 0
  | .add _ | .collect _ => n

/-- How often a node is held after some acts. -/
def held (id : NodeId) (acts : List Act) : Nat := acts.foldl (Act.hold id) 0

@[simp] theorem held_append (id : NodeId) (acts : List Act) (a : Act) :
    held id (acts ++ [a]) = a.hold id (held id acts) := by
  simp [held]

/-- What has been done since the forest was last cleared, the latest first. -/
def sinceClear (acts : List Act) : List Act := acts.reverse.takeWhile (· ≠ .clear)

/-- How often a node was pinned since the forest was last cleared. -/
def pinnings (id : NodeId) (acts : List Act) : Nat := (sinceClear acts).count (.pin id)

/-- How often a node was unpinned since the forest was last cleared. -/
def unpinnings (id : NodeId) (acts : List Act) : Nat := (sinceClear acts).count (.unpin id)

theorem sinceClear_append (acts : List Act) (a : Act) :
    sinceClear (acts ++ [a]) = if a = .clear then [] else a :: sinceClear acts := by
  by_cases ha : a = .clear <;> simp [sinceClear, ha]

/-- Where a node is never unpinned more often than it was pinned, the pins that were not taken back
hold it. -/
theorem held_add_unpinnings {acts : List Act}
    (h : ∀ before, before <+: acts → unpinnings id before ≤ pinnings id before) :
    held id acts + unpinnings id acts = pinnings id acts := by
  induction acts using List.reverseRecOn with
  | nil => rfl
  | append_singleton acts a ih =>
    have ih := ih fun before hb => h before (hb.trans (List.prefix_append acts [a]))
    have hle := h _ (List.prefix_refl _)
    simp only [unpinnings, pinnings] at ih hle
    rw [held_append, unpinnings, pinnings]
    rw [sinceClear_append] at hle ⊢
    cases a with
    | clear => rfl
    | add node | collect roots => simpa [Act.hold, List.count_cons] using ih
    | pin k =>
      by_cases hk : k = id <;> simp [Act.hold, hk] <;> omega
    | unpin k =>
      by_cases hk : k = id
      · simp [hk] at hle
        simp [Act.hold, hk]
        omega
      · simpa [Act.hold, List.count_cons, hk] using ih

/-! ## One act -/

/-- A node makes up a tree if its operands stand for some. -/
theorem exists_makes {node : Node} (hchildren : ∀ c ∈ node.children, ∃ e, f.Denotes c e) :
    ∃ e, node.Makes f e := by
  cases node with
  | top => exact ⟨_, .top⟩
  | bottom => exact ⟨_, .bottom⟩
  | prop name => exact ⟨_, .prop name⟩
  | unary op arg =>
    obtain ⟨a, ha⟩ := hchildren arg (by simp [Node.children])
    exact ⟨_, .unary op ha⟩
  | binary op left right =>
    obtain ⟨a, ha⟩ := hchildren left (by simp [Node.children])
    obtain ⟨b, hb⟩ := hchildren right (by simp [Node.children])
    exact ⟨_, .binary op ha hb⟩

/-- The list of empty slots is right, the operands of stored nodes are stored, and no node lies
below itself. -/
structure Orderly (f : Forest) : Prop where
  tidy : f.Tidy
  stored : ∀ id below, f.HasChild id below → below ∈ f.live
  acyclic : ∀ id, ¬ TransGen f.HasChild id id

/-- Every stored node of an orderly forest stands for a formula: there are finitely many nodes and
none is met twice on the way down, so the way ends. -/
theorem Orderly.exists_denotes (h : f.Orderly) (hid : id ∈ f.live) : ∃ e, f.Denotes id e := by
  let lower (a b : f.live) : Prop := TransGen f.HasChild b a
  have htrans : IsTrans f.live lower := ⟨fun a b c hab hbc => TransGen.trans hbc hab⟩
  have hirrefl : Std.Irrefl lower := ⟨fun a => h.acyclic a⟩
  have hwf : WellFounded lower := Finite.wellFounded_of_trans_of_irrefl lower
  have hall : ∀ a : f.live, ∃ e, f.Denotes a e := by
    intro a
    induction a using hwf.induction with
    | _ a ih =>
      obtain ⟨node, hnode⟩ := mem_live.1 a.2
      have hchildren : ∀ c ∈ node.children, ∃ e, f.Denotes c e := by
        intro c hc
        have hchild : f.HasChild a c := ⟨node, hnode, hc⟩
        exact ih ⟨c, h.stored a c hchild⟩ (.single hchild)
      obtain ⟨e, he⟩ := exists_makes hchildren
      exact ⟨e, denotes_iff_exists_makes.2 ⟨node, hnode, he⟩⟩
  exact hall ⟨id, hid⟩

namespace Whole

/-- In a whole forest the free list has each empty slot once, the operands of live nodes are live
and no node lies below itself. -/
theorem orderly (h : f.Whole) : f.Orderly where
  tidy := h.tidy
  stored _ _ hb := by
    obtain ⟨node, hnode, hmem⟩ := hb
    exact h.child_mem_live (mem_live.2 ⟨node, hnode⟩) ⟨node, hnode, hmem⟩
  acyclic _ := h.not_transGen_self

theorem add (h : f.Whole) {node : Node} (hchildren : ∀ c ∈ node.children, c ∈ f.live) :
    (f.add node).2.Whole := by
  obtain ⟨e, he⟩ := exists_makes fun c hc => h.denotes c (hchildren c hc)
  have hadd := built_add h.tidy he
  exact h.of_keeps hadd.keeps hadd.tidy

/-- Any stored nodes may be pinned. -/
theorem repinned (h : f.Whole) {pins : List NodeId} (hpins : ∀ id ∈ pins, id ∈ f.live) :
    Whole { f with pins } where
  tidy := ⟨h.tidy.nodup, h.tidy.mem_free⟩
  denotes id hid := by
    obtain ⟨e, he⟩ := h.denotes id hid
    have hstored : ∀ k node, f.node? k = some node →
        ({ f with pins } : Forest).node? k = some node :=
      fun _ _ hk => hk
    exact ⟨e, he.mono hstored⟩
  pinned := hpins

/-- An act that names stored nodes meets no fault.  It leaves the forest whole, and each node pinned
as often as it is held. -/
theorem exists_perform {a : Act} (h : f.Whole) (ha : a.Allowed f) :
    ∃ g, f.perform a = .ok g ∧ g.Whole ∧
      ∀ id, g.pins.count id = a.hold id (f.pins.count id) := by
  cases a with
  | add node => exact ⟨_, rfl, h.add ha, fun id => by rw [pins_add]; rfl⟩
  | pin k =>
    have hpins : ∀ id ∈ insertPin k f.pins, id ∈ f.live := by
      intro id hid
      obtain rfl | hid := List.mem_cons.1 ((insertPin_perm k f.pins).mem_iff.1 hid)
      · exact ha
      · exact h.pinned id hid
    refine ⟨_, rfl, h.repinned hpins, fun id => ?_⟩
    show (insertPin k f.pins).count id = _
    rw [(insertPin_perm k f.pins).count_eq, List.count_cons]
    by_cases hk : k = id <;> simp [Act.hold, hk]
  | unpin k =>
    have hpins : ∀ id ∈ f.pins.erase k, id ∈ f.live :=
      fun id hid => h.pinned id (List.mem_of_mem_erase hid)
    refine ⟨_, rfl, h.repinned hpins, fun id => ?_⟩
    show (f.pins.erase k).count id = _
    rw [List.count_erase]
    by_cases hk : k = id <;> simp [Act.hold, hk]
  | collect roots =>
    obtain ⟨g, hcollect, htidy, hpins, hnode⟩ := h.exists_collect ha
    refine ⟨g, ?_, h.of_collected htidy hpins hnode, fun id => by rw [hpins]; rfl⟩
    rw [perform, hcollect]
    rfl
  | clear => exact ⟨_, rfl, whole_empty, fun id => rfl⟩

end Whole

/-! ## Histories -/

namespace After

variable {acts : List Act}

/-- Whatever has been done, the forest is whole and its pins are those that have not been taken
back. -/
theorem invariant (h : After acts f) : f.Whole ∧ ∀ id, f.pins.count id = held id acts := by
  induction h with
  | start => exact ⟨whole_empty, fun id => rfl⟩
  | act _ ha hg ih =>
    obtain ⟨g, hperform, hwhole, hcount⟩ := ih.1.exists_perform ha
    cases hg.symm.trans hperform
    exact ⟨hwhole, fun id => by rw [hcount, ih.2, held_append]⟩

/-- After every history the list of empty slots holds each of them once and no other slot, the size
is the number of occupied slots, the operands of stored nodes are stored and no node lies below
itself.  A collection then meets no fault: it keeps exactly the nodes at or below its roots and the
nodes that are held, as they are, and gives the number of the others.  Where no node was ever
unpinned more often than pinned, the nodes that are held are those pinned more often than
unpinned. -/
theorem collection_exact (h : After acts f) :
    f.free.Nodup ∧ (∀ id, id ∈ f.free ↔ id < f.capacity ∧ f.node? id = none) ∧
    f.size = f.live.card ∧
    (∀ id below, f.HasChild id below → below ∈ f.live) ∧
    (∀ id, ¬ TransGen f.HasChild id id) ∧
    (∀ roots : List NodeId, (∀ r ∈ roots, r ∈ f.live) →
      ∃ g, f.collect roots = .ok ((f.live \ g.live).card, g) ∧
        ∀ id node, g.node? id = some node ↔ f.node? id = some node ∧
          ∃ root, (root ∈ roots ∨ 0 < held root acts) ∧ ReflTransGen f.HasChild root id) ∧
    ((∀ before, before <+: acts → ∀ id, unpinnings id before ≤ pinnings id before) →
      ∀ id, 0 < held id acts ↔ unpinnings id acts < pinnings id acts) := by
  obtain ⟨hwhole, hcount⟩ := h.invariant
  refine ⟨hwhole.tidy.nodup, hwhole.tidy.mem_free, hwhole.tidy.size_eq, fun id below hb => ?_,
    fun id => hwhole.not_transGen_self, fun roots hroots => ?_, fun hbalanced id => ?_⟩
  · obtain ⟨node, hnode, hmem⟩ := hb
    exact hwhole.child_mem_live (mem_live.2 ⟨node, hnode⟩) ⟨node, hnode, hmem⟩
  · obtain ⟨g, hcollect, -, -, hnode⟩ := hwhole.exists_collect hroots
    have hstart : ∀ root, root ∈ f.pins ++ roots ↔ root ∈ roots ∨ 0 < held root acts := by
      intro root
      rw [List.mem_append, ← hcount, List.count_pos_iff, or_comm]
    refine ⟨g, hcollect, fun id node => ?_⟩
    simp only [hnode, hstart]
  · have hheld := held_add_unpinnings fun before hb => hbalanced before hb id
    omega

/-- A slot that a collection has emptied is used again while another node is pinned. -/
theorem collection_exact_reused :
    let acts : List Act := [.add (.prop "p"), .add (.unary .next 0), .add (.prop "q"), .pin 1,
      .collect [], .add (.unary .not 0)]
    let f : Forest :=
      { slots := #[some (.prop "p"), some (.unary .next 0), some (.unary .not 0)], pins := [1] }
    After acts f ∧ held 1 acts = 1 ∧ f.size = f.live.card ∧
      ∃ g, f.collect [] = .ok ((f.live \ g.live).card, g) ∧
        ∀ id node, g.node? id = some node ↔ f.node? id = some node ∧
          ∃ root, (root ∈ [] ∨ 0 < held root acts) ∧ ReflTransGen f.HasChild root id := by
  intro acts f
  have hafter : After acts f := by
    refine .act (.act (.act (.act (.act (.act .start ?_ rfl) ?_ rfl) ?_ rfl) ?_ rfl) ?_ rfl) ?_ rfl
    all_goals decide
  obtain ⟨-, -, hsize, -, -, hcollect, -⟩ := collection_exact hafter
  exact ⟨hafter, rfl, hsize, hcollect [] nofun⟩

/-- A pin holds a node that was unpinned before it was pinned, although the node was then pinned no
more often than unpinned. -/
theorem collection_keeps_overdrawn :
    ¬ ∀ (acts : List Act) (f : Forest), After acts f →
      ∀ roots : List NodeId, (∀ r ∈ roots, r ∈ f.live) →
        ∃ g, f.collect roots = .ok ((f.live \ g.live).card, g) ∧
          ∀ id node, g.node? id = some node ↔ f.node? id = some node ∧
            ∃ root, (root ∈ roots ∨ unpinnings root acts < pinnings root acts) ∧
              ReflTransGen f.HasChild root id := by
  intro hcounted
  have hafter : After [.add .top, .unpin 0, .pin 0] { slots := #[some .top], pins := [0] } := by
    refine .act (.act (.act .start ?_ rfl) ?_ rfl) ?_ rfl
    all_goals decide
  obtain ⟨g, hcollect, hnode⟩ := hcounted _ _ hafter [] nofun
  have hkept : Forest.collect { slots := #[some .top], pins := [0] } [] =
      .ok (0, { slots := #[some .top], pins := [0] }) := rfl
  obtain ⟨-, rfl⟩ := Prod.mk.inj (Except.ok.inj (hcollect.symm.trans hkept))
  obtain ⟨-, root, hroot, -⟩ := (hnode 0 .top).1 rfl
  obtain hnone | hlt := hroot
  · exact List.not_mem_nil hnone
  · by_cases h0 : root = 0 <;> simp [pinnings, unpinnings, sinceClear, h0, eq_comm] at hlt

end After

end TemporalCheck.Forest
