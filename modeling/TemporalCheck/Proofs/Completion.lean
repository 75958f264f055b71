import Mathlib.Algebra.GroupWithZero.Nat
import Mathlib.Algebra.Order.BigOperators.Group.List
import Mathlib.Algebra.Order.Group.Nat
import TemporalCheck.Proofs.Cover

/-!
# TemporalCheck.Proofs.Completion

Working off all covers.  `Tableau.Moves` lists what one step can do to the construction,
`Tableau.Invariant` says what each of them keeps, and `Tableau.effort` is a number that each of them
makes smaller.  So the construction ends within `stepBound` steps, with nothing pending, and what it
keeps holds of its result (`Tableau.yields_complete`).
-/

namespace TemporalCheck

namespace Tableau

/-- Whether a cover is a state or is still to be worked off. -/
def Has (t : Tableau) (c : Cover) : Prop := c ∈ t.finished ∨ c ∈ t.pending

/-- What the successors of a state have to meet: the formula itself after the seed, and what a
cover asks for next after its state. -/
def duty? (root : NodeId) (t : Tableau) : Nat → Option NatSet
  | 0 => some (.singleton root)
  | i + 1 => t.finished[i]?.map Cover.next

/-- What one step can do: replace a cover by its branches, add the predecessors of a cover to the
state with the same subformulas, or make a state of it. -/
inductive Moves (f : Forest) : Tableau → Tableau → Prop
  | expand {finished : Array Cover} {c : Cover} {pending covers : List Cover}
    (expands : c.Expands f covers) : Moves f ⟨finished, c :: pending⟩ ⟨finished, covers ++ pending⟩
  | merge {finished : Array Cover} {c s : Cover} {pending : List Cover} {i : Nat}
    (new_eq : c.new = ∅) (twin : finished[i]? = some s) (old_eq : s.old = c.old)
    (next_eq : s.next = c.next) :
    Moves f ⟨finished, c :: pending⟩
      ⟨finished.modify i fun s => { s with incoming := s.incoming.union c.incoming }, pending⟩
  | add {finished : Array Cover} {c : Cover} {pending : List Cover} (new_eq : c.new = ∅)
    (fresh : ∀ s ∈ finished, s.old = c.old → s.next ≠ c.next) :
    Moves f ⟨finished, c :: pending⟩
      ⟨finished.push c, { incoming := .singleton (finished.size + 1), new := c.next } :: pending⟩

/-- What holds all through the construction. -/
structure Invariant (f : Forest) (u : NatSet) (root : NodeId) (t : Tableau) : Prop where
  sound : ∀ c, t.Has c → c.Sound f u
  done : ∀ c ∈ t.finished, c.new = ∅
  distinct : (t.finished.toList.map fun c => (c.old, c.next)).Nodup
  owed : ∀ c, t.Has c → ∀ source ∈ c.incoming, ∃ duty, t.duty? root source = some duty ∧
    ∀ e ∈ duty, e ∈ c.old ∨ e ∈ c.new
  served : ∀ w i source duty, t.duty? root source = some duty → (∀ e ∈ duty, f.Holds w e i) →
    ∃ c, t.Has c ∧ source ∈ c.incoming ∧ c.Meets f w i

variable {f : Forest} {u : NatSet} {root : NodeId} {t t' : Tableau}

/-! ## The steps of the construction -/

/-- A cover with nothing left to work off is merged with a state that has the same subformulas, or
becomes a state. -/
theorem moves_finish {finished : Array Cover} {c : Cover} {pending : List Cover}
    (hnew : c.new = ∅) :
    Moves f ⟨finished, c :: pending⟩ (({ finished, pending } : Tableau).finish c) := by
  unfold finish twin?
  split
  · next i hi =>
    obtain ⟨hlt, htwin, -⟩ := Array.findIdx?_eq_some_iff_getElem.1 hi
    simp only [Bool.and_eq_true, decide_eq_true_eq] at htwin
    exact .merge hnew (Array.getElem?_eq_getElem hlt) htwin.1 htwin.2
  · next hnone =>
    refine .add hnew fun s hs hold hnext => ?_
    have hfresh := Array.findIdx?_eq_none_iff.1 hnone s hs
    simp [hold, hnext] at hfresh

/-! ## What a step keeps -/

theorem has_expand {finished : Array Cover} {d : Cover} {pending covers : List Cover} :
    Has ⟨finished, covers ++ pending⟩ d ↔
      d ∈ covers ∨ Has ⟨finished, pending⟩ d := by
  simp only [Has, List.mem_append]
  exact or_left_comm

theorem has_cons {finished : Array Cover} {c d : Cover} {pending : List Cover} :
    Has ⟨finished, c :: pending⟩ d ↔ d = c ∨ Has ⟨finished, pending⟩ d := by
  simp only [Has, List.mem_cons]
  exact or_left_comm

/-- Working off a formula of the first cover keeps the invariant. -/
theorem Invariant.expand {finished : Array Cover} {c : Cover} {pending covers : List Cover}
    (hu : f.IsUniverse u) (inv : Invariant f u root ⟨finished, c :: pending⟩)
    (h : c.Expands f covers) : Invariant f u root ⟨finished, covers ++ pending⟩ where
  sound d hd := by
    obtain hd | hd := has_expand.1 hd
    · exact (inv.sound c (has_cons.2 (.inl rfl))).expands hu h hd
    · exact inv.sound d (has_cons.2 (.inr hd))
  done := inv.done
  distinct := inv.distinct
  owed d hd source hsource := by
    obtain hd | hd := has_expand.1 hd
    · have hkeep := h.keeps hd
      rw [hkeep.1] at hsource
      obtain ⟨duty, hduty, hmem⟩ := inv.owed c (has_cons.2 (.inl rfl)) source hsource
      exact ⟨duty, hduty, fun e he => hkeep.2 e (hmem e he)⟩
    · exact inv.owed d (has_cons.2 (.inr hd)) source hsource
  served w i source duty hduty hholds := by
    obtain ⟨d, hd, hsource, hmeets⟩ := inv.served w i source duty hduty hholds
    obtain rfl | hd := has_cons.1 hd
    · obtain ⟨d', hd', hmeets'⟩ := hmeets.expands hu (inv.sound d (has_cons.2 (.inl rfl))) h
      exact ⟨d', has_expand.2 (.inl hd'), (h.keeps hd').1 ▸ hsource, hmeets'⟩
    · exact ⟨d, has_expand.2 (.inr hd), hsource, hmeets⟩

/-- The subformulas of a cover decide whether a word meets it. -/
theorem Cover.Meets.congr {c d : Cover} {w : Word String} {i : Nat} (h : c.Meets f w i)
    (hold : d.old = c.old) (hnew : d.new = c.new) (hnext : d.next = c.next) : d.Meets f w i := by
  obtain ⟨now, later, prompt⟩ := h
  constructor
  · rwa [hold, hnew]
  · rwa [hnext]
  · rwa [hold, hnew]

/-- The states after a merge: all are as before, but for the predecessors of one. -/
theorem mem_modify_incoming {finished : Array Cover} {c d s : Cover} {i : Nat}
    (htwin : finished[i]? = some s) :
    d ∈ finished.modify i (fun s => { s with incoming := s.incoming.union c.incoming }) ↔
      d = { s with incoming := s.incoming.union c.incoming } ∨
        ∃ j, j ≠ i ∧ finished[j]? = some d := by
  simp only [Array.mem_iff_getElem?, Array.getElem?_modify]
  constructor
  · intro h
    obtain ⟨j, hj⟩ := h
    split at hj
    · next hij =>
      subst hij
      rw [htwin] at hj
      exact .inl (Option.some.inj hj).symm
    · next hij => exact .inr ⟨j, fun h => hij h.symm, hj⟩
  · intro h
    obtain rfl | ⟨j, hne, hj⟩ := h
    · exact ⟨i, by rw [if_pos rfl, htwin]; rfl⟩
    · exact ⟨j, by rwa [if_neg hne.symm]⟩

/-- The covers after a merge are the merged state and covers from before. -/
theorem has_of_merge {finished : Array Cover} {c d s : Cover} {pending : List Cover} {i : Nat}
    (htwin : finished[i]? = some s)
    (h : Has ⟨finished.modify i fun s => { s with incoming := s.incoming.union c.incoming },
      pending⟩ d) :
    d = { s with incoming := s.incoming.union c.incoming } ∨ Has ⟨finished, c :: pending⟩ d := by
  obtain hd | hd := h
  · obtain rfl | ⟨j, -, hj⟩ := (mem_modify_incoming htwin).1 hd
    · exact .inl rfl
    · exact .inr (.inl (Array.mem_of_getElem? hj))
  · exact .inr (has_cons.2 (.inr (.inr hd)))

/-- A merge keeps every cover but the two that it makes one of. -/
theorem has_merge {finished : Array Cover} {c d s : Cover} {pending : List Cover} {i : Nat}
    (htwin : finished[i]? = some s) (h : Has ⟨finished, c :: pending⟩ d) :
    d = c ∨ d = s ∨
      Has ⟨finished.modify i fun s => { s with incoming := s.incoming.union c.incoming }, pending⟩
        d := by
  obtain hd | hd | hd := has_cons.1 h
  · exact .inl hd
  · obtain ⟨j, hj⟩ := Array.mem_iff_getElem?.1 hd
    by_cases hij : j = i
    · subst hij
      exact .inr (.inl (Option.some.inj (hj.symm.trans htwin)))
    · exact .inr (.inr (.inl ((mem_modify_incoming htwin).2 (.inr ⟨j, hij, hj⟩))))
  · exact .inr (.inr (.inr hd))

/-- A merge changes nothing in what the states owe. -/
theorem duty?_merge {finished : Array Cover} {c : Cover} (pending : List Cover)
    {pending' : List Cover} {i source : Nat} :
    duty? root ⟨finished.modify i fun s => { s with incoming := s.incoming.union c.incoming },
      pending'⟩ source = duty? root ⟨finished, pending⟩ source := by
  cases source with
  | zero => rfl
  | succ k =>
    simp only [duty?, Array.getElem?_modify]
    split
    · cases finished[k]? <;> rfl
    · rfl

/-- A merge does not change the subformulas of the states. -/
theorem map_modify_incoming {finished : Array Cover} {c : Cover} {i : Nat} :
    ((finished.modify i fun s =>
      { s with incoming := s.incoming.union c.incoming }).toList.map fun c => (c.old, c.next)) =
      finished.toList.map fun c => (c.old, c.next) := by
  refine List.ext_getElem? fun j => ?_
  simp only [List.getElem?_map, Array.getElem?_toList, Array.getElem?_modify]
  split
  · cases finished[j]? <;> rfl
  · rfl

/-- Merging a cover with its twin keeps the invariant: the twin gets the predecessors of the
cover. -/
theorem Invariant.merge {finished : Array Cover} {c s : Cover} {pending : List Cover} {i : Nat}
    (inv : Invariant f u root ⟨finished, c :: pending⟩) (hnew : c.new = ∅)
    (htwin : finished[i]? = some s) (hold : s.old = c.old) (hnext : s.next = c.next) :
    Invariant f u root
      ⟨finished.modify i fun s => { s with incoming := s.incoming.union c.incoming }, pending⟩ := by
  have hs : s ∈ finished := Array.mem_of_getElem? htwin
  have hsound := inv.sound s (.inl hs)
  have hsnew := inv.done s hs
  constructor
  case sound =>
    intro d hd
    obtain rfl | hd := has_of_merge htwin hd
    · exact ⟨hsound.within, hsound.provided, hsound.consistent⟩
    · exact inv.sound d hd
  case done =>
    intro d hd
    obtain rfl | ⟨j, -, hj⟩ := (mem_modify_incoming htwin).1 hd
    · exact hsnew
    · exact inv.done d (Array.mem_of_getElem? hj)
  case distinct =>
    show (List.map _ _).Nodup
    rw [map_modify_incoming]
    exact inv.distinct
  case owed =>
    intro d hd source hsource
    rw [duty?_merge (c :: pending)]
    obtain rfl | hd := has_of_merge htwin hd
    · -- The merged state has the subformulas of both, which are the same, and all they owe.
      obtain hsource | hsource := NatSet.mem_union.1 hsource
      · exact inv.owed s (.inl hs) source hsource
      · obtain ⟨duty, hduty, hmem⟩ := inv.owed c (has_cons.2 (.inl rfl)) source hsource
        refine ⟨duty, hduty, fun e he => ?_⟩
        have he := hmem e he
        rw [hnew, ← hold] at he
        exact he.imp_right fun h => absurd h (NatSet.not_mem_empty e)
    · exact inv.owed d hd source hsource
  case served =>
    intro w k source duty hduty hholds
    rw [duty?_merge (c :: pending)] at hduty
    obtain ⟨d, hd, hsource, hmeets⟩ := inv.served w k source duty hduty hholds
    have hmerged := (mem_modify_incoming (c := c) htwin).2 (.inl rfl)
    obtain rfl | rfl | hd := has_merge htwin hd
    · refine ⟨_, .inl hmerged, NatSet.mem_union.2 (.inr hsource), ?_⟩
      exact Cover.Meets.congr hmeets hold (hsnew.trans hnew.symm) hnext
    · exact ⟨_, .inl hmerged, NatSet.mem_union.2 (.inl hsource),
        Cover.Meets.congr hmeets rfl rfl rfl⟩
    · exact ⟨d, hd, hsource, hmeets⟩

/-- A new state changes nothing in what the others owe. -/
theorem duty?_push {finished : Array Cover} {c : Cover} {pending pending' : List Cover}
    {source : Nat} {duty : NatSet} (h : duty? root ⟨finished, pending⟩ source = some duty) :
    duty? root ⟨finished.push c, pending'⟩ source = some duty := by
  cases source with
  | zero => exact h
  | succ k =>
    obtain ⟨d, hd, hduty⟩ := Option.map_eq_some_iff.1 h
    have hlt := (Array.getElem?_eq_some_iff.1 hd).1
    simp only [duty?]
    rw [Array.getElem?_push_lt hlt, ← Array.getElem?_eq_getElem hlt, hd, Option.map_some, hduty]

theorem duty?_push_self {finished : Array Cover} {c : Cover} {pending : List Cover} :
    duty? root ⟨finished.push c, pending⟩ (finished.size + 1) = some c.next := by
  simp [duty?]

/-- What is owed after a state has been added is owed by the new state or was owed before. -/
theorem duty?_of_push {finished : Array Cover} {c : Cover} (pending : List Cover)
    {pending' : List Cover} {source : Nat} {duty : NatSet}
    (h : duty? root ⟨finished.push c, pending'⟩ source = some duty) :
    source = finished.size + 1 ∧ duty = c.next ∨
      duty? root ⟨finished, pending⟩ source = some duty := by
  cases source with
  | zero => exact .inr h
  | succ k =>
    simp only [duty?, Array.getElem?_push] at h ⊢
    split at h
    · next hk => exact .inl ⟨by rw [hk], (Option.some.inj h).symm⟩
    · exact .inr h

/-- Making a state of a cover keeps the invariant: the state owes what the cover has for the next
step. -/
theorem Invariant.add {finished : Array Cover} {c : Cover} {pending : List Cover}
    (inv : Invariant f u root ⟨finished, c :: pending⟩) (hnew : c.new = ∅)
    (hfresh : ∀ s ∈ finished, s.old = c.old → s.next ≠ c.next) :
    Invariant f u root ⟨finished.push c,
      { incoming := .singleton (finished.size + 1), new := c.next } :: pending⟩ := by
  have hc := inv.sound c (has_cons.2 (.inl rfl))
  -- The covers afterwards are those before and the one that is started.
  have hhas : ∀ d, Has ⟨finished.push c,
      { incoming := .singleton (finished.size + 1), new := c.next } :: pending⟩ d ↔
      d = { incoming := .singleton (finished.size + 1), new := c.next } ∨
        Has ⟨finished, c :: pending⟩ d := by
    intro d
    simp only [Has, Array.mem_push, List.mem_cons]
    grind
  constructor
  case sound =>
    intro d hd
    obtain rfl | hd := (hhas d).1 hd
    · exact Cover.sound_started fun e he => hc.within e (.inr (.inr he))
    · exact inv.sound d hd
  case done =>
    intro d hd
    obtain hd | rfl := Array.mem_push.1 hd
    · exact inv.done d hd
    · exact hnew
  case distinct =>
    show (List.map _ (finished.push c).toList).Nodup
    rw [Array.toList_push, List.map_append, List.map_singleton, List.nodup_append]
    refine ⟨inv.distinct, List.nodup_singleton _, fun p hp q hq => ?_⟩
    obtain ⟨s, hs, rfl⟩ := List.mem_map.1 hp
    rw [List.mem_singleton] at hq
    subst hq
    intro heq
    obtain ⟨hold, hnext⟩ := Prod.mk.inj heq
    exact hfresh s (Array.mem_toList_iff.1 hs) hold hnext
  case owed =>
    intro d hd source hsource
    obtain rfl | hd := (hhas d).1 hd
    · rw [NatSet.mem_singleton] at hsource
      subst hsource
      exact ⟨c.next, duty?_push_self, fun e he => .inr he⟩
    · obtain ⟨duty, hduty, hmem⟩ := inv.owed d hd source hsource
      exact ⟨duty, duty?_push hduty, hmem⟩
  case served =>
    intro w i source duty hduty hholds
    obtain ⟨rfl, rfl⟩ | hduty := duty?_of_push (c :: pending) hduty
    · exact ⟨_, (hhas _).2 (.inl rfl), NatSet.mem_singleton.2 rfl, Cover.meets_started hholds⟩
    · obtain ⟨d, hd, hsource, hmeets⟩ := inv.served w i source duty hduty hholds
      exact ⟨d, (hhas d).2 (.inr hd), hsource, hmeets⟩

/-- Every step keeps the invariant. -/
theorem Invariant.moves (hu : f.IsUniverse u) (inv : Invariant f u root t) (h : Moves f t t') :
    Invariant f u root t' := by
  cases h with
  | expand hexp => exact inv.expand hu hexp
  | merge hnew htwin hold hnext => exact inv.merge hnew htwin hold hnext
  | add hnew hfresh => exact inv.add hnew hfresh

/-- The invariant holds before the first step, where the seed owes the formula. -/
theorem invariant_start (hroot : root ∈ u) : Invariant f u root (start root) := by
  have hhas : ∀ c, (start root).Has c →
      c = { incoming := .singleton 0, new := .singleton root } := by
    intro c hc
    obtain hc | hc := hc
    · simp [start] at hc
    · exact List.mem_singleton.1 hc
  constructor
  case sound =>
    intro c hc
    rw [hhas c hc]
    refine Cover.sound_started fun e he => ?_
    rw [NatSet.mem_singleton.1 he]
    exact hroot
  case done =>
    intro c hc
    simp [start] at hc
  case distinct =>
    exact List.nodup_nil
  case owed =>
    intro c hc source hsource
    rw [hhas c hc] at hsource ⊢
    rw [NatSet.mem_singleton] at hsource
    subst hsource
    exact ⟨.singleton root, rfl, fun e he => .inr he⟩
  case served =>
    intro w i source duty hduty hholds
    cases source with
    | zero =>
      cases hduty
      exact ⟨_, .inr (List.mem_singleton.2 rfl), NatSet.mem_singleton.2 rfl,
        Cover.meets_started hholds⟩
    | succ k => simp [duty?, start] at hduty

/-! ## The end of the construction -/

/-- A bound on the steps that are left: a cover takes as many as a binary tree of the height of its
load has nodes, and every state that can still be made starts one more cover. -/
def effort (u : NatSet) (t : Tableau) : Nat :=
  (t.pending.map fun c => 2 ^ (c.load u + 1) - 1).sum +
    (4 ^ u.size - t.finished.size) * 2 ^ (4 * u.size + 1)

/-- No two states have the same subformulas, so there are at most as many as pairs of sets. -/
theorem Invariant.size_le (inv : Invariant f u root t) : t.finished.size ≤ 4 ^ u.size := by
  have hlen := NatSet.length_le_of_pairs (u := u) inv.distinct fun p hp => by
    obtain ⟨c, hc, rfl⟩ := List.mem_map.1 hp
    have hwithin := (inv.sound c (.inl (Array.mem_toList_iff.1 hc))).within
    exact ⟨fun n hn => hwithin n (.inl hn), fun n hn => hwithin n (.inr (.inr hn))⟩
  simpa using hlen

/-- The branches of a cover take less effort together than the cover itself. -/
theorem sum_effort_expand {c : Cover} {covers : List Cover} (hc : c.Within u)
    (h : c.Expands f covers) :
    (covers.map fun d => 2 ^ (d.load u + 1) - 1).sum < 2 ^ (c.load u + 1) - 1 := by
  have hbound : ∀ d ∈ covers, 2 ^ (d.load u + 1) - 1 ≤ 2 ^ c.load u - 1 := fun d hd =>
    Nat.sub_le_sub_right (Nat.pow_le_pow_right (by decide) (Cover.load_lt_of_expands hc h hd)) 1
  have hsum : (covers.map fun d => 2 ^ (d.load u + 1) - 1).sum ≤
      covers.length * (2 ^ c.load u - 1) := by
    have := List.sum_le_card_nsmul (covers.map fun d => 2 ^ (d.load u + 1) - 1) (2 ^ c.load u - 1)
      (by simpa using hbound)
    simpa using this
  have htwo := Nat.mul_le_mul_right (2 ^ c.load u - 1) h.length_le
  have hpos : 0 < 2 ^ c.load u := Nat.two_pow_pos _
  rw [Nat.pow_succ]
  omega

/-- Every step takes away some of the effort that is left. -/
theorem effort_lt_of_moves (hu : f.IsUniverse u) (inv : Invariant f u root t) (h : Moves f t t') :
    t'.effort u < t.effort u := by
  have hafter := (inv.moves hu h).size_le
  cases h with
  | @expand finished c pending covers hexp =>
    have hlt := sum_effort_expand (inv.sound c (has_cons.2 (.inl rfl))).within hexp
    simp only [effort, List.map_append, List.sum_append, List.map_cons, List.sum_cons]
    omega
  | @merge finished c s pending i =>
    have hpos : 0 < 2 ^ c.load u := Nat.two_pow_pos _
    simp only [effort, Array.size_modify, List.map_cons, List.sum_cons, Nat.pow_succ]
    omega
  | @add finished c pending hnew =>
    have hpos : 0 < 2 ^ c.load u := Nat.two_pow_pos _
    have hstart : ({ incoming := .singleton (finished.size + 1), new := c.next } : Cover).load u ≤
        4 * u.size := Cover.load_le ((inv.moves hu (.add hnew (by assumption))).sound _
          (has_cons.2 (.inl rfl))).within
    have hpow := Nat.pow_le_pow_right (n := 2) (by decide) (Nat.succ_le_succ hstart)
    have hroom : 4 ^ u.size - finished.size = 4 ^ u.size - (finished.size + 1) + 1 := by
      simp only [Array.size_push] at hafter
      omega
    simp only [effort, Array.size_push, List.map_cons, List.sum_cons]
    rw [hroom, Nat.add_mul, Nat.one_mul, Nat.pow_succ 2 (c.load u)]
    have hstartPos : 0 < 2 ^ (({ incoming := .singleton (finished.size + 1), new := c.next } :
      Cover).load u + 1) := Nat.two_pow_pos _
    omega

/-- The steps allowed are more than the effort at the start. -/
theorem effort_start_lt (hroot : root ∈ u) : (start root).effort u < stepBound u.size := by
  have hload : ({ incoming := .singleton 0, new := .singleton root } : Cover).load u ≤ 4 * u.size :=
    Cover.load_le
      ((invariant_start (f := {}) hroot).sound _ (.inr (List.mem_singleton.2 rfl))).within
  have hpow := Nat.pow_le_pow_right (n := 2) (by decide) (Nat.succ_le_succ hload)
  have hsix : 4 ^ u.size * 2 ^ (4 * u.size + 1) = 2 ^ (6 * u.size + 1) := by
    rw [show 4 = 2 ^ 2 from rfl, ← Nat.pow_mul, ← Nat.pow_add]
    congr 1
    omega
  have hle := Nat.pow_le_pow_right (n := 2) (by decide)
    (show 4 * u.size + 1 ≤ 6 * u.size + 1 by omega)
  have hpos : 0 < 2 ^ (6 * u.size + 1) := Nat.two_pow_pos _
  have hbound : 2 ^ (6 * u.size + 3) = 4 * 2 ^ (6 * u.size + 1) := by
    rw [show 6 * u.size + 3 = 2 + (6 * u.size + 1) by omega, Nat.pow_add]
  show (List.map _ [_]).sum + (4 ^ u.size - 0) * 2 ^ (4 * u.size + 1) < 2 ^ (6 * u.size + 3)
  rw [List.map_singleton, List.sum_singleton, Nat.sub_zero, hsix, hbound]
  omega

/-- The construction meets no fault and ends, within the steps allowed, with nothing pending. -/
theorem yields_complete {context : Context} (hu : f.IsUniverse u) (hf : context.forest = f)
    {fuel : Nat} (inv : Invariant f u root t) (hfuel : t.effort u < fuel) :
    Yields (complete fuel t) context fun finished context' =>
      context.Grows context' ∧ Invariant f u root ⟨finished, []⟩ := by
  induction fuel generalizing t context with
  | zero => omega
  | succ n ih =>
    obtain ⟨finished, pending⟩ := t
    cases pending with
    | nil => exact .pure ⟨.refl context, inv⟩
    | cons c pending =>
      have hwithin := (inv.sound c (has_cons.2 (.inl rfl))).within
      subst hf
      refine .bind ((Cover.yields_step hu hwithin).mono fun step context' hstep => ?_)
      obtain ⟨hgrows, hstep⟩ := hstep
      -- Every move leaves less to do, so the steps that are left are enough.
      have hmove : ∀ t', Moves context.forest ⟨finished, c :: pending⟩ t' →
          Yields (complete n t') context' fun finished context'' =>
            context.Grows context'' ∧ Invariant context.forest u root ⟨finished, []⟩ := by
        intro t' hmoves
        have hless := effort_lt_of_moves hu inv hmoves
        refine (ih hgrows.forest_eq (inv.moves hu hmoves) (by omega)).mono fun a s h => ?_
        exact ⟨hgrows.trans h.1, h.2⟩
      cases step with
      | finished => exact hmove _ (moves_finish hstep)
      | branches covers => exact hmove _ (.expand hstep)

end Tableau

end TemporalCheck
