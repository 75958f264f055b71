import TemporalCheck.Proofs.Automaton.Reduce
import TemporalCheck.Proofs.NatSet

/-!
# TemporalCheck.Proofs.Automaton.Restriction

Reducing an automaton cuts it down to its useful states and changes nothing else.  `IsUseful` says
which states these are, and `Restricts` what is left of the automaton when only some states are
kept: they are numbered anew in their order, and everything that names a state is cut down in the
same way (`Renumbers`).  All states of a restriction to useful states are useful, and where all
states are kept nothing is changed (`Restricts.eq`), so reducing twice is reducing once.
-/

namespace TemporalCheck.Automaton

variable {b r : Automaton} {kept : NatSet} {j s : Nat} {old new : List Nat}

/-! ## Useful states -/

/-- A state that is reached from an initial state, where neither the initial state nor any state
after it is known to be a contradiction. -/
inductive IsUseful (b : Automaton) : Nat → Prop
  | start {s : Nat} (hs : s ∈ b.initial) (hok : s ∉ b.contradictions) : IsUseful b s
  | next {s t : Nat} (h : IsUseful b s) (ht : t ∈ (b.stateD s).next) (hok : t ∉ b.contradictions) :
      IsUseful b t

/-- The search for useful states reaches just these. -/
theorem reached_iff_isUseful :
    Reached (Scheme.ofAutomaton b).consistentNext (Scheme.ofAutomaton b).starts s ↔
      b.IsUseful s := by
  constructor
  · rintro ⟨a, ha, hl⟩
    obtain ⟨hinit, hok⟩ := List.mem_filter.1 ha
    refine hl.preserves (P := b.IsUseful) (fun x found hx hn y hy => ?_) (.start hinit ?_)
    · unfold Scheme.consistentNext at hn
      split at hn
      · cases hn
        obtain ⟨hnext, hok⟩ := List.mem_filter.1 hy
        exact .next hx hnext (by simpa using hok)
      · cases hn
    · simpa using hok
  · intro h
    induction h with
    | start hs hok => exact ⟨_, List.mem_filter.2 ⟨hs, by simpa using hok⟩, .refl _⟩
    | @next s t _ ht hok ih =>
      have hlt : s < (Scheme.ofAutomaton b).size := lt_size_of_mem_next ht
      refine ih.tail (Scheme.consistentNext_of_lt hlt) (List.mem_filter.2 ⟨ht, ?_⟩)
      simpa using hok

theorem IsUseful.lt_size (h : b.IsUseful s) (hb : b.WellFormed) : s < b.size := by
  cases h with
  | start hs _ => exact hb.1 s hs
  | next _ ht _ => exact hb.lt_of_mem_next ht

/-! ## Restrictions -/

/-- The new numbers of some states, in order and with repetitions: those that are kept have the
places at which they stand among all that are kept, and the others are dropped. -/
def Renumbers (kept : NatSet) (old new : List Nat) : Prop :=
  new.map (kept.toList[·]?) = (old.filter (· ∈ kept)).map some

/-- One automaton is the restriction of another to the states that are kept.  They are listed in
ascending order, and state `j` of the restriction is the one at place `j`. -/
structure Restricts (r b : Automaton) (kept : NatSet) : Prop where
  size_eq : r.size = kept.size
  required : ∀ j s : Nat, kept.toList[j]? = some s →
    (r.stateD j).required = (b.stateD s).required
  forbidden : ∀ j s : Nat, kept.toList[j]? = some s →
    (r.stateD j).forbidden = (b.stateD s).forbidden
  label : ∀ j s : Nat, kept.toList[j]? = some s → (r.stateD j).label = (b.stateD s).label
  next : ∀ j s : Nat, kept.toList[j]? = some s →
    Renumbers kept (b.stateD s).next (r.stateD j).next
  initial : Renumbers kept b.initial r.initial
  acceptSets : List.Forall₂ (fun old new => ∀ j, j ∈ new ↔ ∃ s ∈ old, kept.toList[j]? = some s)
    b.acceptSets r.acceptSets
  contradictions : r.contradictions = ∅

/-- The renumbering that a reduction makes takes each number that is kept to its place and drops the
others. -/
theorem renumbers_renumber {b : Scheme} {m : Marks} (hsize : m.size = b.size) (l : List Nat) :
    Renumbers m.toSet l (Scheme.renumber (b.renumbering m) l) := by
  unfold Renumbers
  induction l with
  | nil => rfl
  | cons s l ih =>
    cases hnumber : ((b.renumbering m)[s]?).join with
    | some j =>
      have hj := (Scheme.join_renumbering_iff hsize).1 hnumber
      have hmem : s ∈ m.toSet := List.mem_of_getElem? hj
      rw [List.filter_cons_of_pos (by simpa using hmem), List.map_cons, ← ih]
      simp [Scheme.renumber, hnumber, hj]
    | none =>
      have hmem : s ∉ m.toSet := by
        intro hmem
        obtain ⟨j, hj⟩ := List.mem_iff_getElem?.1 hmem
        simp [(Scheme.join_renumbering_iff hsize).2 hj] at hnumber
      rw [List.filter_cons_of_neg (by simpa using hmem), ← ih]
      simp [Scheme.renumber, hnumber]

/-- An automaton is reduced to the restriction to its useful states. -/
theorem exists_restricts (hb : b.WellFormed) :
    ∃ r kept, b.reduce = .ok r ∧ (∀ s, s ∈ kept ↔ b.IsUseful s) ∧ r.Restricts b kept := by
  obtain ⟨m, huseful, hsize, hm⟩ := Scheme.exists_useful hb.tabulate
  refine ⟨_, m.toSet, Scheme.reduce_of_useful hb.tabulate huseful hsize, fun s => ?_, ?_⟩
  · rw [Marks.mem_toSet, hm, reached_iff_isUseful]
  constructor
  case size_eq => simp [size, NatSet.size]
  case required | forbidden | label =>
    intro j s hj
    simp [stateD, Array.getD_eq_getD_getElem?, hj, Scheme.ofAutomaton]
  case next =>
    intro j s hj
    simpa [stateD, Array.getD_eq_getD_getElem?, hj, Scheme.ofAutomaton] using
      renumbers_renumber hsize (b.stateD s).next
  case initial => exact renumbers_renumber hsize b.initial
  case acceptSets =>
    exact List.forall₂_map_right_iff.2 (List.forall₂_same.2 fun _ _ _ => Scheme.mem_restrict)
  case contradictions => rfl

/-! ## Reducing again -/

/-- A kept number is on a list if and only if its place is on the renumbered one. -/
theorem Renumbers.mem_iff (h : Renumbers kept old new) (hj : kept.toList[j]? = some s) :
    j ∈ new ↔ s ∈ old := by
  have hsome : some s ∈ new.map (kept.toList[·]?) ↔ some s ∈ (old.filter (· ∈ kept)).map some := by
    rw [h]
  have hmem : s ∈ kept := List.mem_of_getElem? hj
  rw [List.mem_map] at hsome
  simp only [List.mem_map, List.mem_filter, decide_eq_true_eq, Option.some.injEq, exists_eq_right,
    hmem, and_true] at hsome
  rw [← hsome]
  refine ⟨fun hnew => ⟨j, hnew, hj⟩, ?_⟩
  rintro ⟨i, hi, his⟩
  -- No state is kept twice, so it stands at one place only.
  have hlt := (List.getElem?_eq_some_iff.1 his).1
  rwa [← (List.getElem?_inj hlt kept.nodup_toList).1 (his.trans hj.symm)]

/-- All states of a restriction to the useful states are useful. -/
theorem Restricts.isUseful (h : r.Restricts b kept) (hkept : ∀ s, s ∈ kept ↔ b.IsUseful s)
    (hj : j < r.size) : r.IsUseful j := by
  have hall : ∀ {s}, b.IsUseful s → ∀ j : Nat, kept.toList[j]? = some s → r.IsUseful j := by
    intro s hs
    induction hs with
    | start hs _ =>
      intro j hj
      exact .start ((h.initial.mem_iff hj).2 hs) (by simp [h.contradictions])
    | @next s t hs ht _ ih =>
      intro j hj
      obtain ⟨i, hi⟩ := List.mem_iff_getElem?.1 ((hkept s).2 hs)
      exact .next (ih i hi) (((h.next i s hi).mem_iff hj).2 ht) (by simp [h.contradictions])
  rw [h.size_eq] at hj
  have hget := List.getElem?_eq_getElem hj
  exact hall ((hkept _).1 (List.getElem_mem hj)) j hget

theorem getElem?_interval_eq_some_iff {n : Nat} :
    (NatSet.interval 0 n).toList[j]? = some s ↔ j < n ∧ j = s := by
  rw [show (NatSet.interval 0 n).toList = List.range n from List.range_eq_range'.symm]
  simp [List.getElem?_eq_some_iff]

/-- Keeping all numbers changes none of them. -/
theorem Renumbers.eq {n : Nat} (h : Renumbers (.interval 0 n) old new) (hold : ∀ s ∈ old, s < n) :
    new = old := by
  have hfilter : old.filter (· ∈ NatSet.interval 0 n) = old := by
    rw [List.filter_eq_self]
    intro s hs
    simpa using hold s hs
  rw [Renumbers, hfilter] at h
  refine List.map_injective_iff.2 (Option.some_injective Nat) ?_
  rw [← h]
  refine List.map_congr_left fun j hj => ?_
  have hmem := List.mem_map_of_mem (f := ((NatSet.interval 0 n).toList[·]?)) hj
  rw [h] at hmem
  obtain ⟨s, -, hs⟩ := List.mem_map.1 hmem
  rw [← hs, (getElem?_interval_eq_some_iff.1 hs.symm).2]

/-- Automata with the same states, initial states, accept sets and contradictions are the same. -/
theorem ext_stateD {b₁ b₂ : Automaton} (hsize : b₁.size = b₂.size)
    (hstate : ∀ j < b₁.size, b₁.stateD j = b₂.stateD j) (hinitial : b₁.initial = b₂.initial)
    (haccept : b₁.acceptSets = b₂.acceptSets) (hok : b₁.contradictions = b₂.contradictions) :
    b₁ = b₂ := by
  have hstates : b₁.states = b₂.states := by
    refine Array.ext hsize fun j h₁ h₂ => ?_
    simpa [stateD, Array.getD_eq_getD_getElem?, h₁, h₂] using hstate j h₁
  cases b₁
  cases b₂
  simp_all

/-- Where all states are kept and there are no known contradictions, nothing is changed. -/
theorem Restricts.eq (hb : b.WellFormed) (hok : b.contradictions = ∅)
    (h : r.Restricts b (.interval 0 b.size)) : r = b := by
  have hsize : r.size = b.size := by
    rw [h.size_eq]
    simp [NatSet.size, NatSet.interval]
  have hget : ∀ j < r.size, (NatSet.interval 0 b.size).toList[j]? = some j := fun j hj =>
    getElem?_interval_eq_some_iff.2 ⟨hsize ▸ hj, rfl⟩
  refine ext_stateD hsize (fun j hj => ?_) (h.initial.eq hb.1) ?_ (h.contradictions.trans hok.symm)
  · have hnext := (h.next j j (hget j hj)).eq fun t ht => hb.lt_of_mem_next ht
    have hrequired := h.required j j (hget j hj)
    have hforbidden := h.forbidden j j (hget j hj)
    have hlabel := h.label j j (hget j hj)
    cases hr : r.stateD j
    cases hb : b.stateD j
    simp_all
  · have hsets := (List.forall₂_and_left _ _).2 ⟨hb.2.2, h.acceptSets⟩
    have hsame : List.Forall₂ (· = ·) b.acceptSets r.acceptSets := by
      refine hsets.imp fun old new hnew => ?_
      ext j
      simp only [hnew.2, getElem?_interval_eq_some_iff, exists_eq_right_right']
      exact ⟨fun hj => ⟨hj, hnew.1 j hj⟩, fun hj => hj.1⟩
    rw [List.forall₂_eq_eq_eq] at hsame
    exact hsame.symm

/-- **Reducing keeps exactly the useful part.**  Where the initial states, the targets of
transitions and the members of accept sets all exist, an automaton can be reduced, and what is left
is its restriction to the useful states.  These keep their order, what they ask for and their
labels; their transitions are the old ones in order and with repetitions, less those to states that
are dropped; and so are the initial states and the accept sets.  The reduced automaton accepts a
word just if the whole one has a run over it that comes back to every accept set for ever and passes
through no contradiction.  Reducing it again changes nothing. -/
theorem reduce_keeps_useful_part (hb : b.WellFormed) :
    ∃ r kept, b.reduce = .ok r ∧ (∀ s, s ∈ kept ↔ b.IsUseful s) ∧ r.Restricts b kept ∧
      (∀ w, r.Accepts w ↔
        ∃ ρ, b.IsRunOver w ρ ∧ b.IsFair ρ ∧ ∀ i, ρ i ∉ b.contradictions) ∧
      r.reduce = .ok r := by
  obtain ⟨r, kept, hr, hkept, hrestricts⟩ := exists_restricts hb
  obtain ⟨_, _, hr', hwf, -, -, haccepts⟩ := exists_reduce_avoiding hb
  cases hr.symm.trans hr'
  refine ⟨r, kept, hr, hkept, hrestricts, haccepts, ?_⟩
  obtain ⟨again, kept', hagain, hkept', hrestricts'⟩ := exists_restricts hwf
  have hall : kept' = .interval 0 r.size := by
    ext j
    rw [hkept', NatSet.mem_interval, Nat.zero_add]
    refine ⟨fun hj => ⟨Nat.zero_le j, ?_⟩, fun hj => hrestricts.isUseful hkept hj.2⟩
    exact hj.lt_size hwf
  subst hall
  rw [hagain, hrestricts'.eq hwf hrestricts.contradictions]

/-- One of the initial states is a contradiction, a state is met twice from the other one, and a
state is reached through a contradiction only. -/
theorem reduce_keeps_useful_part_clash :
    let b : Automaton := {
      states := #[{ next := [2, 3, 2, 0] }, { next := [0] },
        { next := [4, 0], required := .ofList [5], label := some "p" },
        { next := [1], required := .ofList [7], forbidden := .ofList [7] }, { next := [1] }]
      initial := [3, 0]
      acceptSets := [.ofList [1, 2], .ofList [3]]
      contradictions := .ofList [3, 4] }
    b.WellFormed ∧
    b.reduce = .ok {
      states := #[{ next := [1, 1, 0] },
        { next := [0], required := .ofList [5], label := some "p" }]
      initial := [0]
      acceptSets := [.ofList [1], ∅] } ∧
    ∃ r kept, b.reduce = .ok r ∧ (∀ s, s ∈ kept ↔ b.IsUseful s) ∧ r.Restricts b kept ∧
      (∀ w, r.Accepts w ↔
        ∃ ρ, b.IsRunOver w ρ ∧ b.IsFair ρ ∧ ∀ i, ρ i ∉ b.contradictions) ∧
      r.reduce = .ok r := by
  intro b
  have hb : b.WellFormed := ⟨by decide, by decide, by decide⟩
  exact ⟨hb, by decide, reduce_keeps_useful_part hb⟩

end TemporalCheck.Automaton
