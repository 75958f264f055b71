import Mathlib.Data.List.Chain
import Mathlib.Data.Set.Finite.Lattice
import Mathlib.Logic.Relation
import TemporalCheck.Automaton.Emptiness
import TemporalCheck.Proofs.Automaton.Run
import TemporalCheck.Proofs.Reach

/-!
# TemporalCheck.Proofs.Automaton.Emptiness

The nested search finds an accepting cycle exactly if there is one.

Both searches keep a stack of states with the index of the successor to be tried next, and go on to
the next successor that is wanted (`Automaton.nextSuccessor?_cases`); `Explores` says what such a
stack is.  The inner search keeps to `InnerInvariant`: what it has flagged leads
nowhere but to flagged states, and never onto the outer stack.  The outer search keeps to
`OuterInvariant`: no accepting state that it has left for good lies on a cycle.  The main
statements are `exists_witness?` and its two sides:

* a path that is found runs into itself, and passes an accepting state and no state twice on the way
  round;
* if none is found, no accepting state that can be reached lies on a cycle (`IsAcyclic`), and so no
  run is fair (`IsAcyclic.not_fair`).
-/

namespace TemporalCheck.Automaton

open Relation (ReflTransGen TransGen)

variable {b : Automaton}

/-- There is a transition from one state to another. -/
def Step (b : Automaton) (s t : Nat) : Prop := t ∈ (b.stateD s).next

/-! ## The next successor -/

/-- The first successor that is wanted from an index on, and the index behind it. -/
def IsNext (b : Automaton) (s k : Nat) (wanted : Nat → Bool) (t k' : Nat) : Prop :=
  wanted t = true ∧ ∃ skipped rest, (b.stateD s).next.drop k = skipped ++ t :: rest ∧
    (∀ x ∈ skipped, wanted x = false) ∧ k' = k + skipped.length + 1

/-- No successor is wanted from an index on. -/
def HasNoNext (b : Automaton) (s k : Nat) (wanted : Nat → Bool) : Prop :=
  ∀ x ∈ (b.stateD s).next.drop k, wanted x = false

/-- Looking for the next successor of a state that exists meets no fault if the index is not beyond
the last successor. -/
theorem nextSuccessor?_cases {s k : Nat} (hs : s < b.size) (hk : k ≤ (b.stateD s).next.length)
    (wanted : Nat → Bool) :
    (b.nextSuccessor? s k wanted = .ok none ∧ b.HasNoNext s k wanted) ∨
      ∃ t k', b.nextSuccessor? s k wanted = .ok (some (t, k')) ∧ b.IsNext s k wanted t k' := by
  unfold nextSuccessor?
  rw [successors_of_lt hs]
  simp only [bind, Except.bind, if_neg (Nat.not_lt.2 hk)]
  cases hfind : ((b.stateD s).next.drop k).findIdx? wanted with
  | none => exact .inl ⟨rfl, List.findIdx?_eq_none_iff.1 hfind⟩
  | some offset =>
    obtain ⟨hlt, hwanted, hbefore⟩ := List.findIdx?_eq_some_iff_getElem.1 hfind
    have hget : (b.stateD s).next[k + offset]? = some ((b.stateD s).next.drop k)[offset] := by
      rw [← List.getElem?_drop, List.getElem?_eq_getElem hlt]
    refine .inr ⟨_, k + offset + 1, by simp only [hget]; rfl, hwanted,
      ((b.stateD s).next.drop k).take offset, ((b.stateD s).next.drop k).drop (offset + 1), ?_,
      fun x hx => ?_, by rw [List.length_take_of_le (Nat.le_of_lt hlt)]⟩
    · rw [List.getElem_cons_drop, List.take_append_drop]
    · obtain ⟨j, hj, rfl⟩ := List.mem_take_iff_getElem.1 hx
      exact Bool.eq_false_iff.2 (hbefore j (by omega))

section Next

variable {s t k k' : Nat} {wanted : Nat → Bool}

theorem IsNext.step (h : b.IsNext s k wanted t k') : b.Step s t := by
  obtain ⟨-, skipped, rest, hdrop, -, -⟩ := h
  exact List.mem_of_mem_drop (hdrop ▸ List.mem_append_right skipped List.mem_cons_self)

/-- What has been tried behind the next successor is what was tried before, what was not wanted and
the successor itself. -/
theorem IsNext.take_eq (h : b.IsNext s k wanted t k') (hk : k ≤ (b.stateD s).next.length) :
    k' ≤ (b.stateD s).next.length ∧ ∃ skipped, (∀ x ∈ skipped, wanted x = false) ∧
      (b.stateD s).next.take k' = (b.stateD s).next.take k ++ skipped ++ [t] := by
  obtain ⟨-, skipped, rest, hdrop, hskipped, rfl⟩ := h
  have hwhole : (b.stateD s).next = (b.stateD s).next.take k ++ (skipped ++ t :: rest) := by
    rw [← hdrop, List.take_append_drop]
  have hlength := congrArg List.length hwhole
  simp only [List.length_append, List.length_take_of_le hk, List.length_cons] at hlength
  refine ⟨by omega, skipped, hskipped, ?_⟩
  rw [Nat.add_assoc, List.take_add, hdrop, List.append_assoc]
  simp [List.take_append]

end Next

/-! ## Stacks -/

/-- A stack of states, each a successor of the one below it, with the index of the successor to be
tried next; those before it are done with. -/
structure Explores (b : Automaton) (done : Nat → Prop) (stack : SearchStack) : Prop where
  chain : (stack.map (·.1)).IsChain fun t s => b.Step s t
  in_range : ∀ p ∈ stack, p.1 < b.size ∧ p.2 ≤ (b.stateD p.1).next.length
  tried : ∀ p ∈ stack, ∀ t ∈ (b.stateD p.1).next.take p.2, done t

namespace Explores

variable {done done' : Nat → Prop} {stack : SearchStack} {s t k k' : Nat} {wanted : Nat → Bool}

/-- A search may start in any state. -/
theorem single (done : Nat → Prop) (hs : s < b.size) : Explores b done [(s, 0)] := by
  refine ⟨List.isChain_singleton s, fun p hp => ?_, fun p hp t ht => ?_⟩
  all_goals
    rw [List.mem_singleton] at hp
    subst hp
  · exact ⟨hs, Nat.zero_le _⟩
  · exact absurd ht List.not_mem_nil

theorem pop (h : Explores b done ((s, k) :: stack)) : Explores b done stack where
  chain := h.chain.tail
  in_range p hp := h.in_range p (List.mem_cons_of_mem _ hp)
  tried p hp := h.tried p (List.mem_cons_of_mem _ hp)

/-- Going on from the top of a stack meets no fault. -/
theorem next_cases (h : Explores b done ((s, k) :: stack)) (wanted : Nat → Bool) :
    (b.nextSuccessor? s k wanted = .ok none ∧ b.HasNoNext s k wanted) ∨
      ∃ t k', b.nextSuccessor? s k wanted = .ok (some (t, k')) ∧ b.IsNext s k wanted t k' := by
  obtain ⟨hs, hk⟩ := h.in_range (s, k) List.mem_cons_self
  exact nextSuccessor?_cases hs hk wanted

/-- Where nothing more is wanted, everything that the top leads to is done with. -/
theorem done_of_hasNoNext (h : Explores b done ((s, k) :: stack))
    (hdone : ∀ x, wanted x = false → done x) (hnone : b.HasNoNext s k wanted) (ht : b.Step s t) :
    done t := by
  rw [Step, ← List.take_append_drop k (b.stateD s).next] at ht
  obtain ht | ht := List.mem_append.1 ht
  · exact h.tried (s, k) List.mem_cons_self t ht
  · exact hdone t (hnone t ht)

/-- A successor of the top is entered. -/
theorem push (h : Explores b done ((s, k) :: stack)) (hdone : ∀ x, wanted x = false → done x)
    (hnext : b.IsNext s k wanted t k') (hlt : t < b.size) (hmono : ∀ x, done x → done' x)
    (ht : done' t) : Explores b done' ((t, 0) :: (s, k') :: stack) := by
  obtain ⟨hs, hk⟩ := h.in_range (s, k) List.mem_cons_self
  obtain ⟨hk', skipped, hskipped, htake⟩ := hnext.take_eq hk
  constructor
  · exact List.isChain_cons_cons.2 ⟨hnext.step, h.chain⟩
  · intro q hq
    obtain rfl | hq := List.mem_cons.1 hq
    · exact ⟨hlt, Nat.zero_le _⟩
    · obtain rfl | hq := List.mem_cons.1 hq
      · exact ⟨hs, hk'⟩
      · exact h.in_range q (List.mem_cons_of_mem _ hq)
  · intro q hq x hx
    obtain rfl | hq := List.mem_cons.1 hq
    · exact absurd hx List.not_mem_nil
    · obtain rfl | hq := List.mem_cons.1 hq
      · simp only [htake, List.mem_append, List.mem_singleton] at hx
        obtain (hx | hx) | rfl := hx
        · exact hmono x (h.tried (s, k) List.mem_cons_self x hx)
        · exact hmono x (hdone x (hskipped x hx))
        · exact ht
      · exact hmono x (h.tried q (List.mem_cons_of_mem _ hq) x hx)

end Explores

/-! ## The inner search -/

/-- What holds all through an inner search from the state `s₀`. -/
structure InnerInvariant (b : Automaton) (stacked visited : Marks) (s₀ : Nat) (stack : SearchStack)
    (flagged : Marks) : Prop where
  explores : Explores b (fun t => flagged.has t = true ∧ stacked.has t = false) stack
  size_eq : flagged.size = b.size
  nodup : (stack.map (·.1)).Nodup
  bottom : stack ≠ [] →
    ∃ upper, stack.map (·.1) = upper ++ [s₀] ∧ ∀ x ∈ upper, stacked.has x = false
  on_stack : ∀ p ∈ stack, flagged.has p.1 = true
  start : flagged.has s₀ = true
  fresh : ∀ s, flagged.has s = true → s = s₀ ∨ stacked.has s = false
  closed : ∀ s, flagged.has s = true → s ∉ stack.map (·.1) →
    ∀ t, b.Step s t → flagged.has t = true ∧ stacked.has t = false
  flagged_visited : ∀ s, flagged.has s = true → visited.has s = true

/-- What an inner search gives: a way from `s₀` onto the outer stack that passes no state twice, or
all that `s₀` leads to is flagged. -/
def InnerOutcome (b : Automaton) (stacked visited : Marks) (s₀ : Nat) (res : InnerResult) : Prop :=
  match res.found with
  | none => InnerInvariant b stacked visited s₀ [] res.flagged
  | some back => ∃ mid t, back = s₀ :: mid ++ [t] ∧ back.IsChain b.Step ∧ stacked.has t = true ∧
    (∀ x ∈ mid, stacked.has x = false) ∧ mid.Nodup

section Inner

variable {stacked visited flagged : Marks} {s₀ s t k k' : Nat} {stack : SearchStack}

/-- What the inner search passes over is done with. -/
theorem done_of_not_innerWanted (x : Nat) (h : innerWanted stacked flagged x = false) :
    flagged.has x = true ∧ stacked.has x = false := by
  simp only [innerWanted, Bool.or_eq_false_iff, Bool.not_eq_false'] at h
  exact ⟨h.2, h.1⟩

/-- The inner search goes back from a state whose successors have all been looked at. -/
theorem InnerInvariant.pop
    (h : InnerInvariant b stacked visited s₀ ((s, k) :: stack) flagged)
    (hnone : b.HasNoNext s k (innerWanted stacked flagged)) :
    InnerInvariant b stacked visited s₀ stack flagged := by
  refine { h with
    explores := h.explores.pop
    nodup := (List.nodup_cons.1 h.nodup).2
    bottom := fun hne => ?_
    on_stack := fun p hp => h.on_stack p (List.mem_cons_of_mem _ hp)
    closed := fun x hx hxs t ht => ?_ }
  · obtain ⟨upper, heq, hupper⟩ := h.bottom (by simp)
    cases upper with
    | nil => exact absurd (List.map_eq_nil_iff.1 (List.cons.inj heq).2) hne
    | cons a upper =>
      exact ⟨upper, (List.cons.inj heq).2, fun x hx => hupper x (List.mem_cons_of_mem a hx)⟩
  · -- The state that is left has been flagged long since, and now it has to be closed as well.
    by_cases hxs' : x = s
    · subst hxs'
      exact h.explores.done_of_hasNoNext done_of_not_innerWanted hnone ht
    · exact h.closed x hx (by simpa [hxs'] using hxs) t ht

/-- What the inner search goes on to is on the outer stack or not flagged. -/
theorem IsNext.not_flagged (hnext : b.IsNext s k (innerWanted stacked flagged) t k')
    (ht : stacked.has t = false) : flagged.has t = false := by
  have hwanted := hnext.1
  rw [innerWanted, ht] at hwanted
  simpa using hwanted

/-- The inner search goes on to a state that it has not flagged and that is not on the outer
stack. -/
theorem InnerInvariant.push (hb : b.Closed)
    (hvisited : ∀ s, visited.has s = true → s = s₀ ∨ stacked.has s = false →
      ∀ t, b.Step s t → visited.has t = true)
    (h : InnerInvariant b stacked visited s₀ ((s, k) :: stack) flagged)
    (hnext : b.IsNext s k (innerWanted stacked flagged) t k') (ht : stacked.has t = false) :
    InnerInvariant b stacked visited s₀ ((t, 0) :: (s, k') :: stack) (flagged.mark t) := by
  have hsize : t < b.size := hb.lt_of_mem_next hnext.step
  have hlt : t < flagged.size := h.size_eq ▸ hsize
  have hs : flagged.has s = true := h.on_stack (s, k) List.mem_cons_self
  have hmark : ∀ x, flagged.has x = true → (flagged.mark t).has x = true := fun x =>
    Marks.has_mark_of_has
  constructor
  case explores =>
    exact h.explores.push done_of_not_innerWanted hnext hsize (fun x hx => ⟨hmark x hx.1, hx.2⟩)
      ⟨Marks.has_mark_self hlt, ht⟩
  case size_eq =>
    rw [Marks.size_mark, h.size_eq]
  case nodup =>
    refine List.nodup_cons.2 ⟨fun hmem => ?_, h.nodup⟩
    obtain ⟨p, hp, hpt⟩ := List.mem_map.1 (show t ∈ ((s, k) :: stack).map (·.1) from hmem)
    have hflag := h.on_stack p hp
    rw [hpt, hnext.not_flagged ht] at hflag
    exact Bool.false_ne_true hflag
  case bottom =>
    intro _
    obtain ⟨upper, heq, hupper⟩ := h.bottom (by simp)
    refine ⟨t :: upper, ?_, fun x hx => ?_⟩
    · exact congrArg (t :: ·) heq
    · obtain rfl | hx := List.mem_cons.1 hx
      · exact ht
      · exact hupper x hx
  case on_stack =>
    intro p hp
    obtain rfl | hp := List.mem_cons.1 hp
    · exact Marks.has_mark_self hlt
    · obtain rfl | hp := List.mem_cons.1 hp
      · exact hmark s hs
      · exact hmark p.1 (h.on_stack p (List.mem_cons_of_mem _ hp))
  case start =>
    exact hmark s₀ h.start
  case fresh =>
    intro x hx
    obtain hx | rfl := (Marks.has_mark_iff hlt).1 hx
    · exact h.fresh x hx
    · exact .inr ht
  case closed =>
    -- The state that is flagged now is on the stack, so nothing is asked of it yet.
    intro x hx hxs y hy
    obtain hx | rfl := (Marks.has_mark_iff hlt).1 hx
    · have hclosed := h.closed x hx (fun hmem => hxs (List.mem_cons_of_mem t hmem)) y hy
      exact ⟨hmark y hclosed.1, hclosed.2⟩
    · exact absurd List.mem_cons_self hxs
  case flagged_visited =>
    intro x hx
    obtain hx | rfl := (Marks.has_mark_iff hlt).1 hx
    · exact h.flagged_visited x hx
    · exact hvisited s (h.flagged_visited s hs) (h.fresh s hs) x hnext.step

/-- A successor on the outer stack closes a way back. -/
theorem InnerInvariant.found
    (h : InnerInvariant b stacked visited s₀ ((s, k) :: stack) flagged)
    (hnext : b.IsNext s k (innerWanted stacked flagged) t k') (ht : stacked.has t = true) :
    InnerOutcome b stacked visited s₀
      ⟨some (SearchStack.path ((t, 0) :: (s, k') :: stack)), flagged⟩ := by
  obtain ⟨upper, heq, hupper⟩ := h.bottom (by simp)
  have hpath : SearchStack.path ((t, 0) :: (s, k') :: stack) = s₀ :: upper.reverse ++ [t] := by
    show (t :: s :: stack.map (·.1)).reverse = _
    rw [show s :: stack.map (·.1) = upper ++ [s₀] from heq]
    simp
  have hchain : (SearchStack.path ((t, 0) :: (s, k') :: stack)).IsChain b.Step :=
    List.isChain_reverse.2 (List.isChain_cons_cons.2 ⟨hnext.step, h.explores.chain⟩)
  refine ⟨upper.reverse, t, hpath, hchain, ht, fun x hx => hupper x (List.mem_reverse.1 hx), ?_⟩
  have hnodup := h.nodup
  rw [heq, List.nodup_append] at hnodup
  exact List.nodup_reverse.2 hnodup.1

/-- An inner search meets no fault and ends within its steps. -/
theorem exists_innerSearch (hb : b.Closed)
    (hvisited : ∀ s, visited.has s = true → s = s₀ ∨ stacked.has s = false →
      ∀ t, b.Step s t → visited.has t = true)
    {fuel : Nat} (h : InnerInvariant b stacked visited s₀ stack flagged)
    (hfuel : 2 * flagged.unmarked.card + stack.length < fuel) :
    ∃ res, innerSearch b stacked fuel stack flagged = .ok res ∧
      InnerOutcome b stacked visited s₀ res := by
  -- A step flags a state and makes the stack longer by one, or makes it shorter by one.
  induction fuel generalizing stack flagged with
  | zero => omega
  | succ n ih =>
    cases stack with
    | nil => exact ⟨⟨none, flagged⟩, rfl, h⟩
    | cons p stack =>
      obtain ⟨s, k⟩ := p
      rw [List.length_cons] at hfuel
      unfold innerSearch
      obtain ⟨heq, hnone⟩ | ⟨t, k', heq, hnext⟩ :=
        h.explores.next_cases (innerWanted stacked flagged)
      · rw [bind_of_eq_ok heq]
        exact ih (h.pop hnone) (by omega)
      · rw [bind_of_eq_ok heq]
        dsimp only
        by_cases ht : stacked.has t = true
        · rw [if_pos ht]
          exact ⟨_, rfl, h.found hnext ht⟩
        · rw [if_neg ht]
          have ht : stacked.has t = false := Bool.eq_false_iff.2 ht
          have hlt : t < b.size := hb.lt_of_mem_next hnext.step
          have hless := Marks.card_unmarked_mark_lt (m := flagged) (h.size_eq ▸ hlt)
            (hnext.not_flagged ht)
          exact ih (h.push hb hvisited hnext ht) (by simp only [List.length_cons]; omega)

end Inner

/-! ## The outer search -/

/-- What holds all through the outer search. -/
structure OuterInvariant (b : Automaton) (stack : SearchStack) (o : OuterState) : Prop where
  explores : Explores b (fun t => o.visited.has t = true) stack
  size_stacked : o.stacked.size = b.size
  size_visited : o.visited.size = b.size
  size_flagged : o.flagged.size = b.size
  stacked_iff : ∀ s, o.stacked.has s = true ↔ s ∈ stack.map (·.1)
  nodup : (stack.map (·.1)).Nodup
  bottom : ∀ s, (stack.map (·.1)).getLast? = some s → s ∈ b.initial
  on_stack : ∀ s ∈ stack.map (·.1), o.visited.has s = true
  closed : ∀ s, o.visited.has s = true → s ∉ stack.map (·.1) →
    ∀ t, b.Step s t → o.visited.has t = true
  flagged_visited : ∀ s, o.flagged.has s = true → o.visited.has s = true
  flagged_fresh : ∀ s, o.flagged.has s = true → s ∉ stack.map (·.1)
  flagged_closed : ∀ s, o.flagged.has s = true → ∀ t, b.Step s t → o.flagged.has t = true
  acyclic : ∀ s, o.visited.has s = true → s ∉ stack.map (·.1) → s ∈ b.acceptSet →
    ¬ TransGen b.Step s s

/-- A path from an initial state that runs into itself, with an accepting state on the way round and
no state on it twice. -/
def RunsIntoItself (b : Automaton) (path : List Nat) : Prop :=
  ∃ before t round, path = before ++ t :: round ++ [t] ∧ (t :: round).Nodup ∧
    path.IsChain b.Step ∧ (∃ s ∈ b.initial, path.head? = some s) ∧
    ∃ s ∈ t :: round, s ∈ b.acceptSet

section Outer

variable {stack : SearchStack} {o : OuterState} {s t k k' : Nat}

theorem visited_of_not_wanted (x : Nat) (h : o.wanted x = false) : o.visited.has x = true := by
  simpa [OuterState.wanted] using h

/-- Before the outer search nothing has been visited. -/
theorem outerInvariant_start (b : Automaton) : OuterInvariant b [] (.start b.size) where
  explores := ⟨List.isChain_nil, by simp, by simp⟩
  size_stacked := by simp [OuterState.start]
  size_visited := by simp [OuterState.start]
  size_flagged := by simp [OuterState.start]
  stacked_iff := by simp [OuterState.start]
  nodup := List.nodup_nil
  bottom := by simp
  on_stack := by simp
  closed := by simp [OuterState.start]
  flagged_visited := by simp [OuterState.start]
  flagged_fresh := by simp
  flagged_closed := by simp [OuterState.start]
  acyclic := by simp [OuterState.start]

/-- A state that has not been visited is put on the stack.  `stack'` is the stack it is put on,
which may have come further than the one before. -/
theorem OuterInvariant.enter (h : OuterInvariant b stack o) (stack' : SearchStack)
    (hlt : t < b.size) (hnew : o.visited.has t = false) (hsame : stack'.map (·.1) = stack.map (·.1))
    (hbottom : stack = [] → t ∈ b.initial)
    (hexp : Explores b (fun x => (o.visited.mark t).has x = true) ((t, 0) :: stack')) :
    OuterInvariant b ((t, 0) :: stack') (o.enter t) := by
  have hmark : ∀ x, (o.visited.mark t).has x = true ↔ o.visited.has x = true ∨ x = t := fun x =>
    Marks.has_mark_iff (h.size_visited ▸ hlt)
  have hnotin : t ∉ stack.map (·.1) := fun hmem => by simp [h.on_stack t hmem] at hnew
  have hstates : ((t, 0) :: stack').map (·.1) = t :: stack.map (·.1) := by
    rw [List.map_cons, hsame]
  constructor
  case explores =>
    exact hexp
  case size_stacked =>
    simp [OuterState.enter, h.size_stacked]
  case size_visited =>
    simp [OuterState.enter, h.size_visited]
  case size_flagged =>
    exact h.size_flagged
  case stacked_iff =>
    intro x
    rw [OuterState.enter, Marks.has_mark_iff (h.size_stacked ▸ hlt), h.stacked_iff, hstates,
      List.mem_cons]
    exact or_comm
  case nodup =>
    rw [hstates]
    exact List.nodup_cons.2 ⟨hnotin, h.nodup⟩
  case bottom =>
    intro x hx
    rw [hstates] at hx
    cases stack with
    | nil =>
      cases hx
      exact hbottom rfl
    | cons p stack =>
      rw [List.map_cons, List.getLast?_cons_cons] at hx
      exact h.bottom x hx
  case on_stack =>
    intro x hx
    rw [hstates] at hx
    obtain rfl | hx := List.mem_cons.1 hx
    · exact (hmark x).2 (.inr rfl)
    · exact (hmark x).2 (.inl (h.on_stack x hx))
  case closed =>
    intro x hx hxs y hy
    rw [hstates] at hxs
    obtain hx | rfl := (hmark x).1 hx
    · exact (hmark y).2 (.inl (h.closed x hx (fun hmem => hxs (List.mem_cons_of_mem t hmem)) y hy))
    · exact absurd List.mem_cons_self hxs
  case flagged_visited =>
    exact fun x hx => (hmark x).2 (.inl (h.flagged_visited x hx))
  case flagged_fresh =>
    -- What is flagged has been visited, and the state that is entered has not.
    intro x hx hxs
    rw [hstates] at hxs
    obtain rfl | hxs := List.mem_cons.1 hxs
    · simp [h.flagged_visited x hx] at hnew
    · exact h.flagged_fresh x hx hxs
  case flagged_closed =>
    exact h.flagged_closed
  case acyclic =>
    intro x hx hxs
    rw [hstates] at hxs
    obtain hx | rfl := (hmark x).1 hx
    · exact h.acyclic x hx fun hmem => hxs (List.mem_cons_of_mem t hmem)
    · exact absurd List.mem_cons_self hxs

/-- The top of the stack is left for good: everything it leads to is visited, `flagged'` is what has
been flagged meanwhile, and the top lies on no cycle if it is accepting. -/
theorem OuterInvariant.leave {flagged' : Marks} (h : OuterInvariant b ((s, k) :: stack) o)
    (hnone : b.HasNoNext s k o.wanted) (hsize : flagged'.size = b.size)
    (hvisited : ∀ x, flagged'.has x = true → o.visited.has x = true)
    (hfresh : ∀ x, flagged'.has x = true → x ∉ stack.map (·.1))
    (hclosed : ∀ x, flagged'.has x = true → ∀ y, b.Step x y → flagged'.has y = true)
    (hcycle : s ∈ b.acceptSet → ¬ TransGen b.Step s s) :
    OuterInvariant b stack (({ o with flagged := flagged' } : OuterState).leave s) := by
  have hnodup := h.nodup
  rw [List.map_cons, List.nodup_cons] at hnodup
  constructor
  case explores =>
    exact h.explores.pop
  case size_stacked =>
    simp [OuterState.leave, h.size_stacked]
  case size_visited =>
    exact h.size_visited
  case size_flagged =>
    exact hsize
  case stacked_iff =>
    intro x
    have hiff := h.stacked_iff x
    rw [List.map_cons, List.mem_cons] at hiff
    simp only [OuterState.leave, Marks.has_unmark, Bool.and_eq_true, hiff, decide_eq_true_eq]
    constructor
    · exact fun hx => hx.1.resolve_left fun heq => hx.2 heq.symm
    · exact fun hx => ⟨.inr hx, fun heq => hnodup.1 (heq ▸ hx)⟩
  case nodup =>
    exact hnodup.2
  case bottom =>
    intro x hx
    refine h.bottom x ?_
    cases stack with
    | nil => cases hx
    | cons p stack => rwa [List.map_cons, List.map_cons, List.getLast?_cons_cons]
  case on_stack =>
    exact fun x hx => h.on_stack x (List.mem_cons_of_mem s hx)
  case closed =>
    intro x hx hxs y hy
    by_cases hxs' : x = s
    · subst hxs'
      exact h.explores.done_of_hasNoNext visited_of_not_wanted hnone hy
    · exact h.closed x hx (by simpa [hxs'] using hxs) y hy
  case flagged_visited =>
    exact hvisited
  case flagged_fresh =>
    exact hfresh
  case flagged_closed =>
    exact hclosed
  case acyclic =>
    -- Of the states off the stack, only the one that is left now is new.
    intro x hx hxs hacc
    by_cases hxs' : x = s
    · subst hxs'
      exact hcycle hacc
    · exact h.acyclic x hx (by simpa [hxs'] using hxs) hacc

/-- The start of the inner search from the top of the stack. -/
theorem OuterInvariant.inner (h : OuterInvariant b ((s, k) :: stack) o) (hlt : s < b.size) :
    InnerInvariant b o.stacked o.visited s [(s, 0)] (o.flagged.mark s) := by
  have hmark : ∀ x, (o.flagged.mark s).has x = true ↔ o.flagged.has x = true ∨ x = s := fun x =>
    Marks.has_mark_iff (h.size_flagged ▸ hlt)
  have hoff : ∀ x, o.flagged.has x = true → o.stacked.has x = false := fun x hx =>
    Bool.eq_false_iff.2 fun hs => h.flagged_fresh x hx ((h.stacked_iff x).1 hs)
  constructor
  case explores =>
    exact .single _ hlt
  case size_eq =>
    rw [Marks.size_mark, h.size_flagged]
  case nodup =>
    exact List.nodup_singleton s
  case bottom =>
    exact fun _ => ⟨[], rfl, by simp⟩
  case on_stack =>
    intro p hp
    rw [List.mem_singleton] at hp
    subst hp
    exact (hmark s).2 (.inr rfl)
  case start =>
    exact (hmark s).2 (.inr rfl)
  case fresh =>
    intro x hx
    obtain hx | hx := (hmark x).1 hx
    · exact .inr (hoff x hx)
    · exact .inl hx
  case closed =>
    intro x hx hxs y hy
    obtain hx | rfl := (hmark x).1 hx
    · have hy := h.flagged_closed x hx y hy
      exact ⟨(hmark y).2 (.inl hy), hoff y hy⟩
    · exact absurd List.mem_cons_self hxs
  case flagged_visited =>
    intro x hx
    obtain hx | rfl := (hmark x).1 hx
    · exact h.flagged_visited x hx
    · exact h.on_stack x List.mem_cons_self

/-- Where the inner search has found nothing, the state it started from lies on no cycle. -/
theorem InnerInvariant.not_transGen {stacked visited flagged : Marks}
    (h : InnerInvariant b stacked visited s [] flagged) (hs : stacked.has s = true) :
    ¬ TransGen b.Step s s := by
  have hreach : ∀ {t}, TransGen b.Step s t → flagged.has t = true ∧ stacked.has t = false := by
    intro t ht
    induction ht with
    | single hst => exact h.closed s h.start List.not_mem_nil _ hst
    | tail _ hst ih => exact h.closed _ ih.1 List.not_mem_nil _ hst
  intro hcycle
  rw [(hreach hcycle).2] at hs
  exact Bool.false_ne_true hs

/-- A way from the top back onto the stack makes a path that runs into itself. -/
theorem OuterInvariant.runsIntoItself (h : OuterInvariant b ((s, k) :: stack) o)
    (hacc : s ∈ b.acceptSet) {mid : List Nat} (ht : o.stacked.has t = true)
    (hmid : ∀ x ∈ mid, o.stacked.has x = false) (hnodup : mid.Nodup)
    (hchain : (s :: mid ++ [t]).IsChain b.Step) :
    RunsIntoItself b (SearchStack.path ((s, k) :: stack) ++ (mid ++ [t])) := by
  have hpath : SearchStack.path ((s, k) :: stack) = (stack.map (·.1)).reverse ++ [s] := by
    simp [SearchStack.path]
  have hupperNodup : ((stack.map (·.1)).reverse ++ [s]).Nodup := by
    rw [← List.reverse_cons, List.nodup_reverse]
    exact h.nodup
  have hmem : t ∈ (stack.map (·.1)).reverse ++ [s] := by
    rw [← List.reverse_cons, List.mem_reverse]
    exact (h.stacked_iff t).1 ht
  have hupper : ((stack.map (·.1)).reverse ++ [s]).IsChain b.Step := by
    rw [← List.reverse_cons, List.isChain_reverse]
    exact h.explores.chain
  have hwhole : ((stack.map (·.1)).reverse ++ [s] ++ (mid ++ [t])).IsChain b.Step :=
    hupper.append_overlap hchain (by simp)
  obtain ⟨before, after, hsplit⟩ := List.append_of_mem hmem
  rw [hpath]
  refine ⟨before, t, after ++ mid, ?_, ?_, hwhole, ?_, s, ?_, hacc⟩
  · rw [hsplit]
    simp
  · -- The round is first on the stack and then off it.
    rw [hsplit] at hupperNodup
    refine List.nodup_append.2 ⟨(List.nodup_append.1 hupperNodup).2.1, hnodup, fun x hx y hy => ?_⟩
    rintro rfl
    have hstack : x ∈ (stack.map (·.1)).reverse ++ [s] := hsplit ▸ List.mem_append_right before hx
    rw [← List.reverse_cons, List.mem_reverse] at hstack
    have hin := (h.stacked_iff x).2 hstack
    rw [hmid x hy] at hin
    exact Bool.false_ne_true hin
  · obtain ⟨r, hr⟩ : ∃ r, (s :: stack.map (·.1)).getLast? = some r :=
      ⟨_, List.getLast?_eq_some_getLast (List.cons_ne_nil _ _)⟩
    refine ⟨r, h.bottom r hr, ?_⟩
    rw [← List.reverse_cons, List.head?_append, List.head?_reverse, hr]
    rfl
  · have hs : ((stack.map (·.1)).reverse ++ [s]).getLast? = some s := by simp
    rw [hsplit, List.getLast?_append] at hs
    have hlast := List.mem_of_getLast? (l := t :: after) (a := s) (by simpa using hs)
    obtain rfl | hs := List.mem_cons.1 hlast
    · exact List.mem_cons_self
    · exact List.mem_cons_of_mem t (List.mem_append_left mid hs)

/-- What an outer search gives: a path that runs into itself, or everything that its start leads to
is visited and no accepting state of it lies on a cycle. -/
def OuterOutcome (b : Automaton) (o : OuterState) (res : OuterResult) : Prop :=
  match res.found with
  | none => OuterInvariant b [] res.last ∧
    ∀ s, o.visited.has s = true → res.last.visited.has s = true
  | some path => RunsIntoItself b path

theorem searchBound_gt {m : Marks} (h : m.size = b.size) (s : Nat) :
    2 * m.unmarked.card + ([(s, 0)] : SearchStack).length < b.searchBound := by
  have hle := m.card_unmarked_le
  simp only [searchBound, List.length_singleton]
  omega

/-- What the outer search ends in stays an outcome when it is read from an earlier state of the
search. -/
theorem OuterOutcome.mono {o' : OuterState} {res : OuterResult} (h : OuterOutcome b o' res)
    (hkeep : ∀ x, o.visited.has x = true → o'.visited.has x = true) : OuterOutcome b o res := by
  unfold OuterOutcome at h ⊢
  cases hfound : res.found with
  | some path => simpa [hfound] using h
  | none =>
    simp only [hfound] at h ⊢
    exact ⟨h.1, fun x hx => h.2 x (hkeep x hx)⟩

/-- The search goes on to a successor that has not been visited. -/
theorem OuterInvariant.visit (hb : b.Closed) (h : OuterInvariant b ((s, k) :: stack) o)
    (hnext : b.IsNext s k o.wanted t k') : t < b.size ∧ o.visited.has t = false ∧
      OuterInvariant b ((t, 0) :: (s, k') :: stack) (o.enter t) := by
  have hlt : t < b.size := hb.lt_of_mem_next hnext.step
  have hnew : o.visited.has t = false := by simpa [OuterState.wanted] using hnext.1
  have hexp := h.explores.push visited_of_not_wanted hnext hlt (fun x => Marks.has_mark_of_has)
    (Marks.has_mark_self (h.size_visited ▸ hlt))
  exact ⟨hlt, hnew, h.enter ((s, k') :: stack) hlt hnew rfl (by simp) hexp⟩

/-- With nothing left to try at the top, all that the top leads to is visited, as is all that states
off the stack lead to. -/
theorem OuterInvariant.visited_of_step (h : OuterInvariant b ((s, k) :: stack) o)
    (hnone : b.HasNoNext s k o.wanted) (x : Nat) (hx : o.visited.has x = true)
    (hwhere : x = s ∨ o.stacked.has x = false) (y : Nat) (hy : b.Step x y) :
    o.visited.has y = true := by
  obtain rfl | hoff := hwhere
  · exact h.explores.done_of_hasNoNext visited_of_not_wanted hnone hy
  · refine h.closed x hx (fun hmem => ?_) y hy
    rw [(h.stacked_iff x).2 hmem] at hoff
    exact Bool.false_ne_true hoff.symm

/-- The top is left after an inner search from it that has found nothing. -/
theorem OuterInvariant.leave_of_inner {flagged : Marks}
    (h : OuterInvariant b ((s, k) :: stack) o) (hnone : b.HasNoNext s k o.wanted)
    (hinner : InnerInvariant b o.stacked o.visited s [] flagged) :
    OuterInvariant b stack (({ o with flagged } : OuterState).leave s) := by
  have hstacked : o.stacked.has s = true := (h.stacked_iff s).2 List.mem_cons_self
  have hfresh : ∀ x, flagged.has x = true → x ∉ stack.map (·.1) := by
    intro x hx hmem
    obtain rfl | hoff := hinner.fresh x hx
    · exact (List.nodup_cons.1 h.nodup).1 hmem
    · rw [(h.stacked_iff x).2 (List.mem_cons_of_mem s hmem)] at hoff
      exact Bool.false_ne_true hoff.symm
  exact h.leave hnone hinner.size_eq hinner.flagged_visited hfresh
    (fun x hx y hy => (hinner.closed x hx List.not_mem_nil y hy).1)
    (fun _ => hinner.not_transGen hstacked)

/-- An outer search meets no fault and ends within its steps. -/
theorem exists_outerSearch (hb : b.Closed) {accept : Lookup}
    (haccept : ∀ s, accept.has s = true ↔ s ∈ b.acceptSet) {fuel : Nat}
    (h : OuterInvariant b stack o)
    (hfuel : 2 * o.visited.unmarked.card + stack.length < fuel) :
    ∃ res, outerSearch b accept fuel stack o = .ok res ∧ OuterOutcome b o res := by
  induction fuel generalizing stack o with
  | zero => omega
  | succ n ih =>
    cases stack with
    | nil => exact ⟨⟨none, o⟩, rfl, h, fun _ hs => hs⟩
    | cons p stack =>
      obtain ⟨s, k⟩ := p
      rw [List.length_cons] at hfuel
      unfold outerSearch
      obtain ⟨heq, hnone⟩ | ⟨t, k', heq, hnext⟩ := h.explores.next_cases o.wanted
      · rw [bind_of_eq_ok heq]
        dsimp only
        by_cases hacc : accept.has s = true
        · have hs : s < b.size := (h.explores.in_range (s, k) List.mem_cons_self).1
          have hinner := h.inner hs
          obtain ⟨inner, hsearch, hout⟩ := exists_innerSearch hb (h.visited_of_step hnone) hinner
            (searchBound_gt hinner.size_eq s)
          rw [if_pos hacc, bind_of_eq_ok hsearch]
          unfold InnerOutcome at hout
          cases hfound : inner.found with
          | some back =>
            simp only [hfound] at hout
            obtain ⟨mid, t, rfl, hchain, ht, hmid, hnodup⟩ := hout
            exact ⟨_, rfl, h.runsIntoItself ((haccept s).1 hacc) ht hmid hnodup hchain⟩
          | none =>
            simp only [hfound] at hout
            exact ih (h.leave_of_inner hnone hout) (by simp only [OuterState.leave]; omega)
        · rw [if_neg hacc]
          have hleave := h.leave hnone h.size_flagged h.flagged_visited
            (fun x hx hmem => h.flagged_fresh x hx (List.mem_cons_of_mem s hmem)) h.flagged_closed
            (fun hs => absurd ((haccept s).2 hs) hacc)
          exact ih hleave (by simp only [OuterState.leave]; omega)
      · obtain ⟨hlt, hnew, hvisit⟩ := h.visit hb hnext
        have hless := Marks.card_unmarked_mark_lt (m := o.visited) (h.size_visited ▸ hlt) hnew
        obtain ⟨res, hres, hout⟩ := ih hvisit (by
          simp only [List.length_cons, OuterState.enter]
          omega)
        rw [bind_of_eq_ok heq]
        exact ⟨res, hres, hout.mono fun x => Marks.has_mark_of_has⟩

/-- What searching from some states gives: a path that runs into itself, or all of them and
everything visited before are visited in the end, with no accepting state on a cycle. -/
def SearchOutcome (b : Automaton) (o : OuterState) (starts : List Nat) : Option (List Nat) → Prop
  | none => ∃ o', OuterInvariant b [] o' ∧
    (∀ s, o.visited.has s = true → o'.visited.has s = true) ∧ ∀ s ∈ starts, o'.visited.has s = true
  | some path => RunsIntoItself b path

/-- One more state to search from, which has been visited before the others are. -/
theorem SearchOutcome.cons {o' : OuterState} {starts : List Nat} {found : Option (List Nat)}
    (h : SearchOutcome b o' starts found)
    (hkeep : ∀ x, o.visited.has x = true → o'.visited.has x = true)
    (hs : o'.visited.has s = true) : SearchOutcome b o (s :: starts) found := by
  cases found with
  | some path => exact h
  | none =>
    obtain ⟨last, hinv, hkeep', hall⟩ := h
    exact ⟨last, hinv, fun x hx => hkeep' x (hkeep x hx),
      List.forall_mem_cons.2 ⟨hkeep' s hs, hall⟩⟩

/-- Searching from one initial state after another. -/
theorem exists_searchFrom (hb : b.Closed) (accept : Lookup)
    (haccept : ∀ s, accept.has s = true ↔ s ∈ b.acceptSet) {starts : List Nat}
    (hstarts : ∀ s ∈ starts, s ∈ b.initial) (h : OuterInvariant b [] o) :
    ∃ found, searchFrom b accept starts o = .ok found ∧ SearchOutcome b o starts found := by
  induction starts generalizing o with
  | nil => exact ⟨none, rfl, o, h, fun _ hs => hs, by simp⟩
  | cons s starts ih =>
    have hrest : ∀ s ∈ starts, s ∈ b.initial := fun x hx => hstarts x (List.mem_cons_of_mem s hx)
    unfold searchFrom
    by_cases hseen : o.visited.has s = true
    · rw [if_pos hseen]
      obtain ⟨found, hfound, hout⟩ := ih hrest h
      exact ⟨found, hfound, hout.cons (fun _ hx => hx) hseen⟩
    · have hinit := hstarts s List.mem_cons_self
      have hlt := hb.initial s hinit
      have hnew := Bool.eq_false_iff.2 hseen
      have henter := h.enter [] hlt hnew rfl (fun _ => hinit) (.single _ hlt)
      obtain ⟨res, hres, hout⟩ := exists_outerSearch hb haccept henter
        (searchBound_gt henter.size_visited s)
      rw [if_neg hseen, bind_of_eq_ok hres]
      unfold OuterOutcome at hout
      cases hfound : res.found with
      | some path =>
        simp only [hfound] at hout
        exact ⟨some path, rfl, hout⟩
      | none =>
        simp only [hfound] at hout
        obtain ⟨hinv, hkeep⟩ := hout
        obtain ⟨found, hfrom, hout⟩ := ih hrest hinv
        have hmark : ∀ x, o.visited.has x = true ∨ x = s → (o.enter s).visited.has x = true :=
          fun x hx => (Marks.has_mark_iff (h.size_visited ▸ hlt)).2 hx
        exact ⟨found, hfrom, hout.cons (fun x hx => hkeep x (hmark x (.inl hx)))
          (hkeep s (hmark s (.inr rfl)))⟩

end Outer

/-! ## The two sides -/

/-- A run that keeps coming back to finitely many accepting states comes back to one of them. -/
theorem exists_transGen_of_isFair {ρ : Nat → Nat} (hρ : b.IsRun ρ)
    (hfair : InfinitelyOften fun i => ρ i ∈ b.acceptSet) :
    ∃ i, ρ i ∈ b.acceptSet ∧ TransGen b.Step (ρ i) (ρ i) := by
  have hinf : { i | ρ i ∈ b.acceptSet }.Infinite := by
    refine Set.infinite_of_not_bddAbove fun hbound => ?_
    obtain ⟨n, hn⟩ := hbound
    obtain ⟨m, hm, hacc⟩ := hfair (n + 1)
    exact absurd (hn hacc) (Nat.not_le.2 hm)
  have hmaps : Set.MapsTo ρ { i | ρ i ∈ b.acceptSet } { s | s < b.size } := fun i _ => hρ.lt_size i
  obtain ⟨i, hi, j, hj, hne, heq⟩ :=
    hinf.exists_ne_map_eq_of_mapsTo hmaps (Set.finite_lt_nat b.size)
  have hforward : ∀ i d, TransGen b.Step (ρ i) (ρ (i + (d + 1))) := by
    intro i d
    induction d with
    | zero => exact .single (hρ.2 i)
    | succ d ih => exact .tail ih (hρ.2 (i + (d + 1)))
  obtain hlt | hlt := Nat.lt_or_gt_of_ne hne
  · have hcycle := hforward i (j - i - 1)
    rw [show i + (j - i - 1 + 1) = j by omega, ← heq] at hcycle
    exact ⟨i, hi, hcycle⟩
  · have hcycle := hforward j (i - j - 1)
    rw [show j + (i - j - 1 + 1) = i by omega, heq] at hcycle
    exact ⟨j, hj, hcycle⟩

/-- No accepting state that can be reached from an initial state lies on a cycle. -/
def IsAcyclic (b : Automaton) : Prop :=
  ∀ i ∈ b.initial, ∀ s ∈ b.acceptSet, ReflTransGen b.Step i s → ¬ TransGen b.Step s s

/-- At the end of the search everything that can be reached has been visited. -/
theorem OuterInvariant.isAcyclic {o : OuterState} (h : OuterInvariant b [] o)
    (hinit : ∀ s ∈ b.initial, o.visited.has s = true) : b.IsAcyclic := by
  have hvisited : ∀ i ∈ b.initial, ∀ s, ReflTransGen b.Step i s → o.visited.has s = true := by
    intro i hi s hs
    induction hs with
    | refl => exact hinit i hi
    | tail _ hstep ih => exact h.closed _ ih List.not_mem_nil _ hstep
  exact fun i hi s hacc hs => h.acyclic s (hvisited i hi s hs) List.not_mem_nil hacc

/-- The first state of a path leads to the last. -/
theorem leads_of_isChain {path : List Nat} {s t : Nat} (h : path.IsChain b.Step)
    (hhead : path.head? = some s) (hlast : path.getLast? = some t) : ReflTransGen b.Step s t := by
  obtain ⟨rest, rfl⟩ := List.head?_eq_some_iff.1 hhead
  rw [List.getLast?_eq_some_getLast (List.cons_ne_nil s rest), Option.some.injEq] at hlast
  exact List.relationReflTransGen_of_exists_isChain_cons rest h hlast

/-- A path that runs into itself leads to an accepting state and round a cycle through it. -/
theorem RunsIntoItself.not_isAcyclic {path : List Nat} (h : RunsIntoItself b path) :
    ¬ b.IsAcyclic := by
  obtain ⟨before, t, round, rfl, -, hchain, ⟨i, hi, hhead⟩, s, hs, hacc⟩ := h
  obtain ⟨first, last, hsplit⟩ := List.append_of_mem hs
  have hthere : (before ++ first ++ [s]).IsChain b.Step :=
    hchain.infix ⟨[], last ++ [t], by simp [hsplit]⟩
  have hreach : ReflTransGen b.Step i s := by
    refine leads_of_isChain hthere ?_ (by simp)
    rw [← hhead, hsplit]
    cases before <;> cases first <;> rfl
  -- From `s` to the end of the path, which is also where the round starts, and from there to `s`.
  obtain ⟨x, rest, hx⟩ := List.exists_cons_of_ne_nil (List.append_ne_nil_of_right_ne_nil last
    (List.cons_ne_nil t []))
  have hround : (s :: x :: rest).IsChain b.Step :=
    hchain.infix ⟨before ++ first, [], by simp [hsplit, ← hx]⟩
  obtain ⟨hstep, hend⟩ := List.isChain_cons_cons.1 hround
  have hon : ReflTransGen b.Step x t := leads_of_isChain hend rfl (by simp [← hx])
  have hback : ReflTransGen b.Step t s := by
    have hchain' : (first ++ [s]).IsChain b.Step := hthere.infix ⟨before, [], by simp⟩
    have hfront := congrArg List.head? hsplit
    refine leads_of_isChain hchain' ?_ (by simp)
    cases first <;> exact hfront.symm
  exact fun hacyclic => hacyclic i hi s hacc hreach (.head' hstep (hon.trans hback))

/-- Where no accepting state that can be reached lies on a cycle, no run is fair. -/
theorem IsAcyclic.not_fair (h : b.IsAcyclic) {ρ : Nat → Nat} (hρ : b.IsRun ρ) :
    ¬ InfinitelyOften fun i => ρ i ∈ b.acceptSet := by
  intro hfair
  obtain ⟨i, hacc, hcycle⟩ := exists_transGen_of_isFair hρ hfair
  refine h _ hρ.1 _ hacc ?_ hcycle
  clear hacc hcycle
  induction i with
  | zero => exact .refl
  | succ i ih => exact .tail ih (hρ.2 i)

/-- The search meets no fault.  It finds a path that runs into itself and passes an accepting state
on the way round, or there is none. -/
theorem exists_witness? (hb : b.Closed) :
    ∃ found, b.witness? = .ok found ∧
      match found with
      | none => b.IsAcyclic
      | some path => RunsIntoItself b path := by
  obtain ⟨found, hfound, hout⟩ := exists_searchFrom hb (b.acceptSet.lookup b.size)
    (fun s => by rw [NatSet.has_lookup, decide_eq_true_eq]) (fun _ hs => hs)
    (outerInvariant_start b)
  refine ⟨found, hfound, ?_⟩
  cases found with
  | some path => exact hout
  | none =>
    obtain ⟨o, hinv, -, hall⟩ := hout
    exact hinv.isAcyclic hall

/-- **The nested search is complete.**  Where the initial states and the targets of transitions all
exist, the search meets no fault, and it finds nothing exactly if no accepting state that can be
reached from an initial state lies on a cycle.  Accept sets may name states that do not exist. -/
theorem search_finds_every_cycle (hinitial : ∀ s ∈ b.initial, s < b.size)
    (hnext : ∀ st ∈ b.states, ∀ t ∈ st.next, t < b.size) :
    ∃ found, b.witness? = .ok found ∧
      (found = none ↔ ∀ i ∈ b.initial, ∀ s ∈ b.acceptSet,
        ReflTransGen b.Step i s → ¬ TransGen b.Step s s) := by
  obtain ⟨found, hfound, hout⟩ := exists_witness? ⟨hinitial, hnext⟩
  refine ⟨found, hfound, ?_⟩
  cases found with
  | none => exact iff_of_true rfl hout
  | some path => exact iff_of_false nofun hout.not_isAcyclic

/-- Two initial states lead to the same accepting state, which one search leaves flagged for the
other; the only cycle is behind it.  One member of the accept set does not exist. -/
theorem search_finds_every_cycle_shared :
    let b : Automaton := {
      states := #[{ next := [1] }, { next := [2] }, { next := [2] }, { next := [4, 1] }, {}]
      initial := [0, 3]
      acceptSets := [.ofList [1, 4, 9]] }
    (∀ s ∈ b.initial, s < b.size) ∧ (∀ st ∈ b.states, ∀ t ∈ st.next, t < b.size) ∧
    b.witness? = .ok none ∧
    ∃ found, b.witness? = .ok found ∧
      (found = none ↔ ∀ i ∈ b.initial, ∀ s ∈ b.acceptSet,
        ReflTransGen b.Step i s → ¬ TransGen b.Step s s) := by
  intro b
  have hinitial : ∀ s ∈ b.initial, s < b.size := by decide
  have hnext : ∀ st ∈ b.states, ∀ t ∈ st.next, t < b.size := by decide
  exact ⟨hinitial, hnext, by decide, search_finds_every_cycle hinitial hnext⟩

end TemporalCheck.Automaton
