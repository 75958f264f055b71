import TemporalCheck.Proofs.Tableau.Language

/-!
# TemporalCheck.Proofs.Tableau.Rounds

The construction of the automaton as a sequence of rounds, in each of which one cover is worked on.
`Tableau.Round` is one round without a bound on their number; the loop that runs is made of such
rounds (`Tableau.Round.complete_eq`).

The invariant of the construction holds after every round and each round leaves less to do
(`Tableau.Kept.round`).  So there are finitely many rounds, however the covers branch and although
every new state starts a cover from nothing, and they go on until nothing is pending
(`Tableau.Kept.exists_end`).
-/

namespace TemporalCheck.Tableau

open Relation (ReflTransGen)

variable {context : Context} {u : NatSet} {root : NodeId} {s t : Context × Tableau}

/-- One round: the first pending cover is made a state, or it is replaced by its branches. -/
inductive Round : Context × Tableau → Context × Tableau → Prop
  | finish {context context' : Context} {finished : Array Cover} {c : Cover} {pending : List Cover}
    (step : c.step context = .ok (.finished, context')) :
    Round (context, ⟨finished, c :: pending⟩) (context', finish ⟨finished, pending⟩ c)
  | branch {context context' : Context} {finished : Array Cover} {c : Cover}
    {pending covers : List Cover} (step : c.step context = .ok (.branches covers, context')) :
    Round (context, ⟨finished, c :: pending⟩) (context', ⟨finished, covers ++ pending⟩)

/-- The loop goes on after a round with one step less. -/
theorem Round.complete_eq (h : Round s t) (fuel : Nat) :
    complete (fuel + 1) s.2 s.1 = complete fuel t.2 t.1 := by
  cases h with
  | @finish context _ _ c _ hstep =>
    show (c.step context >>= _) = _
    rw [hstep]
    rfl
  | @branch context _ _ c _ _ hstep =>
    show (c.step context >>= _) = _
    rw [hstep]
    rfl

/-- What holds after every round: the context has got further variables only, and the invariant of
the construction. -/
structure Kept (context : Context) (u : NatSet) (root : NodeId) (s : Context × Tableau) : Prop where
  grows : context.Grows s.1
  invariant : Invariant context.forest u root s.2

namespace Kept

/-- The step of the first pending cover meets no fault. -/
theorem yields_step {context₁ : Context} {finished : Array Cover} {c : Cover} {pending : List Cover}
    (hu : context.forest.IsUniverse u)
    (hs : Kept context u root (context₁, ⟨finished, c :: pending⟩)) :
    Yields c.step context₁ fun step context₂ =>
      context.Grows context₂ ∧ c.Steps context.forest step := by
  have hforest : context₁.forest = context.forest := hs.grows.forest_eq
  have hwithin := (hs.invariant.sound c (has_cons.2 (.inl rfl))).within
  refine (Cover.yields_step (hforest ▸ hu) hwithin).mono fun step context₂ h => ?_
  exact ⟨hs.grows.trans h.1, hforest ▸ h.2⟩

/-- A round is one of the steps that the invariant speaks of. -/
theorem moves (hu : context.forest.IsUniverse u) (hs : Kept context u root s) (h : Round s t) :
    context.Grows t.1 ∧ Moves context.forest s.2 t.2 := by
  cases h with
  | finish hstep =>
    obtain ⟨step, context₂, hok, hgrows, hsteps⟩ := hs.yields_step hu
    obtain ⟨rfl, rfl⟩ := Prod.mk.inj (Except.ok.inj (hok.symm.trans hstep))
    exact ⟨hgrows, moves_finish hsteps⟩
  | branch hstep =>
    obtain ⟨step, context₂, hok, hgrows, hsteps⟩ := hs.yields_step hu
    obtain ⟨rfl, rfl⟩ := Prod.mk.inj (Except.ok.inj (hok.symm.trans hstep))
    exact ⟨hgrows, .expand hsteps⟩

/-- A round keeps the invariant and leaves less to do. -/
theorem round (hu : context.forest.IsUniverse u) (hs : Kept context u root s) (h : Round s t) :
    Kept context u root t ∧ t.2.effort u < s.2.effort u := by
  obtain ⟨hgrows, hmoves⟩ := hs.moves hu h
  exact ⟨⟨hgrows, hs.invariant.moves hu hmoves⟩, effort_lt_of_moves hu hs.invariant hmoves⟩

theorem rounds (hu : context.forest.IsUniverse u) (hs : Kept context u root s)
    (h : ReflTransGen Round s t) : Kept context u root t := by
  induction h with
  | refl => exact hs
  | tail _ hround ih => exact (ih.round hu hround).1

/-- As long as a cover is pending there is another round: no cover meets a fault. -/
theorem exists_round (hu : context.forest.IsUniverse u) (hs : Kept context u root s) :
    s.2.pending = [] ∨ ∃ t, Round s t := by
  obtain ⟨context₁, ⟨finished, pending⟩⟩ := s
  cases pending with
  | nil => exact .inl rfl
  | cons c pending =>
    obtain ⟨step, context₂, hok, -⟩ := hs.yields_step hu
    cases step with
    | finished => exact .inr ⟨_, .finish hok⟩
    | branches covers => exact .inr ⟨_, .branch hok⟩

/-- The rounds end with nothing pending, and this is what the loop ends in under every bound that is
large enough. -/
theorem exists_end (hu : context.forest.IsUniverse u) (hs : Kept context u root s) :
    ∃ context' covers, ReflTransGen Round s (context', ⟨covers, []⟩) ∧
      ∀ fuel, s.2.effort u < fuel → complete fuel s.2 s.1 = .ok (covers, context') := by
  induction heffort : s.2.effort u using Nat.strong_induction_on generalizing s with
  | _ n ih =>
    obtain hnil | ⟨t, hround⟩ := hs.exists_round hu
    · obtain ⟨context₁, ⟨finished, pending⟩⟩ := s
      obtain rfl : pending = [] := hnil
      refine ⟨context₁, finished, .refl, fun fuel hfuel => ?_⟩
      cases fuel <;> rfl
    · obtain ⟨ht, hlt⟩ := hs.round hu hround
      obtain ⟨context', covers, hrounds, hloop⟩ := ih _ (heffort ▸ hlt) ht rfl
      refine ⟨context', covers, .head hround hrounds, fun fuel hfuel => ?_⟩
      cases fuel with
      | zero => omega
      | succ fuel =>
        rw [hround.complete_eq]
        exact hloop fuel (by omega)

end Kept

/-- **The construction of the automaton ends.**  For every stored formula in negation normal form
there is a number that the rounds cannot exceed, and it lies below the bound that the construction
is run with.  As long as a cover is pending there is another round.  After every round, what the
covers have worked off, have to work off and ask for next are nodes of the formula, and the states
differ from one another in what they have worked off or ask for next.  The loop ends with nothing
pending, in the same way under every larger bound, and the construction gives an automaton. -/
theorem construction_ends {e : Expr} (h : context.forest.Denotes root e)
    (hnnf : e.IsNegationNormal) :
    ∃ bound < stepBound (subformulaCount context.forest root),
      (∀ rounds, List.IsChain Round ((context, start root) :: rounds) → rounds.length ≤ bound) ∧
      (∀ context' t, ReflTransGen Round (context, start root) (context', t) →
        (t.pending = [] ∨ ∃ s, Round (context', t) s) ∧
        (∀ c, t.Has c → ∀ id, id ∈ c.old ∨ id ∈ c.new ∨ id ∈ c.next →
          context.forest.Below root id) ∧
        (t.finished.toList.map fun c => (c.old, c.next)).Nodup) ∧
      (∃ context' covers, ReflTransGen Round (context, start root) (context', ⟨covers, []⟩) ∧
        ∀ fuel, bound < fuel → complete fuel (start root) context = .ok (covers, context')) ∧
      ∃ b context', construct root context = .ok (b, context') := by
  obtain ⟨ids, hreach, hids⟩ := Forest.exists_reachable h
  have hu := Forest.isUniverse_of_denotes h hnnf hids
  have hroot : root ∈ ids := (hids root).2 (.refl root)
  have hcount : subformulaCount context.forest root = ids.size := by
    simp [subformulaCount, hreach]
  have hstart : Kept context ids root (context, start root) :=
    ⟨.refl context, invariant_start hroot⟩
  refine ⟨(start root).effort ids, hcount ▸ effort_start_lt hroot, fun rounds hrounds => ?_,
    fun context' t ht => ?_, hstart.exists_end hu, ?_⟩
  · refine length_le_of_isChain (P := fun s n => Kept context ids root s ∧ s.2.effort ids = n) ?_
      ⟨hstart, rfl⟩ hrounds
    rintro s t n ⟨hs, rfl⟩ hround
    obtain ⟨ht, hlt⟩ := hs.round hu hround
    exact ⟨_, hlt, ht, rfl⟩
  · have hkept := hstart.rounds hu ht
    refine ⟨hkept.exists_round hu, fun c hc id hid => ?_, hkept.invariant.distinct⟩
    exact (hids id).1 ((hkept.invariant.sound c hc).within id hid)
  · obtain ⟨b, context', hok, -⟩ := yields_construct_realizes h hnnf
    exact ⟨b, context', hok⟩

/-- `(p R q) U X !p`, in which one node is used twice, above an empty slot. -/
theorem construction_ends_shared :
    let context : Context :=
      { forest :=
          { slots := #[some (.prop "p"), none, some (.unary .not 0), some (.prop "q"),
              some (.binary .release 0 3), some (.unary .next 2), some (.binary .until 4 5)]
            free := [1] } }
    let e : Expr := .binary .until (.binary .release (.prop "p") (.prop "q"))
      (.unary .next (.unary .not (.prop "p")))
    context.forest.Denotes 6 e ∧ e.IsNegationNormal ∧
    ∃ bound < stepBound (subformulaCount context.forest 6),
      (∀ rounds, List.IsChain Round ((context, start 6) :: rounds) → rounds.length ≤ bound) ∧
      (∀ context' t, ReflTransGen Round (context, start 6) (context', t) →
        (t.pending = [] ∨ ∃ s, Round (context', t) s) ∧
        (∀ c, t.Has c → ∀ id, id ∈ c.old ∨ id ∈ c.new ∨ id ∈ c.next →
          context.forest.Below 6 id) ∧
        (t.finished.toList.map fun c => (c.old, c.next)).Nodup) ∧
      (∃ context' covers, ReflTransGen Round (context, start 6) (context', ⟨covers, []⟩) ∧
        ∀ fuel, bound < fuel → complete fuel (start 6) context = .ok (covers, context')) ∧
      ∃ b context', construct 6 context = .ok (b, context') := by
  intro context e
  have hstored : context.forest.Denotes 6 e := Forest.denotes_of_tree rfl
  have hnnf : e.IsNegationNormal := ⟨⟨trivial, trivial⟩, trivial⟩
  exact ⟨hstored, hnnf, construction_ends hstored hnnf⟩

end TemporalCheck.Tableau
