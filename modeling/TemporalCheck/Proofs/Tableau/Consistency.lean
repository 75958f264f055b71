import TemporalCheck.Proofs.Tableau.Language

/-!
# TemporalCheck.Proofs.Tableau.Consistency

The states of the automaton of a formula, read as sets of subformulas.  What holds of a cover while
it is worked off (`Cover.Sound`) says of a state, for which nothing is left to work off, that its
literals agree with one another and that it has with every subformula what the unfolding laws ask
for (`Cover.IsLocallyConsistent`).  A transition leads to a state that has what the state before it
asks for next (`Tableau.states_locally_consistent`).
-/

namespace TemporalCheck

/-! ## Codes of literals -/

theorem Literal.code_injective : Function.Injective Literal.code := by
  intro l l' h
  cases l <;> cases l' <;> simp only [code] at h
  all_goals first | rfl | omega | (congr 1; omega)

namespace Context

/-- The code of the literal that a node is, and zero for a node that is none. -/
def literalCode (c : Context) (id : NodeId) : Int := ((c.literal? id).map Literal.code).getD 0

/-- A node has the code of a literal if and only if it is that literal. -/
theorem literalCode_eq_code_iff {c : Context} {id : NodeId} {l : Literal} :
    c.literalCode id = l.code ↔ c.literal? id = some l := by
  unfold literalCode
  cases c.literal? id with
  | none => simpa using l.code_ne_zero.symm
  | some l' => simpa using Literal.code_injective.eq_iff

/-- Only literals have a code that is not zero. -/
theorem exists_of_literalCode_ne_zero {c : Context} {id : NodeId} (h : c.literalCode id ≠ 0) :
    ∃ l, c.literal? id = some l := by
  unfold literalCode at h
  cases hl : c.literal? id with
  | none => simp [hl] at h
  | some l => exact ⟨l, rfl⟩

/-- With at most `Literal.varLimit` variables, all codes are signed numbers of 32 bits. -/
theorem toInt_ofInt_literalCode {c : Context} (h : c.vars.size ≤ Literal.varLimit) (id : NodeId) :
    (Int32.ofInt (c.literalCode id)).toInt = c.literalCode id := by
  unfold literalCode
  cases hl : c.literal? id with
  | none => rfl
  | some l =>
    refine Literal.toInt_ofInt_code fun v hv => lt_of_lt_of_le ?_ h
    rw [literal?_eq] at hl
    obtain ⟨s, -, hs⟩ := Option.bind_eq_some_iff.1 hl
    exact Sign.var?_lt hs hv

end Context

/-! ## The subformulas of a state -/

namespace Cover

/-- What the subformulas of a state have in common.  Their literals are known, none of them is the
one that nothing meets and no two are opposite, and with each subformula the state has what the
unfolding law of its operator asks for now and next. -/
structure IsLocallyConsistent (context : Context) (c : Cover) : Prop where
  literal_eq : ∀ e ∈ c.old, Work.literal? e context = .ok (context.literal? e, context)
  code_ne : ∀ e ∈ c.old, context.literalCode e ≠ -1
  code_ne_neg : ∀ e ∈ c.old, ∀ o ∈ c.old, context.literalCode e ≠ 0 →
    context.literalCode o ≠ -context.literalCode e
  of_and : ∀ e ∈ c.old, ∀ a b, context.forest.node? e = some (.binary .and a b) →
    a ∈ c.old ∧ b ∈ c.old
  of_or : ∀ e ∈ c.old, ∀ a b, context.forest.node? e = some (.binary .or a b) →
    a ∈ c.old ∨ b ∈ c.old
  of_until : ∀ e ∈ c.old, ∀ a b, context.forest.node? e = some (.binary .until a b) →
    b ∈ c.old ∨ a ∈ c.old ∧ e ∈ c.next
  of_release : ∀ e ∈ c.old, ∀ a b, context.forest.node? e = some (.binary .release a b) →
    b ∈ c.old ∧ (a ∈ c.old ∨ e ∈ c.next)
  of_next : ∀ e ∈ c.old, ∀ a, context.forest.node? e = some (.unary .next a) → a ∈ c.next

variable {u : NatSet} {c : Cover} {context : Context}

/-- A cover with nothing left to work off is consistent in every context that knows its literals. -/
theorem Sound.isLocallyConsistent (h : c.Sound context.forest u)
    (hu : context.forest.IsUniverse u) (hnew : c.new = ∅)
    (hknown : ∀ e ∈ c.old, ∀ s, context.forest.sign? e = some s →
      ∃ l, s.literal? context.vars = some l) : c.IsLocallyConsistent context where
  literal_eq e he := by
    obtain ⟨x, hx, -⟩ := hu.normal e (h.within e (.inl he))
    exact Work.literal?_of_known hx (hknown e he)
  code_ne e he hcode := by
    have hbottom := Context.literalCode_eq_code_iff (l := .bottom).1 hcode
    rw [Context.literal?_eq] at hbottom
    obtain ⟨s, hs, hl⟩ := Option.bind_eq_some_iff.1 hbottom
    exact h.consistent e he ⟨s, hs, .inl (Sign.literal?_inj hl rfl)⟩
  code_ne_neg e he o ho hcode hopp := by
    obtain ⟨l, hl⟩ := Context.exists_of_literalCode_ne_zero hcode
    rw [Context.literalCode_eq_code_iff.2 hl, ← Literal.code_negate,
      Context.literalCode_eq_code_iff, Context.literal?_eq] at hopp
    rw [Context.literal?_eq] at hl
    obtain ⟨s, hs, hl⟩ := Option.bind_eq_some_iff.1 hl
    obtain ⟨t, ht, hopp⟩ := Option.bind_eq_some_iff.1 hopp
    have hflip : s.flip.literal? context.vars = some l.negate := by
      rw [Sign.literal?_flip, hl, Option.map_some]
    exact h.consistent e he ⟨s, hs, .inr ⟨o, ho, by rw [ht, Sign.literal?_inj hopp hflip]⟩⟩
  of_and _ he _ _ := h.of_and hnew he
  of_or _ he _ _ := h.of_or hnew he
  of_until _ he _ _ := h.of_until hnew he
  of_release _ he _ _ := h.of_release hnew he
  of_next _ he _ := h.of_next hnew he

end Cover

/-! ## The transitions between states -/

namespace Tableau

variable {f : Forest} {u : NatSet} {root : NodeId} {vars : Vars} {finished : Array Cover}
  {b : Automaton}

/-- A transition enters a state, which has worked off what the state that it leaves asks for. -/
theorem Realizes.owed (hb : Realizes f u vars (behindSeed finished) b)
    (inv : Invariant f u root ⟨finished, []⟩) {s t : Nat} (ht : t ∈ (b.stateD s).next) :
    ∃ k d, t = k + 1 ∧ finished[k]? = some d ∧ s ∈ d.incoming ∧
      (s = 0 ∧ root ∈ d.old ∨
        ∃ j c, s = j + 1 ∧ finished[j]? = some c ∧ ∀ e ∈ c.next, e ∈ d.old) := by
  obtain ⟨hs, k, d, rfl, hd, hsource⟩ := hb.exists_of_mem_next ht
  refine ⟨k, d, rfl, hd, hsource, ?_⟩
  have hmem := Array.mem_of_getElem? hd
  cases s with
  | zero =>
    exact .inl ⟨rfl, inv.mem_old_of_duty hmem hsource rfl root (NatSet.mem_singleton.2 rfl)⟩
  | succ j =>
    rw [Nat.add_lt_add_iff_right] at hs
    have hc := Array.getElem?_eq_getElem hs
    have hduty : duty? root ⟨finished, []⟩ (j + 1) = some finished[j].next := by
      simp [duty?, hc]
    exact .inr ⟨j, finished[j], rfl, hc, inv.mem_old_of_duty hmem hsource hduty⟩

/-- **The states of the automaton of a formula are locally consistent.**  For every stored formula
in negation normal form all covers are worked off, and they are the states of the automaton behind
the seed.  The literals of a state do not contradict one another, and with every subformula it has
what the unfolding laws ask for.  No transition enters the seed; one that leaves it leads to a state
that has the formula, and one from another state to a state that has all that is to hold next. -/
theorem states_locally_consistent {context : Context} {e : Expr}
    (h : context.forest.Denotes root e) (hnnf : e.IsNegationNormal) :
    ∃ finished context₁ b context',
      complete (stepBound (subformulaCount context.forest root)) (start root) context =
        .ok (finished, context₁) ∧
      construct root context = .ok (b, context') ∧ b.size = finished.size + 1 ∧
      (∀ c ∈ finished, c.IsLocallyConsistent context') ∧
      ∀ s t, t ∈ (b.stateD s).next → ∃ k d, t = k + 1 ∧ finished[k]? = some d ∧ s ∈ d.incoming ∧
        (s = 0 ∧ root ∈ d.old ∨
          ∃ j c, s = j + 1 ∧ finished[j]? = some c ∧ ∀ e ∈ c.next, e ∈ d.old) := by
  obtain ⟨u, finished, context₁, hcomplete, hu, inv, b, context', hok, hgrows, hb⟩ :=
    exists_complete h hnnf
  refine ⟨finished, context₁, b, context', hcomplete, hok, ?_, fun c hc => ?_,
    fun s t ht => hb.owed inv ht⟩
  · rw [hb.size_eq, size_behindSeed]
  · obtain ⟨k, hk⟩ := Array.mem_iff_getElem?.1 hc
    have hreads := hb.reads (k + 1) c ((getElem?_behindSeed_succ finished k).trans hk)
    have hforest := hgrows.forest_eq
    have hsound := inv.sound c (.inl hc)
    rw [← hforest] at hu hsound hreads
    exact hsound.isLocallyConsistent hu (inv.done c hc) hreads.known

/-- `(p & X !p) | (p U (!p R F))`, whose literals are shared. -/
theorem states_locally_consistent_shared :
    let context : Context :=
      { forest :=
          { slots := #[some (.prop "p"), some (.unary .not 0), none, some (.unary .next 1),
              some (.binary .and 0 3), some .bottom, some (.binary .release 1 5),
              some (.binary .until 0 6), some (.binary .or 4 7)]
            free := [2] } }
    let e : Expr := .binary .or
      (.binary .and (.prop "p") (.unary .next (.unary .not (.prop "p"))))
      (.binary .until (.prop "p") (.binary .release (.unary .not (.prop "p")) .bottom))
    context.forest.Denotes 8 e ∧ e.IsNegationNormal ∧
    ∃ finished context₁ b context',
      complete (stepBound (subformulaCount context.forest 8)) (start 8) context =
        .ok (finished, context₁) ∧
      construct 8 context = .ok (b, context') ∧ b.size = finished.size + 1 ∧
      (∀ c ∈ finished, c.IsLocallyConsistent context') ∧
      ∀ s t, t ∈ (b.stateD s).next → ∃ k d, t = k + 1 ∧ finished[k]? = some d ∧ s ∈ d.incoming ∧
        (s = 0 ∧ 8 ∈ d.old ∨
          ∃ j c, s = j + 1 ∧ finished[j]? = some c ∧ ∀ e ∈ c.next, e ∈ d.old) := by
  intro context e
  have hstored : context.forest.Denotes 8 e := Forest.denotes_of_tree rfl
  have hnnf : e.IsNegationNormal := ⟨⟨trivial, trivial⟩, trivial, trivial, trivial⟩
  exact ⟨hstored, hnnf, states_locally_consistent hstored hnnf⟩

end Tableau

end TemporalCheck
