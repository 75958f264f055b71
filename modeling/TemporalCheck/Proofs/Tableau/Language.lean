import TemporalCheck.Proofs.Automaton.Run
import TemporalCheck.Proofs.Tableau
import TemporalCheck.Proofs.Word

/-!
# TemporalCheck.Proofs.Tableau.Language

The language of the automaton of a formula.  The states of the automaton are the covers of the
finished construction behind a seed, so its accepted runs are the sequences of covers that fulfil a
word (`Tableau.Realizes.accepts_iff_exists`), and a word in which the formula holds chooses such a
sequence.  The automaton accepts a word exactly if the formula holds in it behind the first letter
(`Tableau.yields_construct`).
-/

namespace TemporalCheck

namespace Tableau

open Forest

variable {f : Forest} {u : NatSet} {root : NodeId}

/-! ## The states of the automaton -/

/-- A state asks for what the literals of a cover say, and the table knows their variables. -/
structure Reads (f : Forest) (vars : Vars) (c : Cover) (st : AutomatonState) : Prop where
  known : ∀ e ∈ c.old, ∀ s, f.sign? e = some s → ∃ l, s.literal? vars = some l
  mem_required : ∀ v, v ∈ st.required ↔
    ∃ e ∈ c.old, ∃ s, f.sign? e = some s ∧ s.literal? vars = some (.holds v)
  mem_forbidden : ∀ v, v ∈ st.forbidden ↔
    ∃ e ∈ c.old, ∃ s, f.sign? e = some s ∧ s.literal? vars = some (.fails v)

variable {vars vars' : Vars} {c : Cover} {st : AutomatonState}

/-- A state reads a cover also in a larger table of variables. -/
theorem Reads.mono (h : Reads f vars c st) (hv : vars.Extends vars') : Reads f vars' c st := by
  -- What is known keeps its number, so nothing else gets that number.
  have hsame : ∀ e ∈ c.old, ∀ s, f.sign? e = some s → s.literal? vars' = s.literal? vars := by
    intro e he s hs
    obtain ⟨l, hl⟩ := h.known e he s hs
    rw [Sign.literal?_mono hv hl, hl]
  have hiff : ∀ l, (∃ e ∈ c.old, ∃ s, f.sign? e = some s ∧ s.literal? vars' = some l) ↔
      ∃ e ∈ c.old, ∃ s, f.sign? e = some s ∧ s.literal? vars = some l := by
    intro l
    constructor
    · rintro ⟨e, he, s, hs, hl⟩
      exact ⟨e, he, s, hs, hsame e he s hs ▸ hl⟩
    · rintro ⟨e, he, s, hs, hl⟩
      exact ⟨e, he, s, hs, (hsame e he s hs).symm ▸ hl⟩
  constructor
  · intro e he s hs
    rw [hsame e he s hs]
    exact h.known e he s hs
  · intro v
    rw [h.mem_required, hiff]
  · intro v
    rw [h.mem_forbidden, hiff]

/-- A letter agrees with a state if it meets the literals of the cover. -/
theorem Reads.agrees_iff (h : Reads f vars c st) (hc : ∀ e ∈ c.old, ¬ f.Clashes c.old e)
    (letter : Nat → Prop) :
    st.Agrees letter ↔ ∀ e ∈ c.old, ∀ s, f.sign? e = some s →
      s.Holds fun name => ∃ k, vars.index? name = some k ∧ letter k := by
  constructor
  · intro hagrees e he s hs
    obtain ⟨l, hl⟩ := h.known e he s hs
    obtain ⟨positive, name⟩ := s
    cases name with
    | none =>
      cases positive with
      | true => trivial
      | false => exact hc e he ⟨_, hs, .inl rfl⟩
    | some name =>
      cases positive with
      | true =>
        obtain ⟨k, hk, rfl⟩ := Option.map_eq_some_iff.1 hl
        exact ⟨k, hk, hagrees.1 k ((h.mem_required k).2 ⟨e, he, _, hs, hl⟩)⟩
      | false =>
        obtain ⟨k, hk, rfl⟩ := Option.map_eq_some_iff.1 hl
        rintro ⟨k', hk', hletter⟩
        rw [hk] at hk'
        cases hk'
        exact hagrees.2 k ((h.mem_forbidden k).2 ⟨e, he, _, hs, hl⟩) hletter
  · intro hlits
    constructor
    · intro v hv
      obtain ⟨e, he, ⟨positive, name⟩, hs, hl⟩ := (h.mem_required v).1 hv
      have hlit := hlits e he _ hs
      cases positive <;> cases name <;> simp [Sign.literal?] at hl
      obtain ⟨k, hk, hletter⟩ := hlit
      rw [hl] at hk
      cases hk
      exact hletter
    · intro v hv hletter
      obtain ⟨e, he, ⟨positive, name⟩, hs, hl⟩ := (h.mem_forbidden v).1 hv
      have hlit := hlits e he _ hs
      cases positive <;> cases name <;> simp [Sign.literal?] at hl
      exact hlit ⟨v, hl, hletter⟩

/-- An automaton has the covers of a finished construction as its states, with the seed in front. -/
structure Realizes (f : Forest) (u : NatSet) (vars : Vars) (covers : Array Cover) (b : Automaton) :
    Prop where
  size_eq : b.size = covers.size
  initial_eq : b.initial = [0]
  contradictions_eq : b.contradictions = ∅
  mem_next : ∀ i < covers.size, ∀ j, j ∈ (b.stateD i).next ↔
    ∃ d, covers[j]? = some d ∧ i ∈ d.incoming
  reads : ∀ i c, covers[i]? = some c → Reads f vars c (b.stateD i)
  mem_acceptSets : ∀ set, set ∈ b.acceptSets ↔
    ∃ e x y, e ∈ u ∧ f.node? e = some (.binary .until x y) ∧ set = fulfilling covers e y

theorem Realizes.mono {covers : Array Cover} {b : Automaton} (h : Realizes f u vars covers b)
    (hv : vars.Extends vars') : Realizes f u vars' covers b :=
  { h with reads := fun i c hc => (h.reads i c hc).mono hv }

/-- An accept set has the states that do not promise `e`, and those that keep the promise with
`y`. -/
theorem mem_fulfilling {covers : Array Cover} {e y : NodeId} {i : Nat} :
    i ∈ fulfilling covers e y ↔ ∃ c, covers[i]? = some c ∧ (e ∉ c.old ∨ y ∈ c.old) := by
  unfold fulfilling
  rw [NatSet.mem_filter, NatSet.mem_interval]
  cases hc : covers[i]? with
  | none => simp
  | some c =>
    have hlt := (Array.getElem?_eq_some_iff.1 hc).1
    simp [hlt]

/-! ## Runs -/

section Runs

variable {finished : Array Cover} {b : Automaton} {ρ : Nat → Nat} {d : Nat → Cover}

/-- The covers of the states: the seed has the first one, which asks for nothing. -/
def behindSeed (finished : Array Cover) : Array Cover := #[({} : Cover)] ++ finished

@[simp] theorem size_behindSeed (finished : Array Cover) :
    (behindSeed finished).size = finished.size + 1 := by
  simp [behindSeed, Nat.add_comm]

@[simp] theorem getElem?_behindSeed_succ (finished : Array Cover) (i : Nat) :
    (behindSeed finished)[i + 1]? = finished[i]? := by
  simp [behindSeed, Array.getElem?_append]

theorem getElem?_behindSeed_zero (finished : Array Cover) :
    (behindSeed finished)[0]? = some ({} : Cover) := by
  simp [behindSeed]

/-- A sequence of states and their covers, behind the seed. -/
structure Follows (finished : Array Cover) (ρ : Nat → Nat) (d : Nat → Cover) : Prop where
  start : ρ 0 = 0
  cover : ∀ i, (behindSeed finished)[ρ (i + 1)]? = some (d i)
  step : ∀ i, ρ i ∈ (d i).incoming

/-- The seed is not entered again. -/
theorem Follows.exists_finished (h : Follows finished ρ d) (i : Nat) :
    ∃ k, ρ (i + 1) = k + 1 ∧ finished[k]? = some (d i) := by
  have hcover := h.cover i
  cases hk : ρ (i + 1) with
  | zero =>
    have hstep := h.step i
    rw [hk, getElem?_behindSeed_zero] at hcover
    rw [← Option.some.inj hcover] at hstep
    exact absurd hstep (NatSet.not_mem_empty _)
  | succ k =>
    rw [hk, getElem?_behindSeed_succ] at hcover
    exact ⟨k, rfl, hcover⟩

theorem Follows.mem_finished (h : Follows finished ρ d) (i : Nat) : d i ∈ finished := by
  obtain ⟨k, -, hk⟩ := h.exists_finished i
  exact Array.mem_of_getElem? hk

/-- A state has worked off what the states before it ask for. -/
theorem Invariant.mem_old_of_duty (inv : Invariant f u root ⟨finished, []⟩) {c : Cover}
    (hc : c ∈ finished) {source : Nat} (hsource : source ∈ c.incoming) {duty : NatSet}
    (hduty : duty? root ⟨finished, []⟩ source = some duty) : ∀ e ∈ duty, e ∈ c.old := by
  intro e he
  obtain ⟨duty', hduty', hmem⟩ := inv.owed c (.inl hc) source hsource
  rw [hduty] at hduty'
  cases hduty'
  have hold := hmem e he
  rw [inv.done c hc] at hold
  exact hold.resolve_right (NatSet.not_mem_empty e)

/-- Along a sequence of states each one meets what the one before it asks for. -/
theorem Follows.owed (h : Follows finished ρ d) (inv : Invariant f u root ⟨finished, []⟩) :
    root ∈ (d 0).old ∧ ∀ i, ∀ e ∈ (d i).next, e ∈ (d (i + 1)).old := by
  constructor
  · have hduty : duty? root ⟨finished, []⟩ (ρ 0) = some (.singleton root) := by
      rw [h.start]
      rfl
    exact inv.mem_old_of_duty (h.mem_finished 0) (h.step 0) hduty root (NatSet.mem_singleton.2 rfl)
  · intro i
    obtain ⟨k, hk, hcover⟩ := h.exists_finished i
    have hduty : duty? root ⟨finished, []⟩ (ρ (i + 1)) = some (d i).next := by
      rw [hk]
      simp [duty?, hcover]
    exact inv.mem_old_of_duty (h.mem_finished (i + 1)) (h.step (i + 1)) hduty

/-- The runs of the automaton are the sequences of states with their covers. -/
theorem Realizes.isRun_iff (hb : Realizes f u vars (behindSeed finished) b) :
    b.IsRun ρ ↔ ∃ d, Follows finished ρ d := by
  have hsize : 0 < (behindSeed finished).size := by simp
  constructor
  · rintro ⟨hstart, hstep⟩
    rw [hb.initial_eq, List.mem_singleton] at hstart
    have hlt : ∀ i, ρ i < (behindSeed finished).size := by
      intro i
      induction i with
      | zero => rwa [hstart]
      | succ i ih =>
        obtain ⟨d, hd, -⟩ := (hb.mem_next (ρ i) ih _).1 (hstep i)
        exact (Array.getElem?_eq_some_iff.1 hd).1
    choose d hd hincoming using fun i => (hb.mem_next (ρ i) (hlt i) _).1 (hstep i)
    exact ⟨d, hstart, hd, hincoming⟩
  · rintro ⟨d, h⟩
    refine ⟨by rw [h.start, hb.initial_eq]; simp, fun i => ?_⟩
    have hlt : ρ i < (behindSeed finished).size := by
      cases i with
      | zero => rwa [h.start]
      | succ i => exact (Array.getElem?_eq_some_iff.1 (h.cover i)).1
    exact (hb.mem_next (ρ i) hlt _).2 ⟨d i, h.cover i, h.step i⟩

/-- The automaton accepts a word if the covers along one of its runs fulfil it. -/
theorem Realizes.accepts_iff_exists (hb : Realizes f u vars (behindSeed finished) b)
    (inv : Invariant f u root ⟨finished, []⟩) (w : Word Nat) :
    b.Accepts w ↔ ∃ ρ d, Follows finished ρ d ∧ Fulfils f u (vars.read w.tail) d := by
  -- Over a word the seed asks for nothing, and each other state for its literals.
  have hagrees : ∀ {ρ d}, Follows finished ρ d → ((∀ i, (b.stateD (ρ i)).Agrees (w i)) ↔
      ∀ i, ∀ e ∈ (d i).old, ∀ s, f.sign? e = some s → s.Holds (vars.read w.tail i)) := by
    intro ρ d h
    have hiff : ∀ i, (b.stateD (ρ (i + 1))).Agrees (w (i + 1)) ↔
        ∀ e ∈ (d i).old, ∀ s, f.sign? e = some s → s.Holds (vars.read w.tail i) := fun i =>
      (hb.reads _ _ (h.cover i)).agrees_iff (inv.sound _ (.inl (h.mem_finished i))).consistent _
    constructor
    · exact fun hall i => (hiff i).1 (hall (i + 1))
    · intro hall i
      cases i with
      | zero =>
        rw [h.start, (hb.reads 0 {} (getElem?_behindSeed_zero finished)).agrees_iff
          fun e he => absurd he (NatSet.not_mem_empty e)]
        exact fun e he => absurd he (NatSet.not_mem_empty e)
      | succ i => exact (hiff i).2 (hall i)
  have hfair : ∀ {ρ d}, Follows finished ρ d → (b.IsFair ρ ↔
      ∀ e x y, e ∈ u → f.node? e = some (.binary .until x y) →
        InfinitelyOften fun i => e ∉ (d i).old ∨ y ∈ (d i).old) := by
    intro ρ d h
    have hset : ∀ e y, InfinitelyOften (fun i => ρ i ∈ fulfilling (behindSeed finished) e y) ↔
        InfinitelyOften fun i => e ∉ (d i).old ∨ y ∈ (d i).old := by
      intro e y
      rw [← InfinitelyOften.shift_iff]
      simp only [mem_fulfilling, h.cover, Option.some.injEq, exists_eq_left']
    constructor
    · intro hall e x y he hnode
      exact (hset e y).1 (hall _ ((hb.mem_acceptSets _).2 ⟨e, x, y, he, hnode, rfl⟩))
    · intro hall set hmem
      obtain ⟨e, x, y, he, hnode, rfl⟩ := (hb.mem_acceptSets set).1 hmem
      exact (hset e y).2 (hall e x y he hnode)
  constructor
  · rintro ⟨ρ, ⟨hrun, hover⟩, hfairRun⟩
    obtain ⟨d, h⟩ := hb.isRun_iff.1 hrun
    exact ⟨ρ, d, h, {
      sound := fun i => inv.sound _ (.inl (h.mem_finished i))
      done := fun i => inv.done _ (h.mem_finished i)
      follows := (h.owed inv).2
      literals := (hagrees h).1 hover
      fair := (hfair h).1 hfairRun }⟩
  · rintro ⟨ρ, d, h, hful⟩
    exact ⟨ρ, ⟨hb.isRun_iff.2 ⟨d, h⟩, (hagrees h).2 hful.literals⟩, (hfair h).2 hful.fair⟩

/-- A word in which the formula holds chooses a run whose covers it meets. -/
theorem exists_follows (inv : Invariant f u root ⟨finished, []⟩) {w : Word String}
    (hroot : f.Holds w root 0) :
    ∃ ρ d, Follows finished ρ d ∧ ∀ i, (d i).Meets f w i := by
  obtain ⟨ρ, hstart, hstep⟩ := exists_sequence
    (P := fun i source => ∃ duty, duty? root ⟨finished, []⟩ source = some duty ∧
      ∀ e ∈ duty, f.Holds w e i)
    (R := fun i source target => ∃ c, (behindSeed finished)[target]? = some c ∧
      source ∈ c.incoming ∧ c.Meets f w i)
    (a := 0) ⟨.singleton root, rfl, fun e he => NatSet.mem_singleton.1 he ▸ hroot⟩
    (by
      rintro i source ⟨duty, hduty, hholds⟩
      obtain ⟨c, hc, hsource, hmeets⟩ := inv.served w i source duty hduty hholds
      obtain ⟨k, hk⟩ := Array.mem_iff_getElem?.1 (hc.resolve_right List.not_mem_nil)
      exact ⟨k + 1, ⟨c.next, by simp [duty?, hk], hmeets.later⟩, c, by simpa using hk, hsource,
        hmeets⟩)
  choose d hd hsource hmeets using fun i => (hstep i).2
  exact ⟨ρ, d, ⟨hstart, hd, hsource⟩, hmeets⟩

/-- The automaton of a formula accepts a word exactly if the formula holds in it behind the first
letter. -/
theorem Realizes.accepts_iff (hb : Realizes f u vars (behindSeed finished) b)
    (inv : Invariant f u root ⟨finished, []⟩) (hu : f.IsUniverse u) {e : Expr}
    (he : f.Denotes root e) (hnnf : e.IsNegationNormal) (w : Word Nat) :
    b.Accepts w ↔ e.HoldsOf (vars.read w.tail) := by
  rw [hb.accepts_iff_exists inv]
  constructor
  · rintro ⟨ρ, d, h, hful⟩
    exact he.holds_iff.1 (holds_of_covers hful he hnnf (h.owed inv).1)
  · intro hholds
    obtain ⟨ρ, d, h, hmeets⟩ := exists_follows inv (he.holds_iff.2 hholds)
    exact ⟨ρ, d, h, Fulfils.of_meets (fun i => inv.sound _ (.inl (h.mem_finished i)))
      (fun i => inv.done _ (h.mem_finished i)) (h.owed inv).2 hmeets hu⟩

/-- The automaton of the covers leads to its own states only. -/
theorem Realizes.wellFormed {covers : Array Cover} (hb : Realizes f u vars covers b)
    (hpos : 0 < covers.size) : b.WellFormed := by
  refine Automaton.wellFormed_of_stateD (fun s hs => ?_) (fun s t ht => ?_) fun set hset s hs => ?_
  · rw [hb.initial_eq, List.mem_singleton] at hs
    rwa [hb.size_eq, hs]
  · have hs := Automaton.lt_size_of_mem_next ht
    rw [hb.size_eq] at hs ⊢
    obtain ⟨d, hd, -⟩ := (hb.mem_next s hs t).1 ht
    exact (Array.getElem?_eq_some_iff.1 hd).1
  · obtain ⟨e, x, y, -, -, rfl⟩ := (hb.mem_acceptSets set).1 hset
    obtain ⟨c, hc, -⟩ := mem_fulfilling.1 hs
    rw [hb.size_eq]
    exact (Array.getElem?_eq_some_iff.1 hc).1

/-- The variable of a literal has a number. -/
theorem numbers_of_literal? {s : Sign} {v : Nat}
    (h : s.literal? vars = some (.holds v) ∨ s.literal? vars = some (.fails v)) :
    vars.Numbers v := by
  obtain ⟨positive, name⟩ := s
  cases positive <;> cases name <;> simp [Sign.literal?] at h
  all_goals exact ⟨_, h⟩

/-- A transition enters a state behind the seed, from one of its predecessors. -/
theorem Realizes.exists_of_mem_next (hb : Realizes f u vars (behindSeed finished) b) {s t : Nat}
    (ht : t ∈ (b.stateD s).next) :
    s < finished.size + 1 ∧ ∃ k d, t = k + 1 ∧ finished[k]? = some d ∧ s ∈ d.incoming := by
  have hs := Automaton.lt_size_of_mem_next ht
  rw [hb.size_eq] at hs
  obtain ⟨d, hd, hsource⟩ := (hb.mem_next s hs t).1 ht
  rw [size_behindSeed] at hs
  refine ⟨hs, ?_⟩
  cases t with
  | zero =>
    rw [getElem?_behindSeed_zero] at hd
    cases hd
    exact absurd hsource (NatSet.not_mem_empty s)
  | succ k =>
    rw [getElem?_behindSeed_succ] at hd
    exact ⟨k, d, rfl, hd, hsource⟩

/-- The automaton starts in its seed, which nothing leads to and which asks for nothing, and it asks
for known variables only. -/
theorem Realizes.seeded (hb : Realizes f u vars (behindSeed finished) b) :
    b.Seeded vars.Numbers := by
  have hseed := hb.reads 0 {} (getElem?_behindSeed_zero finished)
  have hstate : ∀ s, s < b.size → ∃ c, Reads f vars c (b.stateD s) := by
    intro s hs
    rw [hb.size_eq] at hs
    exact ⟨_, hb.reads s _ (Array.getElem?_eq_getElem hs)⟩
  constructor
  case unentered =>
    intro s t ht hinit
    rw [hb.initial_eq, List.mem_singleton] at hinit
    obtain ⟨-, k, d, hk, -⟩ := hb.exists_of_mem_next ht
    omega
  case required_initial =>
    intro s hs
    rw [hb.initial_eq, List.mem_singleton] at hs
    subst hs
    refine NatSet.eq_empty_iff.2 fun v hv => ?_
    obtain ⟨e, he, -⟩ := (hseed.mem_required v).1 hv
    exact NatSet.not_mem_empty e he
  case forbidden_initial =>
    intro s hs
    rw [hb.initial_eq, List.mem_singleton] at hs
    subst hs
    refine NatSet.eq_empty_iff.2 fun v hv => ?_
    obtain ⟨e, he, -⟩ := (hseed.mem_forbidden v).1 hv
    exact NatSet.not_mem_empty e he
  case known_of_mem =>
    intro s v hv
    by_cases hs : s < b.size
    · obtain ⟨c, hreads⟩ := hstate s hs
      obtain hv | hv := hv
      · obtain ⟨e, -, sign, -, hl⟩ := (hreads.mem_required v).1 hv
        exact numbers_of_literal? (.inl hl)
      · obtain ⟨e, -, sign, -, hl⟩ := (hreads.mem_forbidden v).1 hv
        exact numbers_of_literal? (.inr hl)
    · rw [Automaton.stateD_of_size_le (Nat.le_of_not_lt hs)] at hv
      exact absurd hv (not_or.2 ⟨NatSet.not_mem_empty v, NatSet.not_mem_empty v⟩)

end Runs

/-! ## The construction -/

/-- The literals among some subformulas, with their variables numbered. -/
theorem yields_literalsOf {context : Context} (hf : context.forest = f) {ids : NatSet}
    (hids : ∀ id ∈ ids, ∃ e, f.Denotes id e) :
    Yields (literalsOf ids) context fun ls context' => context.Grows context' ∧
      (∀ e ∈ ids, ∀ s, f.sign? e = some s → ∃ l, s.literal? context'.vars = some l) ∧
      ∀ l, l ∈ ls ↔ ∃ e ∈ ids, ∃ s, f.sign? e = some s ∧ s.literal? context'.vars = some l := by
  have hall := Yields.filterMapM (c := context) (l := ids.toList) (g := Work.literal?)
    (R := fun id l c => Work.Numbered (f.sign? id) l c) (fun _ _ _ _ h hc => h.grows hc)
    (by
      intro id hid c hc
      obtain ⟨e, he⟩ := hids id hid
      have hforest : c.forest = f := hc.forest_eq.trans hf
      have hlit := Work.yields_literal? (c := c) (hforest ▸ he)
      rw [hforest] at hlit
      exact hlit.mono fun _ _ hl => ⟨hl.grows, hl.numbered⟩)
  refine hall.mono fun ls context' h => ?_
  obtain ⟨hgrows, hgiven, hfrom⟩ := h
  have hliteral : ∀ e ∈ ids, ∀ s, f.sign? e = some s →
      ∃ l ∈ ls, s.literal? context'.vars = some l := by
    intro e he s hs
    obtain ⟨o, ho, hmem⟩ := hgiven e he
    cases o with
    | none => exact absurd (ho.eq_none rfl) (by simp [hs])
    | some l => exact ⟨l, hmem l rfl, by simpa [hs] using ho.literal_eq.symm⟩
  refine ⟨hgrows, fun e he s hs => ?_, fun l => ⟨fun hl => ?_, ?_⟩⟩
  · obtain ⟨l, -, hl⟩ := hliteral e he s hs
    exact ⟨l, hl⟩
  · obtain ⟨e, he, hnum⟩ := hfrom l hl
    obtain ⟨s, hs, hsl⟩ := Option.bind_eq_some_iff.1 hnum.literal_eq.symm
    exact ⟨e, he, s, hs, hsl⟩
  · rintro ⟨e, he, s, hs, hsl⟩
    obtain ⟨l', hl', hsl'⟩ := hliteral e he s hs
    rw [hsl] at hsl'
    cases hsl'
    exact hl'

/-- A variable is required by the literals that say that it holds. -/
theorem mem_requiredBy {ls : List Literal} {v : Nat} : v ∈ requiredBy ls ↔ .holds v ∈ ls := by
  unfold requiredBy
  rw [NatSet.mem_ofList, List.mem_filterMap]
  constructor
  · rintro ⟨l, hl, heq⟩
    cases l <;> simp at heq
    exact heq ▸ hl
  · exact fun h => ⟨_, h, rfl⟩

/-- A variable is forbidden by the literals that say that it fails. -/
theorem mem_forbiddenBy {ls : List Literal} {v : Nat} : v ∈ forbiddenBy ls ↔ .fails v ∈ ls := by
  unfold forbiddenBy
  rw [NatSet.mem_ofList, List.mem_filterMap]
  constructor
  · rintro ⟨l, hl, heq⟩
    cases l <;> simp at heq
    exact heq ▸ hl
  · exact fun h => ⟨_, h, rfl⟩

/-- What a state of the automaton is to be: its transitions lead to the covers that name it, and it
asks for the literals of its own cover. -/
def IsStateOf (f : Forest) (covers : Array Cover) (vars : Vars) (i : Nat) (c : Cover)
    (st : AutomatonState) : Prop :=
  (∀ j, j ∈ st.next ↔ ∃ d, covers[j]? = some d ∧ i ∈ d.incoming) ∧ Reads f vars c st

/-- The state of a cover has its literals and leads to the covers that name it as where they come
from. -/
theorem yields_toState {context : Context} (hf : context.forest = f) {covers : Array Cover}
    {i : Nat} {c : Cover} (hc : ∀ e ∈ c.old, ∃ x, f.Denotes e x) :
    Yields (toState covers i c) context fun st context' =>
      context.Grows context' ∧ IsStateOf f covers context'.vars i c st := by
  refine .bind ((yields_literalsOf hf hc).mono fun ls context' h => .pure ⟨h.1, fun j => ?_, ?_⟩)
  · rw [List.mem_filter, List.mem_range]
    cases hj : covers[j]? with
    | none => simp
    | some d =>
      have hlt := (Array.getElem?_eq_some_iff.1 hj).1
      simp [hlt]
  · obtain ⟨-, hknown, hmem⟩ := h
    exact ⟨hknown, fun v => by rw [mem_requiredBy, hmem], fun v => by rw [mem_forbiddenBy, hmem]⟩

/-- Every cover that is worked off, and the seed, gives a state. -/
theorem yields_states {context : Context} {finished : Array Cover} (hf : context.forest = f)
    (hu : f.IsUniverse u) (inv : Invariant f u root ⟨finished, []⟩) :
    Yields ((behindSeed finished).toList.zipIdx.mapM fun p => toState (behindSeed finished) p.2 p.1)
      context fun states context' => context.Grows context' ∧
        List.Forall₂ (fun p st => IsStateOf f (behindSeed finished) context'.vars p.2 p.1 st)
          (behindSeed finished).toList.zipIdx states := by
  have hdenotes : ∀ (i : Nat) (c : Cover), (behindSeed finished)[i]? = some c →
      ∀ e ∈ c.old, ∃ x, f.Denotes e x := by
    intro i c hc e he
    cases i with
    | zero =>
      rw [getElem?_behindSeed_zero] at hc
      cases hc
      exact absurd he (NatSet.not_mem_empty e)
    | succ i =>
      rw [getElem?_behindSeed_succ] at hc
      have hsound := inv.sound c (.inl (Array.mem_of_getElem? hc))
      obtain ⟨x, hx, -⟩ := hu.normal e (hsound.within e (.inl he))
      exact ⟨x, hx⟩
  refine Yields.mapM
    (R := fun (p : Cover × Nat) st c => IsStateOf f (behindSeed finished) c.vars p.2 p.1 st)
    (fun _ _ _ _ h hc => ⟨h.1, h.2.mono hc.vars⟩) ?_
  rintro ⟨c, i⟩ hmem c' hc'
  have hget : (behindSeed finished)[i]? = some c := by
    simpa using List.mem_zipIdx_iff_getElem?.1 hmem
  exact yields_toState (hc'.forest_eq.trans hf) (hdenotes i c hget)

/-- There is one accept set for each `U` among the subformulas. -/
theorem yields_acceptSets {context : Context} (hf : context.forest = f) {covers : Array Cover}
    (hu : f.IsUniverse u) :
    Yields (u.toList.filterMapM fun e => do
        match ← Work.node e with
        | .binary .until _ y => return some (fulfilling covers e y)
        | _ => return none : Work (List NatSet)) context fun sets context' =>
      context.Grows context' ∧ ∀ set, set ∈ sets ↔ ∃ e x y, e ∈ u ∧
        f.node? e = some (.binary .until x y) ∧ set = fulfilling covers e y := by
  have hall := Yields.filterMapM (c := context) (l := u.toList)
    (g := fun e => do
      match ← Work.node e with
      | .binary .until _ y => return some (fulfilling covers e y)
      | _ => return none)
    (R := fun e o _ =>
      (∀ x y, f.node? e = some (.binary .until x y) → o = some (fulfilling covers e y)) ∧
        ∀ set, o = some set →
          ∃ x y, f.node? e = some (.binary .until x y) ∧ set = fulfilling covers e y)
    (fun _ _ _ _ h _ => h)
    (by
      intro e he c hc
      obtain ⟨x, hx, -⟩ := hu.normal e he
      obtain ⟨node, hnode⟩ := hx.exists_node
      have hforest : c.forest = f := hc.forest_eq.trans hf
      refine .bind ((Work.yields_node (hforest ▸ hnode)).mono fun n c' h => ?_)
      obtain ⟨rfl, rfl⟩ := h
      split
      · next x y => exact .pure ⟨.refl c', by simp [hnode], by simp [hnode]⟩
      · next hne =>
        refine .pure ⟨.refl c', fun x y h => ?_, by simp⟩
        rw [hnode] at h
        exact absurd (Option.some.inj h) (hne x y))
  refine hall.mono fun sets context' h => ⟨h.1, fun set => ⟨fun hset => ?_, ?_⟩⟩
  · obtain ⟨e, he, -, hR⟩ := h.2.2 set hset
    obtain ⟨x, y, hnode, rfl⟩ := hR set rfl
    exact ⟨e, x, y, he, hnode, rfl⟩
  · rintro ⟨e, x, y, he, hnode, rfl⟩
    obtain ⟨o, ⟨ho, -⟩, hmem⟩ := h.2.1 e he
    exact hmem _ (ho x y hnode)

/-- Working off all covers meets no fault and leaves nothing pending, and the construction gives the
automaton of the covers. -/
theorem exists_complete {context : Context} {root : NodeId} {e : Expr}
    (h : context.forest.Denotes root e) (hnnf : e.IsNegationNormal) :
    ∃ u finished context₁,
      complete (stepBound (subformulaCount context.forest root)) (start root) context =
        .ok (finished, context₁) ∧
      context.forest.IsUniverse u ∧ Invariant context.forest u root ⟨finished, []⟩ ∧
      Yields (construct root) context fun b context' => context.Grows context' ∧
        Realizes context.forest u context'.vars (behindSeed finished) b := by
  obtain ⟨ids, hreach, hids⟩ := exists_reachable h
  have hu := isUniverse_of_denotes h hnnf hids
  have hroot : root ∈ ids := (hids root).2 (.refl root)
  have hcount : subformulaCount context.forest root = ids.size := by
    simp [subformulaCount, hreach]
  have hcomplete := yields_complete hu rfl (invariant_start hroot) (effort_start_lt hroot)
  rw [← hcount] at hcomplete
  obtain ⟨finished, c₁, hok, hgrows₁, inv⟩ := hcomplete
  refine ⟨ids, finished, c₁, hok, hu, inv, .bind (.get (.bind ⟨finished, c₁, hok, ?_⟩))⟩
  refine .bind ((yields_states hgrows₁.forest_eq hu inv).mono fun states c₂ h₂ => ?_)
  obtain ⟨hgrows₂, hstates⟩ := h₂
  have hforest : c₂.forest = context.forest := hgrows₂.forest_eq.trans hgrows₁.forest_eq
  refine .bind (.get (.bind (.lift_work (hforest ▸ hreach) ?_)))
  refine .bind ((yields_acceptSets hforest hu).mono fun sets c₃ h₃ => .pure ?_)
  obtain ⟨hgrows₃, hsets⟩ := h₃
  have hlen : states.length = (behindSeed finished).size := by
    simpa using hstates.length_eq.symm
  -- The state with a given number is the one of the cover with that number.
  have hstate : ∀ i c, (behindSeed finished)[i]? = some c →
      IsStateOf context.forest (behindSeed finished) c₂.vars i c
        (Automaton.stateD { states := states.toArray, initial := [0], acceptSets := sets } i) := by
    intro i c hc
    have hi := (Array.getElem?_eq_some_iff.1 hc).1
    have hpair := hstates.get (i := i) (by simpa using hi) (by omega)
    have hlt : i < states.length := by omega
    have hcget : (behindSeed finished)[i] = c := (Array.getElem?_eq_some_iff.1 hc).2
    simpa [Automaton.stateD, hlt, hcget] using hpair
  refine ⟨(hgrows₁.trans hgrows₂).trans hgrows₃, ?_⟩
  refine ⟨by simpa [Automaton.size] using hlen, rfl, rfl, fun i hi j => ?_, fun i c hc => ?_, hsets⟩
  · exact (hstate i _ (Array.getElem?_eq_getElem hi)).1 j
  · exact (hstate i c hc).2.mono hgrows₃.vars

/-- The construction meets no fault, and gives the automaton of the covers that it finishes. -/
theorem yields_construct_realizes {context : Context} {root : NodeId} {e : Expr}
    (h : context.forest.Denotes root e) (hnnf : e.IsNegationNormal) :
    Yields (construct root) context fun b context' => context.Grows context' ∧
      ∃ u finished, context.forest.IsUniverse u ∧
        Invariant context.forest u root ⟨finished, []⟩ ∧
        Realizes context.forest u context'.vars (behindSeed finished) b := by
  obtain ⟨u, finished, -, -, hu, inv, hconstruct⟩ := exists_complete h hnnf
  exact hconstruct.mono fun b context' h => ⟨h.1, u, finished, hu, inv, h.2⟩

/-- The automaton of a formula in negation normal form accepts a word exactly if the formula holds
in it behind the first letter, whatever further names the table of variables gets. -/
theorem yields_construct {context : Context} {root : NodeId} {e : Expr}
    (h : context.forest.Denotes root e) (hnnf : e.IsNegationNormal) :
    Yields (construct root) context fun b context' => context.Grows context' ∧ b.WellFormed ∧
      b.contradictions = ∅ ∧ b.Seeded context'.vars.Numbers ∧
      ∀ vars, context'.vars.Extends vars → ∀ w, b.Accepts w ↔ e.HoldsOf (vars.read w.tail) := by
  refine (yields_construct_realizes h hnnf).mono fun b context' hout => ?_
  obtain ⟨hgrows, u, finished, hu, inv, hb⟩ := hout
  refine ⟨hgrows, hb.wellFormed (by simp), hb.contradictions_eq, hb.seeded, fun vars hvars w => ?_⟩
  exact (hb.mono hvars).accepts_iff inv hu h hnnf w

/-- What a run meets of a word behind the seed, in two tables of which one has all entries of the
other. -/
theorem agrees_letter_iff {b : Automaton} (hb : b.Seeded vars.Numbers) (hv : vars.Extends vars')
    (s : Nat) (a : String → Prop) :
    (b.stateD s).Agrees (vars'.letter a) ↔ (b.stateD s).Agrees (vars.letter a) := by
  have hreq := fun v hv' => hv.letter_iff (hb.known_of_mem s v (.inl hv')) a
  have hforb := fun v hv' => hv.letter_iff (hb.known_of_mem s v (.inr hv')) a
  unfold AutomatonState.Agrees
  rw [forall₂_congr hreq, forall₂_congr fun v hv' => (hforb v hv').not]

/-- **The tableau accepts exactly the words of the formula.**  The construction ends with an
automaton for every stored formula in negation normal form.  Its only initial state is the seed `0`,
and a formula holds of a word exactly if the automaton has a run from the seed whose further states
agree with the letters of the word, one after another, and which comes back to every accept set for
ever. -/
theorem construct_holdsOf_iff_exists_run {context : Context} {root : NodeId} {e : Expr}
    (h : context.forest.Denotes root e) (hnnf : e.IsNegationNormal) :
    ∃ b context', construct root context = .ok (b, context') ∧ context.Grows context' ∧
      b.initial = [0] ∧ b.WellFormed ∧
      ∀ w : Word String, e.HoldsOf w ↔ ∃ ρ : Nat → Nat, ρ 0 = 0 ∧
        (∀ i, ρ (i + 1) ∈ (b.stateD (ρ i)).next) ∧
        (∀ i, (b.stateD (ρ (i + 1))).Agrees (context'.vars.letter (w i))) ∧
        ∀ set ∈ b.acceptSets, ∀ n, ∃ i, n ≤ i ∧ ρ i ∈ set := by
  obtain ⟨b, context', hok, hgrows, u, finished, hu, inv, hb⟩ := yields_construct_realizes h hnnf
  refine ⟨b, context', hok, hgrows, hb.initial_eq, hb.wellFormed (by simp), fun w => ?_⟩
  -- The word is read with a table in which every variable of the formula has a number.
  obtain ⟨vars', hext, hcovers⟩ := context'.vars.exists_extends e
  rw [← Vars.holdsOf_read_spell hcovers w, ← (hb.mono hext).accepts_iff inv hu h hnnf]
  have hagrees := agrees_letter_iff hb.seeded hext
  constructor
  · rintro ⟨ρ, ⟨⟨hstart, hstep⟩, hover⟩, hfair⟩
    rw [hb.initial_eq, List.mem_singleton] at hstart
    exact ⟨ρ, hstart, hstep, fun i => (hagrees _ _).1 (hover (i + 1)), hfair⟩
  · rintro ⟨ρ, hstart, hstep, hover, hfair⟩
    have hinit : ρ 0 ∈ b.initial := by rw [hb.initial_eq, hstart]; exact List.mem_singleton_self 0
    refine ⟨ρ, ⟨⟨hinit, hstep⟩, fun i => ?_⟩, hfair⟩
    cases i with
    | zero => exact hb.seeded.agrees_initial hinit _
    | succ i => exact (hagrees _ _).2 (hover i)

/-- The formula `p U X q` in the last slot, with its operands out of order. -/
def storedUntil : Context where
  forest := { slots := #[some (.prop "q"), some (.unary .next 0), some (.prop "p"),
    some (.binary .until 2 1)] }

/-- The formula `p U X q` in the last slot of `storedUntil` has an automaton for its words. -/
theorem construct_holdsOf_iff_exists_run_stored :
    storedUntil.forest.Denotes 3 (.binary .until (.prop "p") (.unary .next (.prop "q"))) ∧
    ∃ b context', construct 3 storedUntil = .ok (b, context') ∧ storedUntil.Grows context' ∧
      b.initial = [0] ∧ b.WellFormed ∧
      ∀ w : Word String, (Expr.binary .until (.prop "p") (.unary .next (.prop "q"))).HoldsOf w ↔
        ∃ ρ : Nat → Nat, ρ 0 = 0 ∧ (∀ i, ρ (i + 1) ∈ (b.stateD (ρ i)).next) ∧
          (∀ i, (b.stateD (ρ (i + 1))).Agrees (context'.vars.letter (w i))) ∧
          ∀ set ∈ b.acceptSets, ∀ n, ∃ i, n ≤ i ∧ ρ i ∈ set :=
  have hstored : storedUntil.forest.Denotes 3
      (.binary .until (.prop "p") (.unary .next (.prop "q"))) := Forest.denotes_of_tree rfl
  ⟨hstored, construct_holdsOf_iff_exists_run hstored ⟨trivial, trivial⟩⟩

end Tableau

end TemporalCheck
