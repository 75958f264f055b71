import TemporalCheck.Proofs.Literal
import TemporalCheck.Proofs.NatSet
import TemporalCheck.Tableau

/-!
# TemporalCheck.Proofs.Cover

What working off one subformula does to a cover.  The unfolding laws are data here: each
subformula has its alternatives, and an alternative says what is to hold now and what next.
`Cover.Expands` lists what a step can do, and everything else is read off it:

* `Cover.Sound.expands`: the alternatives that were chosen stay, and no two literals clash, so that
  a cover has with each subformula what its unfolding law asks for when all is worked off;
* `Cover.Meets.expands`: a cover that a word meets has a branch that the word meets;
* `Cover.load_lt_of_expands`: less is left to work off.
-/

namespace TemporalCheck

/-! ## Alternatives -/

/-- What one way of meeting a subformula asks for now and next. -/
abbrev Alternative := List NodeId × List NodeId

/-- The ways of meeting a subformula that is no literal. -/
def Node.alternatives (e : NodeId) : Node → List Alternative
  | .binary .until a b => [([a], [e]), ([b], [])]
  | .binary .release a b => [([b], [e]), ([a, b], [])]
  | .binary .or a b => [([a], []), ([b], [])]
  | .binary .and a b => [([a, b], [])]
  | .unary .next a => [([], [a])]
  | _ => []

namespace Forest

/-- The ways of meeting a subformula.  A literal asks for no other subformula. -/
def alternatives (f : Forest) (e : NodeId) : List Alternative :=
  match f.sign? e with
  | some _ => [([], [])]
  | none => ((f.node? e).map (Node.alternatives e)).getD []

/-- Whether a stored formula holds at a point of a word. -/
def Holds (f : Forest) (w : Word String) (id : NodeId) (i : Nat) : Prop :=
  ∃ e, f.Denotes id e ∧ e.HoldsAt w i

/-- Whether a literal cannot hold together with some other subformulas. -/
def Clashes (f : Forest) (ids : NatSet) (e : NodeId) : Prop :=
  ∃ s, f.sign? e = some s ∧ (s = .bottom ∨ ∃ o ∈ ids, f.sign? o = some s.flip)

/-- A set of formulas in negation normal form that has what their alternatives ask for. -/
structure IsUniverse (f : Forest) (u : NatSet) : Prop where
  normal : ∀ id ∈ u, ∃ e, f.Denotes id e ∧ e.IsNegationNormal
  closed : ∀ id ∈ u, ∀ alt ∈ f.alternatives id, (∀ a ∈ alt.1, a ∈ u) ∧ ∀ a ∈ alt.2, a ∈ u

variable {f : Forest} {u : NatSet} {id : NodeId} {e : Expr} {w : Word String} {i : Nat}

theorem Denotes.holds_iff (h : f.Denotes id e) : f.Holds w id i ↔ e.HoldsAt w i := by
  constructor
  · rintro ⟨e', h', he⟩
    rwa [h.unique h']
  · exact fun he => ⟨e, h, he⟩

theorem Denotes.holds_eq (h : f.Denotes id e) : f.Holds w id = e.HoldsAt w :=
  funext fun _ => propext h.holds_iff

/-- A node holds where its operator says so of the operand. -/
theorem Denotes.holds_unary_iff {op : UnaryOp} {a : NodeId} (h : f.Denotes id e)
    (hnode : f.node? id = some (.unary op a)) :
    f.Holds w id i ↔ op.HoldsAt (f.Holds w a) i := by
  rw [h.holds_iff]
  cases h with
  | top h' | bottom h' | prop h' | binary h' => simp [h'] at hnode
  | unary h' hd =>
    rw [h'] at hnode
    cases hnode
    rw [hd.holds_eq]
    rfl

/-- A node holds where its operator says so of the operands. -/
theorem Denotes.holds_binary_iff {op : BinaryOp} {a b : NodeId} (h : f.Denotes id e)
    (hnode : f.node? id = some (.binary op a b)) :
    f.Holds w id i ↔ op.HoldsAt (f.Holds w a) (f.Holds w b) i := by
  rw [h.holds_iff]
  cases h with
  | top h' | bottom h' | prop h' | unary h' => simp [h'] at hnode
  | binary h' hl hr =>
    rw [h'] at hnode
    cases hnode
    rw [hl.holds_eq, hr.holds_eq]
    rfl

theorem Holds.sign {s : Sign} (h : f.Holds w id i) (hs : f.sign? id = some s) : s.Holds (w i) := by
  obtain ⟨e, he, hw⟩ := h
  exact (he.holdsAt_iff_of_sign? hs w i).1 hw

/-- What holds together does not clash. -/
theorem Holds.not_clashes {ids : NatSet} (h : f.Holds w id i) (hids : ∀ o ∈ ids, f.Holds w o i) :
    ¬ f.Clashes ids id := by
  rintro ⟨s, hs, hbot | ⟨o, ho, hflip⟩⟩
  · have hs := h.sign hs
    rw [hbot] at hs
    exact hs
  · have := (hids o ho).sign hflip
    rw [Sign.holds_flip] at this
    exact this (h.sign hs)

theorem alternatives_of_sign? {s : Sign} (hs : f.sign? id = some s) :
    f.alternatives id = [([], [])] := by
  simp [alternatives, hs]

theorem alternatives_of_node? {node : Node} (hs : f.sign? id = none)
    (hnode : f.node? id = some node) : f.alternatives id = node.alternatives id := by
  simp [alternatives, hs, hnode]

/-- A formula is worked off into at most two alternatives. -/
theorem length_alternatives_le (f : Forest) (id : NodeId) : (f.alternatives id).length ≤ 2 := by
  unfold alternatives
  split
  · simp
  · cases f.node? id with
    | none => simp
    | some node =>
      show (node.alternatives id).length ≤ 2
      unfold Node.alternatives
      split <;> simp

/-- An alternative puts at most two formulas up for work. -/
theorem length_fst_le_of_mem_alternatives {alt : Alternative} (h : alt ∈ f.alternatives id) :
    alt.1.length ≤ 2 := by
  unfold alternatives at h
  split at h
  · simp_all
  · cases hnode : f.node? id with
    | none => simp [hnode] at h
    | some node =>
      rw [hnode, Option.map_some, Option.getD_some] at h
      unfold Node.alternatives at h
      split at h <;> simp at h <;> grind

/-- A formula that holds is met in one of its ways.  An until is met by its second operand where
that holds. -/
theorem Holds.exists_alternative (h : f.Holds w id i)
    (hnnf : ∃ e, f.Denotes id e ∧ e.IsNegationNormal) :
    ∃ alt ∈ f.alternatives id, (∀ a ∈ alt.1, f.Holds w a i) ∧ (∀ a ∈ alt.2, f.Holds w a (i + 1)) ∧
      ∀ a b, f.node? id = some (.binary .until a b) → f.Holds w b i → b ∈ alt.1 := by
  obtain ⟨e, he, hnnf⟩ := hnnf
  cases hs : f.sign? id with
  | some s =>
    rw [alternatives_of_sign? hs]
    refine ⟨([], []), by simp, by simp, by simp, fun a b hnode => ?_⟩
    rw [sign?_of_ne_not hnode (by simp)] at hs
    cases hs
  | none =>
    obtain ⟨a, hnode⟩ | ⟨op, a, b, hnode, hop⟩ := he.cases_of_sign?_eq_none hnnf hs
    · have hnext := (he.holds_unary_iff hnode).1 h
      rw [alternatives_of_node? hs hnode]
      exact ⟨([], [a]), by simp [Node.alternatives], by simp,
        by simpa [UnaryOp.HoldsAt] using hnext, by simp [hnode]⟩
    · have hw := (he.holds_binary_iff hnode).1 h
      rw [alternatives_of_node? hs hnode]
      obtain rfl | rfl | rfl | rfl := hop
      · exact ⟨([a, b], []), by simp [Node.alternatives], by simpa [BinaryOp.HoldsAt] using hw,
          by simp, by simp [hnode]⟩
      · obtain hw | hw := hw
        · exact ⟨([a], []), by simp [Node.alternatives], by simpa using hw, by simp,
            by simp [hnode]⟩
        · exact ⟨([b], []), by simp [Node.alternatives], by simpa using hw, by simp,
            by simp [hnode]⟩
      · by_cases hb : f.Holds w b i
        · exact ⟨([b], []), by simp [Node.alternatives], by simpa using hb, by simp,
            by simp [hnode]⟩
        · obtain ⟨ha, hlater⟩ := (BinaryOp.holdsAt_until_iff.1 hw).resolve_left hb
          have hlater := (he.holds_binary_iff hnode).2 hlater
          exact ⟨([a], [id]), by simp [Node.alternatives], by simpa using ha, by simpa using hlater,
            by simp [hnode, hb]⟩
      · obtain ⟨hb, ha | hlater⟩ := BinaryOp.holdsAt_release_iff.1 hw
        · exact ⟨([a, b], []), by simp [Node.alternatives], by simpa using ⟨ha, hb⟩, by simp,
            by simp [hnode]⟩
        · have hlater := (he.holds_binary_iff hnode).2 hlater
          exact ⟨([b], [id]), by simp [Node.alternatives], by simpa using hb, by simpa using hlater,
            by simp [hnode]⟩

end Forest

/-! ## One step -/

namespace Cover

/-- The cover in which a subformula is worked off in one of its ways. -/
def branch (c : Cover) (e : NodeId) (alt : Alternative) : Cover :=
  { c with
    old := c.old.insert e
    new := alt.1.foldl .insert c.new
    next := alt.2.foldl .insert c.next }

/-- What one step can make of a cover with something left to work off. -/
inductive Expands (f : Forest) (c : Cover) : List Cover → Prop
  | known {e : NodeId} {rest : NatSet} (pop : c.new.popMax? = some (e, rest)) (mem : e ∈ c.old) :
    Expands f c [{ c with new := rest }]
  | clash {e : NodeId} {rest : NatSet} (pop : c.new.popMax? = some (e, rest))
    (clashes : f.Clashes c.old e) : Expands f c []
  | branches {e : NodeId} {rest : NatSet} (pop : c.new.popMax? = some (e, rest))
    (not_mem : e ∉ c.old) (consistent : ¬ f.Clashes c.old e) :
    Expands f c ((f.alternatives e).map (({ c with new := rest } : Cover).branch e))

/-- All subformulas of a cover belong to a universe. -/
def Within (u : NatSet) (c : Cover) : Prop :=
  ∀ e, e ∈ c.old ∨ e ∈ c.new ∨ e ∈ c.next → e ∈ u

variable {f : Forest} {u : NatSet} {c d : Cover} {covers : List Cover}

/-- A formula that is no literal splits a cover into one branch for each of its alternatives. -/
theorem split_eq {e : NodeId} {x : Expr} {node : Node} (c : Cover) (h : f.Denotes e x)
    (hnnf : x.IsNegationNormal) (hs : f.sign? e = none) (hnode : f.node? e = some node) :
    c.split e node = .ok ((f.alternatives e).map (c.branch e)) := by
  rw [Forest.alternatives_of_node? hs hnode]
  obtain ⟨a, hnode'⟩ | ⟨op, a, b, hnode', hop⟩ := h.cases_of_sign?_eq_none hnnf hs
  · rw [hnode'] at hnode
    cases hnode
    rfl
  · rw [hnode'] at hnode
    cases hnode
    obtain rfl | rfl | rfl | rfl := hop <;> rfl

/-- A literal contradicts what is worked off if it clashes with it. -/
theorem contradicts_iff_clashes {context : Context} {e : NodeId} {s : Sign} {l : Literal}
    (hs : context.forest.sign? e = some s) (hl : s.literal? context.vars = some l)
    (hbot : s ≠ .bottom) :
    c.contradicts context l = true ↔ context.forest.Clashes c.old e := by
  have hflip : s.flip.literal? context.vars = some l.negate := by
    rw [Sign.literal?_flip, hl, Option.map_some]
  simp only [contradicts, List.any_eq_true, decide_eq_true_eq, NatSet.mem_toList,
    Context.literal?_eq]
  constructor
  · intro h
    obtain ⟨o, ho, hlit⟩ := h
    obtain ⟨t, ht, htl⟩ := Option.bind_eq_some_iff.1 hlit
    exact ⟨s, hs, .inr ⟨o, ho, by rw [ht, Sign.literal?_inj htl hflip]⟩⟩
  · intro h
    obtain ⟨t, ht, hclash⟩ := h
    rw [hs] at ht
    cases ht
    obtain ⟨o, ho, hopp⟩ := hclash.resolve_left hbot
    exact ⟨o, ho, by rw [hopp, Option.bind_some, hflip]⟩

/-- What a step of a cover gives: nothing is left to work off, or one of the listed cases. -/
def Steps (f : Forest) (c : Cover) : CoverStep → Prop
  | .finished => c.new = ∅
  | .branches covers => c.Expands f covers

/-- A step meets no fault, and what it makes of a cover is one of the listed cases. -/
theorem yields_step {context : Context} (hu : context.forest.IsUniverse u) (hc : c.Within u) :
    Yields c.step context fun step context' =>
      context.Grows context' ∧ c.Steps context.forest step := by
  unfold step
  split
  · next hnone => exact .pure ⟨.refl context, NatSet.popMax?_eq_none.1 hnone⟩
  · next e rest hpop =>
    by_cases hmem : e ∈ c.old
    · rw [if_pos hmem]
      exact .pure ⟨.refl context, .known hpop hmem⟩
    · rw [if_neg hmem]
      obtain ⟨x, hx, hnnf⟩ := hu.normal e (hc e (.inr (.inl (NatSet.mem_of_popMax?_fst hpop))))
      refine .bind ((Work.yields_literal? hx).mono fun l context' hl => ?_)
      obtain ⟨hgrows, ⟨hl, hnone⟩, -⟩ := hl
      have hforest := hgrows.forest_eq
      cases hs : context.forest.sign? e with
      | none =>
        rw [hs] at hl
        subst hl
        obtain ⟨node, hnode⟩ := hx.exists_node
        refine .bind ((Work.yields_node (hforest ▸ hnode)).mono fun n t ht => ?_)
        obtain ⟨rfl, rfl⟩ := ht
        have hclash : ¬ context.forest.Clashes c.old e := fun ⟨s, hs', _⟩ => by simp [hs] at hs'
        exact .bind (.lift_work (split_eq _ hx hnnf hs hnode)
          (.pure ⟨hgrows, .branches hpop hmem hclash⟩))
      | some s =>
        rw [hs, Option.bind_some] at hl
        cases l with
        | none => exact absurd (hnone rfl) (by simp [hs])
        | some l =>
          by_cases hbot : s = .bottom
          · subst hbot
            cases hl
            exact .pure ⟨hgrows, .clash hpop ⟨_, hs, .inl rfl⟩⟩
          · have hclash := contradicts_iff_clashes (c := { c with new := rest })
              (hforest ▸ hs) hl.symm hbot
            rw [hforest] at hclash
            -- What the three other kinds of literals do.
            have hkept : Yields (do
                let context ← get
                return CoverStep.branches (if ({ c with new := rest } : Cover).contradicts context l
                  then [] else [({ c with new := rest } : Cover).settle e]) : Work CoverStep)
                context' fun step context' =>
                  context.Grows context' ∧ c.Steps context.forest step := by
              refine .bind (.get (.pure ⟨hgrows, ?_⟩))
              split
              · next h => exact .clash hpop (hclash.1 h)
              · next h =>
                have hkeep := Expands.branches hpop hmem (mt hclash.2 h)
                rwa [Forest.alternatives_of_sign? hs] at hkeep
            cases l with
            | bottom => exact absurd (Sign.literal?_inj hl.symm rfl) hbot
            | top | holds | fails => exact hkept

/-! ## What every step keeps -/

/-- What holds of a cover while it is worked off: its subformulas belong to the universe, each one
that is worked off has one of its ways provided for, and the literals do not clash. -/
structure Sound (f : Forest) (u : NatSet) (c : Cover) : Prop where
  within : c.Within u
  provided : ∀ e ∈ c.old, ∃ alt ∈ f.alternatives e,
    (∀ a ∈ alt.1, a ∈ c.old ∨ a ∈ c.new) ∧ ∀ a ∈ alt.2, a ∈ c.next
  consistent : ∀ e ∈ c.old, ¬ f.Clashes c.old e

/-- Where nothing is left to work off, each subformula has one of its ways worked off with it. -/
theorem Sound.exists_alternative (h : c.Sound f u) (hnew : c.new = ∅) {e : NodeId}
    (he : e ∈ c.old) :
    ∃ alt ∈ f.alternatives e, (∀ a ∈ alt.1, a ∈ c.old) ∧ ∀ a ∈ alt.2, a ∈ c.next := by
  obtain ⟨alt, halt, hnow, hnext⟩ := h.provided e he
  refine ⟨alt, halt, fun a ha => ?_, hnext⟩
  have hmem := hnow a ha
  rw [hnew] at hmem
  exact hmem.resolve_right (NatSet.not_mem_empty a)

/-! ### The unfolding laws

What a cover with nothing left to work off has with a subformula, operator by operator. -/

section Unfolding

variable {e a b : NodeId} (h : c.Sound f u) (hnew : c.new = ∅) (he : e ∈ c.old)
include h hnew he

/-- A formula in negation normal form that has been worked off has one of its alternatives. -/
theorem Sound.exists_alternative_of_node? {node : Node} (hnode : f.node? e = some node)
    (hsign : node.sign? = none) (hne : ∀ arg, node ≠ .unary .not arg) :
    ∃ alt ∈ node.alternatives e, (∀ a ∈ alt.1, a ∈ c.old) ∧ ∀ a ∈ alt.2, a ∈ c.next := by
  have hnone : f.sign? e = none := (Forest.sign?_of_ne_not hnode hne).trans hsign
  rw [← Forest.alternatives_of_node? hnone hnode]
  exact h.exists_alternative hnew he

theorem Sound.of_and (hnode : f.node? e = some (.binary .and a b)) : a ∈ c.old ∧ b ∈ c.old := by
  obtain ⟨alt, halt, hnow, -⟩ := h.exists_alternative_of_node? hnew he hnode rfl (by simp)
  obtain rfl : alt = ([a, b], []) := by simpa [Node.alternatives] using halt
  exact ⟨hnow a (by simp), hnow b (by simp)⟩

theorem Sound.of_or (hnode : f.node? e = some (.binary .or a b)) : a ∈ c.old ∨ b ∈ c.old := by
  obtain ⟨alt, halt, hnow, -⟩ := h.exists_alternative_of_node? hnew he hnode rfl (by simp)
  obtain rfl | rfl : alt = ([a], []) ∨ alt = ([b], []) := by simpa [Node.alternatives] using halt
  · exact .inl (hnow a (by simp))
  · exact .inr (hnow b (by simp))

/-- What a state owes for `a U b`. -/
theorem Sound.of_until (hnode : f.node? e = some (.binary .until a b)) :
    b ∈ c.old ∨ a ∈ c.old ∧ e ∈ c.next := by
  obtain ⟨alt, halt, hnow, hnext⟩ := h.exists_alternative_of_node? hnew he hnode rfl (by simp)
  obtain rfl | rfl : alt = ([a], [e]) ∨ alt = ([b], []) := by simpa [Node.alternatives] using halt
  · exact .inr ⟨hnow a (by simp), hnext e (by simp)⟩
  · exact .inl (hnow b (by simp))

/-- What a state owes for `a R b`. -/
theorem Sound.of_release (hnode : f.node? e = some (.binary .release a b)) :
    b ∈ c.old ∧ (a ∈ c.old ∨ e ∈ c.next) := by
  obtain ⟨alt, halt, hnow, hnext⟩ := h.exists_alternative_of_node? hnew he hnode rfl (by simp)
  obtain rfl | rfl : alt = ([b], [e]) ∨ alt = ([a, b], []) := by
    simpa [Node.alternatives] using halt
  · exact ⟨hnow b (by simp), .inr (hnext e (by simp))⟩
  · exact ⟨hnow b (by simp), .inl (hnow a (by simp))⟩

theorem Sound.of_next (hnode : f.node? e = some (.unary .next a)) : a ∈ c.next := by
  obtain ⟨alt, halt, -, hnext⟩ := h.exists_alternative_of_node? hnew he hnode rfl (by simp)
  obtain rfl : alt = ([], [a]) := by simpa [Node.alternatives] using halt
  exact hnext a (by simp)

end Unfolding

/-- A cover that is just started is sound if what it asks for belongs to the universe. -/
theorem sound_started {incoming new : NatSet} (h : ∀ e ∈ new, e ∈ u) :
    ({ incoming, new } : Cover).Sound f u where
  within e he := by
    obtain he | he | he := he
    · exact absurd he (NatSet.not_mem_empty e)
    · exact h e he
    · exact absurd he (NatSet.not_mem_empty e)
  provided e he := absurd he (NatSet.not_mem_empty e)
  consistent e he := absurd he (NatSet.not_mem_empty e)

@[simp] theorem mem_old_branch {e k : NodeId} {alt : Alternative} :
    k ∈ (c.branch e alt).old ↔ k = e ∨ k ∈ c.old := NatSet.mem_insert

@[simp] theorem mem_new_branch {e k : NodeId} {alt : Alternative} :
    k ∈ (c.branch e alt).new ↔ k ∈ alt.1 ∨ k ∈ c.new := NatSet.mem_foldl_insert

@[simp] theorem mem_next_branch {e k : NodeId} {alt : Alternative} :
    k ∈ (c.branch e alt).next ↔ k ∈ alt.2 ∨ k ∈ c.next := NatSet.mem_foldl_insert

/-- A literal that does not clash clashes with none of the others afterwards either. -/
theorem not_clashes_insert {e o : NodeId} (he : ¬ f.Clashes c.old e)
    (hold : ∀ o ∈ c.old, ¬ f.Clashes c.old o) (ho : o = e ∨ o ∈ c.old) :
    ¬ f.Clashes (c.old.insert e) o := by
  intro hclash
  obtain ⟨s, hs, hbot | ⟨k, hk, hflip⟩⟩ := hclash
  · obtain rfl | ho := ho
    · exact he ⟨s, hs, .inl hbot⟩
    · exact hold o ho ⟨s, hs, .inl hbot⟩
  · obtain rfl | hmem := NatSet.mem_insert.1 hk
    · obtain rfl | ho := ho
      · have hself : s = s.flip := Option.some.inj (hs.symm.trans hflip)
        have hpos := congrArg Sign.positive hself
        simp [Sign.flip] at hpos
      · exact he ⟨s.flip, hflip, .inr ⟨o, ho, by rw [Sign.flip_flip, hs]⟩⟩
    · obtain rfl | ho := ho
      · exact he ⟨s, hs, .inr ⟨k, hmem, hflip⟩⟩
      · exact hold o ho ⟨s, hs, .inr ⟨k, hmem, hflip⟩⟩

/-- Working off a formula keeps a cover sound in each of its branches. -/
theorem Sound.expands (hu : f.IsUniverse u) (hc : c.Sound f u) (h : c.Expands f covers)
    (hd : d ∈ covers) : d.Sound f u := by
  cases h with
  | @known e rest hpop hmem =>
    rw [List.mem_singleton] at hd
    subst hd
    refine ⟨fun k hk => hc.within k ?_, fun k hk => ?_, hc.consistent⟩
    · exact hk.imp_right (Or.imp_left (NatSet.mem_of_popMax?_rest hpop))
    · obtain ⟨alt, halt, hnow, hnext⟩ := hc.provided k hk
      refine ⟨alt, halt, fun a ha => ?_, hnext⟩
      obtain h | h := hnow a ha
      · exact .inl h
      · obtain rfl | h := (NatSet.mem_of_popMax? hpop).1 h
        · exact .inl hmem
        · exact .inr h
  | clash => cases hd
  | @branches e rest hpop hmem hclash =>
    obtain ⟨alt, halt, rfl⟩ := List.mem_map.1 hd
    have he : e ∈ u := hc.within e (.inr (.inl (NatSet.mem_of_popMax?_fst hpop)))
    have hrest : ∀ k ∈ rest, k ∈ c.new := fun k => NatSet.mem_of_popMax?_rest hpop
    constructor
    · intro k hk
      simp only [mem_old_branch, mem_new_branch, mem_next_branch] at hk
      obtain (rfl | hk) | (hk | hk) | (hk | hk) := hk
      · exact he
      · exact hc.within k (.inl hk)
      · exact (hu.closed e he alt halt).1 k hk
      · exact hc.within k (.inr (.inl (hrest k hk)))
      · exact (hu.closed e he alt halt).2 k hk
      · exact hc.within k (.inr (.inr hk))
    · intro k hk
      simp only [mem_old_branch, mem_new_branch, mem_next_branch] at hk ⊢
      obtain rfl | hk := hk
      · exact ⟨alt, halt, fun a ha => .inr (.inl ha), fun a ha => .inl ha⟩
      · obtain ⟨alt', halt', hnow, hnext⟩ := hc.provided k hk
        refine ⟨alt', halt', fun a ha => ?_, fun a ha => .inr (hnext a ha)⟩
        obtain h | h := hnow a ha
        · exact .inl (.inr h)
        · obtain rfl | h := (NatSet.mem_of_popMax? hpop).1 h
          · exact .inl (.inl rfl)
          · exact .inr (.inr h)
    · intro k hk
      exact not_clashes_insert (c := c) hclash hc.consistent (NatSet.mem_insert.1 hk)

/-- What is left to work off or has been worked off stays so, and the predecessors do too. -/
theorem Expands.keeps (h : c.Expands f covers) (hd : d ∈ covers) :
    d.incoming = c.incoming ∧ ∀ k, k ∈ c.old ∨ k ∈ c.new → k ∈ d.old ∨ k ∈ d.new := by
  cases h with
  | @known e rest hpop hmem =>
    rw [List.mem_singleton] at hd
    subst hd
    refine ⟨rfl, fun k hk => ?_⟩
    obtain hk | hk := hk
    · exact .inl hk
    · obtain rfl | hk := (NatSet.mem_of_popMax? hpop).1 hk
      · exact .inl hmem
      · exact .inr hk
  | clash => cases hd
  | @branches e rest hpop =>
    obtain ⟨alt, halt, rfl⟩ := List.mem_map.1 hd
    refine ⟨rfl, fun k hk => ?_⟩
    simp only [mem_old_branch, mem_new_branch]
    obtain hk | hk := hk
    · exact .inl (.inr hk)
    · obtain rfl | hk := (NatSet.mem_of_popMax? hpop).1 hk
      · exact .inl (.inl rfl)
      · exact .inr (.inr hk)

/-! ## Words that meet a cover -/

/-- Whether everything that a cover asks for holds at a point of a word, and every until that is
worked off is met by its second operand where that holds. -/
structure Meets (f : Forest) (w : Word String) (i : Nat) (c : Cover) : Prop where
  now : ∀ e, e ∈ c.old ∨ e ∈ c.new → f.Holds w e i
  later : ∀ e ∈ c.next, f.Holds w e (i + 1)
  prompt : ∀ e a b, f.node? e = some (.binary .until a b) → e ∈ c.old → f.Holds w b i →
    b ∈ c.old ∨ b ∈ c.new

/-- A word meets a cover that is just started if what the cover asks for holds. -/
theorem meets_started {incoming new : NatSet} {w : Word String} {i : Nat}
    (h : ∀ e ∈ new, f.Holds w e i) : ({ incoming, new } : Cover).Meets f w i where
  now e he := h e (he.resolve_left (NatSet.not_mem_empty e))
  later e he := absurd he (NatSet.not_mem_empty e)
  prompt e _ _ _ he := absurd he (NatSet.not_mem_empty e)

/-- A cover that a word meets has a branch that the word meets. -/
theorem Meets.expands {w : Word String} {i : Nat} (hu : f.IsUniverse u) (hc : c.Sound f u)
    (hm : c.Meets f w i) (h : c.Expands f covers) : ∃ d ∈ covers, d.Meets f w i := by
  cases h with
  | @known e rest hpop hmem =>
    have hkeep := (Expands.known (f := f) hpop hmem).keeps (List.mem_singleton.2 rfl)
    refine ⟨_, List.mem_singleton.2 rfl, fun k hk => hm.now k ?_, hm.later, ?_⟩
    · exact hk.imp_right (NatSet.mem_of_popMax?_rest hpop)
    · intro k a b hnode hk hb
      exact hkeep.2 b (hm.prompt k a b hnode hk hb)
  | @clash e rest hpop hclash =>
    have hmem := NatSet.mem_of_popMax?_fst hpop
    exact absurd hclash ((hm.now e (.inr hmem)).not_clashes fun o ho => hm.now o (.inl ho))
  | @branches e rest hpop hmem hclash =>
    have he : e ∈ c.new := NatSet.mem_of_popMax?_fst hpop
    obtain ⟨alt, halt, hnow, hnext, hprompt⟩ :=
      (hm.now e (.inr he)).exists_alternative (hu.normal e (hc.within e (.inr (.inl he))))
    have hkeep := (Expands.branches hpop hmem hclash).keeps (List.mem_map_of_mem halt)
    refine ⟨_, List.mem_map_of_mem halt, ?_, ?_, ?_⟩
    · intro k hk
      simp only [mem_old_branch, mem_new_branch] at hk
      obtain (rfl | hk) | (hk | hk) := hk
      · exact hm.now k (.inr he)
      · exact hm.now k (.inl hk)
      · exact hnow k hk
      · exact hm.now k (.inr (NatSet.mem_of_popMax?_rest hpop hk))
    · intro k hk
      exact (mem_next_branch.1 hk).elim (hnext k) (hm.later k)
    · intro k a b hnode hk hb
      obtain rfl | hk := mem_old_branch.1 hk
      · exact .inr (mem_new_branch.2 (.inl (hprompt a b hnode hb)))
      · exact hkeep.2 b (hm.prompt k a b hnode hk hb)

/-! ## What is left to do -/

/-- A bound on the steps that a cover takes on each branch: each subformula is worked off once, and
adds at most two. -/
def load (u : NatSet) (c : Cover) : Nat := 3 * (u.size - c.old.size) + c.new.size

theorem load_le (hc : c.Within u) : c.load u ≤ 4 * u.size := by
  have hnew : c.new.size ≤ u.size := NatSet.size_le_of_subset fun k hk => hc k (.inr (.inl hk))
  unfold load
  omega

/-- Each branch has less to work off than the cover it stems from. -/
theorem load_lt_of_expands (hc : c.Within u) (h : c.Expands f covers) (hd : d ∈ covers) :
    d.load u < c.load u := by
  cases h with
  | @known e rest hpop hmem =>
    rw [List.mem_singleton] at hd
    subst hd
    have hsize := NatSet.size_popMax? hpop
    simp only [load]
    omega
  | clash => cases hd
  | @branches e rest hpop hmem =>
    obtain ⟨alt, halt, rfl⟩ := List.mem_map.1 hd
    have hsize := NatSet.size_popMax? hpop
    have hnew := NatSet.size_foldl_insert_le alt.1 rest
    have htwo := Forest.length_fst_le_of_mem_alternatives halt
    have hold := NatSet.size_insert_of_not_mem hmem
    have hroom : (c.old.insert e).size ≤ u.size := by
      refine NatSet.size_le_of_subset fun k hk => hc k ?_
      obtain rfl | hk := NatSet.mem_insert.1 hk
      · exact .inr (.inl (NatSet.mem_of_popMax?_fst hpop))
      · exact .inl hk
    simp only [load, branch]
    omega

theorem Expands.length_le (h : c.Expands f covers) : covers.length ≤ 2 := by
  cases h with
  | known | clash => simp
  | @branches e => simpa using f.length_alternatives_le e

end Cover

end TemporalCheck
