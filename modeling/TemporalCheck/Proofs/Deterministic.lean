import TemporalCheck.Proofs.Branching.Check
import TemporalCheck.Proofs.Linear.Check
import TemporalCheck.Proofs.Reading.Model

/-!
# TemporalCheck.Proofs.Deterministic

Models in which every state has one successor.  From each state there is one path, so it does not
matter whether an operator speaks of all paths or of the path one is on: a linear-time formula holds
along the path exactly if the formula with quantified operators holds in the state the path is in
(`Expr.holdsIn_quantified_iff`).

The two checkers have nothing in common but this meaning.  Hence they agree on such models
(`checks_agree`).
-/

namespace TemporalCheck

/-! ## Quantified operators -/

/-- The operator that asks all paths for what an operator asks of one future. -/
def UnaryOp.quantified : UnaryOp → UnaryOp
  | .next => .allNext
  | .future => .allFinally
  | .global => .allGlobally
  | op => op

/-- The operator that asks all paths for what an operator asks of one future. -/
def BinaryOp.quantified : BinaryOp → BinaryOp
  | .until => .allUntil
  | op => op

namespace Expr

variable {e : Expr}

/-- The formula with `AX`, `AF`, `AG` and `A[ U ]` in the place of `X`, `F`, `G` and `U`. -/
def quantified : Expr → Expr
  | .top => .top
  | .bottom => .bottom
  | .prop name => .prop name
  | .unary op a => .unary op.quantified a.quantified
  | .binary op a b => .binary op.quantified a.quantified b.quantified

/-- Formulas of variables, `T`, `B`, `!`, `&`, `|`, `->`, `X`, `F`, `G` and `U`. -/
def IsPlain : Expr → Prop
  | .top | .bottom | .prop _ => True
  | .unary op a => op ∈ [.not, .next, .future, .global] ∧ a.IsPlain
  | .binary op a b => op ∈ [.implies, .and, .or, .until] ∧ a.IsPlain ∧ b.IsPlain

theorem usage_of_plain_unary : ∀ op ∈ [UnaryOp.not, .next, .future, .global],
    op.usage.branching = false ∧ op.quantified.usage.linear = false := by
  decide

theorem usage_of_plain_binary : ∀ op ∈ [BinaryOp.implies, .and, .or, .until],
    op.usage.branching = false ∧ op.quantified.usage.linear = false := by
  decide

/-- A plain formula belongs to linear time, and with quantified operators to branching time. -/
theorem IsPlain.usage (h : e.IsPlain) :
    e.usage.branching = false ∧ e.quantified.usage.linear = false := by
  induction e with
  | top | bottom | prop => exact ⟨rfl, rfl⟩
  | unary op a ih =>
    have hop := usage_of_plain_unary op h.1
    have ha := ih h.2
    simp [Expr.usage, quantified, hop, ha]
  | binary op a b iha ihb =>
    have hop := usage_of_plain_binary op h.1
    have ha := iha h.2.1
    have hb := ihb h.2.2
    simp [Expr.usage, quantified, hop, ha, hb]

end Expr

/-! ## Structures with one way on -/

namespace TransitionStructure

variable {k : TransitionStructure} {π : Nat → k.State} {i : Nat}

/-- Whether no state has two successors. -/
def IsDeterministic (k : TransitionStructure) : Prop := ∀ s t t', k.Step s t → k.Step s t' → t = t'

/-- A path from a state on a path is the rest of that path. -/
theorem IsDeterministic.eq_shift (hk : k.IsDeterministic) (hπ : k.IsPath π) {ρ : Nat → k.State}
    (hρ : k.IsPathFrom (π i) ρ) : ρ = fun j => π (i + j) := by
  funext j
  induction j with
  | zero => exact hρ.1
  | succ j ih =>
    have hstep := hρ.2 j
    rw [ih] at hstep
    exact hk _ _ _ hstep (hπ (i + j))

/-- With one path from each state, what holds of all paths from a state is what holds of the rest of
the path. -/
theorem IsDeterministic.forall_path_iff (hk : k.IsDeterministic) (hπ : k.IsPath π)
    (P : (Nat → k.State) → Prop) :
    (∀ ρ, k.IsPathFrom (π i) ρ → P ρ) ↔ P fun j => π (i + j) := by
  constructor
  · exact fun h => h _ ⟨rfl, fun j => hπ (i + j)⟩
  · intro h ρ hρ
    rwa [hk.eq_shift hπ hρ]

end TransitionStructure

/-- An operator with one operand sees the same from a later place as from the start of the rest. -/
theorem UnaryOp.holdsAt_shift {p : Nat → Prop} {i : Nat} (op : UnaryOp) :
    op.HoldsAt (fun j => p (i + j)) 0 ↔ op.HoldsAt p i := by
  have hexists : (∃ j, 0 ≤ j ∧ p (i + j)) ↔ ∃ j, i ≤ j ∧ p j :=
    ⟨fun ⟨j, _, hj⟩ => ⟨i + j, Nat.le_add_right i j, hj⟩,
      fun ⟨j, hij, hj⟩ => ⟨j - i, Nat.zero_le _, by rwa [Nat.add_sub_cancel' hij]⟩⟩
  have hforall : (∀ j, 0 ≤ j → p (i + j)) ↔ ∀ j, i ≤ j → p j :=
    ⟨fun h j hij => by simpa [Nat.add_sub_cancel' hij] using h (j - i) (Nat.zero_le _),
      fun h j _ => h (i + j) (Nat.le_add_right i j)⟩
  cases op with
  | not | next | allNext | existsNext => exact Iff.rfl
  | future | allFinally | existsFinally => exact hexists
  | global | allGlobally | existsGlobally => exact hforall

/-- The same for `U`, with the path quantifier in front. -/
theorem BinaryOp.holdsAt_allUntil_shift {p q : Nat → Prop} {i : Nat} :
    BinaryOp.allUntil.HoldsAt (fun j => p (i + j)) (fun j => q (i + j)) 0 ↔
      BinaryOp.until.HoldsAt p q i := by
  constructor
  · rintro ⟨j, -, hq, hp⟩
    refine ⟨i + j, Nat.le_add_right i j, hq, fun l hil hlj => ?_⟩
    have hl : p (i + (l - i)) := hp (l - i) (Nat.zero_le _) (by omega)
    rwa [Nat.add_sub_cancel' hil] at hl
  · rintro ⟨j, hij, hq, hp⟩
    rw [← Nat.add_sub_cancel' hij] at hq
    exact ⟨j - i, Nat.zero_le _, hq, fun l _ hl => hp (i + l) (Nat.le_add_right i l) (by omega)⟩

open TransitionStructure in
/-- Where there is one way on from every state, a formula holds along a path exactly if the formula
with quantified operators holds in the state that the path is in. -/
theorem Expr.holdsIn_quantified_iff {k : TransitionStructure} {π : Nat → k.State} {e : Expr}
    (hk : k.IsDeterministic) (hπ : k.IsPath π) (he : e.IsPlain) (i : Nat) :
    e.quantified.HoldsIn k (π i) ↔ e.HoldsAt (k.word π) i := by
  induction e generalizing i with
  | top | bottom | prop => exact Iff.rfl
  | unary op a ih =>
    obtain ⟨hop, ha⟩ := he
    have hsame : (fun j => a.quantified.HoldsIn k (π j)) = a.HoldsAt (k.word π) :=
      funext fun j => propext (ih ha j)
    have hpaths : ∀ op' : UnaryOp, (∀ ρ, k.IsPathFrom (π i) ρ →
        op'.HoldsAt (fun j => a.quantified.HoldsIn k (ρ j)) 0) ↔
        op'.HoldsAt (a.HoldsAt (k.word π)) i := by
      intro op'
      rw [hk.forall_path_iff hπ fun ρ => op'.HoldsAt (fun j => a.quantified.HoldsIn k (ρ j)) 0]
      rw [← hsame]
      exact op'.holdsAt_shift (p := fun j => a.quantified.HoldsIn k (π j))
    simp only [List.mem_cons, List.not_mem_nil, or_false] at hop
    obtain rfl | rfl | rfl | rfl := hop
    · exact not_congr (ih ha i)
    · exact hpaths .allNext
    · exact hpaths .allFinally
    · exact hpaths .allGlobally
  | binary op a b iha ihb =>
    obtain ⟨hop, ha, hb⟩ := he
    simp only [List.mem_cons, List.not_mem_nil, or_false] at hop
    obtain rfl | rfl | rfl | rfl := hop
    · exact imp_congr (iha ha i) (ihb hb i)
    · exact and_congr (iha ha i) (ihb hb i)
    · exact or_congr (iha ha i) (ihb hb i)
    · have hsame : (fun j => a.quantified.HoldsIn k (π j)) = a.HoldsAt (k.word π) :=
        funext fun j => propext (iha ha j)
      have hsame' : (fun j => b.quantified.HoldsIn k (π j)) = b.HoldsAt (k.word π) :=
        funext fun j => propext (ihb hb j)
      refine (hk.forall_path_iff hπ fun ρ => BinaryOp.allUntil.HoldsAt
        (fun j => a.quantified.HoldsIn k (ρ j)) (fun j => b.quantified.HoldsIn k (ρ j)) 0).trans ?_
      rw [Expr.HoldsAt, ← hsame, ← hsame']
      exact BinaryOp.holdsAt_allUntil_shift (p := fun j => a.quantified.HoldsIn k (π j))
        (q := fun j => b.quantified.HoldsIn k (π j))

/-! ## Models with one way on -/

namespace Model

variable {m : Model} {vars vars' : Vars} {s rest : Stream} {e : Expr}

/-- Whether every state has one successor, named once or several times. -/
def IsDeterministic (m : Model) : Prop :=
  ∀ p ∈ m.states, ∃ target, ∀ name, name ∈ p.2.successors ↔ name = target

/-- A deterministic model has a deterministic structure. -/
theorem IsDeterministic.toStructure (h : m.IsDeterministic) (vars : Vars) :
    (m.toStructure vars).IsDeterministic := by
  rintro s t t' ⟨name, st, hst, ht⟩ ⟨name', st', hst', ht'⟩
  rw [hst] at hst'
  cases hst'
  obtain ⟨target, htarget⟩ := h _ (List.mem_of_getElem? hst)
  obtain ⟨n, hn, hindex⟩ := List.mem_filterMap.1 ht
  obtain ⟨n', hn', hindex'⟩ := List.mem_filterMap.1 ht'
  rw [(htarget n).1 hn] at hindex
  rw [(htarget n').1 hn'] at hindex'
  exact Option.some.inj (hindex.symm.trans hindex')

/-- In a model that was read the initial states are declared. -/
theorem exists_index?_of_mem_initial (h : read vars s = .ok (.ok (m, rest), vars')) {name : Int}
    (hname : name ∈ m.initial) : ∃ i, m.index? name = some i := by
  obtain ⟨t, ts, rs, -, -, -, -, hm⟩ := read_eq_ok_iff.1 h
  obtain ⟨_, -, rfl⟩ := ofRecords_eq_ok_iff.1 hm
  refine Option.isSome_iff_exists.1 (index?_isSome_iff.2 ?_)
  simp only [described] at hname
  split at hname
  · simpa using hname
  · obtain ⟨r, hr, rfl⟩ := List.mem_map.1 hname
    simpa using ⟨r, (List.mem_filter.1 hr).1, rfl⟩

/-- A plain formula holds along all paths of a model exactly if the formula with quantified
operators holds in all initial states. -/
theorem paths_iff_initial (h : read vars s = .ok (.ok (m, rest), vars')) (hdet : m.IsDeterministic)
    (he : e.IsPlain) (names : Vars) :
    (∀ π : Nat → Nat, m.IsStart (π 0) → (m.toStructure names).IsPath π →
      e.HoldsOf ((m.toStructure names).word π)) ↔
    ∀ name ∈ m.initial, m.Satisfies names e.quantified name := by
  have hk := hdet.toStructure names
  constructor
  · intro hpaths name hname
    obtain ⟨i, hi⟩ := exists_index?_of_mem_initial h hname
    obtain ⟨π, rfl, hπ⟩ := (isTotal_of_read h).exists_pathFrom names (index?_lt hi)
    exact ⟨π 0, hi, (Expr.holdsIn_quantified_iff hk hπ he 0).2 (hpaths π ⟨name, hname, hi⟩ hπ)⟩
  · rintro hall π ⟨name, hname, hi⟩ hπ
    obtain ⟨j, hj, hholds⟩ := hall name hname
    cases hi.symm.trans hj
    exact (Expr.holdsIn_quantified_iff hk hπ he 0).1 hholds

end Model

/-! ## The two checks -/

variable {m : Model} {c : Context} {f g : Formula} {e : Expr}

/-- A check ended, and with the verdict that the formula is satisfied. -/
def Approves {α β : Type} (verdict : α → β) (satisfied : β) (outcome : Except Error α) : Prop :=
  ∃ chk, outcome = .ok chk ∧ verdict chk = satisfied

/-- A check against a linear-time formula approves of a defined model if the formula holds along all
its paths. -/
theorem Linear.exists_check (m : Model) (hc : c.forest.Tidy) (hf : f.StandsFor c.forest e)
    (hlin : e.usage.branching = false) :
    ∃ outcome c', check m f c = .ok (outcome, c') ∧ c.Continues c' ∧
      ∀ vars, c'.vars.Extends vars →
        (Approves Check.verdict .satisfied outcome ↔ m.isDefined = true ∧
          ∀ π : Nat → Nat, m.IsStart (π 0) → (m.toStructure vars).IsPath π →
            e.HoldsOf ((m.toStructure vars).word π)) := by
  cases hm : m.isDefined with
  | false =>
    refine ⟨_, c, check_of_undefined hm, .refl hc, fun vars _ => ?_⟩
    simp [Approves]
  | true =>
    have hlinear : f.isLinear = true := by simp [Formula.isLinear, hf.usage_eq, hlin]
    obtain ⟨chk, c', hcheck, hcont, hjudges⟩ := succeeds_check hc hf hlinear hm
    refine ⟨.ok chk, c', hcheck, hcont, fun vars hvars => ?_⟩
    rw [← (hjudges.mono hvars).satisfied_iff]
    simp [Approves]

/-- A check against a branching-time formula approves of a defined model if the formula holds in all
its initial states. -/
theorem Branching.exists_check (hc : c.forest.Tidy) (hf : f.StandsFor c.forest e)
    (hbranch : e.usage.linear = false) (htotal : m.IsTotal) (showProgress : Bool) :
    ∃ outcome c', check m f showProgress c = .ok (outcome, c') ∧ c.Continues c' ∧
      ∀ vars, c'.vars.Extends vars →
        (Approves Check.verdict .satisfied outcome ↔ m.isDefined = true ∧
          ∀ name ∈ m.initial, m.Satisfies vars e name) := by
  have hbranching : f.isBranching = true := by simp [Formula.isBranching, hf.usage_eq, hbranch]
  cases hm : m.isDefined with
  | false =>
    refine ⟨_, c, check_of_undefined hbranching hm, .refl hc, fun vars _ => ?_⟩
    simp [Approves]
  | true =>
    obtain ⟨chk, c', hcheck, hfinds⟩ := succeeds_check hc hf hbranching hm htotal showProgress
    refine ⟨.ok chk, c', hcheck, hfinds.toContinues, fun vars hvars => ?_⟩
    rw [← (verdictOf_eq (hfinds.satisfying.mono hvars)).1, ← hfinds.verdict_eq]
    simp [Approves]

/-- **The two checkers agree where there is one way on.**  Take a model that was read and in which
every state has one successor, a plain formula and the same formula with quantified operators,
stored in any context.  The checks meet no fault, and the one ends with the verdict that the formula
is satisfied exactly if the other does: where both are made in the context, in either order, and
also where each is made from the context as it is, provided that it has the variables of the
model. -/
theorem checks_agree {vars vars' : Vars} {s rest : Stream}
    (hread : Model.read vars s = .ok (.ok (m, rest), vars')) (hdet : m.IsDeterministic)
    (he : e.IsPlain) (hc : c.forest.Tidy) (hf : f.StandsFor c.forest e)
    (hg : g.StandsFor c.forest e.quantified) (showProgress : Bool) :
    (∃ linear branching c₁ c₂, Linear.check m f c = .ok (linear, c₁) ∧
      Branching.check m g showProgress c₁ = .ok (branching, c₂) ∧
      (Approves Linear.Check.verdict .satisfied linear ↔
        Approves Branching.Check.verdict .satisfied branching)) ∧
    (∃ linear branching c₁ c₂, Branching.check m g showProgress c = .ok (branching, c₁) ∧
      Linear.check m f c₁ = .ok (linear, c₂) ∧
      (Approves Linear.Check.verdict .satisfied linear ↔
        Approves Branching.Check.verdict .satisfied branching)) ∧
    (vars'.Extends c.vars →
      ∃ linear branching c₁ c₂, Linear.check m f c = .ok (linear, c₁) ∧
        Branching.check m g showProgress c = .ok (branching, c₂) ∧
        (Approves Linear.Check.verdict .satisfied linear ↔
          Approves Branching.Check.verdict .satisfied branching)) := by
  obtain ⟨hlin, hbranch⟩ := he.usage
  have htotal := Model.isTotal_of_read hread
  have hsame := Model.paths_iff_initial hread hdet he
  obtain ⟨linear, c₁, hlinear, hcont₁, happroves⟩ := Linear.exists_check m hc hf hlin
  obtain ⟨branching, c₂, hbranching, hcont₂, happroves'⟩ :=
    Branching.exists_check hc hg hbranch htotal showProgress
  refine ⟨?_, ?_, fun hvars => ?_⟩
  · obtain ⟨branching, c₂, hbranching, hcont₂, happroves'⟩ :=
      Branching.exists_check hcont₁.tidy (hcont₁.standsFor hg) hbranch htotal showProgress
    refine ⟨linear, branching, c₁, c₂, hlinear, hbranching, ?_⟩
    rw [happroves c₂.vars hcont₂.vars, happroves' c₂.vars (.refl _), hsame]
  · obtain ⟨linear, c₁, hlinear, hcont₁, happroves⟩ :=
      Linear.exists_check m hcont₂.tidy (hcont₂.standsFor hf) hlin
    refine ⟨linear, branching, c₂, c₁, hbranching, hlinear, ?_⟩
    rw [happroves c₁.vars (.refl _), happroves' c₁.vars hcont₁.vars, hsame]
  · -- The two checks may number variables differently, but not those of the model.
    have hover : m.IsOver c.vars := (Model.isOver_of_read hread).mono hvars
    refine ⟨linear, branching, c₁, c₂, hlinear, hbranching, ?_⟩
    rw [happroves c₁.vars (.refl _), happroves' c₂.vars (.refl _), hsame]
    simp only [Model.Satisfies, hover.holdsIn_iff hcont₁.vars, hover.holdsIn_iff hcont₂.vars]

/-- Two states in turn, `{ 1 2 q 2 1 p }`, with `G F p` and `AG AF p`. -/
theorem checks_agree_turns :
    let word (text : String) : Token := ⟨.proposition, text, {}⟩
    let number (text : String) : Token := ⟨.integer, text, {}⟩
    let tokens : Stream := [⟨.modelOpen, "", {}⟩, number "1", number "2", word "q", number "2",
      number "1", word "p", ⟨.modelClose, "", {}⟩, .finish {}]
    let m : Model := {
      states := [(1, { successors := [2], valuation := .ofList [0] }),
        (2, { successors := [1], valuation := .ofList [1] })]
      initial := [1, 2]
      used := .ofList [0, 1]
      varNames := ["q", "p"] }
    let c : Context := {
      vars := ⟨["q", "p"]⟩
      forest := { slots := #[some (.prop "p"), some (.unary .future 0), some (.unary .global 1),
        some (.unary .allFinally 0), some (.unary .allGlobally 3)] } }
    Model.read {} tokens = .ok (.ok (m, [.finish {}]), ⟨["q", "p"]⟩) ∧
    ∃ linear branching c₁ c₂, Linear.check m ⟨2, .ofLinear⟩ c = .ok (linear, c₁) ∧
      Branching.check m ⟨4, .ofBranching⟩ true c = .ok (branching, c₂) ∧
      (Approves Linear.Check.verdict .satisfied linear ↔
        Approves Branching.Check.verdict .satisfied branching) := by
  intro word number tokens m c
  have hread : Model.read {} tokens = .ok (.ok (m, [.finish {}]), ⟨["q", "p"]⟩) := by
    decide +kernel
  have hdet : m.IsDeterministic := by simp [m, Model.IsDeterministic]
  have htidy : c.forest.Tidy := Forest.tidy_of_full rfl (by simp [c])
  have hagree := checks_agree (f := ⟨2, .ofLinear⟩) (g := ⟨4, .ofBranching⟩)
    (e := .unary .global (.unary .future (.prop "p"))) hread hdet (by simp [Expr.IsPlain]) htidy
    ⟨Forest.denotes_of_tree rfl, rfl⟩ ⟨Forest.denotes_of_tree rfl, rfl⟩ true
  exact ⟨hread, hagree.2.2 (.refl _)⟩

end TemporalCheck
