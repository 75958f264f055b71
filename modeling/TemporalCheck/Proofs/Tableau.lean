import TemporalCheck.Proofs.Completion
import TemporalCheck.Proofs.Sequence

/-!
# TemporalCheck.Proofs.Tableau

Sequences of covers and the words that they describe.  `Tableau.Fulfils` says what the covers along
an accepted run have in common.  Whatever they ask for holds where they ask for it
(`Tableau.holds_of_covers`), and a sequence of covers that a word meets is of this kind
(`Tableau.Fulfils.of_meets`).
-/

namespace TemporalCheck

/-! ## The subformulas of a formula -/

namespace Forest

variable {f : Forest} {root id : NodeId} {e : Expr}

/-- An alternative asks for operands of the subformula, or for the subformula itself. -/
theorem mem_of_mem_alternatives {alt : Alternative} {a : NodeId} (h : alt ∈ f.alternatives id)
    (ha : a ∈ alt.1 ∨ a ∈ alt.2) :
    a = id ∨ ∃ node, f.node? id = some node ∧ a ∈ node.children := by
  unfold alternatives at h
  split at h
  · rw [List.mem_singleton] at h
    subst h
    simp at ha
  · cases hnode : f.node? id with
    | none => simp [hnode] at h
    | some node =>
      rw [hnode, Option.map_some, Option.getD_some] at h
      unfold Node.alternatives at h
      split at h <;> simp at h <;> grind [Node.children]

/-- The nodes below a formula in negation normal form make up a universe. -/
theorem isUniverse_of_denotes {ids : NatSet} (h : f.Denotes root e) (hnnf : e.IsNegationNormal)
    (hids : ∀ id, id ∈ ids ↔ f.Below root id) : f.IsUniverse ids where
  normal id hid := by
    obtain ⟨a, ha, hd⟩ := h.of_below ((hids id).1 hid)
    exact ⟨a, hd, hnnf.of_mem_subformulas ha⟩
  closed id hid alt halt := by
    have hmem : ∀ a, a ∈ alt.1 ∨ a ∈ alt.2 → a ∈ ids := by
      intro a ha
      obtain rfl | ⟨node, hnode, hchild⟩ := mem_of_mem_alternatives halt ha
      · exact hid
      · exact (hids a).2 (((hids id).1 hid).tail (children_of_node? hnode) hchild)
    exact ⟨fun a ha => hmem a (.inl ha), fun a ha => hmem a (.inr ha)⟩

end Forest

namespace Tableau

open Forest

variable {f : Forest} {u : NatSet} {root : NodeId}

/-! ## Sequences of covers -/

/-- What the covers along an accepted run over a word have in common. -/
structure Fulfils (f : Forest) (u : NatSet) (w : Word String) (c : Nat → Cover) : Prop where
  sound : ∀ i, (c i).Sound f u
  done : ∀ i, (c i).new = ∅
  follows : ∀ i, ∀ e ∈ (c i).next, e ∈ (c (i + 1)).old
  literals : ∀ i, ∀ e ∈ (c i).old, ∀ s, f.sign? e = some s → s.Holds (w i)
  fair : ∀ e a b, e ∈ u → f.node? e = some (.binary .until a b) →
    InfinitelyOften fun i => e ∉ (c i).old ∨ b ∈ (c i).old

/-- An until that is asked for is met: its second operand is asked for before long, and its first
operand until then. -/
theorem Fulfils.exists_until {w : Word String} {c : Nat → Cover} (h : Fulfils f u w c) {i : Nat}
    {e a b : NodeId} (hnode : f.node? e = some (.binary .until a b)) (he : e ∈ (c i).old) :
    ∃ j, i ≤ j ∧ b ∈ (c j).old ∧ ∀ k, i ≤ k → k < j → a ∈ (c k).old := by
  have hu : e ∈ u := (h.sound i).within e (.inl he)
  have hstep : ∀ j, e ∈ (c j).old → b ∈ (c j).old ∨ a ∈ (c j).old ∧ e ∈ (c (j + 1)).old := by
    intro j hj
    exact ((h.sound j).of_until (h.done j) hj hnode).imp_right (And.imp_right (h.follows j e))
  -- As long as it is put off, it is asked for together with its first operand.
  have hwait : ∀ n, (∃ j, i ≤ j ∧ b ∈ (c j).old ∧ ∀ k, i ≤ k → k < j → a ∈ (c k).old) ∨
      e ∈ (c (i + n)).old ∧ ∀ k, i ≤ k → k < i + n → a ∈ (c k).old := by
    intro n
    induction n with
    | zero => exact .inr ⟨he, fun k hk hk' => absurd hk' (by omega)⟩
    | succ n ih =>
      obtain hfound | ⟨hn, hbefore⟩ := ih
      · exact .inl hfound
      · obtain hb | ⟨ha, hlater⟩ := hstep (i + n) hn
        · exact .inl ⟨i + n, by omega, hb, hbefore⟩
        · refine .inr ⟨hlater, fun k hk hk' => ?_⟩
          obtain hlt | rfl : k < i + n ∨ k = i + n := by omega
          · exact hbefore k hk hlt
          · exact ha
  obtain ⟨m, hm, hfair⟩ := h.fair e a b hu hnode i
  obtain hfound | ⟨hn, hbefore⟩ := hwait (m - i)
  · exact hfound
  · rw [show i + (m - i) = m by omega] at hn hbefore
    exact ⟨m, hm, hfair.resolve_left fun hne => hne hn, hbefore⟩

/-- A release that is asked for is met: its second operand is asked for until its first one is. -/
theorem Fulfils.release {w : Word String} {c : Nat → Cover} (h : Fulfils f u w c) {i : Nat}
    {e a b : NodeId} (hnode : f.node? e = some (.binary .release a b)) (he : e ∈ (c i).old)
    {j : Nat} (hj : i ≤ j) :
    b ∈ (c j).old ∨ ∃ k, i ≤ k ∧ k < j ∧ a ∈ (c k).old := by
  have hstep : ∀ j, e ∈ (c j).old → b ∈ (c j).old ∧ (a ∈ (c j).old ∨ e ∈ (c (j + 1)).old) := by
    intro j hj
    exact ((h.sound j).of_release (h.done j) hj hnode).imp_right (Or.imp_right (h.follows j e))
  have hwait : ∀ n, e ∈ (c (i + n)).old ∨ ∃ k, i ≤ k ∧ k < i + n ∧ a ∈ (c k).old := by
    intro n
    induction n with
    | zero => exact .inl he
    | succ n ih =>
      obtain hn | ⟨k, hk, hk', ha⟩ := ih
      · obtain ha | hlater := (hstep (i + n) hn).2
        · exact .inr ⟨i + n, by omega, by omega, ha⟩
        · exact .inl hlater
      · exact .inr ⟨k, hk, by omega, ha⟩
  obtain hn | hfound := hwait (j - i)
  · rw [show i + (j - i) = j by omega] at hn
    exact .inl (hstep j hn).1
  · rw [show i + (j - i) = j by omega] at hfound
    exact .inr hfound

/-- Everything that the covers along an accepted run ask for holds where they ask for it. -/
theorem holds_of_covers {w : Word String} {c : Nat → Cover} (h : Fulfils f u w c) {e : NodeId}
    {x : Expr} (hx : f.Denotes e x) (hnnf : x.IsNegationNormal) {i : Nat} (he : e ∈ (c i).old) :
    f.Holds w e i := by
  induction hx generalizing i with
  | top hn => exact ⟨_, .top hn, trivial⟩
  | @bottom e hn =>
    have hs : f.sign? e = some ⟨false, none⟩ := by rw [sign?_of_ne_not hn (by simp)]; rfl
    exact (h.literals i e he _ hs).elim
  | @prop e name hn =>
    have hs : f.sign? e = some ⟨true, some name⟩ := by rw [sign?_of_ne_not hn (by simp)]; rfl
    exact ⟨_, .prop hn, h.literals i e he _ hs⟩
  | @unary e arg op a hn hd ih =>
    have hx := Denotes.unary hn hd
    cases hs : f.sign? e with
    | some s => exact ⟨_, hx, (hx.holdsAt_iff_of_sign? hs w i).2 (h.literals i e he s hs)⟩
    | none =>
      obtain ⟨b, hb⟩ | ⟨op', b, b', hb, -⟩ := hx.cases_of_sign?_eq_none hnnf hs
      · cases hn.symm.trans hb
        have hnext := h.follows i arg ((h.sound i).of_next (h.done i) he hn)
        exact (hx.holds_unary_iff hn).2 (ih hnnf hnext)
      · cases hn.symm.trans hb
  | @binary e left right op a b hn hl hr ihl ihr =>
    have hx := Denotes.binary hn hl hr
    rw [hx.holds_binary_iff hn]
    cases op with
    | and => exact ((h.sound i).of_and (h.done i) he hn).imp (ihl hnnf.1) (ihr hnnf.2)
    | or => exact ((h.sound i).of_or (h.done i) he hn).imp (ihl hnnf.1) (ihr hnnf.2)
    | «until» =>
      obtain ⟨j, hij, hb, hbefore⟩ := h.exists_until hn he
      exact ⟨j, hij, ihr hnnf.2 hb, fun k hk hkj => ihl hnnf.1 (hbefore k hk hkj)⟩
    | release =>
      intro j hj
      obtain hb | ⟨k, hk, hkj, ha⟩ := h.release hn he hj
      · exact .inl (ihr hnnf.2 hb)
      · exact .inr ⟨k, hk, hkj, ihl hnnf.1 ha⟩
    | _ => exact hnnf.elim

/-- A sequence of covers that a word meets fulfils it. -/
theorem Fulfils.of_meets {w : Word String} {c : Nat → Cover} (hsound : ∀ i, (c i).Sound f u)
    (hdone : ∀ i, (c i).new = ∅) (hfollows : ∀ i, ∀ e ∈ (c i).next, e ∈ (c (i + 1)).old)
    (hmeets : ∀ i, (c i).Meets f w i) (hu : f.IsUniverse u) : Fulfils f u w c where
  sound := hsound
  done := hdone
  follows := hfollows
  literals i e he s hs := ((hmeets i).now e (.inl he)).sign hs
  fair e a b he hnode n := by
    obtain ⟨x, hx, -⟩ := hu.normal e he
    by_cases hn : e ∈ (c n).old
    · -- The until holds here, so its second operand holds before long, and is then chosen.
      obtain ⟨j, hj, hb, -⟩ := (hx.holds_binary_iff hnode).1 ((hmeets n).now e (.inl hn))
      refine ⟨j, hj, ?_⟩
      by_cases hej : e ∈ (c j).old
      · have hmem := (hmeets j).prompt e a b hnode hej hb
        rw [hdone j] at hmem
        exact .inr (hmem.resolve_right (NatSet.not_mem_empty b))
      · exact .inl hej
    · exact ⟨n, Nat.le_refl n, .inl hn⟩

end Tableau

end TemporalCheck
