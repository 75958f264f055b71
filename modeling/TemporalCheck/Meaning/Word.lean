import TemporalCheck.Formula.Expr

/-!
# TemporalCheck.Meaning.Word

What a formula says about an infinite word.  A word tells for every point of time what holds there,
and a formula holds at a point of a word or does not.

A word has one future only, so a quantified operator says the same of it as the operator without
the quantifier: `AX`, `EX` and `X` all look at the next point.

The laws at the end split the operators on the whole future into what they ask for now and what
they ask for from the next point on.
-/

namespace TemporalCheck

/-- What holds at each point of time. -/
abbrev Word (α : Type) := Nat → α → Prop

/-- What an operator says at a point of time, given where its operand holds. -/
def UnaryOp.HoldsAt (p : Nat → Prop) (i : Nat) : UnaryOp → Prop
  | .not => ¬ p i
  | .next | .allNext | .existsNext => p (i + 1)
  | .future | .allFinally | .existsFinally => ∃ j, i ≤ j ∧ p j
  | .global | .allGlobally | .existsGlobally => ∀ j, i ≤ j → p j

/-- What an operator says at a point of time, given where its operands hold. -/
def BinaryOp.HoldsAt (p q : Nat → Prop) (i : Nat) : BinaryOp → Prop
  | .implies => p i → q i
  | .and => p i ∧ q i
  | .or => p i ∨ q i
  | .until | .allUntil | .existsUntil => ∃ j, i ≤ j ∧ q j ∧ ∀ k, i ≤ k → k < j → p k
  | .release => ∀ j, i ≤ j → q j ∨ ∃ k, i ≤ k ∧ k < j ∧ p k
  | .weakUntil => (∃ j, i ≤ j ∧ q j ∧ ∀ k, i ≤ k → k < j → p k) ∨ ∀ j, i ≤ j → p j

/-- Whether a formula holds at a point of a word. -/
def Expr.HoldsAt (w : Word String) : Expr → Nat → Prop
  | .top, _ => True
  | .bottom, _ => False
  | .prop name, i => w i name
  | .unary op a, i => op.HoldsAt (a.HoldsAt w) i
  | .binary op a b, i => op.HoldsAt (a.HoldsAt w) (b.HoldsAt w) i

/-- Whether a formula holds of a whole word, which is at its first point. -/
def Expr.HoldsOf (e : Expr) (w : Word String) : Prop := e.HoldsAt w 0

/-! ## Now and later -/

/-- `a U b` holds if `b` holds now, or if `a` holds now and `a U b` from the next point on. -/
theorem BinaryOp.holdsAt_until_iff {p q : Nat → Prop} {i : Nat} :
    BinaryOp.until.HoldsAt p q i ↔ q i ∨ p i ∧ BinaryOp.until.HoldsAt p q (i + 1) := by
  constructor
  · rintro ⟨j, hij, hq, hp⟩
    rcases Nat.eq_or_lt_of_le hij with rfl | hlt
    · exact .inl hq
    · exact .inr ⟨hp i (Nat.le_refl i) hlt, j, hlt, hq, fun k hk => hp k (Nat.le_of_succ_le hk)⟩
  · rintro (hq | ⟨hi, j, hij, hq, hp⟩)
    · exact ⟨i, Nat.le_refl i, hq, fun k hk hk' => absurd hk (Nat.not_le.2 hk')⟩
    · refine ⟨j, Nat.le_of_succ_le hij, hq, fun k hk hkj => ?_⟩
      rcases Nat.eq_or_lt_of_le hk with rfl | hlt
      · exact hi
      · exact hp k hlt hkj

/-- `a R b` holds if `b` holds now, together with `a` or with `a R b` from the next point on. -/
theorem BinaryOp.holdsAt_release_iff {p q : Nat → Prop} {i : Nat} :
    BinaryOp.release.HoldsAt p q i ↔ q i ∧ (p i ∨ BinaryOp.release.HoldsAt p q (i + 1)) := by
  constructor
  · intro h
    have now : q i := (h i (Nat.le_refl i)).resolve_right fun ⟨k, hk, hk', _⟩ =>
      absurd hk (Nat.not_le.2 hk')
    refine ⟨now, Classical.byCases .inl fun hp => .inr fun j hij => ?_⟩
    refine (h j (Nat.le_of_succ_le hij)).imp id fun ⟨k, hk, hkj, hpk⟩ => ?_
    rcases Nat.eq_or_lt_of_le hk with rfl | hlt
    · exact absurd hpk hp
    · exact ⟨k, hlt, hkj, hpk⟩
  · rintro ⟨now, later⟩ j hij
    rcases Nat.eq_or_lt_of_le hij with rfl | hlt
    · exact .inl now
    · rcases later with hp | h
      · exact .inr ⟨i, Nat.le_refl i, hlt, hp⟩
      · exact (h j hlt).imp id fun ⟨k, hk, hkj, hpk⟩ => ⟨k, Nat.le_of_succ_le hk, hkj, hpk⟩

end TemporalCheck
