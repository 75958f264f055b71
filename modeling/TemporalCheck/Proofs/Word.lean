import TemporalCheck.Meaning.Word
import TemporalCheck.Proofs.Literal

/-!
# TemporalCheck.Proofs.Word

Words by names and by numbers of variables.  Automata read words by numbers (`Vars.read`,
`Vars.spell`), formulas speak of names.

A word may speak of variables that the table has no number for, but a formula does not look at more
variables than occur in it (`Expr.holdsAt_congr`), and these can be given numbers
(`Vars.exists_extends`).
-/

namespace TemporalCheck

/-- A word without its first letter. -/
def Word.tail {α : Type} (w : Word α) : Word α := fun i => w (i + 1)

/-- A word by numbers of variables, read with a table of their names. -/
def Vars.read (v : Vars) (w : Word Nat) : Word String :=
  fun i name => ∃ k, v.index? name = some k ∧ w i k

/-- A formula says the same of words that agree on its variables. -/
theorem Expr.holdsAt_congr {w w' : Word String} {e : Expr}
    (h : ∀ i name, Expr.prop name ∈ e.subformulas → (w i name ↔ w' i name)) :
    e.HoldsAt w = e.HoldsAt w' := by
  induction e with
  | top => rfl
  | bottom => rfl
  | prop name =>
    funext i
    exact propext (h i name (mem_subformulas_self _))
  | unary op a ih =>
    funext i
    rw [HoldsAt, HoldsAt, ih fun i name hmem => h i name (by simp [subformulas, hmem])]
  | binary op a b iha ihb =>
    funext i
    rw [HoldsAt, HoldsAt, iha fun i name hmem => h i name (by simp [subformulas, hmem]),
      ihb fun i name hmem => h i name (by simp [subformulas, hmem])]

namespace Vars

variable {vars vars' : Vars}

/-- Whether every variable of a formula has a number. -/
def Covers (vars : Vars) (e : Expr) : Prop :=
  ∀ name, Expr.prop name ∈ e.subformulas → ∃ v, vars.index? name = some v

theorem Covers.mono {e : Expr} (h : vars.Covers e) (hv : vars.Extends vars') : vars'.Covers e := by
  intro name hmem
  obtain ⟨v, hv'⟩ := h name hmem
  exact ⟨v, hv.index? hv'⟩

/-- The variables of a formula can be given numbers. -/
theorem exists_extends (vars : Vars) (e : Expr) : ∃ vars', vars.Extends vars' ∧ vars'.Covers e := by
  induction e generalizing vars with
  | top => exact ⟨vars, .refl vars, fun name hmem => by simp [Expr.subformulas] at hmem⟩
  | bottom => exact ⟨vars, .refl vars, fun name hmem => by simp [Expr.subformulas] at hmem⟩
  | prop name =>
    refine ⟨(vars.intern name).2, vars.extends_intern name, fun other hmem => ?_⟩
    obtain rfl : other = name := by simpa [Expr.subformulas] using hmem
    exact ⟨_, vars.index?_intern other⟩
  | unary op a ih =>
    obtain ⟨vars', hext, hcovers⟩ := ih vars
    exact ⟨vars', hext, fun name hmem => hcovers name (by simpa [Expr.subformulas] using hmem)⟩
  | binary op a b iha ihb =>
    obtain ⟨vars₁, hext₁, hcovers₁⟩ := iha vars
    obtain ⟨vars₂, hext₂, hcovers₂⟩ := ihb vars₁
    refine ⟨vars₂, hext₁.trans hext₂, fun name hmem => ?_⟩
    have hcases : .prop name ∈ a.subformulas ∨ .prop name ∈ b.subformulas := by
      simpa [Expr.subformulas] using hmem
    exact hcases.elim (hcovers₁.mono hext₂ name) (hcovers₂ name)

/-- A letter by numbers of variables. -/
def letter (vars : Vars) (a : String → Prop) : Nat → Prop :=
  fun v => ∃ name, vars.index? name = some v ∧ a name

/-- Numbers that are given later do not change what a letter says of the earlier ones. -/
theorem Extends.letter_iff (h : vars.Extends vars') {v : Nat} (hv : vars.Numbers v)
    (a : String → Prop) : vars'.letter a v ↔ vars.letter a v := by
  obtain ⟨name, hname⟩ := hv
  constructor
  · rintro ⟨other, hother, ha⟩
    rw [index?_inj hother (h.index? hname)] at ha
    exact ⟨name, hname, ha⟩
  · rintro ⟨other, hother, ha⟩
    exact ⟨other, h.index? hother, ha⟩

/-- A word by numbers of variables, behind a first letter that says nothing. -/
def spell (vars : Vars) (w : Word String) : Word Nat
  | 0 => fun _ => False
  | i + 1 => vars.letter (w i)

/-- A formula whose variables are all in the table cannot tell a word from what is read back of its
spelling. -/
theorem holdsOf_read_spell {e : Expr} (h : vars.Covers e) (w : Word String) :
    e.HoldsOf (vars.read (vars.spell w).tail) ↔ e.HoldsOf w := by
  unfold Expr.HoldsOf
  rw [Expr.holdsAt_congr]
  intro i name hmem
  obtain ⟨v, hv⟩ := h name hmem
  constructor
  · rintro ⟨k, hk, other, hother, hw⟩
    rwa [index?_inj hk hother]
  · exact fun hw => ⟨v, hv, name, hv, hw⟩

end Vars

end TemporalCheck
