import Mathlib
import TemporalCheck.Proofs.Session.Item

/-!
# TemporalCheck.Proofs.Session.Answer

What the report of an item says.  A report closes with a line and an empty one, and the line tells
whether a formula is satisfied, in which initial states it fails, that there is a path which refutes
it, or that it was refused; comparisons are answered in the same way.  However much a session is
asked to show, a report tells one answer only (`Answer.isToldBy_unique`): the last two characters
of the line tell the answers apart, and a list of states can be read back.

There is just one answer that a formula or a comparison deserves (`Deserves`), and it stays the same
when more variables are numbered.  Checks and comparisons report it (`Reports.exists_answer`,
`Compares.exists_answer`).
-/

namespace TemporalCheck.Session

/-- What is said in answer to an item. -/
inductive Answer where
  | satisfied
  /-- Not satisfied, with the names of the initial states in which the formula fails. -/
  | violated (names : List Int)
  /-- Not satisfied or not equivalent, with a path to show it. -/
  | refuted
  | equivalent
  /-- The formulas do not belong to the logics that can be checked or compared. -/
  | refused
deriving DecidableEq

namespace Answer

variable {a b : Answer} {line : String}

/-- The lines that give an answer. -/
def IsToldIn : Answer → String → Prop
  | .satisfied, line => line = "Satisfied."
  | .violated names, line => line = (Branching.Verdict.violated names).render
  | .refuted, line => IsOpen line
  | .equivalent, line => line = "Equivalent."
  | .refused, line => ∃ text, line = "(" ++ text ++ ")"

/-- A report gives its answer in the last line but one. -/
def IsToldBy (a : Answer) (report : String) : Prop :=
  ∃ before line, report = before ++ "\n" ++ line ++ "\n\n" ∧ a.IsToldIn line

/-! ## Lists of states -/

/-- The names of states, as they are listed. -/
def listing (names : List Int) : String := " ".intercalate (names.map fun n => toString n)

theorem render_violated (names : List Int) : (Branching.Verdict.violated names).render =
    "Not satisfied; start states:" ++ (" " ++ listing names) := by
  rw [← String.append_assoc]
  rfl

/-- A number is written with digits and a sign. -/
theorem mem_toString {n : Int} {c : Char} (h : c ∈ (toString n).toList) :
    c = '-' ∨ c.isDigit = true := by
  have hnat : ∀ k : Nat, c ∈ k.repr.toList → c.isDigit = true := by
    intro k hk
    rw [Nat.repr_eq_ofList_toDigits, String.toList_ofList] at hk
    exact Nat.isDigit_of_mem_toDigits (by decide) (by decide) hk
  have hrepr : toString n = n.repr := rfl
  rw [hrepr, Int.repr_eq_if] at h
  split at h
  · exact .inr (hnat _ h)
  · rw [String.toList_append, List.mem_append] at h
    obtain h | h := h
    · exact .inl (by simpa using h)
    · exact .inr (hnat _ h)

theorem toList_toString_ne_nil (n : Int) : (toString n).toList ≠ [] := by
  have hrepr : toString n = n.repr := rfl
  rw [hrepr, Int.repr_eq_if]
  split <;> simp [Nat.repr_eq_ofList_toDigits, Nat.toDigits_ne_nil]

theorem toList_listing (names : List Int) :
    (listing names).toList = [' '].intercalate (names.map fun n => (toString n).toList) := by
  rw [listing, String.toList_intercalate, List.map_map]
  rfl

/-- A list of numbers is written with digits, signs and blanks. -/
theorem mem_listing {names : List Int} {c : Char} (h : c ∈ (listing names).toList) :
    c = ' ' ∨ c = '-' ∨ c.isDigit = true := by
  rw [toList_listing] at h
  induction names with
  | nil => simp at h
  | cons n names ih =>
    by_cases hnil : names = []
    · subst hnil
      exact .inr (mem_toString (by simpa using h))
    · rw [List.map_cons, List.intercalate_cons_of_ne_nil (by simpa using hnil), List.mem_append,
        List.mem_append] at h
      obtain (h | h) | h := h
      · exact .inr (mem_toString h)
      · exact .inl (by simpa using h)
      · exact ih h

/-- There are no marks in a list of states. -/
theorem not_mark_of_mem_listing {names : List Int} {c : Char}
    (h : c ∈ (" " ++ listing names).toList) : c ∉ ['.', '\n', '*', ')'] := by
  have hc : c = ' ' ∨ c = '-' ∨ c.isDigit = true := by
    rw [String.toList_append, List.mem_append] at h
    obtain h | h := h
    · exact .inl (by simpa using h)
    · exact mem_listing h
  intro hmark
  simp only [List.mem_cons, List.not_mem_nil, or_false] at hmark
  obtain rfl | rfl | rfl | rfl := hmark <;> exact absurd hc (by decide)

/-- A list of states can be read back from its text. -/
theorem listing_injective {names names' : List Int} (h : listing names = listing names') :
    names = names' := by
  -- The names lie between the blanks.
  have hsplit : ∀ l : List Int, l ≠ [] →
      (listing l).toList.splitOn ' ' = l.map fun n => (toString n).toList := by
    intro l hl
    rw [toList_listing]
    refine List.splitOn_intercalate ' ' (fun word hword hblank => ?_) (by simpa using hl)
    obtain ⟨n, -, rfl⟩ := List.mem_map.1 hword
    obtain h | h := mem_toString hblank <;> exact absurd h (by decide)
  have hempty : ∀ l : List Int, listing l = "" → l = [] := by
    intro l hl
    by_contra hne
    have hwords := hsplit l hne
    rw [hl] at hwords
    obtain ⟨n, l, rfl⟩ := List.exists_cons_of_ne_nil hne
    have hn : [] = (toString n).toList := (List.cons.inj hwords).1
    exact toList_toString_ne_nil n hn.symm
  by_cases hnil : names = []
  · subst hnil
    exact (hempty names' h.symm).symm
  · by_cases hnil' : names' = []
    · subst hnil'
      exact hempty names h
    · have hwords := hsplit names hnil
      rw [h, hsplit names' hnil'] at hwords
      refine List.map_injective_iff.2 (fun n n' hn => ?_) hwords.symm
      exact Int.repr_injective (String.toList_injective hn)

/-! ## A report tells one answer -/

/-- The last two characters of a line that gives an answer. -/
def Ends : Answer → Char → Char → Prop
  | .satisfied, d, c => d = 'd' ∧ c = '.'
  | .violated _, _, c => c ∉ ['.', '\n', '*', ')']
  | .refuted, d, c => c = '\n' ∨ c = '*' ∨ d = '.' ∧ c = '.'
  | .equivalent, d, c => d = 't' ∧ c = '.'
  | .refused, _, c => c = ')'

/-- A line that follows another one has a character before its last. -/
theorem exists_last_two (before line : String) (c : Char) :
    ∃ cs d, (before ++ "\n" ++ line).toList ++ [c] = cs ++ [d, c] := by
  have hne : (before ++ "\n" ++ line).toList ≠ [] := by simp
  obtain ⟨cs, d, h⟩ := (List.eq_nil_or_concat' _).resolve_left hne
  exact ⟨cs, d, by simp [h]⟩

/-- The last two characters of what is told give away what kind of answer it is. -/
theorem IsToldIn.exists_end (h : a.IsToldIn line) (before : String) :
    ∃ cs d c, (before ++ "\n" ++ line).toList = cs ++ [d, c] ∧ a.Ends d c := by
  cases a with
  | satisfied =>
    obtain rfl := h
    exact ⟨(before ++ "\nSatisfie").toList, 'd', '.', by simp, rfl, rfl⟩
  | equivalent =>
    obtain rfl := h
    exact ⟨(before ++ "\nEquivalen").toList, 't', '.', by simp, rfl, rfl⟩
  | refused =>
    obtain ⟨text, rfl⟩ := h
    obtain ⟨cs, d, hcs⟩ := exists_last_two before ("(" ++ text) ')'
    exact ⟨cs, d, ')', by simpa using hcs, rfl⟩
  | refuted =>
    obtain ⟨first, rfl | rfl | rfl⟩ := h
    · obtain ⟨cs, d, hcs⟩ := exists_last_two before first '\n'
      exact ⟨cs, d, '\n', by simpa using hcs, .inl rfl⟩
    · obtain ⟨cs, d, hcs⟩ := exists_last_two before first '*'
      exact ⟨cs, d, '*', by simpa using hcs, .inr (.inl rfl)⟩
    · exact ⟨(before ++ "\n" ++ first).toList, '.', '.', by simp, .inr (.inr ⟨rfl, rfl⟩)⟩
  | violated names =>
    obtain rfl := h
    have hne : (" " ++ listing names).toList ≠ [] := by simp
    obtain ⟨first, c, hlast⟩ := (List.eq_nil_or_concat' _).resolve_left hne
    have hc : c ∈ (" " ++ listing names).toList := by simp [hlast]
    obtain ⟨cs, d, hcs⟩ := exists_last_two before
      ("Not satisfied; start states:" ++ String.ofList first) c
    refine ⟨cs, d, c, ?_, ?_⟩
    · rw [← hcs, render_violated, ← String.append_assoc, String.toList_append, hlast]
      simp
    · exact not_mark_of_mem_listing hc

/-- Two answers with the same end are the same, unless both name states. -/
theorem Ends.eq_or_violated {c d : Char} (h : a.Ends d c) (h' : b.Ends d c) :
    a = b ∨ ∃ names names', a = .violated names ∧ b = .violated names' := by
  cases a <;> cases b <;> simp only [Ends] at h h' <;> first
    | exact .inl rfl
    | exact .inr ⟨_, _, rfl, rfl⟩
    | grind

/-- What follows the last end of a line is the same, however it is found. -/
theorem eq_of_lines {before before' line line' : List Char} (hline : '\n' ∉ line)
    (hline' : '\n' ∉ line') (h : before ++ '\n' :: line = before' ++ '\n' :: line') :
    line = line' := by
  have htake : ∀ (b l : List Char), '\n' ∉ l →
      (b ++ '\n' :: l).reverse.takeWhile (· ≠ '\n') = l.reverse := by
    intro b l hl
    rw [List.reverse_append, List.reverse_cons, List.append_assoc,
      List.takeWhile_append_of_pos (fun x hx => ?_)]
    · simp
    · have hx' : x ∈ l := List.mem_reverse.1 hx
      simpa using fun hnl : x = '\n' => hl (hnl ▸ hx')
  have hrev := htake before line hline
  rw [h, htake before' line' hline'] at hrev
  exact List.reverse_injective hrev.symm

/-- A verdict stands on one line. -/
theorem newline_not_mem_violated (names : List Int) :
    '\n' ∉ (Branching.Verdict.violated names).render.toList := by
  intro h
  rw [render_violated, String.toList_append, List.mem_append] at h
  obtain h | h := h
  · exact absurd h (by decide)
  · exact not_mark_of_mem_listing h (by decide)

/-- A report tells one answer only. -/
theorem isToldBy_unique {report : String} (ha : a.IsToldBy report) (hb : b.IsToldBy report) :
    a = b := by
  obtain ⟨before, line, rfl, ha⟩ := ha
  obtain ⟨before', line', heq, hb⟩ := hb
  rw [String.append_left_inj] at heq
  obtain ⟨cs, d, c, hcs, hends⟩ := ha.exists_end before
  obtain ⟨cs', d', c', hcs', hends'⟩ := hb.exists_end before'
  have hlast : cs ++ [d, c] = cs' ++ [d', c'] := by rw [← hcs, ← hcs', heq]
  obtain ⟨-, hdc⟩ := List.append_inj' hlast rfl
  obtain ⟨rfl, rfl⟩ : d = d' ∧ c = c' := by simpa using hdc
  obtain rfl | ⟨names, names', rfl, rfl⟩ := hends.eq_or_violated hends'
  · rfl
  · -- Two lists of states: both stand in the last line, and there are no ends of lines in them.
    obtain rfl := ha
    obtain rfl := hb
    have hlists := congrArg String.toList heq
    simp only [String.toList_append, List.append_assoc] at hlists
    have hlines :=
      eq_of_lines (newline_not_mem_violated names) (newline_not_mem_violated names') hlists
    rw [String.toList_inj, render_violated, render_violated, String.append_right_inj,
      String.append_right_inj] at hlines
    rw [listing_injective hlines]

end Answer

/-! ## The answer to an item -/

/-- A formula to be checked, or two to be compared. -/
inductive Question where
  | formula (e : Expr)
  | comparison (e₁ e₂ : Expr)

def Question.isFormula : Question → Bool
  | .formula _ => true
  | .comparison _ _ => false

/-- Whether every path of a model from an initial state satisfies a formula. -/
def PathsSatisfy (m : Model) (vars : Vars) (e : Expr) : Prop :=
  ∀ π : Nat → Nat, m.IsStart (π 0) → (m.toStructure vars).IsPath π →
    e.HoldsOf ((m.toStructure vars).word π)

/-- How the verdict on a branching-time formula is told. -/
def Answer.ofVerdict : Branching.Verdict → Answer
  | .satisfied => .satisfied
  | .violated names => .violated names

/-- The answer that an item deserves, by what the formulas say about the model. -/
inductive Deserves (m : Model) (vars : Vars) : Question → Answer → Prop
  | satisfied {e : Expr} (hlin : e.usage.branching = false) (h : PathsSatisfy m vars e) :
      Deserves m vars (.formula e) .satisfied
  | refuted {e : Expr} (hlin : e.usage.branching = false) (h : ¬ PathsSatisfy m vars e) :
      Deserves m vars (.formula e) .refuted
  | labelled {e : Expr} {satisfying : NatSet} (hbranch : e.usage.branching = true)
      (hlin : e.usage.linear = false) (h : Branching.IsExtent m vars e satisfying) :
      Deserves m vars (.formula e) (.ofVerdict (Branching.verdictOf m satisfying))
  | mixed {e : Expr} (hbranch : e.usage.branching = true) (hlin : e.usage.linear = true) :
      Deserves m vars (.formula e) .refused
  | equivalent {e₁ e₂ : Expr} (h₁ : e₁.usage.branching = false) (h₂ : e₂.usage.branching = false)
      (h : ∀ w : Word String, e₁.HoldsOf w ↔ e₂.HoldsOf w) :
      Deserves m vars (.comparison e₁ e₂) .equivalent
  | different {e₁ e₂ : Expr} (h₁ : e₁.usage.branching = false) (h₂ : e₂.usage.branching = false)
      (h : ¬ ∀ w : Word String, e₁.HoldsOf w ↔ e₂.HoldsOf w) :
      Deserves m vars (.comparison e₁ e₂) .refuted
  | incomparable {e₁ e₂ : Expr} (h : e₁.usage.branching = true ∨ e₂.usage.branching = true) :
      Deserves m vars (.comparison e₁ e₂) .refused

variable {m : Model} {vars vars' : Vars} {q : Question} {a b : Answer} {e e₁ e₂ : Expr}
  {line : String}

theorem pathsSatisfy_iff (hover : m.IsOver vars) (hvars : vars.Extends vars') :
    PathsSatisfy m vars' e ↔ PathsSatisfy m vars e :=
  forall_congr' fun π => forall_congr' fun _ => forall_congr' fun _ => by
    rw [hover.word_eq hvars π]

/-- No item deserves two answers. -/
theorem Deserves.unique (ha : Deserves m vars q a) (hb : Deserves m vars q b) : a = b := by
  cases ha with
  | satisfied hlin h =>
    cases hb with
    | satisfied => rfl
    | refuted _ h' => exact absurd h h'
    | labelled hbranch | mixed hbranch => simp [hlin] at hbranch
  | refuted hlin h =>
    cases hb with
    | satisfied _ h' => exact absurd h' h
    | refuted => rfl
    | labelled hbranch | mixed hbranch => simp [hlin] at hbranch
  | labelled hbranch hlin h =>
    cases hb with
    | satisfied hlin' | refuted hlin' => simp [hbranch] at hlin'
    | labelled _ _ h' =>
      have hsets := NatSet.ext fun s => (h vars (.refl vars) s).trans (h' vars (.refl vars) s).symm
      rw [hsets]
    | mixed _ hlin' => simp [hlin] at hlin'
  | mixed hbranch hlin =>
    cases hb with
    | satisfied hlin' | refuted hlin' => simp [hbranch] at hlin'
    | labelled _ hlin' => simp [hlin] at hlin'
    | mixed => rfl
  | equivalent h₁ h₂ h =>
    cases hb with
    | equivalent => rfl
    | different _ _ h' => exact absurd h h'
    | incomparable h' => simp [h₁, h₂] at h'
  | different h₁ h₂ h =>
    cases hb with
    | equivalent _ _ h' => exact absurd h' h
    | different => rfl
    | incomparable h' => simp [h₁, h₂] at h'
  | incomparable h =>
    cases hb with
    | equivalent h₁ h₂ | different h₁ h₂ => simp [h₁, h₂] at h
    | incomparable => rfl

/-- The answer stays the same when more variables are numbered. -/
theorem Deserves.mono (hover : m.IsOver vars) (hvars : vars.Extends vars')
    (h : Deserves m vars q a) : Deserves m vars' q a := by
  cases h with
  | satisfied hlin h => exact .satisfied hlin ((pathsSatisfy_iff hover hvars).2 h)
  | refuted hlin h => exact .refuted hlin (mt (pathsSatisfy_iff hover hvars).1 h)
  | labelled hbranch hlin h => exact .labelled hbranch hlin (h.mono hvars)
  | mixed hbranch hlin => exact .mixed hbranch hlin
  | equivalent h₁ h₂ h => exact .equivalent h₁ h₂ h
  | different h₁ h₂ h => exact .different h₁ h₂ h
  | incomparable h => exact .incomparable h

/-- The answer to a comparison has nothing to do with a model. -/
theorem Deserves.of_comparison {m' : Model} (h : Deserves m vars q a) (hq : q.isFormula = false) :
    Deserves m' vars' q a := by
  cases h with
  | satisfied | refuted | labelled | mixed => cases hq
  | equivalent h₁ h₂ h => exact .equivalent h₁ h₂ h
  | different h₁ h₂ h => exact .different h₁ h₂ h
  | incomparable h => exact .incomparable h

open Classical in
theorem exists_isExtent (hover : m.IsOver vars) (e : Expr) :
    ∃ satisfying, Branching.IsExtent m vars e satisfying := by
  refine ⟨(NatSet.interval 0 m.size).filter fun s => e.HoldsIn (m.toStructure vars) s,
    fun vars' hvars s => ?_⟩
  simp [hover.holdsIn_iff hvars]

/-- Every item deserves an answer. -/
theorem exists_deserved (hover : m.IsOver vars) (q : Question) : ∃ a, Deserves m vars q a := by
  cases q with
  | formula e =>
    cases hbranch : e.usage.branching with
    | false =>
      by_cases h : PathsSatisfy m vars e
      · exact ⟨_, .satisfied hbranch h⟩
      · exact ⟨_, .refuted hbranch h⟩
    | true =>
      cases hlin : e.usage.linear with
      | false =>
        obtain ⟨satisfying, h⟩ := exists_isExtent hover e
        exact ⟨_, .labelled hbranch hlin h⟩
      | true => exact ⟨_, .mixed hbranch hlin⟩
  | comparison e₁ e₂ =>
    by_cases hlin : e₁.usage.branching = true ∨ e₂.usage.branching = true
    · exact ⟨_, .incomparable hlin⟩
    · obtain ⟨h₁, h₂⟩ : e₁.usage.branching = false ∧ e₂.usage.branching = false := by
        simpa using hlin
      by_cases h : ∀ w : Word String, e₁.HoldsOf w ↔ e₂.HoldsOf w
      · exact ⟨_, .equivalent h₁ h₂ h⟩
      · exact ⟨_, .different h₁ h₂ h⟩

theorem isToldIn_ofVerdict (verdict : Branching.Verdict) :
    (Answer.ofVerdict verdict).IsToldIn verdict.render := by
  cases verdict <;> rfl

/-- A check reports the answer that the formula deserves. -/
theorem Reports.exists_answer (h : Reports m vars e line) :
    ∃ a, Deserves m vars (.formula e) a ∧ a.IsToldIn line := by
  cases h with
  | @linear verdict _ hlin hshown h =>
    cases verdict with
    | satisfied =>
      refine ⟨_, .satisfied hlin (h.satisfied_iff.1 rfl), ?_⟩
      obtain rfl | rfl := hshown <;> rfl
    | counterexample trace =>
      refine ⟨_, .refuted hlin (mt h.satisfied_iff.2 nofun), ?_⟩
      exact ((isOpen_render trace).append_left _).shown hshown
  | branching hbranch hlin h => exact ⟨_, .labelled hbranch hlin h, isToldIn_ofVerdict _⟩
  | mixed hbranch hlin =>
    exact ⟨_, .mixed hbranch hlin, "cannot check mixed CTL/LTL formula...", rfl⟩

/-- A comparison reports the answer that the formulas deserve. -/
theorem Compares.exists_answer (h : Compares e₁ e₂ line) :
    ∃ a, Deserves m vars (.comparison e₁ e₂) a ∧ a.IsToldIn line := by
  cases h with
  | equivalent h₁ h₂ h => exact ⟨_, .equivalent h₁ h₂ h, rfl⟩
  | different h₁ h₂ hopen h => exact ⟨_, .different h₁ h₂ h, hopen⟩
  | refused text h => exact ⟨_, .incomparable h, _, rfl⟩

end TemporalCheck.Session
