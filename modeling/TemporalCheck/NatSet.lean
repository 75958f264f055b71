/-!
# TemporalCheck.NatSet

Finite sets of natural numbers, kept as strictly ascending lists.  Two sets with the same members
are equal, the members come out in ascending order, and the largest member can be taken off:
these three facts are what the tableau and the automata rely on.
-/

namespace TemporalCheck

/-- A finite set of natural numbers. -/
structure NatSet where
  /-- The members in ascending order. -/
  toList : List Nat
  /-- No member is repeated or out of order. -/
  ascending : toList.Pairwise (· < ·)

namespace NatSet

/-- Whether two lists hold the same numbers in the same order. -/
def sameList : List Nat → List Nat → Bool
  | [], [] => true
  | a :: as, b :: bs => Nat.beq a b && sameList as bs
  | _, _ => false

theorem sameList_iff {l₁ l₂ : List Nat} : sameList l₁ l₂ = true ↔ l₁ = l₂ := by
  induction l₁ generalizing l₂ with
  | nil => cases l₂ <;> simp [sameList]
  | cons a as ih => cases l₂ <;> simp [sameList, ih]

instance : DecidableEq NatSet := fun s t =>
  decidable_of_iff (sameList s.toList t.toList = true) <| by
    rw [sameList_iff]
    exact ⟨fun h => by cases s; cases t; cases h; rfl, fun h => h ▸ rfl⟩

instance : Membership Nat NatSet := ⟨fun s n => n ∈ s.toList⟩

instance (n : Nat) (s : NatSet) : Decidable (n ∈ s) := inferInstanceAs (Decidable (n ∈ s.toList))

@[simp] theorem mem_toList {n : Nat} {s : NatSet} : n ∈ s.toList ↔ n ∈ s := Iff.rfl

/-- Sets with the same members are equal. -/
@[ext] theorem ext {s t : NatSet} (h : ∀ n, n ∈ s ↔ n ∈ t) : s = t := by
  have go : ∀ l₁ l₂ : List Nat, l₁.Pairwise (· < ·) → l₂.Pairwise (· < ·) →
      (∀ n, n ∈ l₁ ↔ n ∈ l₂) → l₁ = l₂ := by
    intro l₁
    induction l₁ with
    | nil =>
      intro l₂ _ _ h
      cases l₂ with
      | nil => rfl
      | cons b bs => simpa using h b
    | cons a as ih =>
      intro l₂ h₁ h₂ h
      cases l₂ with
      | nil => simpa using h a
      | cons b bs =>
        rw [List.pairwise_cons] at h₁ h₂
        have ha : a = b ∨ a ∈ bs := by simpa using (h a).1 (by simp)
        have hb : b = a ∨ b ∈ as := by simpa using (h b).2 (by simp)
        have hab : a = b := by
          rcases ha with ha | ha
          · exact ha
          · rcases hb with hb | hb
            · exact hb.symm
            · have := h₁.1 b hb
              have := h₂.1 a ha
              omega
        subst hab
        congr 1
        refine ih bs h₁.2 h₂.2 fun n => ⟨fun hn => ?_, fun hn => ?_⟩
        · have := (h n).1 (by simp [hn])
          have hlt := h₁.1 n hn
          rcases List.mem_cons.1 this with h' | h'
          · omega
          · exact h'
        · have := (h n).2 (by simp [hn])
          have hlt := h₂.1 n hn
          rcases List.mem_cons.1 this with h' | h'
          · omega
          · exact h'
  obtain ⟨l₁, h₁⟩ := s
  obtain ⟨l₂, h₂⟩ := t
  have : l₁ = l₂ := go l₁ l₂ h₁ h₂ h
  subst this
  rfl

/-- The set without members. -/
def empty : NatSet := ⟨[], .nil⟩

instance : Inhabited NatSet := ⟨empty⟩

instance : EmptyCollection NatSet := ⟨empty⟩

@[simp] theorem not_mem_empty (n : Nat) : n ∉ (∅ : NatSet) := List.not_mem_nil

/-! ## Inserting -/

/-- Insert a number into an ascending list. -/
def insertList (n : Nat) : List Nat → List Nat
  | [] => [n]
  | m :: ms => if n < m then n :: m :: ms else if n = m then m :: ms else m :: insertList n ms

theorem mem_insertList {n k : Nat} {l : List Nat} : k ∈ insertList n l ↔ k = n ∨ k ∈ l := by
  induction l with
  | nil => simp [insertList]
  | cons m ms ih =>
    unfold insertList
    split
    · simp
    · split
      · next h => subst h; simp
      · simp only [List.mem_cons, ih]
        exact or_left_comm

theorem ascending_insertList {n : Nat} {l : List Nat} (h : l.Pairwise (· < ·)) :
    (insertList n l).Pairwise (· < ·) := by
  induction l with
  | nil => simp [insertList]
  | cons m ms ih =>
    rw [List.pairwise_cons] at h
    unfold insertList
    split
    · next hlt =>
      refine List.pairwise_cons.2 ⟨fun k hk => ?_, List.pairwise_cons.2 h⟩
      rcases List.mem_cons.1 hk with rfl | hk
      · exact hlt
      · exact Nat.lt_trans hlt (h.1 k hk)
    · split
      · exact List.pairwise_cons.2 h
      · refine List.pairwise_cons.2 ⟨fun k hk => ?_, ih h.2⟩
        rcases mem_insertList.1 hk with rfl | hk
        · omega
        · exact h.1 k hk

/-- A set with one more member. -/
def insert (s : NatSet) (n : Nat) : NatSet :=
  ⟨insertList n s.toList, ascending_insertList s.ascending⟩

@[simp] theorem mem_insert {s : NatSet} {n k : Nat} : k ∈ s.insert n ↔ k = n ∨ k ∈ s :=
  mem_insertList

/-- A set with all numbers of a list added.  The last number is added first, so that an ascending
list needs no search. -/
def insertAll (s : NatSet) (l : List Nat) : NatSet := l.foldr (fun n s => s.insert n) s

@[simp] theorem mem_insertAll {s : NatSet} {l : List Nat} {k : Nat} :
    k ∈ s.insertAll l ↔ k ∈ l ∨ k ∈ s := by
  induction l with
  | nil => simp [insertAll]
  | cons n ns ih =>
    show k ∈ (s.insertAll ns).insert n ↔ _
    rw [mem_insert, ih, List.mem_cons, or_assoc]

/-- The set of the numbers in a list. -/
def ofList (l : List Nat) : NatSet := insertAll ∅ l

/-- The members of two sets together. -/
def union (s t : NatSet) : NatSet := s.insertAll t.toList

@[simp] theorem mem_ofList {l : List Nat} {k : Nat} : k ∈ ofList l ↔ k ∈ l := by
  simp [ofList]

@[simp] theorem mem_union {s t : NatSet} {k : Nat} : k ∈ s.union t ↔ k ∈ s ∨ k ∈ t := by
  simp [union, or_comm]

/-- The set with the one member `n`. -/
def singleton (n : Nat) : NatSet := ⟨[n], by simp⟩

@[simp] theorem mem_singleton {n k : Nat} : k ∈ singleton n ↔ k = n := List.mem_singleton

/-- The `count` numbers from `start` on. -/
def interval (start count : Nat) : NatSet := ⟨List.range' start count, List.pairwise_lt_range'⟩

@[simp] theorem mem_interval {start count k : Nat} :
    k ∈ interval start count ↔ start ≤ k ∧ k < start + count := by
  show k ∈ List.range' start count ↔ _
  rw [List.mem_range'_1]

/-! ## Selecting -/

/-- The members that satisfy a test. -/
def filter (s : NatSet) (p : Nat → Bool) : NatSet :=
  ⟨s.toList.filter p, s.ascending.filter p⟩

@[simp] theorem mem_filter {s : NatSet} {p : Nat → Bool} {k : Nat} :
    k ∈ s.filter p ↔ k ∈ s ∧ p k = true := List.mem_filter

/-- Whether two sets have a member in common. -/
def meets (s t : NatSet) : Bool := s.toList.any fun n => n ∈ t

theorem meets_iff {s t : NatSet} : s.meets t = true ↔ ∃ n, n ∈ s ∧ n ∈ t := by
  simp [meets]

/-- The number of members. -/
def size (s : NatSet) : Nat := s.toList.length

/-- The largest member and the set of the others. -/
def popMax? (s : NatSet) : Option (Nat × NatSet) :=
  s.toList.getLast?.map fun n =>
    (n, ⟨s.toList.dropLast, s.ascending.sublist s.toList.dropLast_sublist⟩)

/-- The member taken off and the others make up the set. -/
theorem mem_of_popMax? {s rest : NatSet} {n k : Nat} (h : s.popMax? = some (n, rest)) :
    k ∈ s ↔ k = n ∨ k ∈ rest := by
  unfold popMax? at h
  obtain ⟨a, ha, hr⟩ := Option.map_eq_some_iff.1 h
  injection hr with h₁ h₂
  subst h₁ h₂
  obtain ⟨init, hl⟩ := List.getLast?_eq_some_iff.1 ha
  show k ∈ s.toList ↔ k = a ∨ k ∈ s.toList.dropLast
  rw [hl]
  simp [or_comm]

@[simp] theorem popMax?_eq_none {s : NatSet} : s.popMax? = none ↔ s = ∅ := by
  obtain ⟨l, h⟩ := s
  simp only [popMax?, Option.map_eq_none_iff, List.getLast?_eq_none_iff]
  constructor
  · rintro rfl; rfl
  · intro h'; exact congrArg NatSet.toList h'

end NatSet

end TemporalCheck
