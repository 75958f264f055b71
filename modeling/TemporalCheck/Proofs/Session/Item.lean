import TemporalCheck.Proofs.Branching.Check
import TemporalCheck.Proofs.Linear.Comparison
import TemporalCheck.Proofs.Reading.Formula
import TemporalCheck.Proofs.Reading.Model
import TemporalCheck.Proofs.Session.Action

/-!
# TemporalCheck.Proofs.Session.Item

What the items of an input do to a session, in the logic of actions.

* A check fails only if the formula cannot be read (`says_checkFormula`).  Where there is a model,
  the report closes with a line that gives the verdict, and the verdict is right (`Reports`): the
  parts of the report before it depend on the options, the last line does not but for its length.
* A comparison fails only if the formulas cannot be read (`says_compareFormulas`), and its report
  closes with a line that tells whether they are equivalent (`Compares`).  Where they are not, the
  line is one that cannot be taken for anything else (`IsOpen`).

Both ask for a session that is `Sound` and a stream that has its end, and leave the like behind: an
item takes tokens from the front of a stream and never its end (`Stream.Takes`).
-/

namespace TemporalCheck

/-! ## Tokens that an item takes -/

namespace Stream

variable {u rest : Stream} {ts : List Token} {e : Expr}

/-- Some tokens at the front of a stream, at least one and not its end. -/
structure Takes (u : Stream) (ts : List Token) (rest : Stream) : Prop where
  eq_append : u = ts ++ rest
  ne_nil : ts ≠ []
  kind_ne_eof : ∀ t ∈ ts, t.kind ≠ .eof

theorem Takes.isInput (h : u.Takes ts rest) (hu : u.IsInput) : rest.IsInput := by
  rw [h.eq_append] at hu
  exact hu.of_append h.kind_ne_eof

theorem Takes.length_lt (h : u.Takes ts rest) : rest.length < u.length := by
  have hpos := List.length_pos_of_ne_nil h.ne_nil
  rw [h.eq_append, List.length_append]
  omega

theorem Takes.passed_eq (h : u.Takes ts rest) : u.passed rest = .ok ts := by
  rw [h.eq_append, passed_append]

theorem exists_takes_of_readFormula (h : u.readFormula = .ok (e, rest)) :
    ∃ ts, u.Takes ts rest ∧ Derives .implication ts e := by
  obtain ⟨ts, t, us, rfl, rfl, hd, -⟩ := exists_derives_of_readFormula h
  exact ⟨ts, ⟨rfl, hd.ne_nil nofun, hd.kind_ne_eof⟩, hd⟩

/-- What is left behind a formula has the end of the stream. -/
theorem IsInput.of_readFormula (hu : u.IsInput) (h : u.readFormula = .ok (e, rest)) :
    rest.IsInput := by
  obtain ⟨ts, htakes, -⟩ := exists_takes_of_readFormula h
  exact htakes.isInput hu

/-- Where a stream has its end, reading a formula from it meets no fault. -/
theorem IsInput.exists_refused {stop : Stop ReadFailure} (hu : u.IsInput)
    (h : u.readFormula = .error stop) : ∃ failure, stop = .refused failure := by
  cases stop with
  | refused failure => exact ⟨failure, rfl⟩
  | broken fault =>
    obtain ⟨t, ht, hk⟩ := hu.exists_eof
    exact absurd hk (haltsWith_of_readFormula h t ht)

end Stream

namespace Session

open Text

variable {s : Session} {E : Error → Prop} {u rest : Stream} {e e₁ e₂ : Expr} {f g : Formula}

/-! ## Lines -/

/-- A line in full, or shortened. -/
def IsShown (line shown : String) : Prop := shown = line ∨ shown = shorten maxLine line

/-- A text that ends with the end of a line, of a path or of a line that was cut, and so not with a
word and a dot. -/
def IsOpen (text : String) : Prop :=
  ∃ before, text = before ++ "\n" ∨ text = before ++ "*" ∨ text = before ++ ".."

theorem IsOpen.append_left {text : String} (h : IsOpen text) (first : String) :
    IsOpen (first ++ text) := by
  obtain ⟨before, h⟩ := h
  refine ⟨first ++ before, ?_⟩
  obtain rfl | rfl | rfl := h <;> simp [String.append_assoc]

theorem isOpen_render (trace : Trace) : IsOpen trace.render := by
  refine ⟨String.join (trace.stem.map (· ++ " ")) ++ "\x7b" ++ " ".intercalate trace.cycle ++
    "\x7d", .inr (.inl ?_)⟩
  simp [Lasso.render, String.append_assoc]

/-- A shortened line is open if the whole one is. -/
theorem IsOpen.shown {line shown : String} (h : IsOpen line) (hshown : IsShown line shown) :
    IsOpen shown := by
  obtain rfl | rfl := hshown
  · exact h
  · unfold shorten
    split
    · exact h
    · exact ⟨String.ofList (line.toList.take (maxLine - 3)) ++ ".", .inr (.inr (by
        simp [String.append_assoc]))⟩

/-- Whole lines, or nothing. -/
def IsLines (text : String) : Prop := text = "" ∨ ∃ before, text = before ++ "\n"

theorem IsLines.append {a b : String} (ha : IsLines a) (hb : IsLines b) : IsLines (a ++ b) := by
  obtain rfl | ⟨before, rfl⟩ := hb
  · simpa using ha
  · exact .inr ⟨a ++ before, by simp [String.append_assoc]⟩

/-- Lines joined are lines. -/
theorem isLines_join {l : List String} (h : ∀ a ∈ l, IsLines a) : IsLines (String.join l) := by
  induction l with
  | nil => exact .inl (by simp)
  | cons a l ih =>
    rw [String.join_cons]
    exact (h a (by simp)).append (ih fun b hb => h b (by simp [hb]))

/-- An automaton is printed in whole lines. -/
theorem isLines_render (b : Automaton) (vars : Vars) : IsLines (b.render vars) := by
  unfold Automaton.render
  refine .append (.append (isLines_join fun a ha => ?_) ?_) (isLines_join fun a ha => ?_)
  · obtain ⟨p, -, rfl⟩ := List.mem_map.1 ha
    exact .inr ⟨_, rfl⟩
  · split
    · exact .inl rfl
    · exact .inr ⟨" --- accept sets ---", rfl⟩
  · obtain ⟨set, -, rfl⟩ := List.mem_map.1 ha
    exact .inr ⟨" (" ++ " ".intercalate (set.toList.map fun s => toString s) ++ ")", by
      simp [String.append_assoc]⟩

theorem isOpen_automaton (title : String) (b : Automaton) (vars : Vars) :
    IsOpen (title ++ " automaton:\n" ++ b.render vars) := by
  obtain h | ⟨before, h⟩ := isLines_render b vars
  · exact ⟨title ++ " automaton:", .inl (by simp [h, String.append_assoc])⟩
  · exact IsOpen.append_left ⟨before, .inl h⟩ _

/-- The last of some lines, if there is one, is open. -/
def EndsOpen (lines : List String) : Prop := ∀ line, lines.getLast? = some line → IsOpen line

/-- Open endings one after another make an open ending. -/
theorem EndsOpen.append {lines more : List String} (h : EndsOpen lines) (h' : EndsOpen more) :
    EndsOpen (lines ++ more) := by
  intro line hline
  rw [List.getLast?_append] at hline
  cases hmore : more.getLast? with
  | none => exact h line (by simpa [hmore] using hline)
  | some last => exact h' line (by simpa [hmore] using hline)

theorem endsOpen_nil : EndsOpen [] := nofun

theorem endsOpen_line {line : String} (h : IsOpen line) : EndsOpen [line] := by
  simpa [EndsOpen] using h

/-! ## Parts of reports -/

/-- The formula with its type can be said. -/
theorem says_typed (hs : s.context.forest.Tidy) (hf : f.StandsFor s.context.forest e) :
    Says (typed f) s E fun _ lines s' => lines = [] ∧ s' = s := by
  have hrender : f.renderTyped s.context =
      .ok (f.typeName ++ ": " ++ e.render s.context.allParens) := by
    rw [Formula.renderTyped, Formula.render, Formula.renderNode_of_denotes hf.denotes]
    rfl
  exact .bind (.get hs (.lift hs hrender ⟨rfl, rfl⟩))

/-- Noting that the model has been put to use. -/
theorem says_noteUse (hs : s.context.forest.Tidy) :
    Says (modify fun σ : Session => { σ with modelUsed := σ.model.isDefined }) s E
      fun _ lines _ => lines = [] :=
  .modify ⟨rfl, rfl, .refl hs, Iff.rfl⟩ rfl rfl

/-- The tokens of an item can be echoed. -/
theorem says_echo {ts : List Token} (hs : s.context.forest.Tidy) (h : u.Takes ts rest) :
    Says (echo u rest) s E fun _ _ _ => True := by
  refine .bind (.get hs ?_)
  split
  · exact .bind (.lift hs h.passed_eq (.say hs fun _ _ => trivial))
  · exact .pure hs trivial

theorem says_sayAutomaton (hs : s.context.forest.Tidy) (title : String) (b : Automaton) :
    Says (sayAutomaton title b) s E fun _ lines _ => EndsOpen lines :=
  .bind (.get hs (.say hs fun _ _ => endsOpen_line (isOpen_automaton _ _ _)))

theorem says_sayUnused (hs : s.context.forest.Tidy) (names : List String) :
    Says (sayUnused names) s E fun _ _ _ => True :=
  .forM_say hs fun _ _ => trivial

/-- A line is said in full or cut short. -/
theorem says_shortened (hs : s.context.forest.Tidy) (line : String) :
    Says (shortened line) s E fun shown lines s' => IsShown line shown ∧ lines = [] ∧ s' = s := by
  refine .bind (.get hs (.pure hs ⟨?_, rfl, rfl⟩))
  unfold IsShown
  split
  · exact .inl rfl
  · exact .inr rfl

/-- The normal form of a formula is stored, and nothing is said. -/
theorem says_normalized (hs : s.context.forest.Tidy) (hf : f.StandsFor s.context.forest e) :
    Says (attempt f.normalized) s E fun normal lines s' =>
      lines = [] ∧ ∃ e', normal.StandsFor s'.context.forest e' := by
  have hnormal := Formula.yields_normalizedWith_table (Formula.table_subset f.usage) hs hf
  refine .attempt (.lift (hnormal.mono fun normal c h => ?_))
  obtain ⟨e', hgiven, -⟩ := h
  exact ⟨.of_given hgiven, rfl, e', hgiven.stands⟩

/-! ## Checks -/

/-- Checking a linear-time formula tells the verdict in the last line. -/
theorem says_checkLinear (hs : s.context.forest.Tidy) (hf : f.StandsFor s.context.forest e)
    (hlin : f.isLinear = true) (hm : s.model.isDefined = true) :
    Says (checkLinear f) s E fun _ lines s' => ∃ verdict shown, [shown ++ "\n"] <:+ lines ∧
      IsShown verdict.render shown ∧ Linear.Judges s.model s'.context.vars e verdict := by
  have hcheck := Linear.succeeds_check hs hf hlin hm
  refine .bind (.get hs (.bind (.attempt (hcheck.mono fun checked c h => ⟨h.1, ?_⟩))))
  refine .bind ((says_sayUnused h.1.tidy checked.unused).mono fun _ unused σ hσ _ => ?_)
  refine .bind (.get hσ.tidy (.optional₃ (Says.mono (Q := fun _ _ _ => True) ?_
    fun _ automata σ' hσ' _ => ?_)))
  · split
    · refine .bind ((says_sayAutomaton hσ.tidy _ _).mono fun _ _ σ hσ _ => ?_)
      refine .bind ((says_sayAutomaton hσ.tidy _ _).mono fun _ _ σ hσ _ => ?_)
      exact (says_sayAutomaton hσ.tidy _ _).mono fun _ _ _ _ _ => trivial
    · exact .pure hσ.tidy trivial
  · refine .bind ((says_shortened hσ'.tidy _).mono fun shown _ σ'' _ h' => ?_)
    obtain ⟨hshown, rfl, rfl⟩ := h'
    refine .say hσ'.tidy fun σ'' hσ'' => ⟨checked.verdict, shown, ?_, hshown, ?_⟩
    · simp only [← List.append_assoc]
      exact List.suffix_append _ _
    · exact h.2.mono ((hσ.trans hσ').trans hσ'').context.vars

/-- Every state has a row in the table of subformulas. -/
theorem exists_marksRow {m : Model} {state : Nat} (h : state < m.size)
    (checked : Branching.Check) : ∃ row, marksRow m checked state = .ok row := by
  obtain ⟨name, hname⟩ := Model.name_of_lt h
  rw [marksRow, hname]
  exact ⟨_, rfl⟩

/-- The table of marks can be said. -/
theorem says_sayMarks (hs : s.context.forest.Tidy) (checked : Branching.Check) :
    Says (sayMarks checked) s E fun _ _ _ => True := by
  have hrows : ∀ state ∈ List.range s.model.size, ∃ row, marksRow s.model checked state = .ok row :=
    fun _ hstate => exists_marksRow (List.mem_range.1 hstate) checked
  refine .bind (.get hs (.bind ((Says.mapM_lift hs hrows).mono fun rows _ _ _ h => ?_)))
  obtain ⟨rfl, rfl⟩ := h
  exact .say hs fun _ _ => trivial

/-- Checking a branching-time formula tells the verdict in the last line. -/
theorem says_checkBranching (hs : s.context.forest.Tidy) (hf : f.StandsFor s.context.forest e)
    (hbranch : f.isBranching = true) (hm : s.model.isDefined = true) (htotal : s.model.IsTotal) :
    Says (checkBranching f) s E fun _ lines s' => ∃ satisfying,
      [(Branching.verdictOf s.model satisfying).render ++ "\n"] <:+ lines ∧
      Branching.IsExtent s.model s'.context.vars e satisfying := by
  have hcheck := Branching.succeeds_check hs hf hbranch hm htotal s.options.showMarks
  refine .bind (.get hs (.bind (.get hs (.bind (.attempt (hcheck.mono fun checked c h =>
    ⟨h.toContinues, ?_⟩))))))
  refine .bind ((says_sayUnused h.tidy checked.unused).mono fun _ unused σ hσ _ => ?_)
  refine .bind (.forM_say hσ.tidy fun σ₁ hσ₁ => .bind (.get hσ₁.tidy ?_))
  refine .optional (Says.mono (Q := fun _ _ _ => True) ?_ fun _ table σ₂ hσ₂ _ => ?_)
  · split
    · exact says_sayMarks hσ₁.tidy checked
    · exact .pure hσ₁.tidy trivial
  · refine .say hσ₂.tidy fun σ₃ hσ₃ => ⟨checked.satisfying, ?_, ?_⟩
    · rw [h.verdict_eq]
      simp only [← List.append_assoc]
      exact List.suffix_append _ _
    · exact h.satisfying.mono (((hσ.trans hσ₁).trans hσ₂).trans hσ₃).context.vars

/-- What the last line of a check tells about a formula. -/
inductive Reports (m : Model) (vars : Vars) (e : Expr) : String → Prop
  | linear {verdict : Linear.Verdict} {shown : String} (hlin : e.usage.branching = false)
      (hshown : IsShown verdict.render shown) (h : Linear.Judges m vars e verdict) :
      Reports m vars e shown
  | branching {satisfying : NatSet} (hbranch : e.usage.branching = true)
      (hlin : e.usage.linear = false) (h : Branching.IsExtent m vars e satisfying) :
      Reports m vars e (Branching.verdictOf m satisfying).render
  | mixed (hbranch : e.usage.branching = true) (hlin : e.usage.linear = true) :
      Reports m vars e "(cannot check mixed CTL/LTL formula...)"

/-- Reading a formula in a session. -/
theorem says_read (hs : s.context.forest.Tidy) (hu : u.IsInput)
    (hE : ∀ failure, u.readFormula = .error (.refused failure) → E (.parse failure.cause)) :
    Says (attempt (Formula.read u)) s E fun p lines s' =>
      lines = [] ∧ ∃ e, u.readFormula = .ok (e, p.2) ∧ p.1.StandsFor s'.context.forest e := by
  cases hread : u.readFormula with
  | ok p =>
    obtain ⟨e, rest⟩ := p
    refine .attempt ((Formula.succeeds_read hs hread).mono fun p c h => ?_)
    obtain ⟨rfl, hgiven⟩ := h
    exact ⟨.of_given hgiven, rfl, e, rfl, hgiven.stands⟩
  | error stop =>
    obtain ⟨failure, rfl⟩ := hu.exists_refused hread
    obtain ⟨forest, hkeeps, htidy, hfails⟩ := Formula.read_of_error hs hread
    exact .attempt_error hfails ⟨hkeeps, htidy, rfl, .refl _⟩ (hE failure hread)

/-- What a session needs to go on: the list of empty slots is right, nothing is pinned, every
transition of the model leads to a state and every variable in it has a name. -/
structure Sound (s : Session) : Prop where
  tidy : s.context.forest.Tidy
  unpinned : s.context.forest.pins = []
  total : s.model.IsTotal
  isOver : s.model.IsOver s.context.vars

/-- A session stays sound through what only adds to it. -/
theorem Sound.of_follows {s' : Session} (hs : s.Sound) (h : s.Follows s') : s'.Sound := by
  refine ⟨h.tidy, ?_, ?_, ?_⟩
  · rw [h.context.keeps.pins_eq, hs.unpinned]
  · rw [h.model_eq]
    exact hs.total
  · rw [h.model_eq]
    exact hs.isOver.mono h.context.vars

/-- The text of some lines ends with a line and an empty one. -/
def Closes (lines : List String) (line : String) : Prop :=
  ∃ before, transcript lines = before ++ "\n" ++ line ++ "\n\n"

/-- The last lines close what they are the end of. -/
theorem closes_of_suffix {lines more last : List String} {line : String} (hne : lines ≠ [])
    (hmore : last <:+ more) (hlast : transcript last = line ++ "\n\n") :
    Closes (lines ++ more) line := by
  obtain ⟨init, rfl⟩ := hmore
  obtain hnil | ⟨first, l, hl⟩ := List.eq_nil_or_concat' (lines ++ init)
  · exact absurd (List.append_eq_nil_iff.1 hnil).1 hne
  · refine ⟨transcript first ++ l, ?_⟩
    rw [← List.append_assoc, hl, transcript_append, transcript_append, hlast]
    simp [transcript, String.append_assoc]

theorem transcript_line (line : String) : transcript [line ++ "\n"] = line ++ "\n\n" := by
  simp [transcript, String.append_assoc]

/-- Checking a stored formula, by the logics it belongs to. -/
theorem says_checkStored (hs : s.Sound) (hf : f.StandsFor s.context.forest e)
    (hm : s.model.isDefined = true) (rest : Stream) :
    Says (do
      if f.isLinear then checkLinear f
      else if f.isBranching then checkBranching f
      else say "(cannot check mixed CTL/LTL formula...)\n"
      return rest) s E fun r lines s' => r = rest ∧
        ∃ line, [line ++ "\n"] <:+ lines ∧ Reports s.model s'.context.vars e line := by
  have hlinear : f.isLinear = !e.usage.branching := by rw [Formula.isLinear, hf.usage_eq]
  have hbranching : f.isBranching = !e.usage.linear := by rw [Formula.isBranching, hf.usage_eq]
  dsimp only
  split
  · next hlin =>
    refine .returning ((says_checkLinear hs.tidy hf hlin hm).mono fun _ lines s' _ h => ?_)
    obtain ⟨verdict, shown, hlast, hshown, hjudges⟩ := h
    exact ⟨rfl, shown, hlast, .linear (by simpa [hlinear] using hlin) hshown hjudges⟩
  · next hlin =>
    have hbranch : e.usage.branching = true := by simpa [hlinear] using hlin
    split
    · next hbr =>
      refine .returning ((says_checkBranching hs.tidy hf hbr hm hs.total).mono fun _ _ _ _ h => ?_)
      obtain ⟨satisfying, hlast, hextent⟩ := h
      exact ⟨rfl, _, hlast, .branching hbranch (by simpa [hbranching] using hbr) hextent⟩
    · next hbr =>
      refine .returning (.say hs.tidy fun _ _ => ⟨rfl, _, List.suffix_refl _, .mixed hbranch ?_⟩)
      simpa [hbranching] using hbr

/-- Checking a formula.  It fails only if the formula cannot be read, and where there is a model,
the last line tells what holds in it. -/
theorem says_checkFormula (hs : s.Sound) (hu : u.IsInput) :
    Says (checkFormula u) s
      (fun error => ∃ failure, u.readFormula = .error (.refused failure) ∧
        error = .parse failure.cause)
      fun rest lines s' => ∃ e, u.readFormula = .ok (e, rest) ∧ (s.model.isDefined = true →
        ∃ line, Closes lines line ∧ Reports s.model s'.context.vars e line) := by
  refine .bind ((says_noteUse hs.tidy).mono fun _ _ σ₀ hσ₀ h => ?_)
  subst h
  refine .bind ((says_read hσ₀.tidy hu fun failure h => ⟨failure, h, rfl⟩).mono
    fun p _ σ₁ hσ₁ h => ?_)
  obtain ⟨f, rest⟩ := p
  obtain ⟨rfl, e, hread, hf⟩ := h
  dsimp only at hread hf
  obtain ⟨ts, htakes, -⟩ := Stream.exists_takes_of_readFormula hread
  refine .bind ((says_echo hσ₁.tidy htakes).mono fun _ echoed σ₂ hσ₂ _ => ?_)
  have hf₂ := hσ₂.context.standsFor hf
  refine .bind ((says_typed hσ₂.tidy hf₂).mono fun text _ _ _ h => ?_)
  obtain ⟨rfl, rfl⟩ := h
  refine .bind (.say hσ₂.tidy fun σ₃ hσ₃ => .bind (.get hσ₃.tidy ?_))
  have hf₃ := hσ₃.context.standsFor hf₂
  refine .optional₃ (Says.mono (Q := fun _ _ _ => True) ?_ fun _ normal σ₄ hσ₄ _ => ?_)
  · split
    · refine .bind ((says_normalized hσ₃.tidy hf₃).mono fun normal _ σ hσ h => ?_)
      obtain ⟨-, e', hnormal⟩ := h
      refine .bind ((says_typed hσ.tidy hnormal).mono fun _ _ σ' hσ' _ => ?_)
      exact .say hσ'.tidy fun _ _ => trivial
    · exact .pure hσ₃.tidy trivial
  · have hf₄ := hσ₄.context.standsFor hf₃
    have hσ := (((hσ₀.trans hσ₁).trans hσ₂).trans hσ₃).trans hσ₄
    refine .bind (.get hσ₄.tidy ?_)
    dsimp only
    split
    · next hm =>
      refine (says_checkStored (hs.of_follows hσ) hf₄ hm rest).mono fun r last σ₅ _ h => ?_
      obtain ⟨rfl, line, hlast, hreports⟩ := h
      rw [hσ.model_eq] at hreports
      refine ⟨e, hread, fun _ => ⟨line, ?_, hreports⟩⟩
      have hne : echoed ++ ([text] ++ normal) ≠ [] := by simp
      simpa using closes_of_suffix hne hlast (transcript_line line)
    · next hm =>
      rw [hσ.model_eq] at hm
      exact .pure hσ₄.tidy ⟨e, hread, fun h => absurd h hm⟩

/-! ## Comparisons -/

/-- One direction of a comparison ends open, and it says something if there is a difference. -/
theorem says_sayPass (hs : s.context.forest.Tidy) (name : String) (pass : Linear.Pass)
    (isFirst : Bool) :
    Says (sayPass name pass isFirst) s E fun _ lines _ =>
      EndsOpen lines ∧ (pass.allows.isSome = true → lines ≠ []) := by
  refine .bind (.get hs ?_)
  dsimp only
  refine .optional₂ (Says.mono (Q := fun _ lines _ => EndsOpen lines) ?_
    fun _ operands σ₁ hσ₁ hoperands => ?_)
  · split
    · refine .bind ((says_sayAutomaton hs _ _).mono fun _ first σ hσ hfirst => ?_)
      exact (says_sayAutomaton hσ.tidy _ _).mono fun _ _ _ _ h => hfirst.append h
    · exact .pure hs endsOpen_nil
  refine .optional (Says.mono (Q := fun _ lines _ => EndsOpen lines) ?_
    fun _ product σ₂ hσ₂ hproduct => ?_)
  · split
    · exact says_sayAutomaton hσ₁.tidy _ _
    · exact .pure hσ₁.tidy endsOpen_nil
  refine Says.mono (Q := fun _ more _ => EndsOpen more ∧ (pass.allows.isSome = true → more ≠ [])) ?_
    fun _ more _ _ h => ⟨hoperands.append (hproduct.append h.1), fun hsome => by simp [h.2 hsome]⟩
  cases pass.allows with
  | none => exact .pure hσ₂.tidy ⟨endsOpen_nil, nofun⟩
  | some trace =>
    dsimp only
    refine .optional (Says.mono (Q := fun _ _ _ => True) ?_ fun _ head σ₃ hσ₃ _ => ?_)
    · split
      · exact .say hσ₂.tidy fun _ _ => trivial
      · exact .pure hσ₂.tidy trivial
    · refine .bind ((says_shortened hσ₃.tidy _).mono fun shown _ _ _ h => ?_)
      obtain ⟨hshown, rfl, rfl⟩ := h
      have hopen := (((isOpen_render trace).append_left _).shown hshown).append_left "\n"
      refine .say hσ₃.tidy fun _ _ => ⟨fun line hline => ?_, by simp⟩
      simp only [List.nil_append, List.getLast?_append, List.getLast?_singleton, Option.some_or,
        Option.some.injEq] at hline
      rwa [← hline]

/-- A comparison ends with the line `Equivalent.`, or with an open line. -/
theorem says_sayComparison (hs : s.context.forest.Tidy) (c : Linear.Comparison) :
    Says (sayComparison c) s E fun _ lines _ => ∃ line, [line, ""] <:+ lines ∧
      (c.isEquivalence = true ∧ line = "Equivalent." ∨ c.isEquivalence = false ∧ IsOpen line) := by
  refine .bind ((says_sayPass hs _ _ _).mono fun _ first σ₁ hσ₁ hfirst => ?_)
  refine .bind ((says_sayPass hσ₁.tidy _ _ _).mono fun _ second σ₂ hσ₂ hsecond => ?_)
  dsimp only
  split
  · next heq =>
    refine .bind (.say hσ₂.tidy fun σ₃ hσ₃ => .say hσ₃.tidy fun _ _ => ?_)
    refine ⟨"Equivalent.", ?_, .inl ⟨heq, rfl⟩⟩
    exact ⟨first ++ second, by simp⟩
  · next heq =>
    -- Nothing at all is written only where no run is found in either direction.
    have hne : first ++ second ≠ [] := by
      intro hnil
      obtain ⟨rfl, rfl⟩ := List.append_eq_nil_iff.1 hnil
      refine heq ?_
      rw [Linear.Comparison.isEquivalence, Bool.and_eq_true, ← Option.not_isSome,
        ← Option.not_isSome, Bool.not_eq_true', Bool.not_eq_true', Bool.eq_false_iff,
        Bool.eq_false_iff]
      exact ⟨fun h => hfirst.2 h rfl, fun h => hsecond.2 h rfl⟩
    obtain ⟨init, line, hlines⟩ := (List.eq_nil_or_concat' (first ++ second)).resolve_left hne
    refine .say hσ₂.tidy fun _ _ => ⟨line, ⟨init, ?_⟩, .inr ⟨by simpa using heq, ?_⟩⟩
    · rw [← List.append_assoc, hlines, List.append_assoc, List.singleton_append]
    · exact hfirst.1.append hsecond.1 line (by simp [hlines])

/-- A comparison at the front of a stream. -/
inductive ReadsComparison : Stream → Expr → Expr → Stream → Prop
  | intro {t t' : Token} {s₁ s₂ rest : Stream} {e₁ e₂ : Expr} (ht : t.kind = .compare)
      (h₁ : s₁.readFormula = .ok (e₁, t' :: s₂)) (ht' : t'.kind = .against)
      (h₂ : s₂.readFormula = .ok (e₂, rest)) : ReadsComparison (t :: s₁) e₁ e₂ rest

/-- A comparison is read in one way only. -/
theorem ReadsComparison.unique {e₁' e₂' : Expr} {rest' : Stream} (h : ReadsComparison u e₁ e₂ rest)
    (h' : ReadsComparison u e₁' e₂' rest') : e₁ = e₁' ∧ e₂ = e₂' ∧ rest = rest' := by
  obtain ⟨-, h₁, -, h₂⟩ := h
  obtain ⟨-, h₁', -, h₂'⟩ := h'
  rw [h₁] at h₁'
  cases h₁'
  rw [h₂] at h₂'
  cases h₂'
  exact ⟨rfl, rfl, rfl⟩

/-- The tokens of a comparison: its keyword, a formula, the keyword between and a formula. -/
theorem exists_takes_of_readsComparison (h : ReadsComparison u e₁ e₂ rest) :
    ∃ t ts t' us, u.Takes (t :: (ts ++ t' :: us)) rest ∧ t.kind = .compare ∧
      Derives .implication ts e₁ ∧ t'.kind = .against ∧ Derives .implication us e₂ := by
  obtain ⟨ht, h₁, ht', h₂⟩ := h
  obtain ⟨ts, htakes₁, hd₁⟩ := Stream.exists_takes_of_readFormula h₁
  obtain ⟨us, htakes₂, hd₂⟩ := Stream.exists_takes_of_readFormula h₂
  refine ⟨_, ts, _, us, ⟨?_, by simp, ?_⟩, ht, hd₁, ht', hd₂⟩
  · simp [htakes₁.eq_append, htakes₂.eq_append]
  · simp only [List.forall_mem_cons, List.forall_mem_append]
    exact ⟨by simp [ht], hd₁.kind_ne_eof, by simp [ht'], hd₂.kind_ne_eof⟩

/-- What the last line of a comparison tells about two formulas. -/
inductive Compares (e₁ e₂ : Expr) : String → Prop
  | equivalent (h₁ : e₁.usage.branching = false) (h₂ : e₂.usage.branching = false)
      (h : ∀ w : Word String, e₁.HoldsOf w ↔ e₂.HoldsOf w) : Compares e₁ e₂ "Equivalent."
  | different {line : String} (h₁ : e₁.usage.branching = false) (h₂ : e₂.usage.branching = false)
      (hline : IsOpen line) (h : ¬ ∀ w : Word String, e₁.HoldsOf w ↔ e₂.HoldsOf w) :
      Compares e₁ e₂ line
  | refused (text : String) (h : e₁.usage.branching = true ∨ e₂.usage.branching = true) :
      Compares e₁ e₂ ("(" ++ CheckError.message (.notLinear text) ++ ")")

/-- An expected token is passed; where it is missing, the error is one of reading. -/
theorem says_expect {kind : Kind} (hs : s.context.forest.Tidy) (hu : u.IsInput)
    (hkind : kind ≠ .eof)
    (hE : (∀ t rest, t.kind = kind → u ≠ t :: rest) → ∀ cause, E (.parse cause)) :
    Says (expect u kind) s E fun rest lines s' =>
      lines = [] ∧ s' = s ∧ ∃ t, t.kind = kind ∧ u = t :: rest := by
  refine .bind ?_
  cases hexpect : u.expect kind with
  | ok p =>
    refine .attempt (.lift_scan rfl ⟨.refl hs, .pure hs ⟨rfl, rfl, p.1, ?_⟩⟩)
    exact (Stream.expect_eq_ok_iff hkind).1 hexpect
  | error stop =>
    obtain ⟨hnil, -⟩ | ⟨t, v, rfl, ht, rfl⟩ := Stream.expect_of_error hexpect
    · obtain ⟨t, v, rfl⟩ := hu.exists_cons
      cases hnil
    · refine .attempt_error (scan_of_refused rfl s.context) (.refl hs) (hE ?_ _)
      rintro t' rest ht' heq
      cases heq
      exact ht ht'

/-- A formula of a comparison can be said under its title. -/
theorem says_sayCompared (hs : s.context.forest.Tidy) (hf : f.StandsFor s.context.forest e)
    (title : String) : Says (sayCompared title f) s E fun _ _ _ => True := by
  refine .bind ((says_typed hs hf).mono fun text _ _ _ h => ?_)
  obtain ⟨rfl, rfl⟩ := h
  refine .bind (.say hs fun σ hσ => .bind (.get hσ.tidy ?_))
  split
  · have hnormal := says_normalized (E := E) hσ.tidy (hσ.context.standsFor hf)
    refine .bind (hnormal.mono fun normal _ σ' hσ' h => ?_)
    obtain ⟨-, e', hnormal⟩ := h
    refine .bind ((says_typed hσ'.tidy hnormal).mono fun _ _ σ'' hσ'' _ => ?_)
    exact .say hσ''.tidy fun _ _ => trivial
  · exact .pure hσ.tidy trivial

/-- Comparing stored formulas. -/
theorem says_compareStored (hs : s.context.forest.Tidy) (hf : f.StandsFor s.context.forest e₁)
    (hg : g.StandsFor s.context.forest e₂) (rest : Stream) :
    Says (do
      match ← tryAttempt (Linear.compare f g) with
      | .ok comparison => sayComparison comparison
      | .error error => say ("(" ++ error.message ++ ")\n")
      return rest) s E fun r lines _ => r = rest ∧
        ∃ line last, last <:+ lines ∧ transcript last = line ++ "\n\n" ∧ Compares e₁ e₂ line := by
  have hflin : f.isLinear = !e₁.usage.branching := by rw [Formula.isLinear, hf.usage_eq]
  have hglin : g.isLinear = !e₂.usage.branching := by rw [Formula.isLinear, hg.usage_eq]
  by_cases hlin : e₁.usage.branching = false ∧ e₂.usage.branching = false
  · obtain ⟨h₁, h₂⟩ := hlin
    obtain ⟨c, context, hcompare, hcont, hfirst, hsecond⟩ :=
      Linear.succeeds_compare hs hf hg (by rw [hflin, h₁]; rfl) (by rw [hglin, h₂]; rfl)
    have hequiv := Linear.isEquivalence_iff hfirst hsecond
    refine .bind (.tryAttempt hcompare hcont (.returning ?_))
    refine (says_sayComparison hcont.tidy c).mono fun _ lines _ _ h => ?_
    obtain ⟨line, hlast, hline⟩ := h
    refine ⟨rfl, line, [line, ""], hlast, by simp [transcript, String.append_assoc], ?_⟩
    obtain ⟨heq, rfl⟩ | ⟨hne, hopen⟩ := hline
    · exact .equivalent h₁ h₂ (hequiv.1 heq)
    · exact .different h₁ h₂ hopen fun h => by simp [hequiv.2 h] at hne
  · have hlin' : e₁.usage.branching = true ∨ e₂.usage.branching = true := by
      simpa [imp_iff_not_or] using hlin
    obtain ⟨text, context, hcompare, hcont⟩ :=
      Linear.compare_of_not_linear hs hf hg (by rw [hflin, hglin]; simpa using hlin')
    refine .bind (.tryAttempt hcompare hcont (.returning (.say hcont.tidy fun _ _ => ?_)))
    refine ⟨rfl, _, _, List.suffix_refl _, ?_, .refused text hlin'⟩
    simp [transcript, Error.message, String.append_assoc]

/-- Reporting on two stored formulas that are to be compared. -/
theorem says_reportCompared {ts : List Token} (hs : s.context.forest.Tidy)
    (hf : f.StandsFor s.context.forest e₁) (hg : g.StandsFor s.context.forest e₂)
    (htakes : u.Takes ts rest) :
    Says (do
      echo u rest
      sayCompared "Comparing: " f
      sayCompared "     with: " g
      say ""
      match ← tryAttempt (Linear.compare f g) with
      | .ok comparison => sayComparison comparison
      | .error error => say ("(" ++ error.message ++ ")\n")
      return rest) s E fun r lines _ => r = rest ∧
        ∃ line, Closes lines line ∧ Compares e₁ e₂ line := by
  refine .bind ((says_echo hs htakes).mono fun _ echoed σ₁ hσ₁ _ => ?_)
  have hf₁ := hσ₁.context.standsFor hf
  refine .bind ((says_sayCompared hσ₁.tidy hf₁ _).mono fun _ first σ₂ hσ₂ _ => ?_)
  have hg₂ := (hσ₁.trans hσ₂).context.standsFor hg
  refine .bind ((says_sayCompared hσ₂.tidy hg₂ _).mono fun _ second σ₃ hσ₃ _ => ?_)
  refine .bind (.say hσ₃.tidy fun σ₄ hσ₄ => ?_)
  have hf₄ := ((hσ₂.trans hσ₃).trans hσ₄).context.standsFor hf₁
  have hg₄ := (hσ₃.trans hσ₄).context.standsFor hg₂
  refine (says_compareStored hσ₄.tidy hf₄ hg₄ rest).mono fun r more _ _ h => ?_
  obtain ⟨rfl, line, last, hlast, htext, hcompares⟩ := h
  have hne : echoed ++ (first ++ (second ++ [""])) ≠ [] := by simp
  exact ⟨rfl, line, by simpa using closes_of_suffix hne hlast htext, hcompares⟩

/-- Comparing two formulas.  It fails only if they cannot be read, and the last line tells how they
compare. -/
theorem says_compareFormulas (hs : s.context.forest.Tidy) (hu : u.IsInput) :
    Says (compareFormulas u) s
      (fun error => (∃ cause, error = .parse cause) ∧ ∀ e₁ e₂ rest, ¬ ReadsComparison u e₁ e₂ rest)
      fun rest lines _ => ∃ e₁ e₂ line, ReadsComparison u e₁ e₂ rest ∧ Closes lines line ∧
        Compares e₁ e₂ line := by
  refine .bind ((says_noteUse hs).mono fun _ _ σ₀ hσ₀ h => ?_)
  subst h
  -- Each of the four parts is read only if all before it were.
  have hcompare : Kind.compare ≠ .eof := nofun
  have hno₀ : (∀ t rest, t.kind = .compare → u ≠ t :: rest) → ∀ e₁ e₂ rest,
      ¬ ReadsComparison u e₁ e₂ rest := by
    rintro hno _ _ _ ⟨ht, -, -, -⟩
    exact hno _ _ ht rfl
  refine .bind ((says_expect hσ₀.tidy hu hcompare fun h cause => ⟨⟨cause, rfl⟩, hno₀ h⟩).mono
    fun s₁ _ _ _ h => ?_)
  obtain ⟨rfl, rfl, t, ht, rfl⟩ := h
  have hu₁ : Stream.IsInput s₁ := hu.of_cons (by simp [ht])
  have hno₁ : ∀ failure, s₁.readFormula = .error (.refused failure) → ∀ e₁ e₂ rest,
      ¬ ReadsComparison (t :: s₁) e₁ e₂ rest := by
    rintro failure hfails _ _ _ ⟨-, h₁, -, -⟩
    rw [hfails] at h₁
    cases h₁
  refine .bind ((says_read hσ₀.tidy hu₁ fun failure h => ⟨⟨_, rfl⟩, hno₁ failure h⟩).mono
    fun p _ σ₁ hσ₁ h => ?_)
  obtain ⟨f, s₂⟩ := p
  obtain ⟨rfl, e₁, h₁, hf⟩ := h
  dsimp only at h₁ hf ⊢
  have hu₂ := hu₁.of_readFormula h₁
  have hagainst : Kind.against ≠ .eof := nofun
  have hno₂ : (∀ t' rest, t'.kind = .against → s₂ ≠ t' :: rest) → ∀ e₁ e₂ rest,
      ¬ ReadsComparison (t :: s₁) e₁ e₂ rest := by
    rintro hno _ _ _ ⟨-, h₁', ht', -⟩
    rw [h₁] at h₁'
    cases h₁'
    exact hno _ _ ht' rfl
  refine .bind ((says_expect hσ₁.tidy hu₂ hagainst fun h cause => ⟨⟨cause, rfl⟩, hno₂ h⟩).mono
    fun s₃ _ _ _ h => ?_)
  obtain ⟨rfl, rfl, t', ht', rfl⟩ := h
  have hu₃ : Stream.IsInput s₃ := hu₂.of_cons (by simp [ht'])
  have hno₃ : ∀ failure, s₃.readFormula = .error (.refused failure) → ∀ e₁ e₂ rest,
      ¬ ReadsComparison (t :: s₁) e₁ e₂ rest := by
    rintro failure hfails _ _ _ ⟨-, h₁', -, h₂⟩
    rw [h₁] at h₁'
    cases h₁'
    rw [hfails] at h₂
    cases h₂
  refine .bind ((says_read hσ₁.tidy hu₃ fun failure h => ⟨⟨_, rfl⟩, hno₃ failure h⟩).mono
    fun p _ σ₂ hσ₂ h => ?_)
  obtain ⟨g, rest⟩ := p
  obtain ⟨rfl, e₂, h₂, hg⟩ := h
  dsimp only at h₂ hg ⊢
  have hreads : ReadsComparison (t :: s₁) e₁ e₂ rest := .intro ht h₁ ht' h₂
  obtain ⟨_, _, _, _, htakes, -⟩ := exists_takes_of_readsComparison hreads
  have hf₂ := hσ₂.context.standsFor hf
  refine (says_reportCompared hσ₂.tidy hf₂ hg htakes).mono fun r _ _ _ h => ?_
  obtain ⟨rfl, line, hcloses, hcompares⟩ := h
  exact ⟨e₁, e₂, line, hreads, hcloses, hcompares⟩

end Session

end TemporalCheck
