import Mathlib.Data.Set.Insert
import TemporalCheck.Proofs.Operation
import TemporalCheck.Proofs.Reading.Definition
import TemporalCheck.Proofs.TargetForm

/-!
# TemporalCheck.Proofs.Warning

Warnings about variables that hold nowhere in the model.  The checks of linear and of branching time
share one set of reported variables, by number; `Model.Tracks` says which names these are.

* Work that is no check leaves the warnings alone (`Operation.relates_perform`).
* A check reports the variables of its formula that no state lists and that no formula checked
  before has, each once.  A check that is refused reports nothing (`Linear.ensures_check`,
  `Branching.ensures_check`).
-/

namespace TemporalCheck

variable {α β : Type} {vars vars' : Vars} {c c' : Context} {m : Model} {f : Formula} {e : Expr}
  {names more : List String} {x : String}

/-! ## Sets of variables -/

namespace Vars

/-- A set of numbers has the numbers of some names, which are all known, and no others. -/
structure Codes (vars : Vars) (names : Set String) (set : NatSet) : Prop where
  exists_name : ∀ v ∈ set, ∃ x ∈ names, vars.index? x = some v
  exists_number : ∀ x ∈ names, ∃ v ∈ set, vars.index? x = some v

variable {names : Set String} {set : NatSet} {v : Nat}

theorem codes_empty (vars : Vars) : vars.Codes ∅ ∅ :=
  ⟨fun v hv => absurd hv (NatSet.not_mem_empty v), fun _ hx => hx.elim⟩

/-- The numbers of some names, all of which have one, code these names. -/
theorem codes_ofList {names : List String} (h : ∀ x ∈ names, ∃ v, vars.index? x = some v) :
    vars.Codes {x | x ∈ names} (.ofList (names.filterMap vars.index?)) where
  exists_name v hv := by simpa [NatSet.mem_ofList] using hv
  exists_number x hx := by
    obtain ⟨v, hv⟩ := h x hx
    exact ⟨v, NatSet.mem_ofList.2 (List.mem_filterMap.2 ⟨x, hx, hv⟩), hv⟩

/-- A number is in the code of some names if and only if it is the number of one of them. -/
theorem Codes.mem_iff (h : vars.Codes names set) (hx : vars.index? x = some v) :
    v ∈ set ↔ x ∈ names := by
  constructor
  · intro hv
    obtain ⟨y, hy, hindex⟩ := h.exists_name v hv
    rwa [index?_inj hx hindex]
  · intro hmem
    obtain ⟨v', hv', hindex⟩ := h.exists_number x hmem
    rw [hx] at hindex
    cases hindex
    exact hv'

theorem Codes.mono (h : vars.Codes names set) (hvars : vars.Extends vars') :
    vars'.Codes names set where
  exists_name v hv := (h.exists_name v hv).imp fun _ hx => ⟨hx.1, hvars.index? hx.2⟩
  exists_number x hx := (h.exists_number x hx).imp fun _ hv => ⟨hv.1, hvars.index? hv.2⟩

/-- A name more, a number more. -/
theorem Codes.insert (h : vars.Codes names set) (hx : vars.index? x = some v) :
    vars.Codes (insert x names) (set.insert v) where
  exists_name w hw := by
    obtain rfl | hw := NatSet.mem_insert.1 hw
    · exact ⟨x, Set.mem_insert x names, hx⟩
    · obtain ⟨y, hy, hindex⟩ := h.exists_name w hw
      exact ⟨y, Set.mem_insert_of_mem x hy, hindex⟩
  exists_number y hy := by
    obtain rfl | hy := Set.mem_insert_iff.1 hy
    · exact ⟨v, NatSet.mem_insert.2 (.inl rfl), hx⟩
    · obtain ⟨w, hw, hindex⟩ := h.exists_number y hy
      exact ⟨w, NatSet.mem_insert.2 (.inr hw), hindex⟩

end Vars

/-- The names of the variables of a formula. -/
def Expr.variables (e : Expr) : Set String := {x | .prop x ∈ e.subformulas}

/-! ## Reports -/

/-- What is to be reported of the names asked for: those that are not listed and have not been heard
before, each once. -/
structure Fresh (listed heard asked : Set String) (names : List String) : Prop where
  nodup : names.Nodup
  mem_iff : ∀ x, x ∈ names ↔ x ∈ asked ∧ x ∉ listed ∧ x ∉ heard

variable {listed heard asked asked' : Set String}

theorem fresh_nil (listed heard : Set String) : Fresh listed heard ∅ [] :=
  ⟨List.nodup_nil, fun x => by simp⟩

/-- One name is reported or not. -/
theorem fresh_singleton {name : String} {unused : Bool}
    (h : unused = true ↔ name ∉ listed ∧ name ∉ heard) :
    Fresh listed heard {name} (if unused then [name] else []) := by
  cases unused with
  | true =>
    refine ⟨List.nodup_singleton name, fun x => ?_⟩
    rw [if_pos rfl, List.mem_singleton, Set.mem_singleton_iff]
    exact ⟨fun hx => ⟨hx, hx ▸ h.1 rfl⟩, fun hx => hx.1⟩
  | false =>
    refine ⟨List.nodup_nil, fun x => ?_⟩
    rw [if_neg (by simp), Set.mem_singleton_iff]
    exact ⟨fun hx => absurd hx List.not_mem_nil, fun hx => absurd (h.2 (hx.1 ▸ hx.2)) (by simp)⟩

/-- Asking for more names, with those that were asked for first as heard. -/
theorem Fresh.append (h : Fresh listed heard asked names)
    (h' : Fresh listed (heard ∪ asked) asked' more) :
    Fresh listed heard (asked ∪ asked') (names ++ more) where
  nodup := by
    refine List.nodup_append.2 ⟨h.nodup, h'.nodup, ?_⟩
    rintro x hx _ hx' rfl
    exact ((h'.mem_iff x).1 hx').2.2 (.inr ((h.mem_iff x).1 hx).1)
  mem_iff x := by
    rw [List.mem_append, h.mem_iff, h'.mem_iff]
    by_cases hasked : x ∈ asked <;> simp [hasked]

namespace Model

/-- The variables that hold in a model are the listed ones, and those that have been reported are
the ones that were heard of and are not listed. -/
structure Tracks (m : Model) (listed heard : Set String) (c : Context) : Prop where
  used : c.vars.Codes listed m.used
  warned : c.vars.Codes (heard \ listed) c.warned

namespace Tracks

theorem mono (h : m.Tracks listed heard c) (hvars : c.vars.Extends c'.vars)
    (hwarned : c'.warned = c.warned) : m.Tracks listed heard c' := by
  refine ⟨h.used.mono hvars, ?_⟩
  rw [hwarned]
  exact h.warned.mono hvars

theorem grows (h : m.Tracks listed heard c) (hc : c.Grows c') : m.Tracks listed heard c' :=
  h.mono hc.vars (by rw [hc.eq_with])

/-- Asking for a variable tells whether it is to be reported, and notes it as heard of. -/
theorem yields_reportUnused (h : m.Tracks listed heard c) (name : String) :
    Yields (m.reportUnused name) c fun unused c' => m.Tracks listed (heard ∪ {name}) c' ∧
      Fresh listed heard {name} (if unused then [name] else []) := by
  refine .bind ((Work.yields_var name c).mono fun v c₁ hv => ?_)
  obtain ⟨hgrows, hindex⟩ := hv
  have h₁ := h.grows hgrows
  have huses : m.uses v = true ↔ name ∈ listed := by
    rw [← h₁.used.mem_iff hindex, uses, decide_eq_true_iff]
  by_cases hlisted : name ∈ listed
  · rw [if_pos (huses.2 hlisted)]
    have hsame : (heard ∪ {name}) \ listed = heard \ listed := by
      rw [Set.union_sdiff_distrib, Set.union_eq_left]
      exact fun x hx => absurd hlisted (hx.1 ▸ hx.2)
    exact .pure ⟨⟨h₁.used, hsame ▸ h₁.warned⟩, fresh_singleton (by simp [hlisted])⟩
  · rw [if_neg (mt huses.1 hlisted)]
    have hmore : (heard ∪ {name}) \ listed = insert name (heard \ listed) := by
      rw [Set.union_singleton, Set.insert_sdiff_of_notMem heard hlisted]
    have hwarned : v ∈ c₁.warned ↔ name ∈ heard := by
      rw [h₁.warned.mem_iff hindex]
      exact and_iff_left hlisted
    refine .bind (.get (.bind (.set (.pure ⟨⟨h₁.used, ?_⟩, fresh_singleton ?_⟩))))
    · rw [hmore]
      exact h₁.warned.insert hindex
    · simp [hwarned, hlisted]

/-- Asking for a list of names. -/
theorem yields_filterM (h : m.Tracks listed heard c) (names : List String) :
    Yields (names.filterM m.reportUnused) c fun kept c' =>
      m.Tracks listed (heard ∪ {x | x ∈ names}) c' ∧ Fresh listed heard {x | x ∈ names} kept := by
  refine .filterM (fun done kept c' => m.Tracks listed (heard ∪ {x | x ∈ done}) c' ∧
    Fresh listed heard {x | x ∈ done} kept) ?_ fun done name kept c₁ _ h₁ => ?_
  · simpa using ⟨h, fresh_nil listed heard⟩
  · have hdone : {x | x ∈ done ++ [name]} = {x | x ∈ done} ∪ {name} := by
      ext x
      simp [or_comm]
    refine (h₁.1.yields_reportUnused name).mono fun unused c₂ h₂ => ?_
    rw [hdone, ← Set.union_assoc]
    refine ⟨h₂.1, ?_⟩
    have happend := h₁.2.append h₂.2
    cases unused <;> simpa using happend

end Tracks

end Model

/-! ## Work that gives no warning -/

/-- The same variables have been reported. -/
def Context.SameWarnings (c c' : Context) : Prop := c'.warned = c.warned

open Context (SameWarnings)

instance : IsPreorder Context SameWarnings where
  refl _ := rfl
  trans _ _ _ h h' := h'.trans h

theorem Context.Grows.sameWarnings (h : c.Grows c') : c.SameWarnings c' := by
  rw [h.eq_with]
  rfl

/-- Building in the forest of a context changes nothing else in it. -/
theorem relates_lift_build (b : Build α) : Relates SameWarnings (liftM b : Work α) := by
  intro c a c' h
  have hbuild : (b c.forest >>= fun p =>
      (.ok (p.1, { c with forest := p.2 }) : Except Fault (α × Context))) = .ok (a, c') := h
  obtain ⟨p, -, hend⟩ := bind_eq_ok_iff.1 hbuild
  cases hend
  rfl

namespace Formula

theorem relates_negate (f : Formula) : Relates SameWarnings f.negate :=
  (relates_lift_build _).bind fun _ => .pure _

theorem relates_copy (f : Formula) : Relates SameWarnings f.copy :=
  (relates_lift_build _).bind fun _ => .pure _

theorem relates_normalizedWith (rules : List Rule) (f : Formula) :
    Relates SameWarnings (f.normalizedWith rules) :=
  f.relates_copy.bind fun _ => (relates_lift_build _).bind fun _ =>
    Relates.get.bind fun _ => .lift _

theorem relates_ofTree (tree : Expr) : Relates SameWarnings (ofTree tree) := by
  refine Relates.bind (.of_yields fun c => .modifyGet rfl) fun root => ?_
  exact (relates_lift_build _).bind fun _ => Relates.get.bind fun _ => .lift _

/-- Reading a formula gives no warnings. -/
theorem relates_read (tokens : Stream) : Relates SameWarnings (read tokens).run := by
  unfold read
  split
  · exact .bind_attempt (.lift_attempt (relates_ofTree _)) fun f => .pure _
  · refine .bind_attempt (.of_yields fun c => ⟨.ok ⟨⟩, _, rfl, rfl⟩) fun _ => .pure _
  · exact .throw _

theorem relates_parse (source : String) : Relates SameWarnings (parse source).run :=
  .bind_attempt (.lift_scan _) fun tokens => .bind_attempt (relates_read tokens) fun _ =>
    .bind_attempt (.lift_scan _) fun _ => .pure _

end Formula

namespace Linear

/-- Making the automaton of a formula gives no warnings. -/
theorem relates_automaton (f : Formula) (negated : Bool) :
    Relates SameWarnings (automaton f negated).run := by
  unfold automaton
  extract_lets rest guarded
  have hrest : ∀ g, Relates SameWarnings (rest g).run := by
    intro g
    refine .bind_attempt (.lift_attempt (g.relates_normalizedWith _)) fun normal => ?_
    refine .bind_attempt (.lift_attempt ?_) fun general => .lift_except _
    exact (Tableau.relates_construct _).mono fun _ _ h => h.sameWarnings
  have hguarded : ∀ u, Relates SameWarnings (guarded u).run := by
    intro u
    dsimp only [guarded]
    split
    · exact .bind_attempt (.lift_attempt f.relates_negate) hrest
    · exact .bind_attempt (.pure _) hrest
  split
  · refine .bind_attempt .get_attempt fun _ => ?_
    exact .bind_attempt (.lift_except _) fun text => .bind_attempt (.pure _) hguarded
  · exact hguarded ()

/-- One direction of a comparison gives no warnings. -/
theorem relates_pass (f g : Formula) : Relates SameWarnings (pass f g).run := by
  refine .bind_attempt (relates_automaton f false) fun first => ?_
  refine .bind_attempt (relates_automaton g true) fun second => ?_
  refine .bind_attempt .get_attempt fun _ => ?_
  refine .bind_attempt (.lift_except _) fun labelled => ?_
  refine .bind_attempt (.lift_except _) fun product => ?_
  refine .bind_attempt (.lift_except _) fun reduced => ?_
  exact .bind_attempt (.lift_except _) fun allows => .pure _

theorem relates_compare (f g : Formula) : Relates SameWarnings (compare f g).run :=
  .bind_attempt (relates_pass f g) fun _ => .bind_attempt (relates_pass g f) fun _ => .pure _

end Linear

namespace Operation

/-- Whether an operation is a check of a model. -/
def isCheck : Operation → Bool
  | .checkLinear _ _ | .checkBranching _ _ _ => true
  | _ => false

theorem relates_discard {x : Work α} (h : Relates SameWarnings x) :
    Relates SameWarnings (discard x) := by
  intro c u c' hx
  obtain ⟨a, hok⟩ := exists_of_discard hx
  exact h c a c' hok

/-- Only checks give warnings. -/
theorem relates_perform {op : Operation} (h : op.isCheck = false) :
    Relates SameWarnings op.perform := by
  cases op with
  | read tokens => exact relates_discard (Formula.relates_read tokens)
  | parse source => exact relates_discard (Formula.relates_parse source)
  | negate f => exact relates_discard f.relates_negate
  | copy f => exact relates_discard f.relates_copy
  | normalized f => exact relates_discard (f.relates_normalizedWith _)
  | normalizedWith rules f => exact relates_discard (f.relates_normalizedWith rules)
  | share root => exact relates_discard (relates_lift_build _)
  | construct root =>
    exact relates_discard ((Tableau.relates_construct root).mono fun _ _ h => h.sameWarnings)
  | automaton f negated => exact relates_discard (Linear.relates_automaton f negated)
  | checkLinear | checkBranching => cases h
  | compare f g => exact relates_discard (Linear.relates_compare f g)

end Operation

/-! ## Checks -/

/-- What becomes of the warnings in a check of a formula with the variables `asked`: it reports what
is to be reported of them, or it is refused and reports nothing. -/
def Warns (m : Model) (listed heard asked : Set String) {χ : Type} (unused : χ → List String) :
    Except Error χ → Context → Prop
  | .ok chk, c => Fresh listed heard asked (unused chk) ∧ m.Tracks listed (heard ∪ asked) c
  | .error _, c => m.Tracks listed heard c

namespace Linear

/-- The variables of a formula are asked for. -/
theorem yields_unusedVars_tracks (ht : m.Tracks listed heard c) (hf : f.StandsFor c.forest e) :
    Yields (unusedVars m f) c fun unused c' => Fresh listed heard e.variables unused ∧
      m.Tracks listed (heard ∪ e.variables) c' := by
  refine yields_unusedVars_of hf fun names c₁ hgrows hnames => ?_
  have hvariables : {x | x ∈ names} = e.variables := Set.ext hnames
  refine ((ht.grows hgrows).yields_filterM names).mono fun unused c₂ h => ?_
  rw [hvariables] at h
  exact h.symm

/-- A linear-time check reports what is to be reported. -/
theorem ensures_check (hc : c.forest.Tidy) (hf : f.StandsFor c.forest e)
    (ht : m.Tracks listed heard c) :
    Ensures (check m f).run c (Warns m listed heard e.variables Check.unused) := by
  have hautomaton := (Ensures.of_yields (Operation.yields_automaton hc hf true)).and
    (relates_automaton f true c)
  have htracks : ∀ c₁, c.Continues c₁ ∧ c.SameWarnings c₁ → m.Tracks listed heard c₁ :=
    fun c₁ h => ht.mono h.1.vars h.2
  unfold check
  extract_lets rest
  have hrest : Ensures (rest ()).run c (Warns m listed heard e.variables Check.unused) := by
    refine .bind_attempt hautomaton (fun F c₁ h => ?_) fun _ c₁ h => htracks c₁ h
    have hunused := yields_unusedVars_tracks (htracks c₁ h) (h.1.standsFor hf)
    refine .bind_lift (.of_yields (hunused.mono fun unused c₂ h₂ => .bind_get ?_))
    refine .bind_except fun model _ => .bind_except fun product _ => ?_
    refine .bind_except fun reduced _ => .bind_except fun run _ => ?_
    cases run with
    | none => exact .pure h₂
    | some run => exact .pure h₂
  split
  · intro outcome c₁ h
    cases h
    exact ht
  · exact hrest

end Linear

namespace Branching

/-- The variables among some nodes. -/
def propsAmong (f : Forest) (ids : List NodeId) : Set String :=
  {x | ∃ id ∈ ids, f.node? id = some (.prop x)}

theorem propsAmong_concat (f : Forest) (ids : List NodeId) (id : NodeId) :
    propsAmong f (ids ++ [id]) = propsAmong f ids ∪ propsAmong f [id] := by
  ext x
  simp [propsAmong, or_and_right, exists_or]

/-- The variables among listed nodes are those among the formulas that they stand for. -/
theorem propsAmong_eq {forest : Forest} {ids : List NodeId} {es : List Expr}
    (h : List.Forall₂ forest.Denotes ids es) : propsAmong forest ids = {x | .prop x ∈ es} := by
  ext x
  constructor
  · rintro ⟨id, hid, hnode⟩
    obtain ⟨i, hi⟩ := List.mem_iff_getElem?.1 hid
    obtain ⟨e, he, hden⟩ := exists_getElem?_of_forall₂ h hi
    exact List.mem_of_getElem? (hden.unique (.prop hnode) ▸ he)
  · intro hx
    obtain ⟨i, hi⟩ := List.mem_iff_getElem?.1 hx
    obtain ⟨id, hid, hden⟩ := exists_getElem?_of_forall₂ h.flip hi
    cases hden with
    | prop hnode => exact ⟨id, List.mem_of_getElem? hid, hnode⟩

/-- Adding a subformula asks for its name if it is a variable. -/
theorem ensures_add (subs : Subformulas) (showProgress : Bool) (l : Labelling) (id : NodeId)
    (ht : m.Tracks listed heard c) :
    Ensures (l.add m subs showProgress id) c fun l' c' =>
      (∃ unused, l'.unused = l.unused ++ unused ∧
        Fresh listed heard (propsAmong c.forest [id]) unused) ∧
      m.Tracks listed (heard ∪ propsAmong c.forest [id]) c' := by
  have hnode : Ensures (Work.node id) c fun node c' => c.forest.node? id = some node ∧ c' = c :=
    .bind (.get (.lift fun node h => ⟨Forest.get_eq_ok_iff.1 h, rfl⟩))
  refine .bind (hnode.mono fun node c₁ h => ?_)
  obtain ⟨hnode, rfl⟩ := h
  extract_lets rest
  -- What is left to do writes no warnings.
  have hrest : ∀ unused c₂, Fresh listed heard (propsAmong c₁.forest [id]) unused →
      m.Tracks listed (heard ∪ propsAmong c₁.forest [id]) c₂ →
      Ensures (rest unused) c₂ fun l' c' => (∃ unused, l'.unused = l.unused ++ unused ∧
        Fresh listed heard (propsAmong c₁.forest [id]) unused) ∧
        m.Tracks listed (heard ∪ propsAmong c₁.forest [id]) c' := by
    intro unused c₂ hfresh ht₂
    refine .bind (.get (.bind ((relates_marking m _ node c₂).mono fun marked c₃ h₃ => ?_)))
    have ht₃ := ht₂.grows h₃
    split
    · refine .bind (.get (.bind (.lift fun text _ => .bind ?_)))
      refine (Relates.mapM (R := Context.Grows) (fun s => .lift _) c₃).mono fun progress c₄ h₄ => ?_
      exact .pure ⟨⟨unused, rfl, hfresh⟩, ht₃.grows h₄⟩
    · exact .bind (.pure (.pure ⟨⟨unused, rfl, hfresh⟩, ht₃⟩))
  cases node with
  | prop name =>
    have hprops : propsAmong c₁.forest [id] = {x | x ∈ [name]} := by
      ext x
      simp [propsAmong, hnode, eq_comm]
    rw [hprops] at hrest ⊢
    refine .bind (.of_yields ((ht.yields_filterM [name]).mono fun unused c₂ h => ?_))
    exact hrest unused c₂ h.2 h.1
  | _ =>
    have hprops : propsAmong c₁.forest [id] = ∅ := by
      ext x
      simp [propsAmong, hnode]
    rw [hprops, Set.union_empty] at hrest ⊢
    exact .bind (.pure (hrest [] c₁ (fresh_nil listed heard) ht))

/-- Labelling asks for the variables among all subformulas. -/
theorem ensures_label (subs : Subformulas) (showProgress : Bool)
    (ht : m.Tracks listed heard c) :
    Ensures (label m subs showProgress) c fun l c' =>
      Fresh listed heard (propsAmong c.forest subs.order) l.unused ∧
      m.Tracks listed (heard ∪ propsAmong c.forest subs.order) c' := by
  have hempty : propsAmong c.forest [] = ∅ := by
    ext x
    simp [propsAmong]
  refine (Ensures.foldlM (fun done l c' => c.Learns c' ∧
    Fresh listed heard (propsAmong c.forest done) l.unused ∧
    m.Tracks listed (heard ∪ propsAmong c.forest done) c') ?_ fun done id l c₁ _ h => ?_).mono
    fun _ _ h => h.2
  · rw [hempty, Set.union_empty]
    exact ⟨.refl c, fresh_nil listed heard, ht⟩
  · obtain ⟨hlearns, hfresh, ht₁⟩ := h
    refine ((ensures_add subs showProgress l id ht₁).and
      (relates_add m subs showProgress l id c₁)).mono fun l' c₂ h => ?_
    obtain ⟨⟨⟨unused, hunused, hmore⟩, ht₂⟩, hlearns₂⟩ := h
    rw [hlearns.forest_eq] at hmore ht₂
    rw [propsAmong_concat, ← Set.union_assoc, hunused]
    exact ⟨hlearns.trans hlearns₂, hfresh.append hmore, ht₂⟩

/-- A branching-time check reports what is to be reported: the normal form that it labels has the
variables of the formula. -/
theorem ensures_check (hc : c.forest.Tidy) (hf : f.StandsFor c.forest e)
    (ht : m.Tracks listed heard c) (showProgress : Bool) :
    Ensures (check m f showProgress).run c (Warns m listed heard e.variables Check.unused) := by
  cases hbranch : f.isBranching with
  | false => exact .of_yields ⟨_, c, check_of_not_branching hf hbranch, ht⟩
  | true =>
    cases hm : m.isDefined with
    | false => exact .of_yields ⟨_, c, check_of_undefined hbranch hm, ht⟩
    | true =>
      unfold check
      rw [hbranch, hm]
      have hnormalize := Formula.yields_normalizedWith_table
        (.inr (List.Subset.refl Rule.branching)) hc hf
      refine .bind_lift (.of_yields (hnormalize.mono fun normal c₁ h => ?_))
      obtain ⟨e', hgiven, hrw, -⟩ := h
      have ht₁ : m.Tracks listed heard c₁ := by
        refine ht.mono ?_ ?_ <;> rw [hgiven.context_eq]
        exact .refl _
      obtain ⟨subs, es, hsubs, hs, -, hmem⟩ := Subformulas.exists_ofRoot hgiven.stands.denotes
      have hprops : propsAmong c₁.forest subs.order = e.variables := by
        rw [propsAmong_eq hs.denotes]
        ext x
        exact (hmem (.prop x)).trans (prop_mem_iff_of_rewrites keepsOperands_branching hrw)
      refine .bind_get (.bind_except fun subs' hsubs' => ?_)
      cases hsubs.symm.trans hsubs'
      refine .bind_lift ((ensures_label subs showProgress ht₁).mono fun l c₂ h₂ => ?_)
      rw [hprops] at h₂
      refine .bind_except fun satisfying _ => ?_
      refine .bind_attempt
        (.mapM_attempt fun id => .bind_get (.lift_except fun text _ => ?_))
        (fun texts c₃ h₃ => ?_) (by simp)
      · exact ⟨⟨text, rfl⟩, rfl⟩
      · obtain ⟨-, rfl⟩ := h₃
        exact .pure h₂

end Branching

/-! ## Checks one after another -/

/-- Formulas that have been checked, in order, each with the variables that its check has
reported. -/
abbrev CheckLog := List (Expr × List String)

/-- Checks of one model, in any order and with other operations between them.  Those that have ended
with a result are in the log. -/
inductive Checks (m : Model) (start : Context) : CheckLog → Context → Prop
  | start : Checks m start [] start
  | linear {log : CheckLog} {c c' : Context} {f : Formula} {e : Expr}
      {chk : Linear.Check} (run : Checks m start log c) (stands : f.StandsFor c.forest e)
      (checked : Linear.check m f c = .ok (.ok chk, c')) :
      Checks m start (log ++ [(e, chk.unused)]) c'
  | branching {log : CheckLog} {c c' : Context} {f : Formula} {e : Expr}
      {showProgress : Bool} {chk : Branching.Check} (run : Checks m start log c)
      (stands : f.StandsFor c.forest e)
      (checked : Branching.check m f showProgress c = .ok (.ok chk, c')) :
      Checks m start (log ++ [(e, chk.unused)]) c'
  | refusedLinear {log : CheckLog} {c c' : Context} {f : Formula} {e : Expr}
      {error : Error} (run : Checks m start log c) (stands : f.StandsFor c.forest e)
      (refused : Linear.check m f c = .ok (.error error, c')) : Checks m start log c'
  | refusedBranching {log : CheckLog} {c c' : Context} {f : Formula} {e : Expr}
      {showProgress : Bool} {error : Error} (run : Checks m start log c)
      (stands : f.StandsFor c.forest e)
      (refused : Branching.check m f showProgress c = .ok (.error error, c')) :
      Checks m start log c'
  | other {log : CheckLog} {c c' : Context} {op : Operation}
      (run : Checks m start log c) (allowed : op.Allowed c.forest) (other : op.isCheck = false)
      (performed : op.perform c = .ok ((), c')) : Checks m start log c'

/-- The variables of the formulas in a log. -/
def heardIn (log : CheckLog) : Set String := {x | ∃ p ∈ log, x ∈ p.1.variables}

theorem heardIn_concat (log : CheckLog) (e : Expr) (names : List String) :
    heardIn (log ++ [(e, names)]) = heardIn log ∪ e.variables := by
  ext x
  simp [heardIn, or_and_right, exists_or]

/-- A variable that is new at an entry of a log is a variable of no formula before. -/
theorem not_mem_heardIn_take {log : CheckLog} {k : Nat} :
    x ∉ heardIn (log.take k) ↔ ∀ j < k, ∀ (e' : Expr) (names' : List String),
      log[j]? = some (e', names') → .prop x ∉ e'.subformulas := by
  constructor
  · intro h j hj e' names' hentry hx
    refine h ⟨(e', names'), List.mem_of_getElem? (i := j) ?_, hx⟩
    rw [List.getElem?_take_of_lt hj, hentry]
  · rintro h ⟨⟨e', names'⟩, hmem, hx⟩
    obtain ⟨j, hj⟩ := List.mem_iff_getElem?.1 hmem
    rw [List.getElem?_take] at hj
    split at hj
    · next hlt => exact h j hlt e' names' hj hx
    · cases hj

/-- What holds after every check: the warnings are those for the formulas in the log, and each entry
of the log is what was to be reported then. -/
structure Accounts (m : Model) (listed : Set String) (log : CheckLog)
    (c : Context) : Prop where
  whole : c.forest.Whole
  tracks : m.Tracks listed (heardIn log) c
  fresh : ∀ k e names, log[k]? = some (e, names) →
    Fresh listed (heardIn (log.take k)) e.variables names

variable {log : CheckLog} {start : Context}

theorem Accounts.silent (h : Accounts m listed log c) (hcont : c.Continues c')
    (ht : m.Tracks listed (heardIn log) c') : Accounts m listed log c' :=
  ⟨h.whole.of_keeps hcont.keeps hcont.tidy, ht, h.fresh⟩

/-- A check that has reported what it had to is accounted for. -/
theorem Accounts.checked (h : Accounts m listed log c) (hcont : c.Continues c')
    (hfresh : Fresh listed (heardIn log) e.variables names)
    (ht : m.Tracks listed (heardIn log ∪ e.variables) c') :
    Accounts m listed (log ++ [(e, names)]) c' := by
  refine ⟨h.whole.of_keeps hcont.keeps hcont.tidy, heardIn_concat log e names ▸ ht, ?_⟩
  intro k e' names' hk
  by_cases hlt : k < log.length
  · rw [List.getElem?_append_left hlt] at hk
    rw [List.take_append_of_le_length (Nat.le_of_lt hlt)]
    exact h.fresh k e' names' hk
  · obtain ⟨hle, hentry⟩ := List.getElem?_eq_some_iff.1 hk
    obtain rfl : k = log.length := by
      simp at hle
      omega
    simp only [List.getElem_concat_length, Prod.mk.injEq] at hentry
    rw [List.take_left, ← hentry.1, ← hentry.2]
    exact hfresh

/-- After any number of checks each of them is accounted for. -/
theorem Checks.accounts (hstart : Accounts m listed [] start) (h : Checks m start log c) :
    Accounts m listed log c := by
  induction h with
  | start => exact hstart
  | linear _ hf hchk ih =>
    have hcont := Ensures.of_yields (Operation.yields_checkLinear ih.whole.tidy hf m) _ _ hchk
    obtain ⟨hfresh, ht⟩ := Linear.ensures_check ih.whole.tidy hf ih.tracks _ _ hchk
    exact ih.checked hcont hfresh ht
  | branching _ hf hchk ih =>
    have hcont := Branching.continues_check ih.whole.tidy hf hchk
    obtain ⟨hfresh, ht⟩ := Branching.ensures_check ih.whole.tidy hf ih.tracks _ _ _ hchk
    exact ih.checked hcont hfresh ht
  | refusedLinear _ hf hchk ih =>
    have hcont := Ensures.of_yields (Operation.yields_checkLinear ih.whole.tidy hf m) _ _ hchk
    exact ih.silent hcont (Linear.ensures_check ih.whole.tidy hf ih.tracks _ _ hchk)
  | refusedBranching _ hf hchk ih =>
    have hcont := Branching.continues_check ih.whole.tidy hf hchk
    exact ih.silent hcont (Branching.ensures_check ih.whole.tidy hf ih.tracks _ _ _ hchk)
  | other _ hop hother hok ih =>
    have hcont := Operation.continues_perform ih.whole hop hok
    exact ih.silent hcont (ih.tracks.mono hcont.vars (Operation.relates_perform hother _ _ _ hok))

/-- The variables that hold in a model that was read are those that its records list. -/
theorem Model.exists_codes_of_read {s rest : Stream} {vars' : Vars}
    (h : Model.read vars s = .ok (.ok (m, rest), vars')) :
    ∃ ts rs, s = ts ++ rest ∧ DerivesDefinition ts rs ∧
      vars'.Codes {x | ∃ r ∈ rs, x ∈ r.holding} m.used := by
  obtain ⟨t, ts, rs, ht, rfl, hrs, rfl, hm⟩ := read_eq_ok_iff.1 h
  obtain ⟨_, -, rfl⟩ := ofRecords_eq_ok_iff.1 hm
  refine ⟨t :: ts, rs, rfl, .intro ht hrs, ?_⟩
  have hlisted : {x | ∃ r ∈ rs, x ∈ r.holding} = {x | x ∈ rs.flatMap Record.holding} := by
    ext x
    simp
  rw [hlisted]
  exact Vars.codes_ofList (vars.exists_index?_internAll)

/-- **Unused variables are reported exactly, and once.**  A model is read in a context that has been
cleared, and its records list the variables that hold in the states.  Then formulas are checked
against it, in any order, with linear and branching time mixed and other operations between.  A
check that ends with a result reports just those variables of its formula that no record lists and
that no formula has which was checked with a result before; and it reports none of them twice. -/
theorem unused_reported_once {c₀ : Context} {s rest : Stream} {vars : Vars}
    (hread : Model.read c₀.clear.vars s = .ok (.ok (m, rest), vars)) :
    ∃ ts rs, s = ts ++ rest ∧ DerivesDefinition ts rs ∧
      ∀ log c, Checks m { c₀.clear with vars } log c →
        ∀ (k : Nat) (e : Expr) (names : List String), log[k]? = some (e, names) → names.Nodup ∧
          ∀ x, x ∈ names ↔ .prop x ∈ e.subformulas ∧ (∀ r ∈ rs, x ∉ r.holding) ∧
            ∀ j < k, ∀ (e' : Expr) (names' : List String), log[j]? = some (e', names') →
              .prop x ∉ e'.subformulas := by
  obtain ⟨ts, rs, hs, hdef, hcodes⟩ := Model.exists_codes_of_read hread
  refine ⟨ts, rs, hs, hdef, fun log c h k e names hk => ?_⟩
  have hheard : heardIn [] = ∅ := by
    ext x
    simp [heardIn]
  have hstart : Accounts m {x | ∃ r ∈ rs, x ∈ r.holding} []
      { c₀.clear with vars } := by
    refine ⟨Forest.whole_empty, ⟨hcodes, ?_⟩, by simp⟩
    rw [hheard, Set.empty_sdiff]
    exact Vars.codes_empty _
  obtain ⟨hnodup, hmem⟩ := (h.accounts hstart).fresh k e names hk
  refine ⟨hnodup, fun x => ?_⟩
  rw [hmem]
  exact and_congr Iff.rfl (and_congr (by simp) not_mem_heardIn_take)

/-- One state in which `p` holds; `G q` is checked before `EF (q | r)`. -/
theorem unused_reported_once_loop :
    let s : Stream := [⟨.modelOpen, "\x7b", {}⟩, ⟨.integer, "1", {}⟩, ⟨.integer, "1", {}⟩,
      ⟨.proposition, "p", {}⟩, ⟨.modelClose, "\x7d", {}⟩, .finish {}]
    let m : Model :=
      { states := [(1, { successors := [1], valuation := .singleton 0 })], initial := [1],
        used := .singleton 0, varNames := ["p"] }
    let start : Context := { ({} : Context).clear with vars := ⟨["p"]⟩ }
    Model.read ({} : Context).clear.vars s = .ok (.ok (m, [.finish {}]), start.vars) ∧
    (∃ c, Checks m start [(.unary .global (.prop "q"), ["q"]),
      (.unary .existsFinally (.binary .or (.prop "q") (.prop "r")), ["r"])] c) ∧
    ∃ ts rs, s = ts ++ [.finish {}] ∧ DerivesDefinition ts rs ∧
      ∀ log c, Checks m start log c →
        ∀ (k : Nat) (e : Expr) (names : List String), log[k]? = some (e, names) → names.Nodup ∧
          ∀ x, x ∈ names ↔ .prop x ∈ e.subformulas ∧ (∀ r ∈ rs, x ∉ r.holding) ∧
            ∀ j < k, ∀ (e' : Expr) (names' : List String), log[j]? = some (e', names') →
              .prop x ∉ e'.subformulas := by
  intro s m start
  have hread : Model.read ({} : Context).clear.vars s =
      .ok (.ok (m, [.finish {}]), start.vars) := by
    decide +kernel
  refine ⟨hread, ?_, unused_reported_once hread⟩
  -- The formulas are stored first, and their handles stay good through the checks.
  let c₁ : Context :=
    { vars := ⟨["p"]⟩, forest := { slots := #[some (.prop "q"), some (.unary .global 0)] } }
  let c₂ : Context :=
    { vars := ⟨["p"]⟩
      forest :=
        { slots := #[some (.prop "q"), some (.unary .global 0), some (.prop "q"), some (.prop "r"),
            some (.binary .or 2 3), some (.unary .existsFinally 4)] } }
  have hfirst : (Operation.parse "G q").perform start = .ok ((), c₁) := by decide +kernel
  have hsecond : (Operation.parse "EF (q | r)").perform c₁ = .ok ((), c₂) := by decide +kernel
  have hlinear : Formula.StandsFor ⟨1, .ofLinear⟩ c₂.forest (.unary .global (.prop "q")) :=
    ⟨Forest.denotes_of_tree rfl, rfl⟩
  have hbranching : Formula.StandsFor ⟨5, .ofBranching⟩ c₂.forest
      (.unary .existsFinally (.binary .or (.prop "q") (.prop "r"))) :=
    ⟨Forest.denotes_of_tree rfl, rfl⟩
  have hallowed : ∀ source forest, (Operation.parse source).Allowed forest := fun _ _ => trivial
  have hcont₁ : start.Continues c₁ :=
    Operation.continues_perform Forest.whole_empty (hallowed _ _) hfirst
  have hcont₂ : c₁.Continues c₂ := Operation.continues_perform
    (Forest.whole_empty.of_keeps hcont₁.keeps hcont₁.tidy) (hallowed _ _) hsecond
  have hchecks : ((do
      let first ← Linear.check m ⟨1, .ofLinear⟩
      let second ← Branching.check m ⟨5, .ofBranching⟩ false
      return (first.unused, second.unused) : Attempt _) c₂).map Prod.fst =
        .ok (.ok (["q"], ["r"])) := by decide +kernel
  obtain ⟨c₄, hrun⟩ := exists_of_map_fst hchecks
  obtain ⟨first, c₃, hcheck₁, hrest⟩ := exists_of_bind_eq_ok hrun
  obtain ⟨second, c₅, hcheck₂, hend⟩ := exists_of_bind_eq_ok hrest
  have hunused : (first.unused, second.unused) = (["q"], ["r"]) :=
    Except.ok.inj (Prod.mk.inj (Except.ok.inj hend)).1
  obtain ⟨hq, hr⟩ := Prod.mk.inj hunused
  have hcont₃ := Ensures.of_yields (Operation.yields_checkLinear hcont₂.tidy hlinear m) _ _ hcheck₁
  have hstored : Checks m start [] c₂ :=
    (Checks.start.other (hallowed _ _) rfl hfirst).other (hallowed _ _) rfl hsecond
  have hlog := (hstored.linear hlinear hcheck₁).branching (hcont₃.standsFor hbranching) hcheck₂
  rw [hq, hr] at hlog
  exact ⟨c₅, hlog⟩

end TemporalCheck
