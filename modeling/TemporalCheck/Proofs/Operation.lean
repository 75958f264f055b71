import TemporalCheck.Proofs.Branching.Check
import TemporalCheck.Proofs.Collection
import TemporalCheck.Proofs.Frame
import TemporalCheck.Proofs.Linear.Comparison
import TemporalCheck.Proofs.Reading.Formula

/-!
# TemporalCheck.Proofs.Operation

Handles stay good.  Every operation on formulas stores nodes in empty slots only, so that a handle
that was obtained before it stands for the same formula afterwards, belongs to the same logics and
is printed in the same way.

Operations that store nodes say so in their own lemmas, through `Formula.Given` and
`Context.Continues`.  The construction of a tableau and the labelling of a model store nothing,
whatever they are applied to: each of their steps relates contexts by `Context.Learns`.
-/

namespace TemporalCheck

variable {α β γ : Type} {c c' : Context}

/-! ## Labelling -/

namespace Branching

/-- Labelling a subformula numbers its variable and notes a warning, and does nothing else to the
context. -/
theorem relates_add (m : Model) (subs : Subformulas) (showProgress : Bool) (l : Labelling)
    (id : NodeId) : Relates Context.Learns (l.add m subs showProgress id) := by
  have hgrows : ∀ c c' : Context, c.Grows c' → c.Learns c' := fun _ _ => .of_grows
  refine ((Work.relates_node id).mono hgrows).bind fun node => ?_
  extract_lets rest
  have hrest : ∀ unused, Relates Context.Learns (rest unused) := by
    refine fun unused => Relates.get.bind fun _ =>
      ((relates_marking m _ node).mono hgrows).bind fun marked => ?_
    split
    · refine Relates.get.bind fun _ => (Relates.lift _).bind fun text => ?_
      exact (Relates.mapM fun s => .lift _).bind fun progress => .pure _
    · exact (Relates.pure []).bind fun progress => .pure _
  split
  · exact Relates.bind (.of_yields fun c => m.yields_filterM_reportUnused _ c) hrest
  · exact (Relates.pure []).bind hrest

variable {m : Model} {f : Formula} {e : Expr} {showProgress : Bool}

/-- Whatever the model is like, a check stores nothing but the normal form of the formula. -/
theorem continues_check {outcome : Except Error Check} (hc : c.forest.Tidy)
    (hf : f.StandsFor c.forest e) (h : check m f showProgress c = .ok (outcome, c')) :
    c.Continues c' := by
  cases hbranch : f.isBranching with
  | false =>
    cases (check_of_not_branching hf hbranch).symm.trans h
    exact .refl hc
  | true =>
    cases hm : m.isDefined with
    | false =>
      cases (check_of_undefined hbranch hm).symm.trans h
      exact .refl hc
    | true =>
      obtain ⟨normal, c₁, hnormal, e', hgiven, -⟩ :=
        Formula.yields_normalizedWith_table (.inr (List.Subset.refl Rule.branching)) hc hf
      have hlift : (liftM (f.normalizedWith Rule.branching) : Attempt Formula) c =
          .ok (.ok normal, c₁) := by
        show (f.normalizedWith Rule.branching c >>= fun p => Except.ok (Except.ok p.1, p.2)) = _
        rw [hnormal]
        rfl
      unfold check at h
      rw [hbranch, hm] at h
      have hrest := (bind_eq_of_ok hlift).symm.trans h
      refine (Context.Continues.of_given hgiven).trans (.of_learns ?_ hgiven.tidy)
      refine Relates.bind_attempt .get_attempt (fun _ => ?_) c₁ outcome c' hrest
      refine .bind_attempt (.lift_except _) fun subs => ?_
      refine .bind_attempt (.lift_attempt (.foldlM (relates_add m subs showProgress) _))
        fun l => ?_
      refine .bind_attempt (.lift_except _) fun satisfying => ?_
      refine .bind_attempt (.mapM_attempt fun id => ?_) fun texts => .pure _
      exact .bind_attempt .get_attempt fun _ => .lift_except _

end Branching

/-! ## Operations -/

/-- An operation on stored formulas. -/
inductive Operation where
  | read (tokens : Stream)
  | parse (source : String)
  | negate (f : Formula)
  | copy (f : Formula)
  | normalized (f : Formula)
  | normalizedWith (rules : List Rule) (f : Formula)
  | share (root : NodeId)
  | construct (root : NodeId)
  | automaton (f : Formula) (negated : Bool)
  | checkLinear (m : Model) (f : Formula)
  | checkBranching (m : Model) (f : Formula) (showProgress : Bool)
  | compare (f g : Formula)

namespace Operation

/-- What an operation does to a context, whether it ends with a result or in an error. -/
def perform : Operation → Work Unit
  | .read tokens => discard (Formula.read tokens).run
  | .parse source => discard (Formula.parse source).run
  | .negate f => discard f.negate
  | .copy f => discard f.copy
  | .normalized f => discard f.normalized
  | .normalizedWith rules f => discard (f.normalizedWith rules)
  | .share root => discard (liftM (Build.share root) : Work NodeId)
  | .construct root => discard (Tableau.construct root)
  | .automaton f negated => discard (Linear.automaton f negated).run
  | .checkLinear m f => discard (Linear.check m f).run
  | .checkBranching m f showProgress => discard (Branching.check m f showProgress).run
  | .compare f g => discard (Linear.compare f g).run

/-- An operation is given handles and roots of stored formulas, and rules of one of the tables. -/
def Allowed (forest : Forest) : Operation → Prop
  | .read _ | .parse _ => True
  | .negate f | .copy f | .normalized f => ∃ e, f.StandsFor forest e
  | .automaton f _ | .checkLinear _ f | .checkBranching _ f _ => ∃ e, f.StandsFor forest e
  | .normalizedWith rules f =>
    (rules ⊆ Rule.linear ∨ rules ⊆ Rule.branching) ∧ ∃ e, f.StandsFor forest e
  | .share root | .construct root => root ∈ forest.live
  | .compare f g => (∃ e, f.StandsFor forest e) ∧ ∃ e, g.StandsFor forest e

/-- Tokens have an end, a tableau is asked for of a normal form, and labels for a model in which no
path ends. -/
def Fits (forest : Forest) : Operation → Prop
  | .read tokens => ∃ t ∈ tokens, t.kind = .eof
  | .construct root => ∃ e, forest.Denotes root e ∧ e.IsNegationNormal
  | .checkBranching m _ _ => m.IsTotal
  | _ => True

variable {op : Operation} {f g : Formula} {e : Expr}

/-- An operation whose result is dropped ends in the same contexts. -/
theorem yields_discard {x : Work α} {P : Context → Prop} (h : Yields x c fun _ c' => P c') :
    Yields (discard x) c fun _ c' => P c' := by
  obtain ⟨a, c', hx, hp⟩ := h
  refine ⟨(), c', ?_, hp⟩
  show (x c >>= fun p => Except.ok ((), p.2)) = _
  rw [hx]
  rfl

/-- An operation whose result has been dropped had one. -/
theorem exists_of_discard {x : Work α} {u : Unit} (h : discard x c = .ok (u, c')) :
    ∃ a, x c = .ok (a, c') := by
  obtain ⟨⟨a, c₁⟩, hx, hend⟩ := bind_eq_ok_iff.1
    (show x c >>= (fun p => Except.ok ((), p.2)) = _ from h)
  cases hend
  exact ⟨a, hx⟩

/-! Reading goes on in the same context, whether there is a formula or not. -/

/-- Reading a formula keeps the stored ones, whether it succeeds or not. -/
theorem ensures_read (hc : c.forest.Tidy) (tokens : Stream) :
    Ensures (Formula.read tokens).run c fun _ c' => c.Continues c' := by
  cases hread : tokens.readFormula with
  | ok p =>
    obtain ⟨r, c', hok, -, hgiven⟩ := Formula.succeeds_read hc hread
    exact .of_yields ⟨.ok r, c', hok, .of_given hgiven⟩
  | error stop =>
    cases stop with
    | refused failure =>
      obtain ⟨forest, hkeeps, htidy, herror⟩ := Formula.read_of_error hc hread
      exact .of_yields ⟨_, _, herror, hkeeps, htidy, rfl, .refl _⟩
    | broken fault =>
      intro outcome c' h
      rw [ExceptT.run, Formula.read, hread] at h
      cases h

/-- A reader meets no fault in a stream that is closed by an end mark. -/
theorem exists_read (hc : c.forest.Tidy) {tokens : Stream} (htokens : ∃ t ∈ tokens, t.kind = .eof) :
    ∃ outcome c', Formula.read tokens c = .ok (outcome, c') := by
  cases hread : tokens.readFormula with
  | ok p =>
    obtain ⟨r, c', hok, -⟩ := Formula.succeeds_read hc hread
    exact ⟨.ok r, c', hok⟩
  | error stop =>
    cases stop with
    | refused failure =>
      obtain ⟨forest, -, -, herror⟩ := Formula.read_of_error hc hread
      exact ⟨_, _, herror⟩
    | broken fault =>
      obtain ⟨t, ht, hk⟩ := htokens
      exact absurd hk (Stream.haltsWith_of_readFormula hread t ht)

theorem yields_read (hc : c.forest.Tidy) {tokens : Stream} (htokens : ∃ t ∈ tokens, t.kind = .eof) :
    Yields (Formula.read tokens).run c fun _ c' => c.Continues c' := by
  obtain ⟨outcome, c', hread⟩ := exists_read hc htokens
  exact ⟨outcome, c', hread, ensures_read hc tokens outcome c' hread⟩

/-- Reading a text as a formula ends, and keeps the stored ones. -/
theorem yields_parse (hc : c.forest.Tidy) (source : String) :
    Yields (Formula.parse source).run c fun _ c' => c.Continues c' := by
  cases hsource : tokenize source with
  | error stop =>
    obtain ⟨found, place, rfl⟩ := exists_of_tokenize_error hsource
    have hscan := scan_of_refused (Stream.ofText_eq.trans hsource) c
    exact ⟨_, c, bind_eq_of_error hscan, .refl hc⟩
  | ok tokens =>
    have hinput := isInput_of_tokenize hsource
    have hscan := scan_of_ok (Stream.ofText_eq.trans hsource) c
    obtain ⟨outcome, c', hread, hcont⟩ := yields_read hc hinput.exists_eof
    have hparse : (Formula.parse source).run c = Formula.readAll tokens c := bind_eq_of_ok hscan
    cases outcome with
    | error error => exact ⟨_, c', hparse.trans (bind_eq_of_error hread), hcont⟩
    | ok p =>
      obtain ⟨f, rest⟩ := p
      obtain ⟨e, hs, -⟩ := Formula.given_of_read hc hread
      obtain ⟨ts, t, us, rfl, rfl, -⟩ := Stream.exists_derives_of_readFormula hs
      have hall := hparse.trans (bind_eq_of_ok hread)
      cases hend : Stream.expect (t :: us) .eof with
      | ok r => exact ⟨.ok f, c', hall.trans (bind_eq_of_ok (scan_of_ok hend c')), hcont⟩
      | error stop =>
        obtain ⟨hnil, -⟩ | ⟨u, vs, -, -, rfl⟩ := Stream.expect_of_error hend
        · cases hnil
        · exact ⟨_, c', hall.trans (bind_eq_of_error (scan_of_refused hend c')), hcont⟩

/-- Making the automaton of a formula ends, and keeps the stored ones. -/
theorem yields_automaton (hc : c.forest.Tidy) (hf : f.StandsFor c.forest e) (negated : Bool) :
    Yields (Linear.automaton f negated).run c fun _ c' => c.Continues c' := by
  cases hlin : f.isLinear with
  | false => exact ⟨_, c, Linear.automaton_of_not_linear hf hlin negated, .refl hc⟩
  | true =>
    obtain ⟨b, c', hok, hcont, -⟩ := Linear.succeeds_automaton hc hf hlin negated
    exact ⟨.ok b, c', hok, hcont⟩

/-- A linear-time check ends, and keeps the stored formulas. -/
theorem yields_checkLinear (hc : c.forest.Tidy) (hf : f.StandsFor c.forest e) (m : Model) :
    Yields (Linear.check m f).run c fun _ c' => c.Continues c' := by
  cases hm : m.isDefined with
  | false => exact ⟨_, c, Linear.check_of_undefined hm, .refl hc⟩
  | true =>
    cases hlin : f.isLinear with
    | false => exact ⟨_, c, Linear.check_of_not_linear hf hm hlin, .refl hc⟩
    | true =>
      obtain ⟨chk, c', hok, hcont, -⟩ := Linear.succeeds_check hc hf hlin hm
      exact ⟨.ok chk, c', hok, hcont⟩

/-- A branching-time check of a model in which no path ends has an end itself, and keeps the stored
formulas. -/
theorem yields_checkBranching {m : Model} (hc : c.forest.Tidy) (hf : f.StandsFor c.forest e)
    (htotal : m.IsTotal) (showProgress : Bool) :
    Yields (Branching.check m f showProgress).run c fun _ c' => c.Continues c' := by
  cases hbranch : f.isBranching with
  | false => exact ⟨_, c, Branching.check_of_not_branching hf hbranch, .refl hc⟩
  | true =>
    cases hm : m.isDefined with
    | false => exact ⟨_, c, Branching.check_of_undefined hbranch hm, .refl hc⟩
    | true =>
      obtain ⟨chk, c', hok, hfinds⟩ :=
        Branching.succeeds_check hc hf hbranch hm htotal showProgress
      exact ⟨.ok chk, c', hok, hfinds.toContinues⟩

/-- A comparison ends, and keeps the stored formulas. -/
theorem yields_compare {e₁ e₂ : Expr} (hc : c.forest.Tidy) (hf : f.StandsFor c.forest e₁)
    (hg : g.StandsFor c.forest e₂) :
    Yields (Linear.compare f g).run c fun _ c' => c.Continues c' := by
  by_cases hlin : f.isLinear = true ∧ g.isLinear = true
  · obtain ⟨cmp, c', hok, hcont, -⟩ := Linear.succeeds_compare hc hf hg hlin.1 hlin.2
    exact ⟨.ok cmp, c', hok, hcont⟩
  · have hlin' : f.isLinear = false ∨ g.isLinear = false := by
      simpa only [not_and_or, Bool.not_eq_true] using hlin
    obtain ⟨text, c', herror, hcont⟩ := Linear.compare_of_not_linear hc hf hg hlin'
    exact ⟨_, c', herror, hcont⟩

theorem yields_normalizedWith {rules : List Rule} (hc : c.forest.Tidy)
    (hsub : rules ⊆ Rule.linear ∨ rules ⊆ Rule.branching) (hf : f.StandsFor c.forest e) :
    Yields (f.normalizedWith rules) c fun _ c' => c.Continues c' :=
  (Formula.yields_normalizedWith_table hsub hc hf).mono fun _ _ ⟨_, hgiven, _⟩ => .of_given hgiven

/-- An operation that fits meets no fault and goes on with what was there. -/
theorem yields_perform (hc : c.forest.Whole) (hop : op.Allowed c.forest)
    (hfits : op.Fits c.forest) : Yields op.perform c fun _ c' => c.Continues c' := by
  have ht := hc.tidy
  cases op with
  | read tokens => exact yields_discard (yields_read ht hfits)
  | parse source => exact yields_discard (yields_parse ht source)
  | negate f =>
    obtain ⟨e, he⟩ := hop
    exact yields_discard ((Formula.yields_negate ht he).mono fun _ _ h => .of_given h)
  | copy f =>
    obtain ⟨e, he⟩ := hop
    exact yields_discard ((Formula.yields_copy ht he).mono fun _ _ h => .of_given h.1)
  | normalized f =>
    obtain ⟨e, he⟩ := hop
    exact yields_discard (yields_normalizedWith ht (Formula.table_subset _) he)
  | normalizedWith rules f =>
    obtain ⟨hsub, e, he⟩ := hop
    exact yields_discard (yields_normalizedWith ht hsub he)
  | share root =>
    obtain ⟨e, he⟩ := hc.denotes root hop
    refine yields_discard (.lift_build ((Build.yields_share ht he).mono fun _ forest h => ?_))
    exact ⟨h.keeps, h.tidy, rfl, .refl _⟩
  | construct root =>
    obtain ⟨e, he, hnnf⟩ := hfits
    refine yields_discard ((Tableau.yields_construct he hnnf).mono fun _ c' h => ?_)
    exact .of_learns (.of_grows h.1) ht
  | automaton f negated =>
    obtain ⟨e, he⟩ := hop
    exact yields_discard (yields_automaton ht he negated)
  | checkLinear m f =>
    obtain ⟨e, he⟩ := hop
    exact yields_discard (yields_checkLinear ht he m)
  | checkBranching m f showProgress =>
    obtain ⟨e, he⟩ := hop
    exact yields_discard (yields_checkBranching ht he hfits showProgress)
  | compare f g =>
    obtain ⟨⟨e₁, he₁⟩, e₂, he₂⟩ := hop
    exact yields_discard (yields_compare ht he₁ he₂)

/-- An operation that meets no fault goes on with what was there. -/
theorem continues_perform (hc : c.forest.Whole) (hop : op.Allowed c.forest)
    (h : op.perform c = .ok ((), c')) : c.Continues c' := by
  have hfits : op.Fits c.forest → c.Continues c' := by
    intro hfits
    obtain ⟨u, c'', hok, hcont⟩ := yields_perform hc hop hfits
    cases h.symm.trans hok
    exact hcont
  cases op with
  | read tokens =>
    obtain ⟨outcome, hok⟩ := exists_of_discard h
    exact ensures_read hc.tidy tokens outcome c' hok
  | construct root =>
    obtain ⟨b, hok⟩ := exists_of_discard h
    exact .of_learns (.of_grows (Tableau.relates_construct root c b c' hok)) hc.tidy
  | checkBranching m f showProgress =>
    obtain ⟨e, he⟩ := hop
    obtain ⟨outcome, hok⟩ := exists_of_discard h
    exact Branching.continues_check hc.tidy he hok
  | _ => exact hfits trivial

end Operation

/-! ## What stays -/

theorem Context.Continues.node?_eq (h : c.Continues c') {id : NodeId} (hid : id ∈ c.forest.live) :
    c'.forest.node? id = c.forest.node? id := by
  obtain ⟨node, hnode⟩ := Forest.mem_live.1 hid
  rw [hnode, h.keeps.stored id node hnode]

theorem Formula.StandsFor.ofRoot_eq {f : Formula} {forest : Forest} {e : Expr}
    (h : f.StandsFor forest e) : Formula.ofRoot forest f.root = .ok f := by
  rw [Formula.ofRoot_of_denotes h.denotes, ← h.usage_eq]

/-- **Formulas are immutable handles.**  An operation on stored formulas, given handles and roots
of stored formulas in a whole forest, leaves every stored node as it is and where it is, and the
forest whole, whether it ends with a result or in an error.  So a handle obtained before stands for
the same tree, has the logics of that tree and is printed as before.  An operation that fits meets
no fault.  A copy stands for the same formula, and no node of it was there before. -/
theorem stored_formulas_stay {op : Operation} (hc : c.forest.Whole) (hop : op.Allowed c.forest) :
    (∀ c', op.perform c = .ok ((), c') → c'.forest.Whole ∧
      (∀ id ∈ c.forest.live, c'.forest.node? id = c.forest.node? id) ∧
      ∀ (f : Formula) (e : Expr), f.StandsFor c.forest e →
        f.StandsFor c'.forest e ∧ c.forest.tree f.root = .ok e ∧ c'.forest.tree f.root = .ok e ∧
        Formula.ofRoot c'.forest f.root = .ok f ∧ f.render c' = f.render c ∧
        f.renderTyped c' = f.renderTyped c) ∧
    (op.Fits c.forest → ∃ c', op.perform c = .ok ((), c')) ∧
    ∀ (f : Formula) (e : Expr), f.StandsFor c.forest e → ∃ f' c', f.copy c = .ok (f', c') ∧
      f'.StandsFor c'.forest e ∧ c'.forest.equal f.root f'.root = .ok true ∧
      ∀ id, c'.forest.Below f'.root id → id ∉ c.forest.live := by
  refine ⟨fun c' h => ?_, fun hfits => ?_, fun f e hf => ?_⟩
  · have hcont := Operation.continues_perform hc hop h
    refine ⟨hc.of_keeps hcont.keeps hcont.tidy, fun id hid => hcont.node?_eq hid, fun f e hf => ?_⟩
    have hf' := hcont.standsFor hf
    have hrender : f.render c' = f.render c := by
      rw [hf.render_eq, hf'.render_eq, hcont.allParens_eq]
    refine ⟨hf', Forest.tree_of_denotes hf.denotes, Forest.tree_of_denotes hf'.denotes,
      hf'.ofRoot_eq, hrender, ?_⟩
    rw [Formula.renderTyped, Formula.renderTyped, hrender]
  · obtain ⟨_, c', hok, -⟩ := Operation.yields_perform hc hop hfits
    exact ⟨c', hok⟩
  · obtain ⟨f', c', hok, hgiven, hnew⟩ := Formula.yields_copy hc.tidy hf
    have hf' := (Context.Continues.of_given hgiven).standsFor hf
    refine ⟨f', c', hok, hgiven.stands, ?_, fun id hid hlive => ?_⟩
    · exact Forest.equal_of_denotes hf'.denotes hgiven.stands.denotes
    · obtain ⟨node, hnode⟩ := Forest.mem_live.1 hlive
      rw [hnew id hid] at hnode
      cases hnode

/-- The formula `G p` around an empty slot. -/
def parted : Context where
  forest := { slots := #[some (.prop "p"), none, some (.unary .global 0)], free := [1] }

/-- All nodes of `parted` stand for formulas. -/
theorem whole_parted : parted.forest.Whole := by
  have hslots : ∀ id, id = 0 ∨ id = 1 ∨ id = 2 ∨ 3 ≤ id := by omega
  refine ⟨⟨List.nodup_singleton 1, fun id => ?_⟩, fun id hid => ?_, by simp [parted]⟩
  · obtain rfl | rfl | rfl | hlarge := hslots id
    · decide
    · decide
    · decide
    · have hne : id ≠ 1 := (Nat.lt_of_lt_of_le (by decide) hlarge).ne'
      simp [parted, Forest.capacity, hne, Nat.not_lt.2 hlarge]
  · obtain ⟨node, hnode⟩ := Forest.mem_live.1 hid
    obtain rfl | rfl | rfl | hlarge := hslots id
    · exact ⟨_, Forest.denotes_of_tree rfl⟩
    · cases hnode
    · exact ⟨_, Forest.denotes_of_tree rfl⟩
    · simp [parted, Forest.node?, hlarge] at hnode

/-- The formulas of `parted` stay as they are through a comparison that works in its free slot. -/
theorem stored_formulas_stay_parted :
    parted.forest.Whole ∧
    Formula.StandsFor ⟨2, .ofLinear⟩ parted.forest (.unary .global (.prop "p")) ∧
    (∀ c', (Operation.compare ⟨2, .ofLinear⟩ ⟨0, .boolean⟩).perform parted = .ok ((), c') →
      c'.forest.Whole ∧
      (∀ id ∈ parted.forest.live, c'.forest.node? id = parted.forest.node? id) ∧
      ∀ (f : Formula) (e : Expr), f.StandsFor parted.forest e →
        f.StandsFor c'.forest e ∧ parted.forest.tree f.root = .ok e ∧
        c'.forest.tree f.root = .ok e ∧ Formula.ofRoot c'.forest f.root = .ok f ∧
        f.render c' = f.render parted ∧ f.renderTyped c' = f.renderTyped parted) ∧
    (∃ c', (Operation.compare ⟨2, .ofLinear⟩ ⟨0, .boolean⟩).perform parted = .ok ((), c')) ∧
    ∀ (f : Formula) (e : Expr), f.StandsFor parted.forest e → ∃ f' c',
      f.copy parted = .ok (f', c') ∧ f'.StandsFor c'.forest e ∧
      c'.forest.equal f.root f'.root = .ok true ∧
      ∀ id, c'.forest.Below f'.root id → id ∉ parted.forest.live := by
  have hglobal : Formula.StandsFor ⟨2, .ofLinear⟩ parted.forest (.unary .global (.prop "p")) :=
    ⟨Forest.denotes_of_tree rfl, rfl⟩
  have hprop : Formula.StandsFor ⟨0, .boolean⟩ parted.forest (.prop "p") :=
    ⟨Forest.denotes_of_tree rfl, rfl⟩
  have hallowed : (Operation.compare ⟨2, .ofLinear⟩ ⟨0, .boolean⟩).Allowed parted.forest :=
    ⟨⟨_, hglobal⟩, _, hprop⟩
  obtain ⟨hkept, hruns, hcopy⟩ := stored_formulas_stay whole_parted hallowed
  exact ⟨whole_parted, hglobal, hkept, hruns trivial, hcopy⟩

end TemporalCheck
