import TemporalCheck.Proofs.Reading.Printing

/-!
# TemporalCheck.Proofs.Reading.Formula

Formulas read into a context.  What is read from tokens is stored (`succeeds_read`), and a text that
holds a formula is read as that formula.  Together with the printer this gives that printing and
reading are inverse: the text of a stored formula is read as an equal formula
(`parse_render_inverse`).
-/

namespace TemporalCheck

open Relation (ReflTransGen)
open Text

/-! ## Names -/

/-- All variables of a formula have names. -/
def Expr.Named (e : Expr) : Prop := ∀ name, .prop name ∈ e.subformulas → IsName name

namespace Expr

variable {a b : Expr}

@[simp] theorem named_top : top.Named := by simp [Named, subformulas]

@[simp] theorem named_bottom : bottom.Named := by simp [Named, subformulas]

@[simp] theorem named_prop {name : String} : (prop name).Named ↔ IsName name := by
  simp [Named, subformulas]

@[simp] theorem named_unary {op : UnaryOp} : (unary op a).Named ↔ a.Named := by
  simp [Named, subformulas]

@[simp] theorem named_binary {op : BinaryOp} : (binary op a b).Named ↔ a.Named ∧ b.Named := by
  simp [Named, subformulas, or_imp, forall_and]

theorem Named.of_rewrites {rules : List Rule} (ha : a.Named)
    (h : ReflTransGen (Rewrites rules) a b) : b.Named :=
  fun name hp => ha name (prop_mem_of_rewrites h hp)

end Expr

/-- Tokens that are names where they are variables make up a formula whose variables have names. -/
theorem Derives.named {layer : Layer} {ts : List Token} {e : Expr} (h : Derives layer ts e)
    (hts : ∀ t ∈ ts, t.kind = .proposition → IsName t.text)
    (hleft : ∀ a, layer = .junctionFrom a → a.Named) : e.Named := by
  induction h with
  | junction_only _ ih | operand_only _ ih => exact ih hts nofun
  | implies _ _ _ iha ihb | temporal _ _ _ iha ihb =>
    have ha := iha (fun t ht => hts t (by simp [ht])) nofun
    have hb := ihb (fun t ht => hts t (by simp [ht])) nofun
    exact Expr.named_binary.2 ⟨ha, hb⟩
  | junction _ _ iha ihe =>
    have ha := iha (fun t ht => hts t (by simp [ht])) nofun
    exact ihe (fun t ht => hts t (by simp [ht])) fun a' h => by cases h; exact ha
  | junction_end => exact hleft _ rfl
  | junction_step _ _ _ ihb ihe =>
    have hb := ihb (fun t ht => hts t (by simp [ht])) nofun
    refine ihe (fun t ht => hts t (by simp [ht])) fun a' h => ?_
    cases h
    exact Expr.named_binary.2 ⟨hleft _ rfl, hb⟩
  | unary _ _ ih => exact Expr.named_unary.2 (ih (fun t ht => hts t (by simp [ht])) nofun)
  | quantified _ _ _ _ _ iha ihb =>
    have ha := iha (fun t ht => hts t (by simp [ht])) nofun
    have hb := ihb (fun t ht => hts t (by simp [ht])) nofun
    exact Expr.named_binary.2 ⟨ha, hb⟩
  | @atom t e ht =>
    unfold Token.atom? at ht
    split at ht
    · next hk =>
      cases ht
      exact Expr.named_prop.2 (hts t (by simp) hk)
    · cases ht
      simp
    · cases ht
      simp
    · cases ht
  | parens _ _ _ ih => exact ih (fun t ht => hts t (by simp [ht])) nofun

/-! ## Reading into a context -/

namespace Formula

variable {c : Context} {s rest : Stream} {e : Expr} {f : Formula}

/-- What is read is stored. -/
theorem succeeds_read (hc : c.forest.Tidy) (h : s.readFormula = .ok (e, rest)) :
    Succeeds (read s) c fun p c' => p.2 = rest ∧ Given c e p.1 c' := by
  unfold read
  rw [h]
  refine .bind (.lift ((yields_ofTree hc e).mono fun f c' hf => ?_))
  exact .pure ⟨rfl, hf⟩

/-- Operands that were read before a failure are stored as well. -/
theorem read_of_error (hc : c.forest.Tidy) {failure : ReadFailure}
    (h : s.readFormula = .error (.refused failure)) :
    ∃ forest, c.forest.Keeps forest ∧ forest.Tidy ∧
      read s c = .ok (.error (.parse failure.cause), { c with forest }) := by
  obtain ⟨hkeeps, htidy⟩ := Forest.keeps_plantAll hc failure.finished
  refine ⟨_, hkeeps, htidy, ?_⟩
  unfold read
  rw [h]
  rfl

/-- A text whose tokens are a formula is read as that formula. -/
theorem succeeds_parse {source : String} {tokens : List Token} {last : Token}
    (hc : c.forest.Tidy) (htokens : tokenize source = .ok (tokens ++ [last]))
    (hlast : last.kind = .eof) (h : Derives .implication tokens e) :
    Succeeds (parse source) c (Given c e) := by
  have hread : Stream.readFormula (tokens ++ [last]) = .ok (e, [last]) :=
    Stream.readFormula_of_derives h
      (by simp [Layer.Stops, hlast, Kind.temporalOp?, Kind.junctionOp?])
  have hend : Stream.expect [last] .eof = .ok (last, [last]) := by
    simp [Stream.expect, Stream.skip, hlast]
  refine .bind (.lift_scan (Stream.ofText_eq.trans htokens) ?_)
  refine .bind ((succeeds_read hc hread).mono fun p c' hp => ?_)
  obtain ⟨f, rest⟩ := p
  obtain ⟨rfl, hf⟩ := hp
  exact .bind (.lift_scan hend (.pure hf))

/-- A formula that has been read from tokens is the one that they derive, and it has been stored. -/
theorem given_of_read {c' : Context} (hc : c.forest.Tidy)
    (h : read s c = .ok (.ok (f, rest), c')) :
    ∃ e, s.readFormula = .ok (e, rest) ∧ Given c e f c' := by
  cases hs : s.readFormula with
  | error stop =>
    cases stop with
    | refused failure =>
      obtain ⟨_, -, -, hread⟩ := read_of_error hc hs
      rw [hread] at h
      cases h
    | broken fault =>
      rw [read, hs] at h
      cases h
  | ok p =>
    obtain ⟨e, rest'⟩ := p
    obtain ⟨_, _, hread, hrest, hgiven⟩ := succeeds_read hc hs
    rw [hread] at h
    cases h
    cases hrest
    exact ⟨e, rfl, hgiven⟩

/-- A text that was read holds a formula with names for variables. -/
theorem given_of_parse {source : String} {c' : Context} (hc : c.forest.Tidy)
    (h : parse source c = .ok (.ok f, c')) : ∃ e, e.Named ∧ Given c e f c' := by
  obtain ⟨tokens, _, hscan, hall⟩ := exists_of_bind_eq_ok h
  obtain ⟨htokens, rfl⟩ := scan_eq_ok_iff.1 hscan
  rw [Stream.ofText_eq] at htokens
  obtain ⟨⟨f', rest⟩, c₁, hread, hrest⟩ := exists_of_bind_eq_ok hall
  obtain ⟨e, hs, hgiven⟩ := given_of_read hc hread
  obtain ⟨ts, t, rest', rfl, -, hd, -⟩ := Stream.exists_derives_of_readFormula hs
  have hnamed : e.Named := by
    refine hd.named (fun t ht hk => ?_) nofun
    exact ((isInput_of_tokenize htokens).isLexed t (by simp [ht]) (by simp [hk])).isName hk
  refine ⟨e, hnamed, ?_⟩
  obtain ⟨_, _, hend, hlast⟩ := exists_of_bind_eq_ok hrest
  obtain ⟨-, rfl⟩ := scan_eq_ok_iff.1 hend
  cases hlast
  exact hgiven

/-! ## Printing and reading are inverse -/

/-- The text of a node is read as the formula that the node stands for. -/
def ReadsBack (c : Context) (id : NodeId) : Prop :=
  ∃ text f c', renderNode c id = .ok text ∧ parse text c = .ok (.ok f, c') ∧
    c'.forest.equal id f.root = .ok true ∧ c'.forest.tree f.root = c.forest.tree id

/-- The printed text of a formula is cut into tokens of the formula. -/
theorem exists_tokenize_render (hnamed : e.Named) (allParens : Bool) :
    ∃ tokens last, tokenize (e.render allParens) = .ok (tokens ++ [last]) ∧ last.kind = .eof ∧
      Derives .implication tokens e := by
  obtain ⟨ts, hd, hlex⟩ := prints_renderAt hnamed allParens 0
  have htext := hlex [] [] breaks_nil (.finish rfl)
  rw [List.append_nil, List.append_nil] at htext
  obtain ⟨found, hfound, hmap⟩ := htext.exists_tokenize
  obtain ⟨tokens, lasts, rfl, htokens, hlasts⟩ := List.map_eq_append_iff.1 hmap
  obtain ⟨last, rest, rfl, hlast, hrest⟩ := List.map_eq_cons_iff.1 hlasts
  rw [List.map_eq_nil_iff] at hrest
  subst hrest
  have hkind : last.kind = .eof := congrArg Token.kind hlast
  refine ⟨tokens, last, hfound, hkind, hd.of_unplaced ?_⟩
  rw [← htokens]
  simp [Token.unplaced]

/-- What is printed of a stored formula is read back as that formula. -/
theorem readsBack_of_denotes {id : NodeId} (hc : c.forest.Tidy) (h : c.forest.Denotes id e)
    (hnamed : e.Named) : ReadsBack c id := by
  obtain ⟨tokens, last, htokens, hlast, hd⟩ := exists_tokenize_render hnamed c.allParens
  obtain ⟨f, c', hparse, hgiven⟩ := succeeds_parse hc htokens hlast hd
  refine ⟨e.render c.allParens, f, c', renderNode_of_denotes h, hparse, ?_, ?_⟩
  · exact Forest.equal_of_denotes (hgiven.keeps.denotes h) hgiven.stands.denotes
  · rw [Forest.tree_of_denotes h, Forest.tree_of_denotes hgiven.stands.denotes]

/-- Normalising keeps names, so the text of a normalised formula is read as that formula. -/
theorem yields_normalizedWith_readsBack {rules : List Rule}
    (hsub : rules ⊆ Rule.linear ∨ rules ⊆ Rule.branching) (hc : c.forest.Tidy)
    (hf : f.StandsFor c.forest e) (hnamed : e.Named) :
    Yields (f.normalizedWith rules) c fun f' c' => ReadsBack c' f'.root := by
  refine (yields_normalizedWith_table hsub hc hf).mono fun f' c' h => ?_
  obtain ⟨e', hgiven, hrw, -⟩ := h
  exact readsBack_of_denotes hgiven.tidy hgiven.stands.denotes (hnamed.of_rewrites hrw)

/-- Printing and reading are inverse, with necessary parentheses or all.  The text of a stored
formula whose variables have names is read as the same formula.  This holds of every formula that
was read, and of what normalising makes of such formulas. -/
theorem parse_render_inverse (hc : c.forest.Tidy) :
    (∀ id e, c.forest.Denotes id e → e.Named → ReadsBack c id) ∧
    (∀ source f c', parse source c = .ok (.ok f, c') →
      ReadsBack c' f.root ∧
      ∃ f' c'', f.normalized c' = .ok (f', c'') ∧ ReadsBack c'' f'.root) ∧
    (∀ (f : Formula) e rules, f.StandsFor c.forest e → e.Named →
      rules ⊆ Rule.linear ∨ rules ⊆ Rule.branching →
      ∃ f' c', f.normalizedWith rules c = .ok (f', c') ∧ ReadsBack c' f'.root) := by
  refine ⟨fun id e h hnamed => readsBack_of_denotes hc h hnamed, fun source f c' h => ?_,
    fun f e rules hf hnamed hsub => yields_normalizedWith_readsBack hsub hc hf hnamed⟩
  obtain ⟨e, hnamed, hgiven⟩ := given_of_parse hc h
  refine ⟨readsBack_of_denotes hgiven.tidy hgiven.stands.denotes hnamed, ?_⟩
  exact yields_normalizedWith_readsBack (table_subset f.usage) hgiven.tidy hgiven.stands hnamed

/-- The formula `p -> A[(p U q) U q]` in the last slot. -/
def storedNested : Context where
  forest := { slots := #[some (.prop "p"), some (.prop "q"), some (.binary .until 0 1),
    some (.binary .allUntil 2 1), some (.binary .implies 0 3)] }

/-- The formula `p -> A[(p U q) U q]` is read back. -/
theorem parse_render_inverse_nested :
    storedNested.forest.Denotes 4 (.binary .implies (.prop "p")
      (.binary .allUntil (.binary .until (.prop "p") (.prop "q")) (.prop "q"))) ∧
    ReadsBack storedNested 4 := by
  have hstored : storedNested.forest.Denotes 4 (.binary .implies (.prop "p")
      (.binary .allUntil (.binary .until (.prop "p") (.prop "q")) (.prop "q"))) :=
    Forest.denotes_of_tree rfl
  have htidy : storedNested.forest.Tidy := Forest.tidy_of_full rfl (by simp [storedNested])
  have hp : IsName "p" := ⟨⟨'p', [], rfl, by decide, by simp⟩, rfl⟩
  have hq : IsName "q" := ⟨⟨'q', [], rfl, by decide, by simp⟩, rfl⟩
  exact ⟨hstored, (parse_render_inverse htidy).1 4 _ hstored (by simp [hp, hq])⟩

end Formula

end TemporalCheck
