import TemporalCheck.Formula.Reader
import TemporalCheck.Proofs.Outcome

/-!
# TemporalCheck.Proofs.Reading.Grammar

The grammar of formulas as a relation between tokens and trees, and the reader as its decision
procedure.  `Derives layer ts e` says that the tokens `ts` are the formula `e` of the given layer.

* The reader accepts only what the grammar derives (`exists_derives_of_readLayer`), and takes as
  many tokens as it can: the token behind them does not go on with the layer.
* The reader accepts all that the grammar derives (`readLayer_of_derives`), whatever stands behind
  it, as long as it does not go on with the layer.  No greedy choice is ever wrong because the
  operators of one layer neither start an operand nor belong to another layer.
* Where the reader fails, it has met a token that it had not expected (`haltsWith_of_readFormula`).
-/

namespace TemporalCheck

variable {layer : Layer} {ts us : List Token} {t u v : Token} {e a b : Expr} {op : BinaryOp}

/-- The grammar of formulas.  The layer `junctionFrom left` stands for the rest of a junction: its
tokens are the operators and operands behind `left`, its tree is the whole junction. -/
inductive Derives : Layer → List Token → Expr → Prop
  | junction_only {ts : List Token} {e : Expr} (h : Derives .junction ts e) :
      Derives .implication ts e
  | implies {ts us : List Token} {t : Token} {a b : Expr} (ha : Derives .junction ts a)
      (ht : t.kind = .implies) (hb : Derives .implication us b) :
      Derives .implication (ts ++ t :: us) (.binary .implies a b)
  | junction {ts us : List Token} {a e : Expr} (ha : Derives .temporal ts a)
      (he : Derives (.junctionFrom a) us e) : Derives .junction (ts ++ us) e
  | junction_end {a : Expr} : Derives (.junctionFrom a) [] a
  | junction_step {ts us : List Token} {t : Token} {op : BinaryOp} {a b e : Expr}
      (ht : t.kind.junctionOp? = some op) (hb : Derives .temporal ts b)
      (he : Derives (.junctionFrom (.binary op a b)) us e) :
      Derives (.junctionFrom a) (t :: (ts ++ us)) e
  | operand_only {ts : List Token} {e : Expr} (h : Derives .operand ts e) : Derives .temporal ts e
  | temporal {ts us : List Token} {t : Token} {op : BinaryOp} {a b : Expr}
      (ha : Derives .operand ts a) (ht : t.kind.temporalOp? = some op)
      (hb : Derives .temporal us b) : Derives .temporal (ts ++ t :: us) (.binary op a b)
  | unary {ts : List Token} {t : Token} {op : UnaryOp} {a : Expr} (ht : t.kind.unaryOp? = some op)
      (ha : Derives .operand ts a) : Derives .operand (t :: ts) (.unary op a)
  | quantified {ts us : List Token} {t u v : Token} {op : BinaryOp} {a b : Expr}
      (ht : t.kind.quantifiedOp? = some op) (ha : Derives .operand ts a) (hu : u.kind = .until)
      (hb : Derives .temporal us b) (hv : v.kind = .untilEnd) :
      Derives .operand (t :: (ts ++ u :: (us ++ [v]))) (.binary op a b)
  | atom {t : Token} {e : Expr} (ht : t.atom? = some e) : Derives .operand [t] e
  | parens {ts : List Token} {t u : Token} {e : Expr} (ht : t.kind = .parenOpen)
      (he : Derives .implication ts e) (hu : u.kind = .parenClose) :
      Derives .operand (t :: (ts ++ [u])) e

/-- A kind of token that does not go on with a formula of a layer. -/
def Layer.Stops : Layer → Kind → Prop
  | .implication, k => k.temporalOp? = none ∧ k.junctionOp? = none ∧ k ≠ .implies
  | .junction, k | .junctionFrom _, k => k.temporalOp? = none ∧ k.junctionOp? = none
  | .temporal, k => k.temporalOp? = none
  | .operand, _ => True

/-! ## Places do not matter -/

/-- A token without its place. -/
def Token.unplaced (t : Token) : Token := { t with span := {} }

theorem Token.kind_eq_of_unplaced (h : t.unplaced = u.unplaced) : t.kind = u.kind := by
  simpa [Token.unplaced] using congrArg Token.kind h

theorem Token.text_eq_of_unplaced (h : t.unplaced = u.unplaced) : t.text = u.text := by
  simpa [Token.unplaced] using congrArg Token.text h

theorem Token.atom?_eq_of_unplaced (h : t.unplaced = u.unplaced) : t.atom? = u.atom? := by
  simp only [Token.atom?, Token.kind_eq_of_unplaced h, Token.text_eq_of_unplaced h]

/-- Tokens that differ from a split list in their places only can be split in the same way. -/
theorem exists_of_map_unplaced {vs : List Token}
    (h : vs.map Token.unplaced = (ts ++ t :: us).map Token.unplaced) :
    ∃ ts' t' us', vs = ts' ++ t' :: us' ∧ ts'.map Token.unplaced = ts.map Token.unplaced ∧
      t'.unplaced = t.unplaced ∧ us'.map Token.unplaced = us.map Token.unplaced := by
  rw [List.map_append, List.map_cons] at h
  obtain ⟨ts', rest, rfl, hts, hrest⟩ := List.map_eq_append_iff.1 h
  obtain ⟨t', us', rfl, ht, hus⟩ := List.map_eq_cons_iff.1 hrest
  exact ⟨ts', t', us', rfl, hts, ht, hus⟩

/-- What tokens derive does not depend on their places. -/
theorem Derives.of_unplaced (h : Derives layer ts e)
    (hus : us.map Token.unplaced = ts.map Token.unplaced) : Derives layer us e := by
  induction h generalizing us with
  | junction_only _ ih => exact .junction_only (ih hus)
  | implies _ ht _ iha ihb =>
    obtain ⟨ts', t', us', rfl, hts, ht', hus⟩ := exists_of_map_unplaced hus
    exact .implies (iha hts) (Token.kind_eq_of_unplaced ht' ▸ ht) (ihb hus)
  | junction _ _ iha ihe =>
    rw [List.map_append] at hus
    obtain ⟨ts', us', rfl, hts, hus⟩ := List.map_eq_append_iff.1 hus
    exact .junction (iha hts) (ihe hus)
  | junction_end =>
    rw [List.map_nil, List.map_eq_nil_iff] at hus
    exact hus ▸ .junction_end
  | junction_step ht _ _ ihb ihe =>
    rw [List.map_cons, List.map_append] at hus
    obtain ⟨t', rest, rfl, ht', hrest⟩ := List.map_eq_cons_iff.1 hus
    obtain ⟨ts', us', rfl, hts, hus⟩ := List.map_eq_append_iff.1 hrest
    exact .junction_step (Token.kind_eq_of_unplaced ht' ▸ ht) (ihb hts) (ihe hus)
  | operand_only _ ih => exact .operand_only (ih hus)
  | temporal _ ht _ iha ihb =>
    obtain ⟨ts', t', us', rfl, hts, ht', hus⟩ := exists_of_map_unplaced hus
    exact .temporal (iha hts) (Token.kind_eq_of_unplaced ht' ▸ ht) (ihb hus)
  | unary ht _ ih =>
    rw [List.map_cons] at hus
    obtain ⟨t', ts', rfl, ht', hts⟩ := List.map_eq_cons_iff.1 hus
    exact .unary (Token.kind_eq_of_unplaced ht' ▸ ht) (ih hts)
  | quantified ht _ hu _ hv iha ihb =>
    rw [List.map_cons] at hus
    obtain ⟨t', rest, rfl, ht', hrest⟩ := List.map_eq_cons_iff.1 hus
    obtain ⟨ts', u', rest, rfl, hts, hu', hrest⟩ := exists_of_map_unplaced hrest
    obtain ⟨us', v', rest, rfl, hus', hv', hrest⟩ := exists_of_map_unplaced hrest
    rw [List.map_nil, List.map_eq_nil_iff] at hrest
    subst hrest
    exact .quantified (Token.kind_eq_of_unplaced ht' ▸ ht) (iha hts)
      (Token.kind_eq_of_unplaced hu' ▸ hu) (ihb hus') (Token.kind_eq_of_unplaced hv' ▸ hv)
  | atom ht =>
    obtain ⟨t', rest, rfl, ht', hrest⟩ := List.map_eq_cons_iff.1 hus
    rw [List.map_nil, List.map_eq_nil_iff] at hrest
    subst hrest
    exact .atom (Token.atom?_eq_of_unplaced ht' ▸ ht)
  | parens ht _ hu ih =>
    rw [List.map_cons] at hus
    obtain ⟨t', rest, rfl, ht', hrest⟩ := List.map_eq_cons_iff.1 hus
    obtain ⟨ts', u', rest, rfl, hts, hu', hrest⟩ := exists_of_map_unplaced hrest
    rw [List.map_nil, List.map_eq_nil_iff] at hrest
    subst hrest
    exact .parens (Token.kind_eq_of_unplaced ht' ▸ ht) (ih hts) (Token.kind_eq_of_unplaced hu' ▸ hu)

/-! ## Kinds of token -/

/-- A token belongs to one layer only, and where it starts an operand, to one form of operand. -/
theorem Kind.temporalOp?_of_junctionOp? {k : Kind} (h : k.junctionOp? = some op) :
    k.temporalOp? = none := by
  cases k <;> simp_all [Kind.junctionOp?, Kind.temporalOp?]

theorem Kind.unaryOp?_of_quantifiedOp? {k : Kind} (h : k.quantifiedOp? = some op) :
    k.unaryOp? = none := by
  cases k <;> simp_all [Kind.quantifiedOp?, Kind.unaryOp?]

/-- The end of the input is no operator. -/
theorem Kind.ne_eof {α : Type} {f : Kind → Option α} {k : Kind} {x : α} (h : f k = some x)
    (hf : f .eof = none) : k ≠ .eof := by
  intro hk
  rw [hk, hf] at h
  cases h

theorem Token.kind_ne_eof_of_atom? (h : t.atom? = some e) : t.kind ≠ .eof := by
  intro hk
  simp [Token.atom?, hk] at h

theorem Token.kind_of_atom? (h : t.atom? = some e) :
    t.kind.unaryOp? = none ∧ t.kind.quantifiedOp? = none := by
  unfold Token.atom? at h
  split at h <;> simp_all [Kind.quantifiedOp?, Kind.unaryOp?]

/-- The end of the input is no part of a formula. -/
theorem Derives.kind_ne_eof (h : Derives layer ts e) : ∀ t ∈ ts, t.kind ≠ .eof := by
  induction h with (try simp only [List.forall_mem_append, List.forall_mem_cons])
  | junction_only _ ih | operand_only _ ih => exact ih
  | implies _ ht _ iha ihb => exact ⟨iha, by simp [ht], ihb⟩
  | junction _ _ iha ihe => exact ⟨iha, ihe⟩
  | junction_end => simp
  | junction_step ht _ _ ihb ihe => exact ⟨Kind.ne_eof ht rfl, ihb, ihe⟩
  | temporal _ ht _ iha ihb => exact ⟨iha, Kind.ne_eof ht rfl, ihb⟩
  | unary ht _ ih => exact ⟨Kind.ne_eof ht rfl, ih⟩
  | quantified ht _ hu _ hv iha ihb =>
    exact ⟨Kind.ne_eof ht rfl, iha, by simp [hu], ihb, by simp [hv]⟩
  | atom ht => exact ⟨Token.kind_ne_eof_of_atom? ht, by simp⟩
  | parens ht _ hu ih => exact ⟨by simp [ht], ih, by simp [hu]⟩

/-- A formula has a token. -/
theorem Derives.ne_nil (h : Derives layer ts e) (hlayer : ∀ a, layer ≠ .junctionFrom a) :
    ts ≠ [] := by
  induction h with
  | junction_only _ ih | operand_only _ ih => exact ih nofun
  | junction _ _ iha _ => simp [iha nofun]
  | junction_end => exact absurd rfl (hlayer _)
  | _ => simp

/-- The kinds of token that a formula starts with. -/
def formulaStarts : List Kind := [
  .negation, .next, .future, .global, .allGlobally, .existsGlobally, .allFinally, .existsFinally,
  .allNext, .existsNext, .allUntil, .existsUntil, .parenOpen, .proposition, .top, .bottom]

/-- Every formula starts with a token that formulas start with. -/
theorem Derives.exists_start (h : Derives layer ts e) (hlayer : ∀ a, layer ≠ .junctionFrom a) :
    ∃ t us, ts = t :: us ∧ t.kind ∈ formulaStarts := by
  induction h with
  | junction_only _ ih | operand_only _ ih => exact ih nofun
  | implies _ _ _ ih _ | temporal _ _ _ ih _ | junction _ _ ih _ =>
    obtain ⟨t, us, rfl, ht⟩ := ih nofun
    exact ⟨t, _, rfl, ht⟩
  | junction_end | junction_step => exact absurd rfl (hlayer _)
  | @unary _ t _ _ ht _ _ =>
    refine ⟨t, _, rfl, ?_⟩
    cases hk : t.kind <;> simp [hk, Kind.unaryOp?, formulaStarts] at ht ⊢
  | @quantified _ _ t _ _ _ _ _ ht _ _ _ _ _ _ =>
    refine ⟨t, _, rfl, ?_⟩
    cases hk : t.kind <;> simp [hk, Kind.quantifiedOp?, formulaStarts] at ht ⊢
  | @atom t _ ht =>
    refine ⟨t, _, rfl, ?_⟩
    cases hk : t.kind <;> simp [hk, Token.atom?, formulaStarts] at ht ⊢
  | parens ht _ _ _ => exact ⟨_, _, rfl, by simp [ht, formulaStarts]⟩

theorem formulaStarts_disjoint : ∀ k ∈ formulaStarts, k ≠ .compare ∧ k ≠ .modelOpen := by
  decide

/-- No formula goes on with a token that a formula starts with. -/
theorem stops_of_mem_formulaStarts : ∀ k ∈ formulaStarts, Layer.implication.Stops k := by
  simp [formulaStarts, Layer.Stops, Kind.temporalOp?, Kind.junctionOp?]

namespace Stream

variable {s rest : Stream} {n : Nat}

/-- The token that a formula starts with, where it stands before others.  It opens neither a
comparison nor a model. -/
theorem exists_head_of_derives (h : Derives layer ts e) (hlayer : ∀ a, layer ≠ .junctionFrom a)
    (rest : Stream) :
    ∃ t us, ts ++ rest = t :: us ∧ t.kind ≠ .compare ∧ t.kind ≠ .modelOpen := by
  obtain ⟨t, us, rfl, ht⟩ := h.exists_start hlayer
  exact ⟨t, us ++ rest, rfl, formulaStarts_disjoint t.kind ht⟩

/-- A token of a kind other than the end is read where it is the next one. -/
theorem expect_eq_ok_iff {k : Kind} (hk : k ≠ .eof) :
    s.expect k = .ok (t, rest) ↔ t.kind = k ∧ s = t :: rest := by
  cases s with
  | nil => simp [expect, peek, bind_eq_ok_iff]
  | cons u s =>
    by_cases hu : u.kind = k
    · subst hu
      simp [expect, skip_cons_of_ne hk]
      grind
    · simp [expect, hu]
      grind

theorem expectBehind_eq_ok_iff {k : Kind} {done : List Expr} (hk : k ≠ .eof) :
    s.expectBehind k done = .ok rest ↔ ∃ t, t.kind = k ∧ s = t :: rest := by
  simp [expectBehind, map_eq_ok_iff, mapError_eq_ok_iff, expect_eq_ok_iff hk]

/-! ## The layers of the reader, one step each -/

/-- A property that needs a next token, of some stream. -/
theorem exists_iff_exists_cons {P : Stream → Prop} (h : ¬ P []) :
    (∃ s, P s) ↔ ∃ t s, P (t :: s) := by
  constructor
  · rintro ⟨s, hs⟩
    cases s with
    | nil => exact absurd hs h
    | cons t s => exact ⟨t, s, hs⟩
  · rintro ⟨t, s, hs⟩
    exact ⟨t :: s, hs⟩

-- The equations of the reader are made here, once for all layers.
attribute [local simp] readLayer in
/-- An implication is read as a junction, and on behind an arrow if there is one. -/
theorem readLayer_implication :
    readLayer (n + 1) .implication s = .ok (e, rest) ↔
      ∃ a t s', readLayer n .junction s = .ok (a, t :: s') ∧
        (t.kind ≠ .implies ∧ a = e ∧ t :: s' = rest ∨
          t.kind = .implies ∧ ∃ b s'', readLayer n .implication s' = .ok (b, s'') ∧
            .binary .implies a b = e ∧ s'' = rest) := by
  simp only [readLayer, bind_eq_ok_iff, Prod.exists]
  refine exists_congr fun a => ?_
  rw [exists_iff_exists_cons (by simp)]
  refine exists_congr fun t => exists_congr fun s' => and_congr_right fun _ => ?_
  by_cases hk : t.kind = .implies <;>
    simp [hk, skip, map_eq_ok_iff, mapError_eq_ok_iff]

theorem readLayer_junction :
    readLayer (n + 1) .junction s = .ok (e, rest) ↔
      ∃ a s', readLayer n .temporal s = .ok (a, s') ∧
        readLayer n (.junctionFrom a) s' = .ok (e, rest) := by
  simp only [readLayer, bind_eq_ok_iff, Prod.exists]

/-- A junction goes on as long as its operators follow. -/
theorem readLayer_junctionFrom :
    readLayer (n + 1) (.junctionFrom a) (t :: s) = .ok (e, rest) ↔
      t.kind.junctionOp? = none ∧ a = e ∧ t :: s = rest ∨
        ∃ op, t.kind.junctionOp? = some op ∧ ∃ b s', readLayer n .temporal s = .ok (b, s') ∧
          readLayer n (.junctionFrom (.binary op a b)) s' = .ok (e, rest) := by
  cases hop : t.kind.junctionOp? with
  | none => simp [readLayer, hop]
  | some op =>
    simp [readLayer, hop, skip_cons_of_ne (Kind.ne_eof hop rfl), bind_eq_ok_iff,
      mapError_eq_ok_iff]

/-- A temporal formula is read as an operand, and on behind a temporal operator if there is one. -/
theorem readLayer_temporal :
    readLayer (n + 1) .temporal s = .ok (e, rest) ↔
      ∃ a t s', readLayer n .operand s = .ok (a, t :: s') ∧
        (t.kind.temporalOp? = none ∧ a = e ∧ t :: s' = rest ∨
          ∃ op, t.kind.temporalOp? = some op ∧ ∃ b s'',
            readLayer n .temporal s' = .ok (b, s'') ∧ .binary op a b = e ∧ s'' = rest) := by
  simp only [readLayer, bind_eq_ok_iff, Prod.exists]
  refine exists_congr fun a => ?_
  rw [exists_iff_exists_cons (by simp [peek])]
  refine exists_congr fun t => exists_congr fun s' => and_congr_right fun _ => ?_
  cases hop : t.kind.temporalOp? with
  | none => simp [hop]
  | some op =>
    simp [hop, skip_cons_of_ne (Kind.ne_eof hop rfl), map_eq_ok_iff, mapError_eq_ok_iff]

theorem readLayer_unary {op : UnaryOp} (h : t.kind.unaryOp? = some op) :
    readLayer (n + 1) .operand (t :: s) = do
      let (a, s) ← readLayer n .operand s
      return (.unary op a, s) := by
  simp [readLayer, h, skip_cons_of_ne (Kind.ne_eof h rfl)]

/-- A quantified `U` is read operand by operand, each of them up to its mark. -/
theorem readLayer_quantified (h : t.kind.quantifiedOp? = some op) :
    readLayer (n + 1) .operand (t :: s) = do
      let (a, s) ← readLayer n .operand s
      let s ← s.expectBehind .until [a]
      let (b, s) ← (readLayer n .temporal s).mapError (.map (.behind [a]))
      let s ← s.expectBehind .untilEnd [a, b]
      return (.binary op a b, s) := by
  simp [readLayer, Kind.unaryOp?_of_quantifiedOp? h, h, skip_cons_of_ne (Kind.ne_eof h rfl)]

theorem readLayer_atom (h : t.atom? = some a) :
    readLayer (n + 1) .operand (t :: s) = .ok (a, s) := by
  obtain ⟨hunary, hquantified⟩ := Token.kind_of_atom? h
  simp [readLayer, hunary, hquantified, h, skip_cons_of_ne (Token.kind_ne_eof_of_atom? h)]

/-- Parentheses are read up to the closing one. -/
theorem readLayer_parens (h : t.kind = .parenOpen) :
    readLayer (n + 1) .operand (t :: s) = do
      let (a, s) ← readLayer n .implication s
      let s ← s.expectBehind .parenClose [a]
      return (a, s) := by
  simp [readLayer, h, Kind.unaryOp?, Kind.quantifiedOp?, Token.atom?, skip]

/-- A token that no formula starts with is refused. -/
theorem readLayer_operand_of_not_mem (h : t.kind ∉ formulaStarts) :
    readLayer (n + 1) .operand (t :: s) =
      .error (.refused { cause := .unexpectedToken .formula t }) := by
  cases hk : t.kind <;>
    simp [hk, formulaStarts, readLayer, Kind.unaryOp?, Kind.quantifiedOp?, Token.atom?, throw,
      throwThe, MonadExceptOf.throw] at h ⊢

/-- The forms of an operand, by the token it starts with. -/
theorem operand_cases (t : Token) :
    (∃ op, t.kind.unaryOp? = some op) ∨ (∃ op, t.kind.quantifiedOp? = some op) ∨
      (∃ a, t.atom? = some a) ∨ t.kind = .parenOpen ∨ t.kind ∉ formulaStarts := by
  cases hk : t.kind <;>
    simp [hk, formulaStarts, Kind.unaryOp?, Kind.quantifiedOp?, Token.atom?]

/-! ## What the grammar derives is read -/

/-- How deep the reader goes for a formula of a layer with a number of tokens. -/
def depthFor (k : Nat) : Layer → Nat
  | .implication => 5 * k + 3
  | .junction => 5 * k + 2
  | .temporal => 5 * k + 1
  | .junctionFrom _ | .operand => 5 * k

theorem exists_depth {k : Nat} (h : depthFor k layer < n) :
    ∃ m, n = m + 1 ∧ depthFor k layer ≤ m :=
  ⟨n - 1, by omega, by omega⟩

/-- What follows an operand of a junction does not go on with it. -/
theorem exists_behind_operand (h : Derives (.junctionFrom a) us e)
    (hstop : (Layer.junctionFrom a).Stops t.kind) (rest : Stream) :
    ∃ u vs, us ++ t :: rest = u :: vs ∧ u.kind.temporalOp? = none := by
  cases h with
  | junction_end => exact ⟨t, rest, rfl, hstop.1⟩
  | junction_step ht _ _ => exact ⟨_, _, rfl, Kind.temporalOp?_of_junctionOp? ht⟩

/-- Whatever the grammar derives is read, up to a token that does not go on with it. -/
theorem readLayer_of_derives (h : Derives layer ts e) (hstop : layer.Stops t.kind)
    (hn : depthFor ts.length layer < n) :
    readLayer n layer (ts ++ t :: rest) = .ok (e, t :: rest) := by
  -- By induction on the derivation.  Reading one layer takes one level of depth, and each part is
  -- followed by a token that stops it: the operator or bracket behind it, or what stops the whole.
  induction h generalizing n t rest with
    (obtain ⟨n, rfl, hn⟩ := exists_depth hn
     simp only [depthFor, List.length_append, List.length_cons, List.length_nil] at hn)
  | @junction_only ts e _ ih =>
    have hj : readLayer n .junction (ts ++ t :: rest) = .ok (e, t :: rest) :=
      ih ⟨hstop.1, hstop.2.1⟩ (by simp only [depthFor]; omega)
    exact readLayer_implication.2 ⟨_, _, _, hj, .inl ⟨hstop.2.2, rfl, rfl⟩⟩
  | @implies ts us u a b _ hu _ iha ihb =>
    have hj : readLayer n .junction (ts ++ u :: (us ++ t :: rest)) =
        .ok (a, u :: (us ++ t :: rest)) :=
      iha (by simp [Layer.Stops, hu, Kind.temporalOp?, Kind.junctionOp?])
        (by simp only [depthFor]; omega)
    have hi : readLayer n .implication (us ++ t :: rest) = .ok (b, t :: rest) :=
      ihb hstop (by simp only [depthFor]; omega)
    rw [List.append_assoc, List.cons_append]
    exact readLayer_implication.2 ⟨_, _, _, hj, .inr ⟨hu, _, _, hi, rfl, rfl⟩⟩
  | @junction ts us a e _ he iha ihe =>
    obtain ⟨u, vs, hus, hu⟩ := exists_behind_operand he hstop rest
    have ht : readLayer n .temporal (ts ++ (us ++ t :: rest)) = .ok (a, us ++ t :: rest) := by
      rw [hus]
      exact iha hu (by simp only [depthFor]; omega)
    rw [List.append_assoc]
    exact readLayer_junction.2 ⟨_, _, ht, ihe hstop (by simp only [depthFor]; omega)⟩
  | junction_end => exact readLayer_junctionFrom.2 (.inl ⟨hstop.2, rfl, rfl⟩)
  | @junction_step ts us v op a b e hv _ he ihb ihe =>
    obtain ⟨u, vs, hus, hu⟩ := exists_behind_operand he hstop rest
    have ht : readLayer n .temporal (ts ++ (us ++ t :: rest)) = .ok (b, us ++ t :: rest) := by
      rw [hus]
      exact ihb hu (by simp only [depthFor]; omega)
    rw [List.cons_append, List.append_assoc]
    exact readLayer_junctionFrom.2
      (.inr ⟨_, hv, _, _, ht, ihe hstop (by simp only [depthFor]; omega)⟩)
  | @operand_only ts e _ ih =>
    have ho : readLayer n .operand (ts ++ t :: rest) = .ok (e, t :: rest) :=
      ih trivial (by simp only [depthFor]; omega)
    exact readLayer_temporal.2 ⟨_, _, _, ho, .inl ⟨hstop, rfl, rfl⟩⟩
  | @temporal ts us u op a b _ hu _ iha ihb =>
    have ho : readLayer n .operand (ts ++ u :: (us ++ t :: rest)) =
        .ok (a, u :: (us ++ t :: rest)) :=
      iha trivial (by simp only [depthFor]; omega)
    have ht : readLayer n .temporal (us ++ t :: rest) = .ok (b, t :: rest) :=
      ihb hstop (by simp only [depthFor]; omega)
    rw [List.append_assoc, List.cons_append]
    exact readLayer_temporal.2 ⟨_, _, _, ho, .inr ⟨op, hu, _, _, ht, rfl, rfl⟩⟩
  | @unary ts u op a hu _ ih =>
    have ho : readLayer n .operand (ts ++ t :: rest) = .ok (a, t :: rest) :=
      ih trivial (by simp only [depthFor]; omega)
    rw [List.cons_append, readLayer_unary hu, bind_of_eq_ok ho]
    rfl
  | @quantified ts us u v w op a b hu _ hv _ hw iha ihb =>
    have ho : readLayer n .operand (ts ++ v :: (us ++ w :: t :: rest)) =
        .ok (a, v :: (us ++ w :: t :: rest)) :=
      iha trivial (by simp only [depthFor]; omega)
    have hb : readLayer n .temporal (us ++ w :: t :: rest) = .ok (b, w :: t :: rest) :=
      ihb (by simp [Layer.Stops, hw, Kind.temporalOp?]) (by simp only [depthFor]; omega)
    have hv : expectBehind (v :: (us ++ w :: t :: rest)) .until [a] = .ok _ :=
      (expectBehind_eq_ok_iff (by decide)).2 ⟨v, hv, rfl⟩
    have hw : expectBehind (w :: t :: rest) .untilEnd [a, b] = .ok _ :=
      (expectBehind_eq_ok_iff (by decide)).2 ⟨w, hw, rfl⟩
    simp only [List.cons_append, List.append_assoc, List.nil_append]
    simp only [readLayer_quantified hu, bind_eq_ok_iff, mapError_eq_ok_iff, Prod.exists]
    exact ⟨_, _, ho, _, hv, _, _, hb, _, hw, rfl⟩
  | atom hu => exact readLayer_atom hu
  | @parens ts u v e hu _ hv ih =>
    have hi : readLayer n .implication (ts ++ v :: t :: rest) = .ok (e, v :: t :: rest) :=
      ih (by simp [Layer.Stops, hv, Kind.temporalOp?, Kind.junctionOp?])
        (by simp only [depthFor]; omega)
    have hv : expectBehind (v :: t :: rest) .parenClose [e] = .ok _ :=
      (expectBehind_eq_ok_iff (by decide)).2 ⟨v, hv, rfl⟩
    simp only [List.cons_append, List.append_assoc, List.nil_append]
    simp only [readLayer_parens hu, bind_eq_ok_iff, Prod.exists]
    exact ⟨_, _, hi, _, hv, rfl⟩

/-! ## What is read is derived by the grammar -/

/-- The next token does not go on with a layer.  Only an operand ends without a look at it. -/
def StopsLayer (s : Stream) : Layer → Prop
  | .operand => True
  | layer => ∃ t s', s = t :: s' ∧ layer.Stops t.kind

/-- What reading `depth` layers deep has to give: a derivation, and behind it a token that does not
go on with the layer.  The rest of a junction is read where its last operand has stopped. -/
def ReadsDerived (depth : Nat) : Prop :=
  ∀ {layer : Layer} {s rest : Stream} {e : Expr}, readLayer depth layer s = .ok (e, rest) →
    (∀ a, layer = .junctionFrom a → s.StopsLayer .temporal) →
    ∃ ts, s = ts ++ rest ∧ Derives layer ts e ∧ rest.StopsLayer layer

/-- What is read as an operand is one. -/
theorem ReadsDerived.operand (ih : ReadsDerived n)
    (h : readLayer (n + 1) .operand s = .ok (e, rest)) :
    ∃ ts, s = ts ++ rest ∧ Derives .operand ts e := by
  cases s with
  | nil => simp [readLayer, peek, bind_eq_ok_iff] at h
  | cons t s =>
    obtain ⟨op, ht⟩ | ⟨op, ht⟩ | ⟨a, ht⟩ | ht | ht := operand_cases t
    · simp only [readLayer_unary ht, bind_eq_ok_iff, Prod.exists] at h
      obtain ⟨a, s', ha, h⟩ := h
      obtain ⟨ts, rfl, hd, -⟩ := ih ha nofun
      cases h
      exact ⟨t :: ts, rfl, .unary ht hd⟩
    · simp only [readLayer_quantified ht, bind_eq_ok_iff, mapError_eq_ok_iff, Prod.exists] at h
      obtain ⟨a, s₁, ha, s₂, hs₂, b, s₃, hb, s₄, hs₄, h⟩ := h
      obtain ⟨u, hu, rfl⟩ := (expectBehind_eq_ok_iff (by decide)).1 hs₂
      obtain ⟨v, hv, rfl⟩ := (expectBehind_eq_ok_iff (by decide)).1 hs₄
      obtain ⟨ts, rfl, hda, -⟩ := ih ha nofun
      obtain ⟨us, rfl, hdb, -⟩ := ih hb nofun
      cases h
      exact ⟨t :: (ts ++ u :: (us ++ [v])), by simp, .quantified ht hda hu hdb hv⟩
    · rw [readLayer_atom ht] at h
      cases h
      exact ⟨[t], rfl, .atom ht⟩
    · simp only [readLayer_parens ht, bind_eq_ok_iff, Prod.exists] at h
      obtain ⟨a, s₁, ha, s₂, hs₂, h⟩ := h
      obtain ⟨u, hu, rfl⟩ := (expectBehind_eq_ok_iff (by decide)).1 hs₂
      obtain ⟨ts, rfl, hd, -⟩ := ih ha nofun
      cases h
      exact ⟨t :: (ts ++ [u]), by simp, .parens ht hd hu⟩
    · rw [readLayer_operand_of_not_mem ht] at h
      cases h

/-- What is read in any layer is derived in it, by induction on the depth allowed. -/
theorem readsDerived (n : Nat) : ReadsDerived n := by
  induction n with
  | zero => simp [ReadsDerived, readLayer, bind_eq_ok_iff]
  | succ n ih =>
    intro layer s rest e h hs
    cases layer with
    | implication =>
      rw [readLayer_implication] at h
      obtain ⟨a, t, s', hj, h⟩ := h
      obtain ⟨ts, rfl, hts, t', s'', heq, hstop⟩ := ih hj nofun
      cases heq
      obtain ⟨hk, rfl, rfl⟩ | ⟨hk, b, s'', hi, rfl, rfl⟩ := h
      · exact ⟨ts, rfl, .junction_only hts, _, _, rfl, hstop.1, hstop.2, hk⟩
      · obtain ⟨us, rfl, hb, hstop⟩ := ih hi nofun
        exact ⟨ts ++ t :: us, by simp, .implies hts hk hb, hstop⟩
    | junction =>
      rw [readLayer_junction] at h
      obtain ⟨a, s', ht, h⟩ := h
      obtain ⟨ts, rfl, hts, hstop⟩ := ih ht nofun
      obtain ⟨us, rfl, hus, hstop⟩ := ih h fun _ _ => hstop
      exact ⟨ts ++ us, (List.append_assoc ..).symm, .junction hts hus, hstop⟩
    | junctionFrom a =>
      obtain ⟨t, s', rfl, hstop⟩ := hs a rfl
      rw [readLayer_junctionFrom] at h
      obtain ⟨hk, rfl, rfl⟩ | ⟨op, hk, b, s'', hb, h⟩ := h
      · exact ⟨[], rfl, .junction_end, _, _, rfl, hstop, hk⟩
      · obtain ⟨ts, rfl, hdb, hstop⟩ := ih hb nofun
        obtain ⟨us, rfl, hus, hstop⟩ := ih h fun _ _ => hstop
        exact ⟨t :: (ts ++ us), by simp, .junction_step hk hdb hus, hstop⟩
    | temporal =>
      rw [readLayer_temporal] at h
      obtain ⟨a, t, s', ho, h⟩ := h
      obtain ⟨ts, rfl, hts, -⟩ := ih ho nofun
      obtain ⟨hk, rfl, rfl⟩ | ⟨op, hk, b, s'', ht, rfl, rfl⟩ := h
      · exact ⟨ts, rfl, .operand_only hts, _, _, rfl, hk⟩
      · obtain ⟨us, rfl, hb, hstop⟩ := ih ht nofun
        exact ⟨ts ++ t :: us, by simp, .temporal hts hk hb, hstop⟩
    | operand =>
      obtain ⟨ts, hts, hd⟩ := ih.operand h
      exact ⟨ts, hts, hd, trivial⟩

/-! ## Where reading stops -/

/-- Reading stops at a token that was not expected, behind tokens none of which is the end. -/
def StopsWith (s : Stream) (cause : ParseError) : Prop :=
  ∃ ts t rest expected, s = ts ++ t :: rest ∧ (∀ u ∈ ts, u.kind ≠ .eof) ∧
    cause = .unexpectedToken expected t

/-- How reading a stream halts: it is refused where it stops, and it breaks only where the stream
has no end. -/
def HaltsWith (s : Stream) : Stop ParseError → Prop
  | .refused cause => s.StopsWith cause
  | .broken _ => ∀ t ∈ s, t.kind ≠ .eof

variable {stop : Stop ParseError} {cause : ParseError} {failure : ReadFailure}

theorem stopsWith_cons (t : Token) (s : Stream) (expected : Expectation) :
    StopsWith (t :: s) (.unexpectedToken expected t) :=
  ⟨[], t, s, expected, rfl, by simp, rfl⟩

theorem StopsWith.append (h : rest.StopsWith cause) (hts : ∀ t ∈ ts, t.kind ≠ .eof) :
    StopsWith (ts ++ rest) cause := by
  obtain ⟨us, t, rest, expected, rfl, hus, rfl⟩ := h
  exact ⟨ts ++ us, t, rest, expected, (List.append_assoc ..).symm,
    List.forall_mem_append.2 ⟨hts, hus⟩, rfl⟩

/-- A stream halts as what is left of it does, behind tokens that are not the end. -/
theorem HaltsWith.append (h : rest.HaltsWith stop) (hts : ∀ t ∈ ts, t.kind ≠ .eof) :
    HaltsWith (ts ++ rest) stop := by
  cases stop with
  | refused cause => exact StopsWith.append h hts
  | broken fault => exact List.forall_mem_append.2 ⟨hts, h⟩

theorem HaltsWith.cons (h : rest.HaltsWith stop) (ht : t.kind ≠ .eof) :
    HaltsWith (t :: rest) stop := by
  rw [← List.singleton_append]
  exact h.append (by simpa using ht)

theorem haltsWith_of_peek {fault : Fault} (h : s.peek = .error fault) :
    s.HaltsWith (.broken fault) := by
  cases s with
  | nil => simp [HaltsWith]
  | cons t s => cases h

/-- A token that cannot be read is of another kind, or there is none. -/
theorem expect_of_error {k : Kind} (h : s.expect k = .error stop) :
    (s = [] ∧ ∃ fault, stop = .broken fault) ∨
      ∃ t s', s = t :: s' ∧ t.kind ≠ k ∧ stop = .refused (.unexpectedToken (.token k) t) := by
  cases s with
  | nil =>
    cases h
    exact .inl ⟨rfl, _, rfl⟩
  | cons t s =>
    by_cases hk : t.kind = k
    · simp [expect, hk, skip] at h
    · simp only [expect, peek_cons, lift_ok, pure_bind, hk, if_false] at h
      cases h
      exact .inr ⟨t, s, rfl, hk, rfl⟩

theorem haltsWith_of_expect {k : Kind} (h : s.expect k = .error stop) : s.HaltsWith stop := by
  obtain ⟨rfl, fault, rfl⟩ | ⟨t, s, rfl, -, rfl⟩ := expect_of_error h
  · simp [HaltsWith]
  · exact stopsWith_cons t s _

/-- An expected token that is missing stops the reader where it should stand. -/
theorem haltsWith_of_expectBehind {k : Kind} {done : List Expr} {stop : Stop ReadFailure}
    (h : s.expectBehind k done = .error stop) : s.HaltsWith (stop.map ReadFailure.cause) := by
  obtain h | ⟨_, -, h⟩ := bind_eq_error_iff.1 h
  · obtain ⟨inner, hexpect, rfl⟩ := mapError_eq_error_iff.1 h
    have hhalts := haltsWith_of_expect hexpect
    cases inner <;> exact hhalts
  · cases h

/-- Behind what has been read, reading halts as it does for the rest. -/
theorem HaltsWith.of_readLayer (h : rest.HaltsWith stop)
    (hread : readLayer n layer s = .ok (e, rest)) (hlayer : ∀ a, layer ≠ .junctionFrom a) :
    s.HaltsWith stop := by
  obtain ⟨ts, rfl, hd, -⟩ := readsDerived n hread fun a ha => absurd ha (hlayer a)
  exact h.append hd.kind_ne_eof

/-- What a failure to read `depth` layers deep has to be: a token that was not expected, or a
stream without an end. -/
def FailsHalted (depth : Nat) : Prop :=
  ∀ {layer : Layer} {s : Stream} {stop : Stop ReadFailure},
    readLayer depth layer s = .error stop → s.HaltsWith (stop.map ReadFailure.cause)

/-- A failure is where it was also if something had been read before it. -/
theorem FailsHalted.behind {done : List Expr} {stop : Stop ReadFailure} (ih : FailsHalted n)
    (h : (readLayer n layer s).mapError (.map (.behind done)) = .error stop) :
    s.HaltsWith (stop.map ReadFailure.cause) := by
  obtain ⟨inner, hread, rfl⟩ := mapError_eq_error_iff.1 h
  have hhalts := ih hread
  cases inner <;> exact hhalts

/-- A failed operand stops the reader where it cannot go on. -/
theorem FailsHalted.operand {stop : Stop ReadFailure} (ih : FailsHalted n)
    (h : readLayer (n + 1) .operand s = .error stop) :
    s.HaltsWith (stop.map ReadFailure.cause) := by
  cases s with
  | nil =>
    cases h
    exact haltsWith_of_peek rfl
  | cons t s =>
    obtain ⟨op, ht⟩ | ⟨op, ht⟩ | ⟨a, ht⟩ | ht | ht := operand_cases t
    · rw [readLayer_unary ht] at h
      refine HaltsWith.cons ?_ (Kind.ne_eof ht rfl)
      obtain h | ⟨_, _, h⟩ := bind_eq_error_iff.1 h
      · exact ih h
      · cases h
    · rw [readLayer_quantified ht] at h
      refine HaltsWith.cons ?_ (Kind.ne_eof ht rfl)
      obtain h₁ | ⟨⟨a, s₁⟩, ha, h₁⟩ := bind_eq_error_iff.1 h
      · exact ih h₁
      refine HaltsWith.of_readLayer ?_ ha (by simp)
      obtain h₂ | ⟨s₂, hs₂, h₂⟩ := bind_eq_error_iff.1 h₁
      · exact haltsWith_of_expectBehind h₂
      obtain ⟨u, hu, heq⟩ := (expectBehind_eq_ok_iff (by decide)).1 hs₂
      rw [heq]
      refine HaltsWith.cons ?_ (by simp [hu])
      obtain h₃ | ⟨⟨b, s₃⟩, hb, h₃⟩ := bind_eq_error_iff.1 h₂
      · exact ih.behind h₃
      refine HaltsWith.of_readLayer ?_ (mapError_eq_ok_iff.1 hb) (by simp)
      obtain h₄ | ⟨s₄, -, h₄⟩ := bind_eq_error_iff.1 h₃
      · exact haltsWith_of_expectBehind h₄
      · cases h₄
    · rw [readLayer_atom ht] at h
      cases h
    · rw [readLayer_parens ht] at h
      refine HaltsWith.cons ?_ (by simp [ht])
      obtain h | ⟨⟨a, s₁⟩, ha, h⟩ := bind_eq_error_iff.1 h
      · exact ih h
      refine HaltsWith.of_readLayer ?_ ha (by simp)
      obtain h | ⟨s₂, -, h⟩ := bind_eq_error_iff.1 h
      · exact haltsWith_of_expectBehind h
      · cases h
    · rw [readLayer_operand_of_not_mem ht] at h
      cases h
      exact stopsWith_cons t s _

/-- A failed implication stops the reader in its first part or behind the arrow. -/
theorem FailsHalted.implication {stop : Stop ReadFailure} (ih : FailsHalted n)
    (h : readLayer (n + 1) .implication s = .error stop) :
    s.HaltsWith (stop.map ReadFailure.cause) := by
  simp only [readLayer] at h
  obtain h | ⟨⟨a, s'⟩, ha, h⟩ := bind_eq_error_iff.1 h
  · exact ih h
  refine HaltsWith.of_readLayer ?_ ha (by simp)
  cases s' with
  | nil =>
    cases h
    exact haltsWith_of_peek rfl
  | cons t s' =>
    by_cases hk : t.kind = .implies
    · simp only [atKind_cons, hk, skip, lift_ok, pure_bind] at h
      refine HaltsWith.cons ?_ (by simp [hk])
      obtain h | ⟨_, -, h⟩ := bind_eq_error_iff.1 h
      · exact ih.behind h
      · cases h
    · simp [hk] at h

/-- A failed rest of a junction stops the reader in the next operand or in the rest behind it. -/
theorem FailsHalted.junctionFrom {left : Expr} {stop : Stop ReadFailure} (ih : FailsHalted n)
    (h : readLayer (n + 1) (.junctionFrom left) s = .error stop) :
    s.HaltsWith (stop.map ReadFailure.cause) := by
  cases s with
  | nil =>
    cases h
    exact haltsWith_of_peek rfl
  | cons t s =>
    simp only [readLayer, peek_cons, lift_ok, pure_bind] at h
    cases hk : t.kind.junctionOp? with
    | none => simp [hk] at h
    | some op =>
      simp only [hk, skip_cons_of_ne (Kind.ne_eof hk rfl), lift_ok, pure_bind] at h
      refine HaltsWith.cons ?_ (Kind.ne_eof hk rfl)
      obtain h | ⟨⟨b, s'⟩, hb, h⟩ := bind_eq_error_iff.1 h
      · exact ih.behind h
      · exact HaltsWith.of_readLayer (ih h) (mapError_eq_ok_iff.1 hb) (by simp)

/-- A failed temporal formula stops the reader in its operand or behind the operator. -/
theorem FailsHalted.temporal {stop : Stop ReadFailure} (ih : FailsHalted n)
    (h : readLayer (n + 1) .temporal s = .error stop) :
    s.HaltsWith (stop.map ReadFailure.cause) := by
  simp only [readLayer] at h
  obtain h | ⟨⟨a, s'⟩, ha, h⟩ := bind_eq_error_iff.1 h
  · exact ih h
  refine HaltsWith.of_readLayer ?_ ha (by simp)
  cases s' with
  | nil =>
    cases h
    exact haltsWith_of_peek rfl
  | cons t s' =>
    simp only [peek_cons, lift_ok, pure_bind] at h
    cases hk : t.kind.temporalOp? with
    | none => simp [hk] at h
    | some op =>
      simp only [hk, skip_cons_of_ne (Kind.ne_eof hk rfl), lift_ok, pure_bind] at h
      refine HaltsWith.cons ?_ (Kind.ne_eof hk rfl)
      obtain h | ⟨_, -, h⟩ := bind_eq_error_iff.1 h
      · exact ih.behind h
      · cases h

/-- A failure in any layer stops the reader where it cannot go on, by induction on the depth
allowed. -/
theorem failsHalted (n : Nat) : FailsHalted n := by
  -- A failure comes from the first part that is read, or from a later one.  The end of the input is
  -- not among the tokens before it, since these belong to parts that have been read.
  induction n with
  | zero =>
    intro layer s stop h
    cases s with
    | nil =>
      cases h
      exact haltsWith_of_peek rfl
    | cons t s =>
      cases h
      exact stopsWith_cons t s _
  | succ n ih =>
    intro layer s stop h
    cases layer with
    | implication => exact ih.implication h
    | junction =>
      simp only [readLayer] at h
      obtain h | ⟨⟨a, s'⟩, ha, h⟩ := bind_eq_error_iff.1 h
      · exact ih h
      · exact HaltsWith.of_readLayer (ih h) ha (by simp)
    | junctionFrom left => exact ih.junctionFrom h
    | temporal => exact ih.temporal h
    | operand => exact ih.operand h

/-! ## Whole formulas -/

/-- What is read as a formula is one, and a token follows that does not go on with it. -/
theorem exists_derives_of_readFormula (h : s.readFormula = .ok (e, rest)) :
    ∃ ts t rest', s = ts ++ t :: rest' ∧ rest = t :: rest' ∧ Derives .implication ts e ∧
      Layer.implication.Stops t.kind := by
  obtain ⟨ts, rfl, hd, t, rest', rfl, hstop⟩ := readsDerived _ h nofun
  exact ⟨ts, t, rest', rfl, rfl, hd, hstop⟩

theorem haltsWith_of_readFormula {stop : Stop ReadFailure} (h : s.readFormula = .error stop) :
    s.HaltsWith (stop.map ReadFailure.cause) :=
  failsHalted _ h

/-- A formula is read as such, wherever what follows does not go on with it. -/
theorem readFormula_of_derives (h : Derives .implication ts e)
    (hstop : Layer.implication.Stops t.kind) :
    readFormula (ts ++ t :: rest) = .ok (e, t :: rest) := by
  refine readLayer_of_derives h hstop ?_
  simp only [depthFor, List.length_append]
  omega

end Stream

end TemporalCheck
