import TemporalCheck.Proofs.Reading.Formula

/-!
# TemporalCheck.Proofs.Reading.Derivation

The grammar of formulas, written out, and the reader as its parser.

```text
implication := junction ( '->' implication )?
junction    := temporal ( ('&' | '|') temporal )*
temporal    := operand ( ('U' | 'R' | 'W') temporal )?
operand     := ('!' | 'X' | 'F' | 'G' | 'AG' | 'EG' | 'AF' | 'EF' | 'AX' | 'EX') operand | atom
atom        := 'A[' operand 'U' temporal ']' | 'E[' operand 'U' temporal ']'
             | '(' implication ')' | variable | 'T' | 'B'
```

A `Derivation` is a derivation in this grammar.  It has the tokens it derives and the formula it
stands for, in which implications and temporal operators group as they are nested, to the right,
and the operands of a junction are taken up one after another, from the left.

* The grammar is unambiguous: tokens have one derivation at most (`Derivation.unique`).
* The reader finds the derivation at the front of a stream, whenever there is one
  (`Stream.readFormula_eq_ok_iff`), and so accepts what can be derived and nothing else
  (`Formula.readAll_accepts_grammar`).
-/

namespace TemporalCheck

/-! ## The grammar -/

/-- The kinds of phrases.  `junctionRest` is what stands behind the first operand of a junction. -/
inductive Category where
  | implication
  | junction
  | junctionRest
  | temporal
  | operand
  | atom

/-- The operators before an operand. -/
def Grammar.unary : List (Kind × UnaryOp) := [
  (.negation, .not), (.next, .next), (.future, .future), (.global, .global),
  (.allGlobally, .allGlobally), (.existsGlobally, .existsGlobally), (.allFinally, .allFinally),
  (.existsFinally, .existsFinally), (.allNext, .allNext), (.existsNext, .existsNext)]

/-- The operators between the operands of a junction. -/
def Grammar.junction : List (Kind × BinaryOp) := [(.and, .and), (.or, .or)]

/-- The operators of linear time between two operands. -/
def Grammar.temporal : List (Kind × BinaryOp) :=
  [(.until, .until), (.release, .release), (.weakUntil, .weakUntil)]

/-- The brackets that open an until over paths. -/
def Grammar.quantified : List (Kind × BinaryOp) :=
  [(.allUntil, .allUntil), (.existsUntil, .existsUntil)]

/-- The formulas with a token of their own. -/
def Grammar.constant : List (Kind × Expr) := [(.top, .top), (.bottom, .bottom)]

/-- Derivations in the grammar of formulas. -/
inductive Derivation : Category → Type
  | junctionOnly (a : Derivation .junction) : Derivation .implication
  | implies (a : Derivation .junction) (t : Token) (ht : t.kind = .implies)
      (b : Derivation .implication) : Derivation .implication
  | junction (a : Derivation .temporal) (rest : Derivation .junctionRest) : Derivation .junction
  | nothing : Derivation .junctionRest
  | another (t : Token) (op : BinaryOp) (ht : (t.kind, op) ∈ Grammar.junction)
      (b : Derivation .temporal) (rest : Derivation .junctionRest) : Derivation .junctionRest
  | operandOnly (a : Derivation .operand) : Derivation .temporal
  | temporal (a : Derivation .operand) (t : Token) (op : BinaryOp)
      (ht : (t.kind, op) ∈ Grammar.temporal) (b : Derivation .temporal) : Derivation .temporal
  | unary (t : Token) (op : UnaryOp) (ht : (t.kind, op) ∈ Grammar.unary)
      (a : Derivation .operand) : Derivation .operand
  | atomOnly (a : Derivation .atom) : Derivation .operand
  | quantified (t : Token) (op : BinaryOp) (ht : (t.kind, op) ∈ Grammar.quantified)
      (a : Derivation .operand) (u : Token) (hu : u.kind = .until) (b : Derivation .temporal)
      (v : Token) (hv : v.kind = .untilEnd) : Derivation .atom
  | parens (t : Token) (ht : t.kind = .parenOpen) (a : Derivation .implication) (u : Token)
      (hu : u.kind = .parenClose) : Derivation .atom
  | name (t : Token) (ht : t.kind = .proposition) : Derivation .atom
  | constant (t : Token) (e : Expr) (ht : (t.kind, e) ∈ Grammar.constant) : Derivation .atom

/-- What a phrase stands for: a formula or, behind the first operand of a junction, what becomes of
that operand. -/
def Category.Value : Category → Type
  | .junctionRest => Expr → Expr
  | _ => Expr

namespace Derivation

variable {k : Category}

/-- The tokens that are derived. -/
@[simp] def tokens : {k : Category} → Derivation k → List Token
  | _, .junctionOnly a | _, .operandOnly a | _, .atomOnly a => a.tokens
  | _, .implies a t _ b | _, .temporal a t _ _ b => a.tokens ++ t :: b.tokens
  | _, .junction a rest => a.tokens ++ rest.tokens
  | _, .nothing => []
  | _, .another t _ _ b rest => t :: (b.tokens ++ rest.tokens)
  | _, .unary t _ _ a => t :: a.tokens
  | _, .quantified t _ _ a u _ b v _ => t :: (a.tokens ++ u :: (b.tokens ++ [v]))
  | _, .parens t _ a u _ => t :: (a.tokens ++ [u])
  | _, .name t _ | _, .constant t _ _ => [t]

/-- What the derived tokens stand for. -/
def value : {k : Category} → Derivation k → k.Value
  | _, .junctionOnly a => a.value
  | _, .implies a _ _ b => Expr.binary .implies a.value b.value
  | _, .junction a rest => rest.value a.value
  | _, .nothing => fun left => left
  | _, .another _ op _ b rest => fun left => rest.value (.binary op left b.value)
  | _, .operandOnly a => a.value
  | _, .temporal a _ op _ b => Expr.binary op a.value b.value
  | _, .unary _ op _ a => Expr.unary op a.value
  | _, .atomOnly a => a.value
  | _, .quantified _ op _ a _ _ b _ _ => Expr.binary op a.value b.value
  | _, .parens _ _ a _ _ => a.value
  | _, .name t _ => Expr.prop t.text
  | _, .constant _ e _ => e

end Derivation

/-- The formula that the tokens of a derivation are. -/
def Derivation.formula (d : Derivation .implication) : Expr := d.value

/-- The operators that go on with a phrase. -/
def Category.operators : Category → List Kind
  | .implication => [.implies, .and, .or, .until, .release, .weakUntil]
  | .junction | .junctionRest => [.and, .or, .until, .release, .weakUntil]
  | .temporal => [.until, .release, .weakUntil]
  | .operand | .atom => []

/-! ## Kinds of token -/

variable {t : Token} {kind : Kind}

theorem mem_unary_iff {op : UnaryOp} : (kind, op) ∈ Grammar.unary ↔ kind.unaryOp? = some op := by
  cases kind <;> simp [Grammar.unary, Kind.unaryOp?, eq_comm]

theorem mem_junction_iff {op : BinaryOp} :
    (kind, op) ∈ Grammar.junction ↔ kind.junctionOp? = some op := by
  cases kind <;> simp [Grammar.junction, Kind.junctionOp?, eq_comm]

theorem mem_temporal_iff {op : BinaryOp} :
    (kind, op) ∈ Grammar.temporal ↔ kind.temporalOp? = some op := by
  cases kind <;> simp [Grammar.temporal, Kind.temporalOp?, eq_comm]

theorem mem_quantified_iff {op : BinaryOp} :
    (kind, op) ∈ Grammar.quantified ↔ kind.quantifiedOp? = some op := by
  cases kind <;> simp [Grammar.quantified, Kind.quantifiedOp?, eq_comm]

/-- A table that is a function has one entry for each kind of token. -/
theorem eq_of_mem_table {α : Type} {table : List (Kind × α)} {value? : Kind → Option α} {a b : α}
    (htable : ∀ {a}, (kind, a) ∈ table ↔ value? kind = some a) (ha : (kind, a) ∈ table)
    (hb : (kind, b) ∈ table) : a = b :=
  Option.some.inj ((htable.1 ha).symm.trans (htable.1 hb))

theorem atom?_of_mem_constant {e : Expr} (ht : (t.kind, e) ∈ Grammar.constant) :
    t.atom? = some e := by
  simp only [Grammar.constant, List.mem_cons, Prod.mk.injEq, List.not_mem_nil, or_false] at ht
  obtain ⟨hkind, rfl⟩ | ⟨hkind, rfl⟩ := ht <;> simp [Token.atom?, hkind]

/-- A formula ends before a token that is none of its operators. -/
theorem stops_implication_iff :
    Layer.implication.Stops kind ↔ kind ∉ Category.implication.operators := by
  cases kind <;> simp [Layer.Stops, Category.operators, Kind.temporalOp?, Kind.junctionOp?]

/-! ## Derivations are unique -/

theorem junction_operators_subset :
    Category.junction.operators ⊆ Category.implication.operators := by
  decide

theorem temporal_operators_subset :
    Category.temporal.operators ⊆ Category.junctionRest.operators := by
  decide

theorem junction_operators_disjoint :
    ∀ p ∈ Grammar.junction, p.1 ∈ Category.junctionRest.operators ∧
      p.1 ∉ Category.temporal.operators := by
  decide

theorem temporal_operators_mem :
    ∀ p ∈ Grammar.temporal, p.1 ∈ Category.temporal.operators := by
  decide

/-- The kinds of token that an atom starts with. -/
def Grammar.atom : List Kind :=
  [.allUntil, .existsUntil, .parenOpen, .proposition, .top, .bottom]

theorem unary_notMem_atom : ∀ p ∈ Grammar.unary, p.1 ∉ Grammar.atom := by
  decide

/-- The first token of an atom tells its form. -/
theorem quantified_disjoint : ∀ p ∈ Grammar.quantified, p.1 ≠ .parenOpen ∧ p.1 ≠ .proposition ∧
    ∀ q ∈ Grammar.constant, p.1 ≠ q.1 := by
  decide

theorem constant_disjoint : ∀ p ∈ Grammar.constant, p.1 ≠ .parenOpen ∧ p.1 ≠ .proposition := by
  decide

theorem quantified_mem_atom : ∀ p ∈ Grammar.quantified, p.1 ∈ Grammar.atom := by
  decide

theorem constant_mem_atom : ∀ p ∈ Grammar.constant, p.1 ∈ Grammar.atom := by
  decide

/-- A stream does not go on with a phrase. -/
def Category.Ends (k : Category) (u : Stream) : Prop := ∀ t ∈ u.head?, t.kind ∉ k.operators

theorem Category.ends_cons {k : Category} {u : Stream} :
    k.Ends (t :: u) ↔ t.kind ∉ k.operators := by
  simp [Ends]

theorem Category.ends_operand (u : Stream) : Category.operand.Ends u :=
  fun _ _ => List.not_mem_nil

theorem Category.Ends.mono {k k' : Category} {u : Stream} (h : k.Ends u)
    (hsub : k'.operators ⊆ k.operators) : k'.Ends u :=
  fun t ht hmem => h t ht (hsub hmem)

namespace Derivation

open Category (ends_cons ends_operand)

variable {k : Category} {u u' : Stream}

/-- A derivation is the only one of its kind at the front of a stream, as long as the stream does
not go on with it. -/
def Unambiguous (d : Derivation k) : Prop :=
  ∀ (d' : Derivation k) (u u' : Stream), d.tokens ++ u = d'.tokens ++ u' →
    k.Ends u → k.Ends u' → d = d' ∧ u = u'

/-- A junction that is no implication can be derived in one way only, since no arrow follows it. -/
theorem Unambiguous.junctionOnly {a : Derivation .junction} (ha : a.Unambiguous) :
    (junctionOnly a).Unambiguous := by
  intro d' u u' h hu hu'
  cases d' with
  | junctionOnly a' =>
    obtain ⟨rfl, rfl⟩ := ha a' u u' h (hu.mono junction_operators_subset)
      (hu'.mono junction_operators_subset)
    exact ⟨rfl, rfl⟩
  | implies a' t ht b' =>
    simp only [tokens, List.append_assoc, List.cons_append] at h
    obtain ⟨-, rfl⟩ := ha a' u _ h (hu.mono junction_operators_subset)
      (by rw [ends_cons, ht]; decide)
    exact absurd (by simp [ht, Category.operators]) (ends_cons.1 hu)

/-- An implication can be derived in one way only if its two sides can. -/
theorem Unambiguous.implies {a : Derivation .junction} {t : Token} {ht : t.kind = .implies}
    {b : Derivation .implication} (ha : a.Unambiguous) (hb : b.Unambiguous) :
    (implies a t ht b).Unambiguous := by
  intro d' u u' h hu hu'
  have hstop : ∀ u, Category.junction.Ends (t :: u) := fun u => by rw [ends_cons, ht]; decide
  cases d' with
  | junctionOnly a' =>
    simp only [tokens, List.append_assoc, List.cons_append] at h
    obtain ⟨-, rfl⟩ := ha a' _ u' h (hstop _) (hu'.mono junction_operators_subset)
    exact absurd (by simp [ht, Category.operators]) (ends_cons.1 hu')
  | implies a' t' ht' b' =>
    simp only [tokens, List.append_assoc, List.cons_append] at h
    obtain ⟨rfl, hcons⟩ := ha a' _ _ h (hstop _) (by rw [ends_cons, ht']; decide)
    obtain ⟨rfl, hright⟩ := List.cons.inj hcons
    obtain ⟨rfl, rfl⟩ := hb b' u u' hright hu hu'
    exact ⟨rfl, rfl⟩

/-- What follows an operand of a junction does not go on with it. -/
theorem ends_rest {rest : Derivation .junctionRest} (hu : Category.junctionRest.Ends u) :
    Category.temporal.Ends (rest.tokens ++ u) := by
  cases rest with
  | nothing => exact hu.mono temporal_operators_subset
  | another t op ht b rest => exact ends_cons.2 (junction_operators_disjoint _ ht).2

/-- A junction can be derived in one way only if its first part and the rest of it can. -/
theorem Unambiguous.junction {a : Derivation .temporal} {rest : Derivation .junctionRest}
    (ha : a.Unambiguous) (hrest : rest.Unambiguous) : (junction a rest).Unambiguous := by
  intro d' u u' h hu hu'
  cases d' with
  | junction a' rest' =>
    simp only [tokens, List.append_assoc] at h
    obtain ⟨rfl, hmore⟩ := ha a' _ _ h (ends_rest hu) (ends_rest hu')
    obtain ⟨rfl, rfl⟩ := hrest rest' u u' hmore hu hu'
    exact ⟨rfl, rfl⟩

/-- Nothing can be derived in one way only. -/
theorem unambiguous_nothing : nothing.Unambiguous := by
  intro d' u u' h hu hu'
  cases d' with
  | nothing => exact ⟨rfl, h⟩
  | another t op ht b rest =>
    rw [tokens, List.nil_append] at h
    subst h
    exact absurd (junction_operators_disjoint _ ht).1 (ends_cons.1 hu)

/-- One more part of a junction: its operator and its operand are determined. -/
theorem Unambiguous.another {t : Token} {op : BinaryOp} {ht : (t.kind, op) ∈ Grammar.junction}
    {b : Derivation .temporal} {rest : Derivation .junctionRest} (hb : b.Unambiguous)
    (hrest : rest.Unambiguous) : (another t op ht b rest).Unambiguous := by
  intro d' u u' h hu hu'
  cases d' with
  | nothing =>
    rw [tokens, tokens, List.nil_append] at h
    subst h
    exact absurd (junction_operators_disjoint _ ht).1 (ends_cons.1 hu')
  | another t' op' ht' b' rest' =>
    simp only [tokens, List.cons_append, List.append_assoc] at h
    obtain ⟨rfl, hright⟩ := List.cons.inj h
    obtain ⟨rfl, hmore⟩ := hb b' _ _ hright (ends_rest hu) (ends_rest hu')
    obtain ⟨rfl, rfl⟩ := hrest rest' u u' hmore hu hu'
    obtain rfl := eq_of_mem_table mem_junction_iff ht ht'
    exact ⟨rfl, rfl⟩

/-- An operand without a temporal operator behind it can be derived in one way only. -/
theorem Unambiguous.operandOnly {a : Derivation .operand} (ha : a.Unambiguous) :
    (operandOnly a).Unambiguous := by
  intro d' u u' h hu hu'
  cases d' with
  | operandOnly a' =>
    obtain ⟨rfl, rfl⟩ := ha a' u u' h (ends_operand _) (ends_operand _)
    exact ⟨rfl, rfl⟩
  | temporal a' t op ht b' =>
    simp only [tokens, List.append_assoc, List.cons_append] at h
    obtain ⟨-, rfl⟩ := ha a' u _ h (ends_operand _) (ends_operand _)
    exact absurd (temporal_operators_mem _ ht) (ends_cons.1 hu)

/-- A temporal operator between: the left operand ends where the operator stands. -/
theorem Unambiguous.temporal {a : Derivation .operand} {t : Token} {op : BinaryOp}
    {ht : (t.kind, op) ∈ Grammar.temporal} {b : Derivation .temporal} (ha : a.Unambiguous)
    (hb : b.Unambiguous) : (temporal a t op ht b).Unambiguous := by
  intro d' u u' h hu hu'
  cases d' with
  | operandOnly a' =>
    simp only [tokens, List.append_assoc, List.cons_append] at h
    obtain ⟨-, rfl⟩ := ha a' _ u' h (ends_operand _) (ends_operand _)
    exact absurd (temporal_operators_mem _ ht) (ends_cons.1 hu')
  | temporal a' t' op' ht' b' =>
    simp only [tokens, List.append_assoc, List.cons_append] at h
    obtain ⟨rfl, hcons⟩ := ha a' _ _ h (ends_operand _) (ends_operand _)
    obtain ⟨rfl, hright⟩ := List.cons.inj hcons
    obtain ⟨rfl, rfl⟩ := hb b' u u' hright hu hu'
    obtain rfl := eq_of_mem_table mem_temporal_iff ht ht'
    exact ⟨rfl, rfl⟩

/-- An atom starts with a token that only atoms start with. -/
theorem exists_tokens_atom (a : Derivation .atom) :
    ∃ t ts, a.tokens = t :: ts ∧ t.kind ∈ Grammar.atom := by
  cases a with
  | quantified t op ht => exact ⟨t, _, rfl, quantified_mem_atom _ ht⟩
  | constant t e ht => exact ⟨t, _, rfl, constant_mem_atom _ ht⟩
  | parens t ht | name t ht => exact ⟨t, _, rfl, by simp [ht, Grammar.atom]⟩

/-- An operator in front is determined by the first token. -/
theorem Unambiguous.unary {t : Token} {op : UnaryOp} {ht : (t.kind, op) ∈ Grammar.unary}
    {a : Derivation .operand} (ha : a.Unambiguous) : (unary t op ht a).Unambiguous := by
  intro d' u u' h hu hu'
  cases d' with
  | unary t' op' ht' a' =>
    simp only [tokens, List.cons_append] at h
    obtain ⟨rfl, harg⟩ := List.cons.inj h
    obtain ⟨rfl, rfl⟩ := ha a' u u' harg hu hu'
    obtain rfl := eq_of_mem_table mem_unary_iff ht ht'
    exact ⟨rfl, rfl⟩
  | atomOnly a' =>
    obtain ⟨t', ts, heq, hmem⟩ := a'.exists_tokens_atom
    simp only [tokens, heq, List.cons_append] at h
    obtain ⟨rfl, -⟩ := List.cons.inj h
    exact absurd hmem (unary_notMem_atom _ ht)

/-- An atom can be derived as an operand in one way only. -/
theorem Unambiguous.atomOnly {a : Derivation .atom} (ha : a.Unambiguous) :
    (atomOnly a).Unambiguous := by
  intro d' u u' h hu hu'
  cases d' with
  | unary t op ht a' =>
    obtain ⟨t', ts, heq, hmem⟩ := a.exists_tokens_atom
    simp only [tokens, heq, List.cons_append] at h
    obtain ⟨rfl, -⟩ := List.cons.inj h
    exact absurd hmem (unary_notMem_atom _ ht)
  | atomOnly a' =>
    obtain ⟨rfl, rfl⟩ := ha a' u u' h hu hu'
    exact ⟨rfl, rfl⟩

/-- A quantified `U` is determined by its first token, and its operands end at the marks. -/
theorem Unambiguous.quantified {t u v : Token} {op : BinaryOp}
    {ht : (t.kind, op) ∈ Grammar.quantified} {a : Derivation .operand} {hu : u.kind = .until}
    {b : Derivation .temporal} {hv : v.kind = .untilEnd} (ha : a.Unambiguous)
    (hb : b.Unambiguous) : (quantified t op ht a u hu b v hv).Unambiguous := by
  intro d' s s' h _ _
  cases d' with
  | quantified t' op' ht' a' u' hu' b' v' hv' =>
    simp only [tokens, List.cons_append, List.append_assoc, List.nil_append] at h
    obtain ⟨rfl, hleft⟩ := List.cons.inj h
    obtain ⟨rfl, hcons⟩ := ha a' _ _ hleft (ends_operand _) (ends_operand _)
    obtain ⟨rfl, hright⟩ := List.cons.inj hcons
    obtain ⟨rfl, hend⟩ := hb b' _ _ hright (by rw [ends_cons, hv]; decide)
      (by rw [ends_cons, hv']; decide)
    obtain ⟨rfl, rfl⟩ := List.cons.inj hend
    obtain rfl := eq_of_mem_table mem_quantified_iff ht ht'
    exact ⟨rfl, rfl⟩
  | parens t' ht' =>
    obtain ⟨rfl, -⟩ := List.cons.inj h
    exact absurd ht' (quantified_disjoint _ ht).1
  | name t' ht' =>
    obtain ⟨rfl, -⟩ := List.cons.inj h
    exact absurd ht' (quantified_disjoint _ ht).2.1
  | constant t' e ht' =>
    obtain ⟨rfl, -⟩ := List.cons.inj h
    exact absurd rfl ((quantified_disjoint _ ht).2.2 _ ht')

/-- Parentheses are determined by the first token, and what they hold ends at the closing one. -/
theorem Unambiguous.parens {t u : Token} {ht : t.kind = .parenOpen} {a : Derivation .implication}
    {hu : u.kind = .parenClose} (ha : a.Unambiguous) : (parens t ht a u hu).Unambiguous := by
  intro d' s s' h _ _
  cases d' with
  | parens t' ht' a' u' hu' =>
    simp only [tokens, List.cons_append, List.append_assoc, List.nil_append] at h
    obtain ⟨rfl, hinner⟩ := List.cons.inj h
    obtain ⟨rfl, hend⟩ := ha a' _ _ hinner (by rw [ends_cons, hu]; decide)
      (by rw [ends_cons, hu']; decide)
    obtain ⟨rfl, rfl⟩ := List.cons.inj hend
    exact ⟨rfl, rfl⟩
  | quantified t' op ht' =>
    obtain ⟨rfl, -⟩ := List.cons.inj h
    exact absurd ht (quantified_disjoint _ ht').1
  | name t' ht' =>
    obtain ⟨rfl, -⟩ := List.cons.inj h
    simp [ht] at ht'
  | constant t' e ht' =>
    obtain ⟨rfl, -⟩ := List.cons.inj h
    exact absurd ht (constant_disjoint _ ht').1

/-- A name can be derived in one way only. -/
theorem unambiguous_name {t : Token} {ht : t.kind = .proposition} : (name t ht).Unambiguous := by
  intro d' s s' h _ _
  cases d' with
  | name t' ht' =>
    obtain ⟨rfl, rfl⟩ := List.cons.inj h
    exact ⟨rfl, rfl⟩
  | quantified t' op ht' =>
    obtain ⟨rfl, -⟩ := List.cons.inj h
    exact absurd ht (quantified_disjoint _ ht').2.1
  | parens t' ht' =>
    obtain ⟨rfl, -⟩ := List.cons.inj h
    simp [ht] at ht'
  | constant t' e ht' =>
    obtain ⟨rfl, -⟩ := List.cons.inj h
    exact absurd ht (constant_disjoint _ ht').2

/-- A constant can be derived in one way only. -/
theorem unambiguous_constant {t : Token} {e : Expr} {ht : (t.kind, e) ∈ Grammar.constant} :
    (constant t e ht).Unambiguous := by
  intro d' s s' h _ _
  cases d' with
  | constant t' e' ht' =>
    obtain ⟨rfl, rfl⟩ := List.cons.inj h
    obtain rfl : e = e' :=
      Option.some.inj ((atom?_of_mem_constant ht).symm.trans (atom?_of_mem_constant ht'))
    exact ⟨rfl, rfl⟩
  | quantified t' op ht' =>
    obtain ⟨rfl, -⟩ := List.cons.inj h
    exact absurd rfl ((quantified_disjoint _ ht').2.2 _ ht)
  | parens t' ht' =>
    obtain ⟨rfl, -⟩ := List.cons.inj h
    exact absurd ht' (constant_disjoint _ ht).1
  | name t' ht' =>
    obtain ⟨rfl, -⟩ := List.cons.inj h
    exact absurd ht' (constant_disjoint _ ht).2

/-- Every derivation is the only one of its tokens, by induction on it. -/
theorem unambiguous (d : Derivation k) : d.Unambiguous := by
  induction d with
  | junctionOnly a ha => exact .junctionOnly ha
  | implies a t ht b ha hb => exact .implies ha hb
  | junction a rest ha hrest => exact .junction ha hrest
  | nothing => exact unambiguous_nothing
  | another t op ht b rest hb hrest => exact .another hb hrest
  | operandOnly a ha => exact .operandOnly ha
  | temporal a t op ht b ha hb => exact .temporal ha hb
  | unary t op ht a ha => exact .unary ha
  | atomOnly a ha => exact .atomOnly ha
  | quantified t op ht a u hu b v hv ha hb => exact .quantified ha hb
  | parens t ht a u hu ha => exact .parens ha
  | name t ht => exact unambiguous_name
  | constant t e ht => exact unambiguous_constant

/-- The grammar is unambiguous. -/
theorem unique {d d' : Derivation k} (h : d.tokens = d'.tokens) : d = d' := by
  have hnil : k.Ends [] := nofun
  exact (d.unambiguous d' [] [] (by rw [h]) hnil hnil).1

end Derivation

/-! ## Derivations and the reader -/

/-- What the reader is known to decide, for each kind of phrase. -/
def Category.IsRead : (k : Category) → List Token → k.Value → Prop
  | .implication, ts, e => Derives .implication ts e
  | .junction, ts, e => Derives .junction ts e
  | .junctionRest, ts, f => ∀ left, Derives (.junctionFrom left) ts (f left)
  | .temporal, ts, e => Derives .temporal ts e
  | .operand, ts, e | .atom, ts, e => Derives .operand ts e

/-- What has a derivation is read as its value. -/
theorem Derivation.isRead {k : Category} (d : Derivation k) : k.IsRead d.tokens d.value := by
  induction d with
  | junctionOnly a ha => exact .junction_only ha
  | implies a t ht b ha hb => exact .implies ha ht hb
  | junction a rest ha hrest => exact .junction ha (hrest _)
  | nothing => exact fun left => .junction_end
  | another t op ht b rest hb hrest =>
    exact fun left => .junction_step (mem_junction_iff.1 ht) hb (hrest _)
  | operandOnly a ha => exact .operand_only ha
  | temporal a t op ht b ha hb => exact .temporal ha (mem_temporal_iff.1 ht) hb
  | unary t op ht a ha => exact .unary (mem_unary_iff.1 ht) ha
  | atomOnly a ha => exact ha
  | quantified t op ht a u hu b v hv ha hb =>
    exact .quantified (mem_quantified_iff.1 ht) ha hu hb hv
  | parens t ht a u hu ha => exact .parens ht ha hu
  | name t ht =>
    have hatom : t.atom? = some (.prop t.text) := by simp [Token.atom?, ht]
    exact .atom hatom
  | constant t e ht => exact .atom (atom?_of_mem_constant ht)

/-- What a layer has derivations for.  The layers of the reader do not tell atoms from operands. -/
def Layer.HasDerivation : Layer → List Token → Expr → Prop
  | .implication, ts, e => ∃ d : Derivation .implication, d.tokens = ts ∧ d.value = e
  | .junction, ts, e => ∃ d : Derivation .junction, d.tokens = ts ∧ d.value = e
  | .junctionFrom left, ts, e =>
    ∃ d : Derivation .junctionRest, d.tokens = ts ∧ d.value left = e
  | .temporal, ts, e => ∃ d : Derivation .temporal, d.tokens = ts ∧ d.value = e
  | .operand, ts, e => ∃ d : Derivation .operand, d.tokens = ts ∧ d.value = e

/-- An atom of one token has a derivation. -/
theorem exists_derivation_atom {e : Expr} (ht : t.atom? = some e) :
    ∃ d : Derivation .atom, d.tokens = [t] ∧ d.value = e := by
  unfold Token.atom? at ht
  split at ht
  · next hkind =>
    cases ht
    exact ⟨.name t hkind, rfl, rfl⟩
  · next hkind =>
    cases ht
    exact ⟨.constant t .top (by simp [hkind, Grammar.constant]), rfl, rfl⟩
  · next hkind =>
    cases ht
    exact ⟨.constant t .bottom (by simp [hkind, Grammar.constant]), rfl, rfl⟩
  · cases ht

/-- What the layers of the grammar derive has a derivation as a tree. -/
theorem Derives.hasDerivation {layer : Layer} {ts : List Token} {e : Expr}
    (h : Derives layer ts e) : layer.HasDerivation ts e := by
  induction h with
  | junction_only _ ih =>
    obtain ⟨d, rfl, rfl⟩ := ih
    exact ⟨.junctionOnly d, rfl, rfl⟩
  | implies _ ht _ iha ihb =>
    obtain ⟨a, rfl, rfl⟩ := iha
    obtain ⟨b, rfl, rfl⟩ := ihb
    exact ⟨.implies a _ ht b, rfl, rfl⟩
  | junction _ _ iha ihe =>
    obtain ⟨a, rfl, rfl⟩ := iha
    obtain ⟨rest, rfl, rfl⟩ := ihe
    exact ⟨.junction a rest, rfl, rfl⟩
  | junction_end => exact ⟨.nothing, rfl, rfl⟩
  | junction_step ht _ _ ihb ihe =>
    obtain ⟨b, rfl, rfl⟩ := ihb
    obtain ⟨rest, rfl, rfl⟩ := ihe
    exact ⟨.another _ _ (mem_junction_iff.2 ht) b rest, rfl, rfl⟩
  | operand_only _ ih =>
    obtain ⟨d, rfl, rfl⟩ := ih
    exact ⟨.operandOnly d, rfl, rfl⟩
  | temporal _ ht _ iha ihb =>
    obtain ⟨a, rfl, rfl⟩ := iha
    obtain ⟨b, rfl, rfl⟩ := ihb
    exact ⟨.temporal a _ _ (mem_temporal_iff.2 ht) b, rfl, rfl⟩
  | unary ht _ ih =>
    obtain ⟨a, rfl, rfl⟩ := ih
    exact ⟨.unary _ _ (mem_unary_iff.2 ht) a, rfl, rfl⟩
  | quantified ht _ hu _ hv iha ihb =>
    obtain ⟨a, rfl, rfl⟩ := iha
    obtain ⟨b, rfl, rfl⟩ := ihb
    exact ⟨.atomOnly (.quantified _ _ (mem_quantified_iff.2 ht) a _ hu b _ hv), rfl, rfl⟩
  | @atom t e ht =>
    obtain ⟨d, htokens, hvalue⟩ := exists_derivation_atom ht
    exact ⟨.atomOnly d, htokens, hvalue⟩
  | parens ht _ hu ih =>
    obtain ⟨d, rfl, rfl⟩ := ih
    exact ⟨.atomOnly (.parens _ ht d _ hu), rfl, rfl⟩

namespace Stream

variable {s rest : Stream} {e : Expr}

/-- The reader finds the derivation at the front of a stream, up to a token that does not go on with
it. -/
theorem readFormula_eq_ok_iff : s.readFormula = .ok (e, rest) ↔
    ∃ (d : Derivation .implication) (t : Token) (us : List Token), s = d.tokens ++ rest ∧
      d.formula = e ∧ rest = t :: us ∧ t.kind ∉ Category.implication.operators := by
  constructor
  · intro h
    obtain ⟨ts, t, us, rfl, rfl, hd, hstop⟩ := exists_derives_of_readFormula h
    obtain ⟨d, rfl, hvalue⟩ := hd.hasDerivation
    exact ⟨d, t, us, rfl, hvalue, rfl, stops_implication_iff.1 hstop⟩
  · rintro ⟨d, t, us, rfl, rfl, rfl, hstop⟩
    exact readFormula_of_derives d.isRead (stops_implication_iff.2 hstop)

end Stream

/-! ## Reading into a context -/

namespace Formula

variable {c : Context} {ts : List Token} {s rest : Stream} {t last : Token} {f : Formula}

/-- What a derivation stands for is read and stored, up to a token that does not go on with it. -/
theorem succeeds_read_derivation (hc : c.forest.Tidy) (d : Derivation .implication)
    (hstop : t.kind ∉ Category.implication.operators) :
    Succeeds (read (d.tokens ++ t :: rest)) c fun p c' =>
      p.2 = t :: rest ∧ Given c d.formula p.1 c' :=
  succeeds_read hc (Stream.readFormula_eq_ok_iff.2 ⟨d, t, rest, rfl, rfl, rfl, hstop⟩)

/-- The tokens of a derivation hold its formula and nothing else. -/
theorem succeeds_readAll (hc : c.forest.Tidy) (hlast : last.kind = .eof)
    (d : Derivation .implication) :
    Succeeds (readAll (d.tokens ++ [last])) c (Given c d.formula) := by
  have hstop : last.kind ∉ Category.implication.operators := by
    rw [hlast]
    decide
  have hend : Stream.expect [last] .eof = .ok (last, [last]) := by
    simp [Stream.expect, Stream.skip, hlast]
  refine .bind ((succeeds_read_derivation hc d hstop).mono fun p c' hp => ?_)
  obtain ⟨f, rest⟩ := p
  obtain ⟨rfl, hf⟩ := hp
  exact .bind (.lift_scan hend (.pure hf))

/-- Tokens that have no derivation are refused. -/
theorem readAll_of_not_derivable (hc : c.forest.Tidy) (hlast : last.kind = .eof)
    (hts : ∀ t ∈ ts, t.kind ≠ .eof) (hnone : ¬ ∃ d : Derivation .implication, d.tokens = ts) :
    ∃ cause c', readAll (ts ++ [last]) c = .ok (.error (.parse cause), c') := by
  cases hs : Stream.readFormula (ts ++ [last]) with
  | error stop =>
    cases stop with
    | refused failure =>
      obtain ⟨forest, -, -, hread⟩ := read_of_error hc hs
      exact ⟨_, _, bind_eq_of_error hread⟩
    | broken fault => exact absurd hlast (Stream.haltsWith_of_readFormula hs last (by simp))
  | ok p =>
    obtain ⟨e, rest⟩ := p
    obtain ⟨⟨f, rest'⟩, c', hread, hrest, -⟩ := succeeds_read hc hs
    obtain rfl : rest' = rest := hrest
    obtain ⟨d, t, us, heq, -, rfl, -⟩ := Stream.readFormula_eq_ok_iff.1 hs
    have hkind := d.isRead.kind_ne_eof
    -- A formula was found, and it does not end where the tokens end.
    have ht : t.kind ≠ .eof := by
      obtain ⟨more, htokens, hmore⟩ | ⟨more, rfl, hmore⟩ := List.append_eq_append_iff.1 heq
      · cases more with
        | nil => exact absurd ⟨d, by simpa using htokens⟩ hnone
        | cons u more =>
          obtain ⟨rfl, -⟩ := List.cons.inj hmore
          exact absurd hlast (hkind last (by simp [htokens]))
      · cases more with
        | nil => exact absurd ⟨d, by simp⟩ hnone
        | cons u more =>
          obtain ⟨rfl, -⟩ := List.cons.inj hmore
          exact hts t (by simp)
    have hend : Stream.expect (t :: us) .eof =
        .error (.refused (.unexpectedToken (.token .eof) t)) := by
      simp [Stream.expect, ht, throw, throwThe, MonadExceptOf.throw]
    refine ⟨.unexpectedToken (.token .eof) t, c', ?_⟩
    unfold readAll
    rw [bind_eq_of_ok hread]
    exact bind_eq_of_error (scan_of_refused hend c')

/-! ## The reader accepts the grammar -/

/-- The parser of formulas accepts exactly the tokens that have a derivation, and then gives the
formula of the only derivation they have.  In a longer stream it takes the tokens of a derivation
from the front, at least one of them, up to a token that is no operator between two operands; and
where a stream starts like that, it does. -/
theorem readAll_accepts_grammar (hc : c.forest.Tidy) :
    (∀ (ts : List Token) (last : Token), last.kind = .eof → (∀ t ∈ ts, t.kind ≠ .eof) →
      ∃ result c', readAll (ts ++ [last]) c = .ok (result, c') ∧
        ((∃ f, result = .ok f) ↔ ∃ d : Derivation .implication, d.tokens = ts) ∧
        ∀ f, result = .ok f → ∃ d : Derivation .implication, d.tokens = ts ∧
          (∀ d' : Derivation .implication, d'.tokens = ts → d' = d) ∧
          c'.forest.tree f.root = .ok d.formula) ∧
    (∀ (s : Stream) (f : Formula) (rest : Stream) (c' : Context),
      read s c = .ok (.ok (f, rest), c') → ∃ d : Derivation .implication,
        s = d.tokens ++ rest ∧ d.tokens ≠ [] ∧ c'.forest.tree f.root = .ok d.formula ∧
        ∃ t us, rest = t :: us ∧
          t.kind ∉ [.implies, .and, .or, .until, .release, .weakUntil]) ∧
    ∀ (d : Derivation .implication) (t : Token) (us : List Token),
      t.kind ∉ [.implies, .and, .or, .until, .release, .weakUntil] →
      ∃ f c', read (d.tokens ++ t :: us) c = .ok (.ok (f, t :: us), c') ∧
        c'.forest.tree f.root = .ok d.formula := by
  refine ⟨fun ts last hlast hts => ?_, fun s f rest c' hread => ?_, fun d t us hstop => ?_⟩
  · by_cases hsome : ∃ d : Derivation .implication, d.tokens = ts
    · obtain ⟨d, rfl⟩ := hsome
      obtain ⟨f, c', hread, hf⟩ := succeeds_readAll hc hlast d
      refine ⟨.ok f, c', hread, ⟨fun _ => ⟨d, rfl⟩, fun _ => ⟨f, rfl⟩⟩, fun f' hf' => ?_⟩
      cases hf'
      exact ⟨d, rfl, fun d' h => Derivation.unique h, Forest.tree_of_denotes hf.stands.denotes⟩
    · obtain ⟨cause, c', hread⟩ := readAll_of_not_derivable hc hlast hts hsome
      exact ⟨.error (.parse cause), c', hread, ⟨nofun, fun h => absurd h hsome⟩, nofun⟩
  · obtain ⟨e, hs, hf⟩ := given_of_read hc hread
    obtain ⟨d, t, us, rfl, rfl, rfl, hstop⟩ := Stream.readFormula_eq_ok_iff.1 hs
    exact ⟨d, rfl, d.isRead.ne_nil nofun, Forest.tree_of_denotes hf.stands.denotes, t, us, rfl,
      hstop⟩
  · obtain ⟨⟨f, rest'⟩, c', hread, hrest, hf⟩ := succeeds_read_derivation hc d hstop
    obtain rfl : rest' = t :: us := hrest
    exact ⟨f, c', hread, Forest.tree_of_denotes hf.stands.denotes⟩

/-- `a & b | c -> a U b U c` -/
theorem readAll_accepts_grammar_chain :
    let word (text : String) : Token := ⟨.proposition, text, {}⟩
    let sign (kind : Kind) : Token := ⟨kind, "", {}⟩
    ∃ f c', readAll [word "a", sign .and, word "b", sign .or, word "c", sign .implies,
        word "a", sign .until, word "b", sign .until, word "c", sign .eof] {} = .ok (.ok f, c') ∧
      c'.forest.tree f.root = .ok (.binary .implies
        (.binary .or (.binary .and (.prop "a") (.prop "b")) (.prop "c"))
        (.binary .until (.prop "a") (.binary .until (.prop "b") (.prop "c")))) := by
  intro word sign
  let name (text : String) : Derivation .operand := .atomOnly (.name (word text) rfl)
  let d : Derivation .implication :=
    .implies
      (.junction (.operandOnly (name "a"))
        (.another (sign .and) .and (by decide) (.operandOnly (name "b"))
          (.another (sign .or) .or (by decide) (.operandOnly (name "c")) .nothing)))
      (sign .implies) rfl
      (.junctionOnly (.junction
        (.temporal (name "a") (sign .until) .until (by decide)
          (.temporal (name "b") (sign .until) .until (by decide) (.operandOnly (name "c"))))
        .nothing))
  obtain ⟨result, c', hread, hiff, htree⟩ :=
    (readAll_accepts_grammar (c := {}) Forest.tidy_empty).1 d.tokens (sign .eof) rfl (by decide)
  obtain ⟨f, rfl⟩ := hiff.2 ⟨d, rfl⟩
  obtain ⟨d', -, hunique, hformula⟩ := htree f rfl
  rw [← hunique d rfl] at hformula
  exact ⟨f, c', hread, hformula⟩

end Formula

end TemporalCheck
