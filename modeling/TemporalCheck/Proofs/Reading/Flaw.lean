import Mathlib.Data.Nat.Digits.Lemmas
import TemporalCheck.Proofs.Reading.Model

/-!
# TemporalCheck.Proofs.Reading.Flaw

Where the reader of a definition stops.  `FirstFlaw` is the first token that no definition goes on
with, or that is a number and cannot be read, behind tokens that a definition can begin with; it is
stated with the grammar alone.  That the reader stops there is shown with the phases of a definition
(`Phase`): the tokens that take a definition from its start to a phase are just those that it can
begin with (`begins_iff`), and the reader stops at the first token that is refused
(`Model.read_cases`).
-/

namespace TemporalCheck

variable {ts us : List Token} {t : Token} {kind : Kind} {r : Record} {rs : List Record}
  {s rest : Stream} {cause : ParseError}

/-! ## Integers -/

namespace Text

/-- The number that some digits write, the most significant digit first. -/
def valueOf (digits : List Char) : Nat := Nat.ofDigits 10 (digits.reverse.map digitValue)

/-- A text writes an integer: a sign or none, and then digits, with a value that fits into a signed
word of 64 bits. -/
def Spells (text : String) (i : Int) : Prop :=
  ∃ sign digits, text.toList = sign ++ digits ∧ digits ≠ [] ∧ (∀ c ∈ digits, isDigit c = true) ∧
    (sign = [] ∧ i = valueOf digits ∨ sign = ['+'] ∧ i = valueOf digits ∨
      sign = ['-'] ∧ i = -valueOf digits) ∧
    Int64.minValue.toInt ≤ i ∧ i ≤ Int64.maxValue.toInt

theorem foldl_digits (cs : List Char) :
    cs.foldl (fun n c => 10 * n + digitValue c) 0 = valueOf cs := by
  simp [valueOf, Nat.ofDigits_eq_foldr, List.foldl_map, Nat.add_comm]

theorem natural?_eq_some_iff {cs : List Char} {n : Nat} :
    natural? cs = some n ↔ cs ≠ [] ∧ (∀ c ∈ cs, isDigit c = true) ∧ n = valueOf cs := by
  simp only [natural?, foldl_digits, List.all_eq_true, Option.ite_none_right_eq_some,
    Option.some.injEq, and_assoc, eq_comm (a := n)]

/-- A text is read as a number if and only if it spells the number: an optional sign, then digits,
and the number fits 64 bits. -/
theorem integer?_eq_some_iff {text : String} {i : Int} :
    integer? text = some i ↔ Spells text i := by
  have hfits : fitsWord i = true ↔ Int64.minValue.toInt ≤ i ∧ i ≤ Int64.maxValue.toInt := by
    simp [fitsWord]
  constructor
  · intro h
    obtain ⟨hvalue, hfit⟩ := Option.filter_eq_some_iff.1 h
    split at hvalue
    all_goals
      simp only [Option.map_eq_some_iff, Option.bind_eq_bind, Option.bind_eq_some_iff,
        Option.pure_def, Option.some.injEq] at hvalue
      obtain ⟨_, ⟨n, hn, rfl⟩, rfl⟩ := hvalue
      obtain ⟨hne, hdigits, rfl⟩ := natural?_eq_some_iff.1 hn
    · next ds htext =>
      exact ⟨['-'], ds, htext, hne, hdigits, .inr (.inr ⟨rfl, rfl⟩), hfits.1 hfit⟩
    · next ds htext =>
      exact ⟨['+'], ds, htext, hne, hdigits, .inr (.inl ⟨rfl, rfl⟩), hfits.1 hfit⟩
    · exact ⟨[], _, rfl, hne, hdigits, .inl ⟨rfl, rfl⟩, hfits.1 hfit⟩
  · rintro ⟨sign, digits, htext, hne, hdigits, hsign, hfit⟩
    have hnat := natural?_eq_some_iff.2 ⟨hne, hdigits, rfl⟩
    unfold integer?
    refine Option.filter_eq_some_iff.2 ⟨?_, hfits.2 hfit⟩
    obtain ⟨rfl, rfl⟩ | ⟨rfl, rfl⟩ | ⟨rfl, rfl⟩ := hsign
    · -- A digit is no sign.
      have hfirst : ∀ c ds, digits = c :: ds → c ≠ '-' ∧ c ≠ '+' := by
        rintro c ds rfl
        have hc := hdigits c (by simp)
        constructor
        all_goals
          rintro rfl
          revert hc
          decide
      rw [List.nil_append] at htext
      split
      · next ds heq => exact absurd rfl (hfirst _ ds (htext ▸ heq)).1
      · next ds heq => exact absurd rfl (hfirst _ ds (htext ▸ heq)).2
      · rw [htext, hnat]
        rfl
    · rw [htext]
      simp [hnat]
    · rw [htext]
      simp [hnat]

end Text

/-! ## Definitions -/

/-- The tokens of a definition: a brace, some records and the brace behind them. -/
inductive DerivesDefinition : List Token → List Record → Prop
  | intro {t : Token} {ts : List Token} {rs : List Record} (ht : t.kind = .modelOpen)
      (hrs : DerivesRecords ts rs) : DerivesDefinition (t :: ts) rs

/-- Tokens that a definition can begin with. -/
def Begins (ts : List Token) : Prop := ∃ us rs, DerivesDefinition (ts ++ us) rs

/-- A definition that begins with some tokens can go on with a token of some kind. -/
def MayFollow (ts : List Token) (kind : Kind) : Prop := ∃ t, t.kind = kind ∧ Begins (ts ++ [t])

/-- What is missing behind some tokens where something else stands: the brace at the start, a
variable where there has to be one, and a number otherwise. -/
inductive Misses : List Token → Kind → Prop
  | opening : Misses [] .modelOpen
  | holding {ts : List Token} (hts : ts ≠ [])
      (h : MayFollow ts .proposition ∧ ¬ MayFollow ts .modelClose) : Misses ts .proposition
  | number {ts : List Token} (hts : ts ≠ [])
      (h : ¬ (MayFollow ts .proposition ∧ ¬ MayFollow ts .modelClose)) : Misses ts .integer

/-- The first place where a stream stops being a definition, and what is wrong there. -/
inductive FirstFlaw : Stream → ParseError → Prop
  | malformed {ts : List Token} {t : Token} {rest : Stream} (hts : Begins ts)
      (ht : t.kind = .integer) (hmay : MayFollow ts .integer) (h : ∀ i, ¬ Text.Spells t.text i) :
      FirstFlaw (ts ++ t :: rest) (.malformedInteger t.text t.span)
  | unexpected {ts : List Token} {t : Token} {rest : Stream} {kind : Kind} (hts : Begins ts)
      (hopen : ∀ rs, ¬ DerivesDefinition ts rs) (h : ¬ MayFollow ts t.kind)
      (hkind : Misses ts kind) :
      FirstFlaw (ts ++ t :: rest) (.unexpectedToken (.token kind) t)

/-! ## Phases -/

/-- How far a definition has got. -/
inductive Phase where
  /-- Nothing has been read. -/
  | opening
  /-- The brace has been read, and no record. -/
  | between
  /-- The mark of a record has been read. -/
  | marked
  /-- The name of a record has been read. -/
  | named
  /-- A successor has been read. -/
  | listed
  /-- A variable has been read, so that the record may be at its end. -/
  | described
  /-- The closing brace has been read. -/
  | closed
deriving DecidableEq

namespace Phase

variable {p q : Phase}

/-- The phase that a token of some kind leads to. -/
def next : Phase → Kind → Option Phase
  | .opening, .modelOpen => some .between
  | .between, .initialMark | .described, .initialMark => some .marked
  | .between, .integer | .described, .integer | .marked, .integer => some .named
  | .between, .modelClose | .described, .modelClose => some .closed
  | .named, .integer | .listed, .integer => some .listed
  | .listed, .proposition | .described, .proposition => some .described
  | _, _ => none

/-- The kinds of token that a definition can go on with. -/
def expects : Phase → List Kind
  | .opening => [.modelOpen]
  | .between => [.initialMark, .integer, .modelClose]
  | .marked | .named => [.integer]
  | .listed => [.integer, .proposition]
  | .described => [.initialMark, .integer, .modelClose, .proposition]
  | .closed => []

theorem next_eq_none (h : kind ∉ p.expects) : p.next kind = none := by
  unfold next
  split <;> simp_all [expects]

/-- The kind of token that is missing where no token can be read. -/
def wants : Phase → Kind
  | .opening => .modelOpen
  | .listed => .proposition
  | _ => .integer

/-- The phase that a token leads to.  Numbers have to be readable. -/
def take (p : Phase) (t : Token) : Option Phase :=
  if t.kind = .integer ∧ Text.integer? t.text = none then none else p.next t.kind

/-- The phase that some tokens lead to. -/
def after (p : Phase) : List Token → Option Phase
  | [] => some p
  | t :: ts => (p.take t).bind fun q => q.after ts

@[simp] theorem after_nil (p : Phase) : p.after [] = some p := rfl

@[simp] theorem after_cons (p : Phase) (t : Token) (ts : List Token) :
    p.after (t :: ts) = (p.take t).bind fun q => q.after ts := rfl

theorem after_append (p : Phase) (ts us : List Token) :
    p.after (ts ++ us) = (p.after ts).bind fun q => q.after us := by
  induction ts generalizing p with
  | nil => simp
  | cons t ts ih => cases h : p.take t <;> simp [h, ih]

/-- A token that is no number is taken by its kind. -/
theorem take_of_ne (h : t.kind ≠ .integer) : p.take t = p.next t.kind := by simp [take, h]

theorem take_of_integer {i : Int} (h : t.integer = .ok i) : p.take t = p.next t.kind := by
  have hsome : Text.integer? t.text ≠ none := by
    intro hnone
    simp [Token.integer, hnone] at h
  simp [take, hsome]

/-- Tokens that do not lead out of a phase. -/
theorem after_of_stays (h : ∀ t ∈ ts, p.take t = some p) : p.after ts = some p := by
  induction ts with
  | nil => rfl
  | cons t ts ih => simp [h t (by simp), ih fun u hu => h u (by simp [hu])]

/-- Tokens of which the first leads into a phase and the others do not lead out of it. -/
theorem after_stretch (hne : ts ≠ []) (hfirst : ∀ t ∈ ts, p.take t = some q)
    (hrest : ∀ t ∈ ts, q.take t = some q) : p.after ts = some q := by
  obtain ⟨t, ts, rfl⟩ := List.exists_cons_of_ne_nil hne
  have hstays : q.after ts = some q := after_of_stays fun u hu => hrest u (by simp [hu])
  simp [hfirst t (by simp), hstays]

/-! ## Definitions lead from phase to phase -/

theorem exists_integer_of_writes {numbers : List (Int × Span)}
    (h : List.Forall₂ Token.Writes ts numbers) : ∀ t ∈ ts, ∃ i, t.integer = .ok i := by
  induction h with
  | nil => simp
  | cons hp _ ih => exact List.forall_mem_cons.2 ⟨⟨_, hp.1⟩, ih⟩

/-- A record can begin, or the definition end. -/
def IsRecordStart (p : Phase) : Prop := p = .between ∨ p = .described

/-- After the successors of a state its variables may follow. -/
theorem after_targets {numbers : List (Int × Span)} (hts : IsStretch .integer ts)
    (hnumbers : List.Forall₂ Token.Writes ts numbers) : named.after ts = some listed := by
  have htake : ∀ t ∈ ts, ∀ p : Phase, p.take t = p.next .integer := by
    intro t ht p
    obtain ⟨i, hi⟩ := exists_integer_of_writes hnumbers t ht
    rw [take_of_integer hi, hts.kind_eq t ht]
  exact after_stretch hts.ne_nil (fun t ht => htake t ht _) fun t ht => htake t ht _

theorem after_holding (hts : IsStretch .proposition ts) : listed.after ts = some described := by
  have htake : ∀ t ∈ ts, ∀ p : Phase, p.take t = p.next .proposition := by
    intro t ht p
    rw [take_of_ne (by simp [hts.kind_eq t ht]), hts.kind_eq t ht]
  exact after_stretch hts.ne_nil (fun t ht => htake t ht _) fun t ht => htake t ht _

theorem next_integer_of_isRecordStart (hp : p.IsRecordStart) : p.next .integer = some named := by
  obtain rfl | rfl := hp <;> rfl

/-- After a record the next one may start. -/
theorem after_record (hp : p.IsRecordStart) (h : DerivesRecord ts r) :
    p.after ts = some described := by
  obtain @⟨mark, targets, holding, t, _, _, hmark, ht, hname, htargets, hnumbers, hholding⟩ := h
  have hnamed : ∀ q : Phase, q.next .integer = some named →
      q.after (t :: (targets ++ holding)) = some described := by
    intro q hq
    rw [after_cons, take_of_integer hname, ht, hq, Option.bind_some, after_append,
      after_targets htargets hnumbers, Option.bind_some, after_holding hholding]
  obtain rfl | ⟨m, rfl, hm⟩ := hmark
  · exact hnamed p (next_integer_of_isRecordStart hp)
  · have hmarked : p.take m = some marked := by
      rw [take_of_ne (by simp [hm]), hm]
      obtain rfl | rfl := hp <;> rfl
    rw [List.singleton_append, after_cons, hmarked, Option.bind_some]
    exact hnamed marked rfl

/-- After the records and the closing brace the definition is over. -/
theorem after_records (hp : p.IsRecordStart) (h : DerivesRecords ts rs) :
    p.after ts = some closed := by
  induction h generalizing p with
  | @close t ht =>
    rw [after_cons, take_of_ne (by simp [ht]), ht]
    obtain rfl | rfl := hp <;> rfl
  | cons hr _ ih => rw [after_append, after_record hp hr, Option.bind_some, ih (.inr rfl)]

theorem after_definition (h : DerivesDefinition ts rs) : opening.after ts = some closed := by
  obtain ⟨ht, hrs⟩ := h
  rw [after_cons, take_of_ne (by simp [ht]), ht]
  exact after_records (.inl rfl) hrs

/-! ## Tokens that are refused -/

/-- Why a token cannot be read in a phase. -/
inductive Refuses (p : Phase) (t : Token) : ParseError → Prop
  | unexpected (h : p.next t.kind = none) : Refuses p t (.unexpectedToken (.token p.wants) t)
  | malformed (ht : t.kind = .integer) (hmay : (p.next .integer).isSome = true)
      (h : Text.integer? t.text = none) : Refuses p t (.malformedInteger t.text t.span)

/-- A token that is refused leads to no other phase. -/
theorem Refuses.take_eq_none (h : p.Refuses t cause) : p.take t = none := by
  cases h with
  | unexpected h =>
    unfold take
    split
    · rfl
    · exact h
  | malformed ht _ h => simp [take, ht, h]

/-- A phase refuses a token for one reason only. -/
theorem Refuses.unique {cause' : ParseError} (h : p.Refuses t cause) (h' : p.Refuses t cause') :
    cause = cause' := by
  cases h with
  | unexpected h =>
    cases h' with
    | unexpected => rfl
    | malformed ht hmay =>
      rw [ht] at h
      simp [h] at hmay
  | malformed ht hmay =>
    cases h' with
    | unexpected h =>
      rw [ht] at h
      simp [h] at hmay
    | malformed => rfl

/-- Reading from a phase on stops before the end, at the first token that is refused. -/
def Halts (p : Phase) (s : Stream) (cause : ParseError) : Prop :=
  ∃ ts t rest q, s = ts ++ t :: rest ∧ p.after ts = some q ∧ q ≠ closed ∧ q.Refuses t cause

/-- How reading from a phase on halts: it is refused where it stops, and it breaks only where there
is no token left that could be refused. -/
def HaltsWith (p : Phase) (s : Stream) : Stop ParseError → Prop
  | .refused cause => p.Halts s cause
  | .broken _ => ∃ q, p.after s = some q

variable {stop : Stop ParseError}

theorem halts_of_refuses (hp : p ≠ closed) (h : p.Refuses t cause) (s : Stream) :
    p.Halts (t :: s) cause :=
  ⟨[], t, s, p, rfl, rfl, hp, h⟩

/-- The end of the input leads nowhere. -/
theorem kind_ne_eof_of_after (h : p.after ts = some q) : ∀ t ∈ ts, t.kind ≠ .eof := by
  induction ts generalizing p with
  | nil => simp
  | cons t ts ih =>
    obtain ⟨p', htake, hrest⟩ := Option.bind_eq_some_iff.1 h
    refine List.forall_mem_cons.2 ⟨fun ht => ?_, ih hrest⟩
    rw [take_of_ne (by simp [ht]), ht] at htake
    cases p <;> cases htake

theorem Halts.append (h : q.Halts s cause) (hts : p.after ts = some q) :
    p.Halts (ts ++ s) cause := by
  obtain ⟨us, t, rest, q', rfl, hus, hclosed, hrefuses⟩ := h
  refine ⟨ts ++ us, t, rest, q', by simp, ?_, hclosed, hrefuses⟩
  rw [after_append, hts, Option.bind_some, hus]

/-- A stream halts as what is left of it does, behind tokens that lead to a later phase. -/
theorem HaltsWith.append (h : q.HaltsWith s stop) (hts : p.after ts = some q) :
    p.HaltsWith (ts ++ s) stop := by
  cases stop with
  | refused cause => exact Halts.append h hts
  | broken fault =>
    obtain ⟨q', hq'⟩ := h
    exact ⟨q', by rw [after_append, hts, Option.bind_some, hq']⟩

/-- There is only one place at which no further token can be read. -/
theorem eq_of_stuck {ts' : List Token} {rest' : Stream} {q' : Phase}
    (hs : ts ++ rest = ts' ++ rest') (h : p.after ts = some q) (h' : p.after ts' = some q')
    (hstuck : ∀ t us, rest = t :: us → q.take t = none)
    (hstuck' : ∀ t us, rest' = t :: us → q'.take t = none) : ts = ts' ∧ rest = rest' := by
  -- The longer list would go on with the token at which the shorter one is stuck.
  have hlonger : ∀ {us : List Token} {q q' : Phase} {rest : Stream}, q.after us = some q' →
      (∀ t vs, us ++ rest = t :: vs → q.take t = none) → us = [] := by
    intro us q q' rest hus htake
    cases us with
    | nil => rfl
    | cons u us => simp [htake u _ rfl] at hus
  obtain ⟨us, rfl, rfl⟩ | ⟨us, rfl, rfl⟩ := List.append_eq_append_iff.1 hs
  · rw [after_append, h, Option.bind_some] at h'
    obtain rfl := hlonger h' hstuck
    simp
  · rw [after_append, h', Option.bind_some] at h
    obtain rfl := hlonger h hstuck'
    simp

theorem take_closed (t : Token) : closed.take t = none := by
  unfold take
  split <;> rfl

theorem Refuses.stuck (h : p.Refuses t cause) :
    ∀ u us, t :: rest = u :: us → p.take u = none := by
  rintro u us ⟨⟩
  exact h.take_eq_none

/-- A definition halts for one reason only. -/
theorem Halts.unique {cause' : ParseError} (h : p.Halts s cause) (h' : p.Halts s cause') :
    cause = cause' := by
  obtain ⟨ts, t, rest, q, rfl, hts, -, hrefuses⟩ := h
  obtain ⟨ts', t', rest', q', hs, hts', -, hrefuses'⟩ := h'
  obtain ⟨rfl, hsame⟩ := eq_of_stuck hs hts hts' hrefuses.stuck hrefuses'.stuck
  cases hsame
  cases hts.symm.trans hts'
  exact hrefuses.unique hrefuses'

/-- What leads to some phase is not stopped. -/
theorem Halts.after_eq_none (h : p.Halts s cause) : p.after s = none := by
  obtain ⟨ts, t, rest, q, rfl, hts, -, hrefuses⟩ := h
  rw [after_append, hts, Option.bind_some, after_cons, hrefuses.take_eq_none, Option.bind_none]

/-- What leads to the end of a definition is not stopped before it. -/
theorem Halts.not_closed (h : p.Halts (ts ++ rest) cause) : p.after ts ≠ some closed := by
  intro hclosed
  obtain ⟨ts', t', rest', q, hs, hts', hq, hrefuses⟩ := h
  obtain ⟨rfl, -⟩ := eq_of_stuck hs hclosed hts' (fun t _ _ => take_closed t) hrefuses.stuck
  cases hclosed.symm.trans hts'
  exact hq rfl

end Phase

/-! ## Where the reader stops -/

theorem Token.integer_eq_ok_iff {i : Int} : t.integer = .ok i ↔ Text.Spells t.text i := by
  rw [← Text.integer?_eq_some_iff]
  unfold Token.integer
  cases Text.integer? t.text <;> simp

theorem Token.integer_eq_error_iff : t.integer = .error cause ↔
    Text.integer? t.text = none ∧ cause = .malformedInteger t.text t.span := by
  unfold Token.integer
  cases Text.integer? t.text <;> simp [eq_comm]

namespace Stream

open Phase

variable {p : Phase} {stop : Stop ParseError}

/-- A run that cannot be read does not start, or stops at the first token that cannot be read; or
there is no token behind it. -/
theorem readRun_of_error {α : Type} {read : Token → Except ParseError α}
    (h : s.readRun kind read = .error stop) :
    (∃ run fault, (∀ t ∈ s, t.kind = kind) ∧ List.Forall₂ (fun t x => read t = .ok x) s run ∧
      stop = .broken fault) ∨
    (∃ t s', s = t :: s' ∧ t.kind ≠ kind ∧ stop = .refused (.unexpectedToken (.token kind) t)) ∨
    ∃ before bad behind run cause, s = before ++ bad :: behind ∧
      (∀ t ∈ before ++ [bad], t.kind = kind) ∧
      List.Forall₂ (fun t x => read t = .ok x) before run ∧ read bad = .error cause ∧
      stop = .refused cause := by
  induction s with
  | nil =>
    cases h
    exact .inl ⟨[], _, by simp, .nil, rfl⟩
  | cons t s ih =>
    rw [readRun] at h
    split at h
    case isFalse hne =>
      cases h
      exact .inr (.inl ⟨t, s, rfl, hne, rfl⟩)
    case isTrue ht =>
      obtain h | ⟨x, hx, h⟩ := bind_eq_error_iff.1 h
      · obtain ⟨cause, hcause, rfl⟩ := raise_eq_error_iff.1 h
        exact .inr (.inr ⟨[], t, s, [], cause, rfl, by simpa using ht, .nil, hcause, rfl⟩)
      cases s with
      | nil =>
        cases h
        exact .inl ⟨[x], _, by simpa using ht, .cons (raise_eq_ok_iff.1 hx) .nil, rfl⟩
      | cons u s =>
        by_cases hu : u.kind = kind
        · simp only [atKind_cons, hu, decide_true, lift_ok, pure_bind, if_true] at h
          obtain h | ⟨_, -, h⟩ := bind_eq_error_iff.1 h
          · obtain ⟨run, fault, hkinds, hread, rfl⟩ | ⟨v, vs, heq, hne, -⟩ |
              ⟨before, bad, behind, run, cause, hs, hkinds, hread, hbad⟩ := ih h
            · exact .inl ⟨x :: run, fault, List.forall_mem_cons.2 ⟨ht, hkinds⟩,
                .cons (raise_eq_ok_iff.1 hx) hread, rfl⟩
            · cases heq
              exact absurd hu hne
            · refine .inr (.inr ⟨t :: before, bad, behind, x :: run, cause, ?_, ?_,
                .cons (raise_eq_ok_iff.1 hx) hread, hbad⟩)
              · rw [hs, List.cons_append]
              · exact List.forall_mem_cons.2 ⟨ht, hkinds⟩
          · cases h
        · simp [hu] at h

/-- A record can be read from a token on, unless that token is wrong. -/
structure AtRecord (p : Phase) (t : Token) : Prop where
  isRecordStart : p.IsRecordStart
  not_proposition : p = described → t.kind ≠ .proposition

theorem AtRecord.next_eq_none (h : AtRecord p t) (hint : t.kind ≠ .integer)
    (hmark : t.kind ≠ .initialMark) (hclose : t.kind ≠ .modelClose) : p.next t.kind = none := by
  obtain ⟨rfl | rfl, hprop⟩ := h
  · exact Phase.next_eq_none (by simp [expects, hint, hmark, hclose])
  · exact Phase.next_eq_none (by simp [expects, hint, hmark, hclose, hprop rfl])

/-- What is in front of the name of a record leads to a phase that goes on with a number only. -/
theorem AtRecord.exists_mark (h : AtRecord p t) (hclose : t.kind ≠ .modelClose) (s : Stream) :
    ∃ mark q s' isInitial, readMark (t :: s) = .ok (isInitial, s') ∧ t :: s = mark ++ s' ∧
      p.after mark = some q ∧ q ≠ closed ∧ q.wants = .integer ∧ q.next .integer = some named ∧
      ∀ u us, s' = u :: us → u.kind ≠ .integer → q.next u.kind = none := by
  by_cases hmark : t.kind = .initialMark
  · have htake : p.take t = some marked := by
      rw [take_of_ne (by simp [hmark]), hmark]
      obtain rfl | rfl := h.isRecordStart <;> rfl
    exact ⟨[t], marked, s, true, by simp [readMark, skip, hmark, bind_eq_ok_iff], rfl,
      by simp [htake], nofun, rfl, rfl,
      fun u us _ hint => Phase.next_eq_none (by simp [expects, hint])⟩
  · refine ⟨[], p, t :: s, false, by simp [readMark, hmark, bind_eq_ok_iff], rfl, rfl, ?_, ?_,
      next_integer_of_isRecordStart h.isRecordStart, ?_⟩
    · obtain rfl | rfl := h.isRecordStart <;> simp
    · obtain rfl | rfl := h.isRecordStart <;> rfl
    · rintro u us ⟨⟩ hint
      exact h.next_eq_none hint hmark hclose

/-- Successors that cannot all be read stop at the first that cannot. -/
theorem halts_targets {before behind : List Token} {bad : Token} {numbers : List (Int × Span)}
    (hkinds : ∀ t ∈ before ++ [bad], t.kind = .integer)
    (hnumbers : List.Forall₂ Token.Writes before numbers) (hbad : Text.integer? bad.text = none) :
    named.Halts (before ++ bad :: behind) (.malformedInteger bad.text bad.span) := by
  obtain ⟨hbefore, hkind⟩ := List.forall_mem_append.1 hkinds
  cases before with
  | nil => exact halts_of_refuses (by simp) (.malformed (hkind bad (by simp)) rfl hbad) behind
  | cons u us =>
    have hlisted : named.after (u :: us) = some listed :=
      after_targets ⟨by simp, hbefore⟩ hnumbers
    have hhalts : listed.Halts (bad :: behind) (.malformedInteger bad.text bad.span) :=
      halts_of_refuses (by simp) (.malformed (hkind bad (by simp)) rfl hbad) behind
    exact hhalts.append hlisted

/-- A record that cannot be read stops at the first token that is refused. -/
theorem AtRecord.halts_readRecord (h : AtRecord p t) (hclose : t.kind ≠ .modelClose)
    (herror : readRecord (t :: s) = .error stop) : p.HaltsWith (t :: s) stop := by
  obtain ⟨mark, q, s', isInitial, hread, hs, hmark, hclosed, hwants, hinteger, hnone⟩ :=
    h.exists_mark hclose s
  have hint : Kind.integer ≠ .eof := nofun
  rw [readRecord, bind_of_eq_ok (lift_eq_ok_iff.2 hread)] at herror
  rw [hs]
  refine Phase.HaltsWith.append ?_ hmark
  obtain herror₁ | ⟨⟨t, s₁⟩, hexpect, herror₁⟩ := bind_eq_error_iff.1 herror
  · obtain ⟨rfl, fault, rfl⟩ | ⟨u, us, rfl, hne, rfl⟩ := expect_of_error herror₁
    · exact ⟨q, rfl⟩
    · rw [← hwants]
      exact halts_of_refuses hclosed (.unexpected (hnone u us rfl hne)) us
  obtain ⟨ht, hs'⟩ := (expect_eq_ok_iff hint).1 hexpect
  rw [hs']
  obtain herror₂ | ⟨name, hname, herror₂⟩ := bind_eq_error_iff.1 herror₁
  · obtain ⟨cause, hcause, rfl⟩ := raise_eq_error_iff.1 herror₂
    obtain ⟨hbad, rfl⟩ := Token.integer_eq_error_iff.1 hcause
    exact halts_of_refuses hclosed (.malformed ht (by simp [hinteger]) hbad) s₁
  have hnamed : q.after [t] = some named := by
    simp [take_of_integer (raise_eq_ok_iff.1 hname), ht, hinteger]
  rw [← List.singleton_append]
  refine Phase.HaltsWith.append ?_ hnamed
  obtain herror₃ | ⟨⟨numbers, s₂⟩, hrun, herror₃⟩ := bind_eq_error_iff.1 herror₂
  · obtain ⟨numbers, fault, hkinds, hnumbers, rfl⟩ | ⟨u, us, rfl, hne, rfl⟩ |
      ⟨before, bad, behind, numbers, cause, rfl, hkinds, hnumbers, hbad, rfl⟩ :=
      readRun_of_error herror₃
    · simp only [bind_eq_ok_iff, writes_iff] at hnumbers
      cases s₁ with
      | nil => exact ⟨named, rfl⟩
      | cons u us => exact ⟨listed, after_targets ⟨by simp, hkinds⟩ hnumbers⟩
    · exact halts_of_refuses (by simp)
        (.unexpected (Phase.next_eq_none (by simp [expects, hne]))) us
    · simp only [bind_eq_ok_iff, writes_iff] at hnumbers
      obtain hbad | ⟨_, -, hbad⟩ := bind_eq_error_iff.1 hbad
      · obtain ⟨hnone, rfl⟩ := Token.integer_eq_error_iff.1 hbad
        exact halts_targets hkinds hnumbers hnone
      · cases hbad
  obtain ⟨targets, u, us, htargets, hnumbers, hs₁, hs₂, hu⟩ := readRun_eq_ok_iff.1 hrun
  simp only [bind_eq_ok_iff, writes_iff] at hnumbers
  rw [hs₁]
  refine Phase.HaltsWith.append ?_ (after_targets htargets hnumbers)
  obtain herror₄ | ⟨⟨holding, s₃⟩, -, herror₄⟩ := bind_eq_error_iff.1 herror₃
  · obtain ⟨texts, fault, hkinds, -, rfl⟩ | ⟨v, vs, hs₂', hne, rfl⟩ |
      ⟨_, _, _, _, _, _, _, _, hbad, _⟩ := readRun_of_error herror₄
    · exact ⟨described, after_holding ⟨by simp [hs₂], hkinds⟩⟩
    · cases hs₂.symm.trans hs₂'
      have hnone : listed.next u.kind = none := Phase.next_eq_none (by simp [expects, hne, hu])
      rw [hs₂]
      exact halts_of_refuses (by simp) (.unexpected hnone) us
    · cases hbad
  · cases herror₄

/-- Records that cannot be read stop at the first token that is refused. -/
theorem halts_readRecords (h : ∀ t s', s = t :: s' → AtRecord p t)
    {stop : Stop (ParseError × List Record)} (herror : s.readRecords = .error stop) :
    p.HaltsWith s (stop.map Prod.fst) := by
  induction hn : s.length using Nat.strong_induction_on generalizing s p stop with
  | _ n ih =>
    subst hn
    cases s with
    | nil =>
      rw [readRecords] at herror
      cases herror
      exact ⟨p, rfl⟩
    | cons t s =>
      have hat := h t s rfl
      by_cases ht : t.kind = .modelClose
      · cases (readRecords_close ht s).symm.trans herror
      · cases hread : readRecord (t :: s) with
        | error inner =>
          cases (readRecords_flaw ht hread).symm.trans herror
          have hhalts := hat.halts_readRecord ht hread
          cases inner <;> exact hhalts
        | ok q =>
          obtain ⟨r, rest⟩ := q
          rw [readRecords_record ht hread] at herror
          obtain herror | ⟨_, -, herror⟩ := bind_eq_error_iff.1 herror
          · obtain ⟨inner, hinner, rfl⟩ := mapError_eq_error_iff.1 herror
            obtain ⟨ts, u, us, hs, hr, rfl, hu⟩ := readRecord_eq_ok_iff.1 hread
            have hrest : ∀ v vs, u :: us = v :: vs → AtRecord described v := by
              rintro v vs ⟨⟩
              exact ⟨.inr rfl, fun _ => hu⟩
            have hhalts := ih _ (length_readRecord_lt hread) hrest hinner rfl
            rw [hs]
            refine Phase.HaltsWith.append ?_ (after_record hat.isRecordStart hr)
            cases inner <;> exact hhalts
          · cases herror

end Stream

namespace Model

/-- A stream starts with a definition, or the reader stops at the first token that is refused; or
the stream ends before the definition does. -/
theorem read_cases (vars : Vars) (s : Stream) :
    (∃ ts rest rs, s = ts ++ rest ∧ DerivesDefinition ts rs) ∨
    (∃ cause vars', read vars s = .ok (.error (.parse cause), vars') ∧
      Phase.opening.Halts s cause) ∨
    ∃ fault q, read vars s = .error fault ∧ Phase.opening.after s = some q := by
  have hopen : Kind.modelOpen ≠ .eof := nofun
  cases hexpect : s.expect .modelOpen with
  | error stop =>
    refine .inr ?_
    obtain ⟨rfl, fault, rfl⟩ | ⟨t, s, rfl, hne, rfl⟩ := Stream.expect_of_error hexpect
    · refine .inr ⟨fault, .opening, ?_, rfl⟩
      rw [read, hexpect]
    · have hnone : Phase.opening.next t.kind = none :=
        Phase.next_eq_none (by simp [Phase.expects, hne])
      refine .inl ⟨_, vars, ?_, Phase.halts_of_refuses (by simp) (.unexpected hnone) s⟩
      rw [read, hexpect]
      rfl
  | ok p =>
    obtain ⟨t, s⟩ := p
    obtain ⟨ht, rfl⟩ := (Stream.expect_eq_ok_iff hopen).1 hexpect
    cases hrecords : s.readRecords with
    | ok q =>
      obtain ⟨rs, rest⟩ := q
      obtain ⟨ts, rfl, hrs⟩ := Stream.readRecords_eq_ok_iff.1 hrecords
      exact .inl ⟨t :: ts, rest, rs, rfl, .intro ht hrs⟩
    | error stop =>
      refine .inr ?_
      have hfirst : Phase.opening.after [t] = some .between := by
        simp [Phase.take_of_ne (p := .opening) (t := t) (by simp [ht]), ht, Phase.next]
      have hhalts := (Stream.halts_readRecords (p := .between)
        (fun _ _ _ => ⟨.inl rfl, nofun⟩) hrecords).append hfirst
      cases stop with
      | broken fault =>
        obtain ⟨q, hq⟩ := hhalts
        refine .inr ⟨fault, q, ?_, hq⟩
        rw [read, hexpect]
        dsimp only
        rw [hrecords]
      | refused reason =>
        obtain ⟨cause, rs⟩ := reason
        refine .inl ⟨cause, vars.internAll (rs.flatMap Record.holding), ?_, hhalts⟩
        rw [read, hexpect]
        dsimp only
        rw [hrecords]

end Model

/-! ## What a definition can begin with -/

namespace Phase

variable {p : Phase}

/-- There is a token of every kind that can be read wherever its kind can. -/
theorem take_zero (p : Phase) (kind : Kind) : p.take ⟨kind, "0", {}⟩ = p.next kind := by
  have hzero : Text.integer? "0" = some 0 := rfl
  simp [take, hzero]

/-- Every phase leads to the end of a definition. -/
theorem exists_after_closed (p : Phase) : ∃ us, p.after us = some closed := by
  have hrun : ∀ (kinds : List Kind) (q : Phase),
      q.after (kinds.map fun kind => ⟨kind, "0", {}⟩) = kinds.foldlM next q := by
    intro kinds
    induction kinds with
    | nil => exact fun q => rfl
    | cons kind kinds ih => simp [take_zero, ih]
  cases p with
  | opening => exact ⟨_, hrun [.modelOpen, .modelClose] _⟩
  | between | described => exact ⟨_, hrun [.modelClose] _⟩
  | marked => exact ⟨_, hrun [.integer, .integer, .proposition, .modelClose] _⟩
  | named => exact ⟨_, hrun [.integer, .proposition, .modelClose] _⟩
  | listed => exact ⟨_, hrun [.proposition, .modelClose] _⟩
  | closed => exact ⟨[], rfl⟩

/-- The tokens that lead from the start to the end are those of definitions. -/
theorem exists_definition_iff :
    (∃ rs, DerivesDefinition ts rs) ↔ opening.after ts = some closed := by
  constructor
  · rintro ⟨rs, h⟩
    exact after_definition h
  · intro hclosed
    obtain ⟨us, rest, rs, hs, h⟩ | ⟨cause, -, -, hhalts⟩ | ⟨-, q, -, hq⟩ :=
      Model.read_cases {} (ts ++ [.finish {}])
    · -- Nothing can follow a definition.
      obtain ⟨rfl, -⟩ := eq_of_stuck hs hclosed (after_definition h) (fun t _ _ => take_closed t)
        fun t _ _ => take_closed t
      exact ⟨rs, h⟩
    · exact absurd hclosed hhalts.not_closed
    · exact absurd rfl (kind_ne_eof_of_after hq (.finish {}) (by simp))

end Phase

/-- Some tokens begin a definition if and only if the phases can take them all. -/
theorem begins_iff : Begins ts ↔ ∃ p, Phase.opening.after ts = some p := by
  unfold Begins
  simp only [Phase.exists_definition_iff, Phase.after_append, Option.bind_eq_some_iff]
  constructor
  · rintro ⟨us, p, hp, -⟩
    exact ⟨p, hp⟩
  · rintro ⟨p, hp⟩
    obtain ⟨us, hus⟩ := p.exists_after_closed
    exact ⟨us, p, hp, hus⟩

/-- A kind may follow some tokens if and only if the phase that they lead to goes on with it. -/
theorem mayFollow_iff : MayFollow ts kind ↔
    ∃ p, Phase.opening.after ts = some p ∧ (p.next kind).isSome = true := by
  simp only [MayFollow, begins_iff, Phase.after_append, Option.bind_eq_some_iff]
  constructor
  · rintro ⟨t, rfl, q, p, hp, hq⟩
    refine ⟨p, hp, ?_⟩
    cases htake : p.take t with
    | none => simp [htake] at hq
    | some q' =>
      unfold Phase.take at htake
      split at htake
      · cases htake
      · rw [htake]
        rfl
  · rintro ⟨p, hp, hnext⟩
    obtain ⟨q, hq⟩ := Option.isSome_iff_exists.1 hnext
    exact ⟨⟨kind, "0", {}⟩, rfl, q, p, hp, by simp [Phase.take_zero, hq]⟩

/-- No token leads back to the start. -/
theorem Phase.eq_nil_of_after (h : opening.after ts = some opening) : ts = [] := by
  have hnext : ∀ (p : Phase) (kind : Kind), p.next kind ≠ some opening := by
    intro p kind
    cases p <;> cases kind <;> nofun
  obtain rfl | ⟨us, t, rfl⟩ := List.eq_nil_or_concat' ts
  · rfl
  · rw [after_append, Option.bind_eq_some_iff] at h
    obtain ⟨p, -, htake⟩ := h
    obtain ⟨q, hq, hlast⟩ := Option.bind_eq_some_iff.1 htake
    cases hlast
    unfold take at hq
    split at hq
    · cases hq
    · exact absurd hq (hnext p t.kind)

/-- What is missing behind some tokens is what the phase that they lead to wants. -/
theorem misses_iff {p : Phase} (hts : Phase.opening.after ts = some p) (hp : p ≠ .closed) :
    Misses ts kind ↔ kind = p.wants := by
  have hmay : ∀ k, MayFollow ts k ↔ (p.next k).isSome = true := by
    intro k
    simp [mayFollow_iff, hts]
  constructor
  · intro h
    cases h with
    | opening =>
      cases hts
      rfl
    | holding _ h =>
      rw [hmay, hmay] at h
      cases p <;> simp [Phase.next] at h
      rfl
    | number hne h =>
      rw [hmay, hmay] at h
      cases p with
      | opening => exact absurd (Phase.eq_nil_of_after hts) hne
      | listed => simp [Phase.next] at h
      | _ => rfl
  · rintro rfl
    have hne : p ≠ .opening → ts ≠ [] := by
      rintro hp rfl
      exact hp (Option.some.inj hts).symm
    cases p with
    | opening =>
      rw [Phase.eq_nil_of_after hts]
      exact .opening
    | listed => exact .holding (hne nofun) (by simp [hmay, Phase.next])
    | closed => exact absurd rfl hp
    | _ => exact .number (hne nofun) (by simp [hmay, Phase.next])

theorem Text.integer?_eq_none_iff {text : String} :
    integer? text = none ↔ ∀ i, ¬ Spells text i := by
  simp only [Option.eq_none_iff_forall_ne_some, ne_eq, integer?_eq_some_iff]

/-- The first flaw is where reading stops. -/
theorem firstFlaw_iff : FirstFlaw s cause ↔ Phase.opening.Halts s cause := by
  constructor
  · intro h
    cases h with
    | @malformed ts t rest _ ht hmay hbad =>
      obtain ⟨p, hp, hnext⟩ := mayFollow_iff.1 hmay
      refine ⟨ts, t, rest, p, rfl, hp, ?_, .malformed ht hnext (Text.integer?_eq_none_iff.2 hbad)⟩
      rintro rfl
      cases hnext
    | @unexpected ts t rest kind hts hopen h hkind =>
      obtain ⟨p, hp⟩ := begins_iff.1 hts
      have hclosed : p ≠ .closed := by
        rintro rfl
        obtain ⟨rs, hrs⟩ := Phase.exists_definition_iff.2 hp
        exact hopen rs hrs
      rw [(misses_iff hp hclosed).1 hkind]
      refine ⟨ts, t, rest, p, rfl, hp, hclosed, .unexpected ?_⟩
      simpa [mayFollow_iff, hp] using h
  · rintro ⟨ts, t, rest, p, rfl, hp, hclosed, hrefuses⟩
    have hts : Begins ts := begins_iff.2 ⟨p, hp⟩
    cases hrefuses with
    | unexpected h =>
      refine .unexpected hts (fun rs hrs => hclosed ?_) ?_ ((misses_iff hp hclosed).2 rfl)
      · cases hp.symm.trans (Phase.after_definition hrs)
        rfl
      · simp [mayFollow_iff, hp, h]
    | malformed hkind hmay h =>
      exact .malformed hts hkind (mayFollow_iff.2 ⟨p, hp, hmay⟩) (Text.integer?_eq_none_iff.1 h)

theorem FirstFlaw.unique {cause' : ParseError} (h : FirstFlaw s cause) (h' : FirstFlaw s cause') :
    cause = cause' :=
  (firstFlaw_iff.1 h).unique (firstFlaw_iff.1 h')

/-- Behind a definition nothing is looked at. -/
theorem FirstFlaw.not_derives (h : FirstFlaw (ts ++ rest) cause) : ¬ DerivesDefinition ts rs :=
  fun hdef => (firstFlaw_iff.1 h).not_closed (Phase.after_definition hdef)

end TemporalCheck
