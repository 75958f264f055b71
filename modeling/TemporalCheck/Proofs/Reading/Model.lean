import TemporalCheck.Proofs.Branching.Path
import TemporalCheck.Proofs.Reading.Grammar
import TemporalCheck.Proofs.Reading.Records

/-!
# TemporalCheck.Proofs.Reading.Model

The grammar of model definitions, and what a definition that was read says.

* The reader accepts just the records of the grammar (`Stream.readRecords_eq_ok_iff`), and those
  make a model if their names are all different and their successors all declared
  (`Model.read_eq_ok_iff`).
* In a model that was read every state has a declared successor (`Model.isTotal_of_read`), and only
  variables of the table hold in it (`Model.isOver_of_read`), so that what the model describes stays
  the same when more variables are numbered (`Model.IsOver.holds_eq`).
* What is read depends on the texts of the tokens alone (`Model.read_of_unplaced`).
-/

namespace TemporalCheck

variable {ts us : List Token} {t u : Token}

/-! ## Records -/

/-- Tokens of one kind, at least one. -/
structure IsStretch (kind : Kind) (ts : List Token) : Prop where
  ne_nil : ts ≠ []
  kind_eq : ∀ t ∈ ts, t.kind = kind

/-- A token writes an integer that stands where the token does. -/
def Token.Writes (t : Token) (p : Int × Span) : Prop := t.integer = .ok p.1 ∧ t.span = p.2

theorem writes_iff {p : Int × Span} :
    (∃ i, t.integer = .ok i ∧ (pure (i, t.span) : Except ParseError _) = .ok p) ↔ t.Writes p := by
  simp [Token.Writes, Prod.ext_iff]

/-- The tokens of one record: a mark or none, the name, the successors and the variables. -/
inductive DerivesRecord : List Token → Record → Prop
  | intro {mark targets holding : List Token} {t : Token} {name : Int} {numbers : List (Int × Span)}
      (hmark : mark = [] ∨ ∃ m, mark = [m] ∧ m.kind = .initialMark) (ht : t.kind = .integer)
      (hname : t.integer = .ok name) (htargets : IsStretch .integer targets)
      (hnumbers : List.Forall₂ Token.Writes targets numbers)
      (hholding : IsStretch .proposition holding) :
      DerivesRecord (mark ++ t :: (targets ++ holding))
        ⟨name, t.span, !mark.isEmpty, numbers, (holding.map Token.text).filter (· ≠ "_")⟩

/-- The tokens of some records and the brace behind them. -/
inductive DerivesRecords : List Token → List Record → Prop
  | close {t : Token} (ht : t.kind = .modelClose) : DerivesRecords [t] []
  | cons {ts us : List Token} {r : Record} {rs : List Record} (hr : DerivesRecord ts r)
      (hrs : DerivesRecords us rs) : DerivesRecords (ts ++ us) (r :: rs)

/-- A record has a successor. -/
theorem DerivesRecord.targets_ne_nil {r : Record} (h : DerivesRecord ts r) : r.targets ≠ [] := by
  obtain ⟨-, -, -, htargets, hnumbers, -⟩ := h
  intro hnil
  dsimp only at hnil
  subst hnil
  cases hnumbers
  exact htargets.ne_nil rfl

theorem DerivesRecords.targets_ne_nil {rs : List Record} (h : DerivesRecords ts rs) :
    ∀ r ∈ rs, r.targets ≠ [] := by
  induction h with
  | close => simp
  | cons hr _ ih => exact List.forall_mem_cons.2 ⟨hr.targets_ne_nil, ih⟩

/-- There is no end mark in a record. -/
theorem DerivesRecord.kind_ne_eof {r : Record} (h : DerivesRecord ts r) :
    ∀ t ∈ ts, t.kind ≠ .eof := by
  obtain ⟨hmark, ht, -, htargets, -, hholding⟩ := h
  simp only [List.forall_mem_append, List.forall_mem_cons]
  refine ⟨?_, by simp [ht], fun u hu => ?_, fun u hu => ?_⟩
  · obtain rfl | ⟨m, rfl, hm⟩ := hmark <;> simp_all
  · simp [htargets.kind_eq u hu]
  · simp [hholding.kind_eq u hu]

theorem DerivesRecords.kind_ne_eof {rs : List Record} (h : DerivesRecords ts rs) :
    ∀ t ∈ ts, t.kind ≠ .eof := by
  induction h with
  | close ht => simp [ht]
  | cons hr _ ih => exact List.forall_mem_append.2 ⟨hr.kind_ne_eof, ih⟩

/-- What can stand at the start of a record or behind the last. -/
theorem DerivesRecords.exists_cons {rs : List Record} (h : DerivesRecords ts rs) :
    ∃ t us, ts = t :: us ∧ t.kind ≠ .eof ∧ t.kind ≠ .proposition ∧
      (t.kind = .modelClose ↔ rs = []) := by
  cases h with
  | close ht => exact ⟨_, [], rfl, by simp [ht], by simp [ht], by simp [ht]⟩
  | cons hr hrs =>
    obtain ⟨hmark, ht, -, -, -, -⟩ := hr
    obtain rfl | ⟨m, rfl, hm⟩ := hmark
    · exact ⟨_, _, rfl, by simp [ht], by simp [ht], by simp [ht]⟩
    · exact ⟨_, _, rfl, by simp [hm], by simp [hm], by simp [hm]⟩

namespace Stream

variable {s rest : Stream}

/-! ## The reader accepts the grammar -/

/-- A run is read up to a token of another kind. -/
theorem readRun_eq_ok_iff {α : Type} {kind : Kind} {read : Token → Except ParseError α}
    {run : List α} :
    s.readRun kind read = .ok (run, rest) ↔
      ∃ ts t rest', IsStretch kind ts ∧ List.Forall₂ (fun u x => read u = .ok x) ts run ∧
        s = ts ++ rest ∧ rest = t :: rest' ∧ t.kind ≠ kind := by
  induction s generalizing run with
  | nil =>
    simp only [readRun, reduceCtorEq, throw, throwThe, MonadExceptOf.throw, false_iff]
    rintro ⟨ts, t, rest', hts, -, heq, -⟩
    exact hts.ne_nil (List.append_eq_nil_iff.1 heq.symm).1
  | cons u s ih =>
    constructor
    · intro h
      rw [readRun] at h
      split at h
      case isFalse => cases h
      case isTrue hu =>
        simp only [bind_eq_ok_iff, raise_eq_ok_iff, lift_eq_ok_iff] at h
        obtain ⟨x, hx, going, hgoing, h⟩ := h
        cases s with
        | nil => cases hgoing
        | cons v s =>
          rw [atKind_cons, Except.ok.injEq] at hgoing
          split at h
          · simp only [bind_eq_ok_iff, Prod.exists] at h
            obtain ⟨more, s', hmore, h⟩ := h
            cases h
            obtain ⟨ts, t, rest', hts, hread, hs, hrest, ht⟩ := ih.1 hmore
            exact ⟨u :: ts, t, rest', ⟨by simp, List.forall_mem_cons.2 ⟨hu, hts.kind_eq⟩⟩,
              .cons hx hread, by rw [List.cons_append, hs], hrest, ht⟩
          · next hnot =>
            cases h
            exact ⟨[u], v, s, ⟨by simp, by simpa using hu⟩, .cons hx .nil, rfl, rfl, by
              simpa [← hgoing] using hnot⟩
    · rintro ⟨ts, t, rest', hts, hread, hs, rfl, ht⟩
      obtain ⟨u', ts, rfl⟩ := List.exists_cons_of_ne_nil hts.ne_nil
      obtain ⟨rfl, rfl⟩ := List.cons.inj hs
      have hkinds := List.forall_mem_cons.1 hts.kind_eq
      rw [readRun, if_pos hkinds.1]
      cases hread with
      | cons hx hmore =>
        rw [hx]
        cases ts with
        | nil =>
          cases hmore
          simp [ht]
        | cons v ts =>
          have hrun := ih.2 ⟨v :: ts, t, rest', ⟨by simp, hkinds.2⟩, hmore, rfl, rfl, ht⟩
          simpa [hkinds.2 v (by simp), map_eq_ok_iff] using hrun

/-- A mark in front of a name, or none. -/
theorem readMark_eq_ok_iff {isInitial : Bool} (ht : t.kind = .integer) :
    s.readMark = .ok (isInitial, t :: rest) ↔
      ∃ mark, (mark = [] ∨ ∃ m, mark = [m] ∧ m.kind = .initialMark) ∧ s = mark ++ t :: rest ∧
        isInitial = !mark.isEmpty := by
  constructor
  · intro h
    cases s with
    | nil => cases h
    | cons u s =>
      by_cases hu : u.kind = .initialMark
      · simp [readMark, skip, hu, bind_eq_ok_iff] at h
        obtain ⟨rfl, rfl⟩ := h
        exact ⟨[u], .inr ⟨u, rfl, hu⟩, rfl, rfl⟩
      · simp [readMark, hu, bind_eq_ok_iff] at h
        obtain ⟨rfl, rfl, rfl⟩ := h
        exact ⟨[], .inl rfl, rfl, rfl⟩
  · rintro ⟨mark, rfl | ⟨m, rfl, hm⟩, rfl, rfl⟩
    · simp [readMark, ht, bind_eq_ok_iff]
    · simp [readMark, skip, hm, bind_eq_ok_iff]

/-- A record is read if and only if the tokens derive it and no variable follows. -/
theorem readRecord_eq_ok_iff {r : Record} :
    s.readRecord = .ok (r, rest) ↔
      ∃ ts t rest', s = ts ++ rest ∧ DerivesRecord ts r ∧ rest = t :: rest' ∧
        t.kind ≠ .proposition := by
  have hint : Kind.integer ≠ .eof := nofun
  simp only [readRecord, bind_eq_ok_iff, Prod.exists, lift_eq_ok_iff, raise_eq_ok_iff,
    expect_eq_ok_iff hint, readRun_eq_ok_iff, writes_iff]
  constructor
  · rintro ⟨initial, s₁, hread, t, s₂, ⟨ht, rfl⟩, name, hname, numbers, s₃,
      ⟨targets, _, _, htargets, hnumbers, rfl, -, -⟩, texts, s₄,
      ⟨holding, u, rest', hholding, htexts, rfl, rfl, hu⟩, hr⟩
    obtain ⟨mark, hmark, rfl, rfl⟩ := (readMark_eq_ok_iff ht).1 hread
    cases hr
    obtain rfl : texts = holding.map Token.text := by
      clear * - htexts
      induction htexts with
      | nil => rfl
      | cons h _ ih =>
        cases h
        rw [ih, List.map_cons]
    exact ⟨_, u, rest', by simp, .intro hmark ht hname htargets hnumbers hholding, rfl, hu⟩
  · rintro ⟨ts, u, rest', rfl, h, rfl, hu⟩
    obtain @⟨mark, targets, holding, t, name, numbers, hmark, ht, hname, htargets, hnumbers,
      hholding⟩ := h
    -- The successors end where the variables begin.
    obtain ⟨v, vs, rfl⟩ := List.exists_cons_of_ne_nil hholding.ne_nil
    have hs : mark ++ t :: (targets ++ v :: vs) ++ u :: rest' =
        mark ++ t :: (targets ++ (v :: vs ++ u :: rest')) := by simp
    refine ⟨_, _, (readMark_eq_ok_iff ht).2 ⟨mark, hmark, hs, rfl⟩, t, _, ⟨ht, rfl⟩, name, hname,
      numbers, v :: vs ++ u :: rest',
      ⟨targets, v, _, htargets, hnumbers, rfl, rfl, by simp [hholding.kind_eq v]⟩,
      (v :: vs).map Token.text, u :: rest', ⟨v :: vs, u, rest', hholding, ?_, rfl, rfl, hu⟩, rfl⟩
    exact List.forall₂_map_right_iff.2 (List.forall₂_same.2 fun _ _ => rfl)

/-! One step of reading records: the closing brace, or one more record. -/

/-- A closing brace ends the records. -/
theorem readRecords_close (ht : t.kind = .modelClose) (s : Stream) :
    readRecords (t :: s) = .ok ([], s) := by
  rw [readRecords]
  simp only [atKind_cons, ht, decide_true, lift_ok, pure_bind, if_true, skip_cons_of_ne, ne_eq,
    reduceCtorEq, not_false_eq_true]
  rfl

/-- The records are the first one and the rest; where the rest is refused, the first one counts as
read. -/
theorem readRecords_record {r : Record} (ht : t.kind ≠ .modelClose)
    (h : readRecord (t :: s) = .ok (r, rest)) : readRecords (t :: s) = (do
      let (rs, rest) ← (readRecords rest).mapError (.map fun (cause, rs) => (cause, r :: rs))
      return (r :: rs, rest)) := by
  rw [readRecords]
  simp only [atKind_cons, ht, decide_false, lift_ok, pure_bind, Bool.false_eq_true, if_false]
  split
  · next heq =>
    rw [h] at heq
    cases heq
  · next heq =>
    rw [h] at heq
    cases heq
    rfl

/-- A record that is refused ends the records, with none of them read behind it. -/
theorem readRecords_flaw {stop : Stop ParseError} (ht : t.kind ≠ .modelClose)
    (h : readRecord (t :: s) = .error stop) :
    readRecords (t :: s) = .error (stop.map fun cause => (cause, [])) := by
  rw [readRecords]
  simp only [atKind_cons, ht, decide_false, lift_ok, pure_bind, Bool.false_eq_true, if_false]
  split
  · next heq =>
    rw [h] at heq
    cases heq
    rfl
  · next heq =>
    rw [h] at heq
    cases heq

/-- Records that are derived are read. -/
theorem readRecords_of_derives {rs : List Record} (h : DerivesRecords ts rs) (rest : Stream) :
    readRecords (ts ++ rest) = .ok (rs, rest) := by
  induction h with
  | close ht => exact readRecords_close ht rest
  | @cons ts us r rs hr hrs ih =>
    obtain ⟨t, us', rfl, -, hprop, -⟩ := hrs.exists_cons
    have hread : readRecord (ts ++ (t :: us' ++ rest)) = .ok (r, t :: us' ++ rest) :=
      readRecord_eq_ok_iff.2 ⟨ts, t, us' ++ rest, rfl, hr, rfl, hprop⟩
    obtain ⟨t', ts', heq, -, -, hclose⟩ := (DerivesRecords.cons hr hrs).exists_cons
    rw [← List.append_assoc, heq, List.cons_append] at hread
    rw [heq, List.cons_append, readRecords_record (by simp [hclose]) hread, ih]
    rfl

/-- The reader accepts just the records of the grammar. -/
theorem readRecords_eq_ok_iff {rs : List Record} :
    s.readRecords = .ok (rs, rest) ↔ ∃ ts, s = ts ++ rest ∧ DerivesRecords ts rs := by
  constructor
  · intro h
    induction hn : s.length using Nat.strong_induction_on generalizing s rs with
    | _ n ih =>
      subst hn
      cases s with
      | nil =>
        rw [readRecords] at h
        cases h
      | cons t s =>
        by_cases ht : t.kind = .modelClose
        · cases (readRecords_close ht s).symm.trans h
          exact ⟨[t], rfl, .close ht⟩
        · cases hread : readRecord (t :: s) with
          | error stop => cases (readRecords_flaw ht hread).symm.trans h
          | ok p =>
            obtain ⟨r, s'⟩ := p
            rw [readRecords_record ht hread] at h
            simp only [bind_eq_ok_iff, mapError_eq_ok_iff, Prod.exists] at h
            obtain ⟨rs', rest', hrest, h⟩ := h
            cases h
            obtain ⟨us, rfl, hrs⟩ := ih s'.length (length_readRecord_lt hread) hrest rfl
            obtain ⟨ts, -, -, hs, hr, -⟩ := readRecord_eq_ok_iff.1 hread
            exact ⟨ts ++ us, by rw [hs, List.append_assoc], .cons hr hrs⟩
  · rintro ⟨ts, rfl, h⟩
    exact readRecords_of_derives h rest

end Stream

/-! ## Places do not matter -/

/-- A record without its places. -/
def Record.unplaced (r : Record) : Record :=
  { r with span := {}, targets := r.targets.map fun p => (p.1, {}) }

theorem map_text_of_unplaced (h : us.map Token.unplaced = ts.map Token.unplaced) :
    us.map Token.text = ts.map Token.text := by
  have htexts := congrArg (List.map Token.text) h
  simpa [Function.comp_def, Token.unplaced] using htexts

/-- The kinds of tokens do not depend on their places. -/
theorem IsStretch.of_unplaced {kind : Kind} (h : IsStretch kind ts)
    (hus : us.map Token.unplaced = ts.map Token.unplaced) : IsStretch kind us := by
  refine ⟨fun hnil => h.ne_nil ?_, fun u hu => ?_⟩
  · rwa [hnil, List.map_nil, eq_comm, List.map_eq_nil_iff] at hus
  · have hmem : u.unplaced ∈ ts.map Token.unplaced := hus ▸ List.mem_map_of_mem hu
    obtain ⟨t, ht, heq⟩ := List.mem_map.1 hmem
    rw [← Token.kind_eq_of_unplaced heq]
    exact h.kind_eq t ht

/-- The number that a token spells does not depend on its place. -/
theorem Token.integer_of_unplaced {i : Int} (ht : t.integer = .ok i) (h : u.unplaced = t.unplaced) :
    u.integer = .ok i := by
  unfold Token.integer at ht ⊢
  rw [Token.text_eq_of_unplaced h]
  split at ht
  · exact ht
  · cases ht

/-- The numbers that tokens spell do not depend on their places. -/
theorem exists_writes_of_unplaced {numbers : List (Int × Span)}
    (h : List.Forall₂ Token.Writes ts numbers)
    (hus : us.map Token.unplaced = ts.map Token.unplaced) :
    ∃ numbers', List.Forall₂ Token.Writes us numbers' ∧
      numbers'.map Prod.fst = numbers.map Prod.fst := by
  induction h generalizing us with
  | nil => exact ⟨[], by simpa using hus, rfl⟩
  | @cons t p _ _ hp _ ih =>
    obtain ⟨u, us, rfl, hu, hus⟩ := List.map_eq_cons_iff.1 hus
    obtain ⟨numbers', hwrites, hfst⟩ := ih hus
    exact ⟨(p.1, u.span) :: numbers', .cons ⟨Token.integer_of_unplaced hp.1 hu, rfl⟩ hwrites,
      by simp [hfst]⟩

/-- Tokens in other places derive the same record, up to places. -/
theorem DerivesRecord.of_unplaced {r : Record} (h : DerivesRecord ts r)
    (hus : us.map Token.unplaced = ts.map Token.unplaced) :
    ∃ r', DerivesRecord us r' ∧ r'.unplaced = r.unplaced := by
  obtain @⟨mark, _, _, _, _, _, hmark, ht, hname, htargets, hnumbers, hholding⟩ := h
  obtain ⟨mark', t', rest, rfl, hmark', ht', hrest⟩ := exists_of_map_unplaced hus
  rw [List.map_append] at hrest
  obtain ⟨targets', holding', rfl, htargets', hholding'⟩ := List.map_eq_append_iff.1 hrest
  obtain ⟨numbers', hnumbers', hfst⟩ := exists_writes_of_unplaced hnumbers htargets'
  have hmark'' : mark' = [] ∨ ∃ m, mark' = [m] ∧ m.kind = .initialMark := by
    obtain rfl | ⟨m, rfl, hm⟩ := hmark
    · exact .inl (by simpa using hmark')
    · obtain ⟨m', _, rfl, hm', hnil⟩ := List.map_eq_cons_iff.1 hmark'
      rw [List.map_nil, List.map_eq_nil_iff] at hnil
      exact .inr ⟨m', by rw [hnil], Token.kind_eq_of_unplaced hm' ▸ hm⟩
  refine ⟨_, .intro hmark'' (Token.kind_eq_of_unplaced ht' ▸ ht)
    (Token.integer_of_unplaced hname ht') (htargets.of_unplaced htargets') hnumbers'
    (hholding.of_unplaced hholding'), ?_⟩
  have hempty : mark'.isEmpty = mark.isEmpty := by simpa using congrArg List.isEmpty hmark'
  have hsuccessors := congrArg (List.map fun i => (i, ({} : Span))) hfst
  simp only [List.map_map, Function.comp_def] at hsuccessors
  simp only [Record.unplaced, hempty, hsuccessors, map_text_of_unplaced hholding']

/-- Tokens in other places derive the same records, up to places. -/
theorem DerivesRecords.of_unplaced {rs : List Record} (h : DerivesRecords ts rs)
    (hus : us.map Token.unplaced = ts.map Token.unplaced) :
    ∃ rs', DerivesRecords us rs' ∧ rs'.map Record.unplaced = rs.map Record.unplaced := by
  induction h generalizing us with
  | close ht =>
    obtain ⟨u, rest, rfl, hu, hrest⟩ := List.map_eq_cons_iff.1 hus
    rw [List.map_nil, List.map_eq_nil_iff] at hrest
    subst hrest
    exact ⟨[], .close (Token.kind_eq_of_unplaced hu ▸ ht), rfl⟩
  | cons hr _ ih =>
    rw [List.map_append] at hus
    obtain ⟨ts', us', rfl, hts, hus⟩ := List.map_eq_append_iff.1 hus
    obtain ⟨r', hr', heq⟩ := hr.of_unplaced hts
    obtain ⟨rs', hrs', heqs⟩ := ih hus
    exact ⟨r' :: rs', .cons hr' hrs', by simp [heq, heqs]⟩

namespace Model

variable {m : Model} {vars vars' : Vars} {rs : List Record} {s rest : Stream}

/-- The model that is made of records does not depend on their places. -/
theorem ofRecords_unplaced :
    ofRecords vars (rs.map Record.unplaced) = .ok m ↔ ofRecords vars rs = .ok m := by
  have hnames : (rs.map Record.unplaced).map Record.name = rs.map Record.name := by
    simp [Record.unplaced, Function.comp_def]
  have hdescribed : ∀ h h', described vars (rs.map Record.unplaced) h = described vars rs h' := by
    intro h h'
    refine eq_of_fields ?_ ?_ ?_ rfl
    all_goals
      simp [described, Record.unplaced, Function.comp_def, List.filter_map, List.flatMap_map,
        stateOf]
  have htargets : ∀ r : Record, r.unplaced.targets = r.targets.map fun p => (p.1, {}) :=
    fun _ => rfl
  simp only [ofRecords_eq_ok_iff, hnames, htargets, List.forall_mem_map]
  constructor
  · rintro ⟨h, hdeclared, rfl⟩
    exact ⟨h, hdeclared, hdescribed _ _⟩
  · rintro ⟨h, hdeclared, rfl⟩
    exact ⟨h, hdeclared, (hdescribed _ _).symm⟩

/-! ## Definitions -/

/-- What a definition is that can be read. -/
theorem read_eq_ok_iff : read vars s = .ok (.ok (m, rest), vars') ↔
    ∃ t ts rs, t.kind = .modelOpen ∧ s = t :: (ts ++ rest) ∧ DerivesRecords ts rs ∧
      vars' = vars.internAll (rs.flatMap Record.holding) ∧ ofRecords vars' rs = .ok m := by
  have hopen : Kind.modelOpen ≠ .eof := nofun
  constructor
  · intro h
    unfold read at h
    split at h
    · cases h
    · cases h
    · next t s' hexpect =>
      obtain ⟨ht, rfl⟩ := (Stream.expect_eq_ok_iff hopen).1 hexpect
      split at h
      · cases h
      · cases h
      · next rs rest' hread =>
        obtain ⟨ts, rfl, hrs⟩ := Stream.readRecords_eq_ok_iff.1 hread
        dsimp only at h
        split at h
        · cases h
        · cases h
        · next hm =>
          cases h
          exact ⟨t, ts, rs, ht, rfl, hrs, rfl, hm⟩
  · rintro ⟨t, ts, rs, ht, rfl, hrs, rfl, hm⟩
    unfold read
    rw [(Stream.expect_eq_ok_iff hopen).2 ⟨ht, rfl⟩]
    dsimp only
    rw [Stream.readRecords_of_derives hrs]
    dsimp only
    rw [hm]

/-- A definition is refused for what it says. -/
theorem ne_output_of_read {error : Error} (h : read vars s = .ok (.error error, vars')) :
    error ≠ .output := by
  unfold read at h
  split at h
  · cases h
  · cases h
    nofun
  · split at h
    · cases h
    · cases h
      nofun
    · dsimp only at h
      split at h
      · cases h
      · cases h
        nofun
      · cases h

/-- In a model that was read every state has a declared successor. -/
theorem isTotal_of_read (h : read vars s = .ok (.ok (m, rest), vars')) : m.IsTotal := by
  obtain ⟨t, ts, rs, -, -, hrs, -, hm⟩ := read_eq_ok_iff.1 h
  obtain ⟨-, hdeclared, rfl⟩ := ofRecords_eq_ok_iff.1 hm
  intro p hp
  obtain ⟨r, hr, rfl⟩ := List.mem_map.1 hp
  obtain ⟨target, htarget⟩ := List.exists_mem_of_ne_nil _ (hrs.targets_ne_nil r hr)
  refine ⟨target.1, List.mem_map_of_mem htarget, index?_isSome_iff.2 ?_⟩
  simpa [described] using hdeclared r hr target htarget

/-- Only variables of a table hold in a model. -/
def IsOver (m : Model) (vars : Vars) : Prop :=
  ∀ p ∈ m.states, ∀ v ∈ p.2.valuation, vars.Numbers v

/-- A model is about variables that have been numbered. -/
theorem isOver_of_read (h : read vars s = .ok (.ok (m, rest), vars')) : m.IsOver vars' := by
  obtain ⟨-, -, rs, -, -, -, -, hm⟩ := read_eq_ok_iff.1 h
  obtain ⟨-, -, rfl⟩ := ofRecords_eq_ok_iff.1 hm
  intro p hp v hv
  obtain ⟨r, -, rfl⟩ := List.mem_map.1 hp
  obtain ⟨name, -, hname⟩ := List.mem_filterMap.1 (NatSet.mem_ofList.1 hv)
  exact ⟨name, hname⟩

theorem IsOver.mono (h : m.IsOver vars) (hvars : vars.Extends vars') : m.IsOver vars' :=
  fun p hp v hv => hvars.numbers (h p hp v hv)

/-- What holds in the states of a model stays the same when more variables are numbered. -/
theorem IsOver.holds_eq (h : m.IsOver vars) (hvars : vars.Extends vars') :
    (m.toStructure vars').Holds = (m.toStructure vars).Holds := by
  unfold toStructure
  funext s name
  refine propext (exists_congr fun st => exists_congr fun v => and_congr_right fun hst =>
    and_congr_left fun hv => ⟨fun hname => ?_, hvars.index?⟩)
  obtain ⟨p, hp, rfl⟩ := Option.map_eq_some_iff.1 hst
  obtain ⟨other, hother⟩ := h p (List.mem_of_getElem? hp) v hv
  rwa [Vars.index?_inj hname (hvars.index? hother)]

theorem IsOver.word_eq (h : m.IsOver vars) (hvars : vars.Extends vars') (π : Nat → Nat) :
    (m.toStructure vars').word π = (m.toStructure vars).word π := by
  have hholds := h.holds_eq hvars
  funext i
  exact congrFun hholds (π i)

/-- Numbering more variables does not change where formulas hold in a model that is not about
them. -/
theorem IsOver.holdsIn_iff (h : m.IsOver vars) (hvars : vars.Extends vars') (e : Expr) (s : Nat) :
    e.HoldsIn (m.toStructure vars') s ↔ e.HoldsIn (m.toStructure vars) s := by
  -- The two structures have the same states and transitions.
  have hsame : ∀ holds, (m.toStructure vars').Holds = holds →
      (e.HoldsIn (m.toStructure vars') s ↔
        e.HoldsIn ⟨Nat, (m.toStructure vars).Step, holds⟩ s) := by
    rintro _ rfl
    exact Iff.rfl
  exact hsame _ (h.holds_eq hvars)

/-- What is read does not depend on the places of tokens nor on what follows. -/
theorem read_of_unplaced {rest' : Stream} (h : read vars (ts ++ rest) = .ok (.ok (m, rest), vars'))
    (hus : us.map Token.unplaced = ts.map Token.unplaced) :
    read vars (us ++ rest') = .ok (.ok (m, rest'), vars') := by
  obtain ⟨t, ts', rs, ht, hts, hrs, hvars, hm⟩ := read_eq_ok_iff.1 h
  rw [← List.cons_append, List.append_cancel_right_eq] at hts
  subst hts
  obtain ⟨u, us', rfl, hu, hus'⟩ := List.map_eq_cons_iff.1 hus
  obtain ⟨rs', hrs', hsame⟩ := hrs.of_unplaced hus'
  have hholding : rs'.flatMap Record.holding = rs.flatMap Record.holding := by
    have hflat := congrArg (List.flatMap Record.holding) hsame
    simpa [List.flatMap_map, Record.unplaced] using hflat
  refine read_eq_ok_iff.2 ⟨u, us', rs', Token.kind_eq_of_unplaced hu ▸ ht, rfl, hrs', ?_, ?_⟩
  · rw [hholding, hvars]
  · rwa [← ofRecords_unplaced, hsame, ofRecords_unplaced]

end Model

end TemporalCheck
