import Mathlib.Data.List.Basic
import Mathlib.Data.List.TakeWhile
import TemporalCheck.Proofs.Reading.Grammar
import TemporalCheck.Token.Lexer

/-!
# TemporalCheck.Proofs.Reading.Lexing

How a text is cut into tokens, without regard to places.  `Lexes cs ts` says that the characters
`cs` are cut into the tokens `ts`, and the lexer finds them (`Lexes.exists_tokenize`).  What it
finds are tokens that can be told from their texts (`Token.IsLexed.unplaced_eq`) and an `eof` behind
them (`isInput_of_tokenize`).

The lexer cuts the text of a token out of the whole text.  The bytes that it has counted are those
before the characters that are left (`Position.StandsBefore`), so each cut is where it should be
and the lexer meets no fault (`exists_of_tokenize_error`).

The relation is built from the back: a token may be put before a text that has been cut already,
as long as the text does not go on with the token.  A symbol never goes on.  A word goes on with
word characters, and the words `A` and `E` with an opening bracket, so a word has to be followed by
something that `Breaks` it.  The end of a line ends every token and every comment, so that texts on
lines of their own are cut one after another (`tokenize_append_line`).
-/

namespace TemporalCheck

namespace Text

/-! ## Classes of characters -/

theorem le_of_mem_alphabeticRanges : ∀ r ∈ alphabeticRanges, 0x41 ≤ r.1 := by
  decide +kernel

theorem contains_blankRange : ∀ r ∈ blankRanges, ∀ k ≤ r.2 - r.1,
    alphabeticRanges.contains (r.1 + k) = false ∧ numericRanges.contains (r.1 + k) = false := by
  decide +kernel

/-- A blank is no part of a word. -/
theorem isWordPart_of_isBlank {c : Char} (h : isBlank c = true) : isWordPart c = false := by
  obtain ⟨r, hr, hlo, hhi⟩ := Ranges.exists_of_contains h
  obtain ⟨k, hk⟩ := Nat.exists_eq_add_of_le hlo
  obtain ⟨halpha, hnum⟩ := contains_blankRange r hr k (by omega)
  have hc : c ≠ '_' := by
    rintro rfl
    exact absurd h (by decide)
  simp [isWordPart, isWordStart, isAlphabetic, isNumeric, Ranges.mem, hc, hk, halpha, hnum]

/-- What starts a word is not blank. -/
theorem isBlank_of_isWordStart {c : Char} (h : isWordStart c = true) : isBlank c = false := by
  rw [Bool.eq_false_iff]
  intro hblank
  have hpart := isWordPart_of_isBlank hblank
  rw [isWordPart_of_isWordStart h] at hpart
  cases hpart

theorem toNat_of_isDigit {c : Char} (h : isDigit c = true) : 48 ≤ c.toNat ∧ c.toNat ≤ 57 := by
  simp only [isDigit, Bool.and_eq_true, decide_eq_true_eq, Char.le_def,
    UInt32.le_iff_toNat_le] at h
  exact h

/-- An ASCII digit starts no word. -/
theorem isDigit_of_isWordStart {c : Char} (h : isWordStart c = true) : isDigit c = false := by
  rw [Bool.eq_false_iff]
  intro hdigit
  simp only [isWordStart, Bool.or_eq_true, decide_eq_true_eq] at h
  obtain rfl | h := h
  · exact absurd hdigit (by decide)
  · obtain ⟨r, hr, hlo, -⟩ := Ranges.exists_of_contains h
    have hle := le_of_mem_alphabeticRanges r hr
    have hdigit := toNat_of_isDigit hdigit
    omega

theorem lt_of_mem_blankRanges : ∀ r ∈ blankRanges, r.2 < 48 ∨ 57 < r.1 := by
  decide

/-- A digit is not blank. -/
theorem isBlank_of_isDigit {c : Char} (h : isDigit c = true) : isBlank c = false := by
  rw [Bool.eq_false_iff]
  intro hblank
  obtain ⟨r, hr, hlo, hhi⟩ := Ranges.exists_of_contains hblank
  have hr := lt_of_mem_blankRanges r hr
  have h := toNat_of_isDigit h
  omega

end Text

open Text

variable {c : Char} {cs more : List Char} {k : Kind} {l : Lexeme} {t : Token} {ts : List Token}

/-! ## Single lexemes -/

theorem punctuation_starts_no_run : ∀ p ∈ punctuation,
    isWordStart p.1 = false ∧ isDigit p.1 = false := by
  decide

theorem mem_of_lookup_eq_some {α β : Type} [BEq α] [LawfulBEq α] {table : List (α × β)} {a : α}
    {b : β} (h : table.lookup a = some b) : (a, b) ∈ table := by
  obtain ⟨before, behind, rfl, -⟩ := List.lookup_eq_some_iff.1 h
  simp

/-- What starts a word or a number is no punctuation. -/
theorem lookup_punctuation (hc : isWordStart c = true ∨ isDigit c = true) :
    punctuation.lookup c = none := by
  rw [List.lookup_eq_none_iff]
  intro p hp
  rw [bne_iff_ne]
  rintro rfl
  simp [punctuation_starts_no_run p hp] at hc

/-- A character that starts a run starts nothing else, but for the brackets `A[` and `E[`. -/
theorem lexeme?_eq_run? (hc : isWordStart c = true ∨ isDigit c = true)
    (hcs : cs.head? ≠ some '[') : lexeme? c cs = run? c cs := by
  unfold lexeme?
  rw [lookup_punctuation hc]
  dsimp only
  split
  case h_8 => rfl
  all_goals first
    | exact absurd hc (by decide)
    | exact absurd rfl hcs

/-- The tokens that are no runs: first character, further characters and kind. -/
def symbols : List (Char × List Char × Kind) :=
  punctuation.map (fun p => (p.1, [], p.2)) ++
    [('&', ['&'], .and), ('&', [], .and), ('|', ['|'], .or), ('|', [], .or), ('-', ['>'], .implies),
      ('A', ['['], .allUntil), ('E', ['['], .existsUntil)]

/-- A lexeme is one of the symbols, or a run of letters or digits. -/
theorem symbol_or_run (h : lexeme? c cs = some l) :
    (c, l.more, l.kind) ∈ symbols ∨ run? c cs = some l := by
  unfold lexeme? at h
  split at h
  · next kind hl =>
    cases h
    have hmem := mem_of_lookup_eq_some hl
    exact .inl (List.mem_append_left _ (List.mem_map.2 ⟨(c, kind), hmem, rfl⟩))
  · split at h
    case h_8 => exact .inr h
    all_goals
      cases h
      simp [symbols]

/-- A symbol read on its own is that symbol. -/
theorem lexeme?_symbols : ∀ s ∈ symbols, lexeme? s.1 s.2.1 = some ⟨s.2.2, s.2.1, []⟩ := by
  simp only [symbols, punctuation, List.map_cons, List.map_nil, List.cons_append, List.nil_append,
    List.forall_mem_cons]
  and_intros
  all_goals first
    | rfl
    | nofun

theorem kind_symbols : ∀ s ∈ symbols, s.2.2 ≠ .proposition ∧ s.2.2 ≠ .eof := by
  decide

/-- The texts of the tokens of each kind: symbols, runs of digits, and words. -/
inductive IsTokenText : Kind → List Char → Prop
  | symbol {c : Char} {more : List Char} {k : Kind} (h : (c, more, k) ∈ symbols) :
      IsTokenText k (c :: more)
  | integer {c : Char} {more : List Char} (h : ∀ x ∈ c :: more, isDigit x = true) :
      IsTokenText .integer (c :: more)
  | word {c : Char} {more : List Char} (hc : isWordStart c = true)
      (hmore : ∀ x ∈ more, isWordPart x = true) :
      IsTokenText (wordKind (String.ofList (c :: more))) (c :: more)

/-- The text of a lexeme is one that its kind can have. -/
theorem isTokenText_of_lexeme? (h : lexeme? c cs = some l) : IsTokenText l.kind (c :: l.more) := by
  obtain h | h := symbol_or_run h
  · exact .symbol h
  · unfold run? at h
    split at h
    · next hdigit =>
      cases h
      exact .integer (List.forall_mem_cons.2 ⟨hdigit, fun x hx => List.mem_takeWhile_imp hx⟩)
    · split at h
      · next hstart =>
        cases h
        exact .word hstart fun x hx => List.mem_takeWhile_imp hx
      · cases h

theorem head?_ne_of_forall {p : Char → Bool} (hp : p c = false) (h : ∀ x ∈ cs, p x = true) :
    cs.head? ≠ some c := by
  intro hc
  simp [h c (List.mem_of_mem_head? hc)] at hp

/-- The text of a token, read on its own, is that token. -/
theorem IsTokenText.lexeme?_eq (h : IsTokenText k (c :: more)) :
    lexeme? c more = some ⟨k, more, []⟩ := by
  cases h with
  | symbol h => exact lexeme?_symbols _ h
  | integer h =>
    rw [List.forall_mem_cons] at h
    rw [lexeme?_eq_run? (.inr h.1) (head?_ne_of_forall (by decide) h.2)]
    simp only [run?, h.1, if_true, List.takeWhile_eq_self_iff.2 h.2,
      List.dropWhile_eq_nil_iff.2 h.2]
  | word hc hmore =>
    rw [lexeme?_eq_run? (.inl hc) (head?_ne_of_forall (by decide) hmore)]
    simp only [run?, isDigit_of_isWordStart hc, hc, if_true, List.takeWhile_eq_self_iff.2 hmore,
      List.dropWhile_eq_nil_iff.2 hmore]
    rfl

/-- A token read on its own is the same token. -/
theorem lexeme?_more (h : lexeme? c cs = some l) :
    lexeme? c l.more = some ⟨l.kind, l.more, []⟩ :=
  (isTokenText_of_lexeme? h).lexeme?_eq

/-! ## Names -/

/-- A word that is read as a variable. -/
structure IsName (name : String) : Prop where
  starts : ∃ c more, name.toList = c :: more ∧ isWordStart c = true ∧
    ∀ x ∈ more, isWordPart x = true
  not_keyword : keywords.lookup name = none

theorem kind_keywords : ∀ p ∈ keywords, p.2 ≠ .proposition ∧ p.2 ≠ .eof := by
  decide

/-- A word is a name if and only if it is no keyword. -/
theorem wordKind_eq_proposition_iff {word : String} :
    wordKind word = .proposition ↔ keywords.lookup word = none := by
  unfold wordKind
  cases h : keywords.lookup word with
  | none => simp
  | some k =>
    simpa using (kind_keywords (word, k) (mem_of_lookup_eq_some h)).1

/-- A word is of the kind of a keyword or a variable. -/
theorem wordKind_ne (hk : k ≠ .proposition) (h : ∀ p ∈ keywords, p.2 ≠ k) (word : String) :
    wordKind word ≠ k := by
  unfold wordKind
  cases hword : keywords.lookup word with
  | none => exact hk.symm
  | some k' => exact h (word, k') (mem_of_lookup_eq_some hword)

/-- A token that is read as a variable has a name for its text. -/
theorem IsTokenText.isName (h : IsTokenText k (c :: more)) (hk : k = .proposition) :
    IsName (String.ofList (c :: more)) := by
  cases h with
  | symbol h => exact absurd hk (kind_symbols _ h).1
  | integer => cases hk
  | word hc hmore =>
    exact ⟨⟨c, more, String.toList_ofList, hc, hmore⟩, wordKind_eq_proposition_iff.1 hk⟩

theorem IsTokenText.kind_ne_eof (h : IsTokenText k cs) : k ≠ .eof := by
  cases h with
  | symbol h => exact (kind_symbols _ h).2
  | integer => nofun
  | word => exact wordKind_ne (k := .eof) nofun (fun p hp => (kind_keywords p hp).2) _

/-- A token whose text, read on its own, is that token. -/
def Token.IsLexed (t : Token) : Prop :=
  ∃ c more, t.text = String.ofList (c :: more) ∧ lexeme? c more = some ⟨t.kind, more, []⟩

theorem Token.IsLexed.isName (h : t.IsLexed) (hk : t.kind = .proposition) : IsName t.text := by
  obtain ⟨c, more, htext, hl⟩ := h
  rw [htext]
  exact (isTokenText_of_lexeme? hl).isName hk

/-- No text is read as the end. -/
theorem Token.IsLexed.kind_ne_eof (h : t.IsLexed) : t.kind ≠ .eof := by
  obtain ⟨c, more, -, hl⟩ := h
  exact (isTokenText_of_lexeme? hl).kind_ne_eof

/-- The kind of a token can be told from its text. -/
theorem Token.IsLexed.unplaced_eq {u : Token} (ht : t.IsLexed) (hu : u.IsLexed)
    (h : t.text = u.text) : t.unplaced = u.unplaced := by
  obtain ⟨c, more, htext, hl⟩ := ht
  obtain ⟨c', more', hutext, hl'⟩ := hu
  have hchars : c :: more = c' :: more' := by
    rw [htext, hutext] at h
    simpa using congrArg String.toList h
  cases hchars
  have hkind : t.kind = u.kind := by
    rw [hl] at hl'
    simpa using hl'
  simp [Token.unplaced, hkind, h]

/-- The texts of tokens that have been read determine their kinds. -/
theorem map_unplaced_of_texts {ts us : List Token} (hts : ∀ t ∈ ts, t.IsLexed)
    (hus : ∀ u ∈ us, u.IsLexed) (h : ts.map Token.text = us.map Token.text) :
    ts.map Token.unplaced = us.map Token.unplaced := by
  induction ts generalizing us with
  | nil =>
    rw [List.map_nil, eq_comm, List.map_eq_nil_iff] at h
    rw [h]
  | cons t ts ih =>
    rw [List.map_cons, eq_comm] at h
    obtain ⟨u, us, rfl, hu, hrest⟩ := List.map_eq_cons_iff.1 h
    rw [List.forall_mem_cons] at hts hus
    rw [List.map_cons, List.map_cons, hts.1.unplaced_eq hus.1 hu.symm, ih hts.2 hus.2 hrest.symm]

/-! ## Texts -/

/-- The characters are cut into tokens, which are given without their places and without the end of
the input. -/
inductive Lexes : List Char → List Token → Prop
  | finish {cs skipped : List Char} (hgap : gap false cs = (skipped, [])) : Lexes cs []
  | token {cs skipped rest : List Char} {c : Char} {l : Lexeme} {ts : List Token}
      (hgap : gap false cs = (skipped, c :: rest)) (hl : lexeme? c rest = some l)
      (h : Lexes l.rest ts) : Lexes cs (⟨l.kind, String.ofList (c :: l.more), {}⟩ :: ts)

/-! ## Cutting tokens out of a text -/

/-- A position moves on by the bytes of what has been passed. -/
theorem Position.offset_after (p : Position) (cs : List Char) :
    (p.after cs).offset = p.offset + (String.ofList cs).utf8ByteSize := by
  induction cs generalizing p with
  | nil => simp
  | cons c cs ih =>
    rw [after_cons, ih, String.ofList_cons, String.utf8ByteSize_append,
      String.utf8ByteSize_singleton, ← Nat.add_assoc]
    rfl

/-- The bytes at which a stretch of a text starts and ends cut it out. -/
theorem cut_eq {source before text behind : String} (h : source = before ++ text ++ behind) :
    cut source before.utf8ByteSize (before ++ text).utf8ByteSize = .ok text := by
  have h' : source = before ++ (text ++ behind) := by rw [h, String.append_assoc]
  have hstart : String.Pos.Raw.IsValid source ⟨before.utf8ByteSize⟩ :=
    String.Pos.Raw.isValid_iff_exists_append.2 ⟨before, text ++ behind, h', rfl⟩
  have hstop : String.Pos.Raw.IsValid source ⟨(before ++ text).utf8ByteSize⟩ :=
    String.Pos.Raw.isValid_iff_exists_append.2 ⟨before ++ text, behind, h, rfl⟩
  obtain ⟨hle, hcopy⟩ : ∃ hle, (source.slice (source.pos _ hstart) (source.pos _ hstop) hle).copy =
      text := String.copy_slice_eq_iff_splits.2 ⟨before, behind, ⟨h', rfl⟩, h, rfl⟩
  rw [cut, dif_pos ⟨hstart, hstop, hle⟩]
  exact congrArg Except.ok hcopy

/-- A place of a text, by the characters that stand behind it. -/
def Position.StandsBefore (p : Position) (source : String) (cs : List Char) : Prop :=
  ∃ before, source = before ++ String.ofList cs ∧ p.offset = before.utf8ByteSize

section Standing

variable {source : String} {p : Position}

theorem standsBefore_start (source : String) :
    ({} : Position).StandsBefore source source.toList :=
  ⟨"", by simp, rfl⟩

/-- Some of the characters behind a place are cut out, and the others are left. -/
theorem Position.StandsBefore.cut_after {xs : List Char} (h : p.StandsBefore source (xs ++ cs)) :
    cut source p.offset (p.after xs).offset = .ok (String.ofList xs) ∧
      (p.after xs).StandsBefore source cs := by
  obtain ⟨before, rfl, hp⟩ := h
  have hafter : (p.after xs).offset = (before ++ String.ofList xs).utf8ByteSize := by
    rw [offset_after, hp, String.utf8ByteSize_append]
  have hsource : before ++ String.ofList (xs ++ cs) =
      before ++ String.ofList xs ++ String.ofList cs := by
    rw [String.ofList_append, String.append_assoc]
  refine ⟨?_, _, hsource, hafter⟩
  rw [hafter, hp]
  exact cut_eq hsource

/-- Behind a gap a position stands before the rest. -/
theorem Position.StandsBefore.after_gap {skipped rest : List Char}
    (h : p.StandsBefore source cs) (hgap : gap false cs = (skipped, rest)) :
    (p.after skipped).StandsBefore source rest := by
  have happend := gap_append false cs
  rw [hgap] at happend
  rw [← happend] at h
  exact h.cut_after.2

/-- The text of a lexeme is cut out of the source at its position, and the position behind it stands
before the rest. -/
theorem Position.StandsBefore.cut_lexeme (h : p.StandsBefore source (c :: cs))
    (hl : lexeme? c cs = some l) :
    cut source p.offset (p.after (c :: l.more)).offset = .ok (String.ofList (c :: l.more)) ∧
      (p.after (c :: l.more)).StandsBefore source l.rest := by
  rw [← append_of_lexeme? hl, ← List.cons_append] at h
  exact h.cut_after

/-! One step of the lexer, by what stands behind the gap. -/

/-- Where a gap reaches to the end, the end mark is the only token left. -/
theorem tokensFrom_finish {skipped : List Char} (hgap : gap false cs = (skipped, []))
    (source : String) (p : Position) :
    tokensFrom source p cs = .ok [.finish ((p.after skipped).span [])] := by
  unfold tokensFrom
  split
  · next heq =>
    rw [hgap] at heq
    cases heq
    rfl
  · next heq =>
    rw [hgap] at heq
    cases heq

/-- Where a lexeme stands behind a gap, its token is the first one. -/
theorem tokensFrom_token {skipped rest : List Char} (hgap : gap false cs = (skipped, c :: rest))
    (hl : lexeme? c rest = some l) (hp : p.StandsBefore source cs) :
    tokensFrom source p cs = (do
      let tokens ← tokensFrom source ((p.after skipped).after (c :: l.more)) l.rest
      return ⟨l.kind, String.ofList (c :: l.more), (p.after skipped).span (c :: l.more)⟩ ::
        tokens) := by
  rw [tokensFrom]
  split
  · next heq =>
    rw [hgap] at heq
    cases heq
  · next heq =>
    rw [hgap] at heq
    cases heq
    dsimp only
    split
    · next hnone =>
      rw [hl] at hnone
      cases hnone
    · next hsome =>
      rw [hl] at hsome
      cases hsome
      rw [((hp.after_gap hgap).cut_lexeme hl).1]
      rfl

/-- A character that starts no lexeme is refused, at its own place. -/
theorem tokensFrom_none {skipped rest : List Char} (hgap : gap false cs = (skipped, c :: rest))
    (hl : lexeme? c rest = none) (source : String) (p : Position) :
    tokensFrom source p cs =
      .error (.refused (.unknownCharacter c ((p.after skipped).span [c]))) := by
  rw [tokensFrom]
  split
  · next heq =>
    rw [hgap] at heq
    cases heq
  · next heq =>
    rw [hgap] at heq
    cases heq
    dsimp only
    split
    · rfl
    · next hsome =>
      rw [hl] at hsome
      cases hsome

/-- The lexer finds the tokens of a text. -/
theorem Lexes.exists_tokensFrom (h : Lexes cs ts) (hp : p.StandsBefore source cs) :
    ∃ tokens, tokensFrom source p cs = .ok tokens ∧
      tokens.map Token.unplaced = ts ++ [.finish {}] := by
  induction h generalizing p with
  | finish hgap => exact ⟨_, tokensFrom_finish hgap source p, rfl⟩
  | token hgap hl _ ih =>
    obtain ⟨tokens, hrest, hmap⟩ := ih ((hp.after_gap hgap).cut_lexeme hl).2
    refine ⟨_, (tokensFrom_token hgap hl hp).trans (bind_of_eq_ok hrest), ?_⟩
    rw [List.map_cons, hmap]
    rfl

/-- What the lexer ends with: the tokens that the characters are cut into, or a character that
starts none. -/
theorem tokensFrom_cases (hp : p.StandsBefore source cs) :
    (∃ ts last, tokensFrom source p cs = .ok (ts ++ [last]) ∧ last.unplaced = .finish {} ∧
      Lexes cs (ts.map Token.unplaced)) ∨
    ∃ c place, tokensFrom source p cs = .error (.refused (.unknownCharacter c place)) := by
  fun_induction tokensFrom source p cs with
  | case1 p cs skipped hgap => exact .inl ⟨[], _, rfl, rfl, .finish hgap⟩
  | case2 p cs skipped c rest hgap start hl => exact .inr ⟨c, _, rfl⟩
  | case3 p cs skipped c rest hgap start l hl stop ih =>
    obtain ⟨hcut, hstop⟩ := (hp.after_gap hgap).cut_lexeme hl
    rw [hcut]
    obtain ⟨ts, last, hrest, hlast, hlexes⟩ | ⟨c', place, hrest⟩ := ih hstop
    · refine .inl ⟨_ :: ts, last, bind_of_eq_ok hrest, hlast, .token hgap hl hlexes⟩
    · refine .inr ⟨c', place, ?_⟩
      rw [hrest]
      rfl

end Standing

/-! ## Whole texts -/

section Whole

variable {source : String} {tokens : List Token}

theorem Lexes.exists_tokenize (h : Lexes source.toList ts) :
    ∃ tokens, tokenize source = .ok tokens ∧ tokens.map Token.unplaced = ts ++ [.finish {}] :=
  h.exists_tokensFrom (standsBefore_start source)

/-- The tokens that the lexer finds are those that a text is cut into. -/
theorem exists_lexes_of_tokenize (h : tokenize source = .ok tokens) :
    ∃ ts last, tokens = ts ++ [last] ∧ last.unplaced = .finish {} ∧
      Lexes source.toList (ts.map Token.unplaced) := by
  obtain ⟨ts, last, hread, hlast, hlexes⟩ | ⟨c, place, hread⟩ :=
    tokensFrom_cases (standsBefore_start source)
  · cases h.symm.trans hread
    exact ⟨ts, last, rfl, hlast, hlexes⟩
  · cases h.symm.trans hread

/-- The lexer meets no fault. -/
theorem exists_of_tokenize_error {stop : Stop ParseError} (h : tokenize source = .error stop) :
    ∃ c place, stop = .refused (.unknownCharacter c place) := by
  obtain ⟨ts, last, hread, -⟩ | ⟨c, place, hread⟩ := tokensFrom_cases (standsBefore_start source)
  · cases h.symm.trans hread
  · cases h.symm.trans hread
    exact ⟨c, place, rfl⟩

/-- The tokens that characters are cut into are lexed. -/
theorem Lexes.isLexed (h : Lexes cs ts) : ∀ t ∈ ts, t.IsLexed := by
  induction h with
  | finish => simp
  | token _ hl _ ih => exact List.forall_mem_cons.2 ⟨⟨_, _, rfl, lexeme?_more hl⟩, ih⟩

end Whole

/-! ## Streams of a text -/

/-- A stream that is left of a text: tokens that can be told from their texts, and its end. -/
def Stream.IsInput (u : Stream) : Prop :=
  ∃ ts last, u = ts ++ [last] ∧ last.kind = .eof ∧ ∀ t ∈ ts, t.IsLexed

theorem isInput_of_tokenize {source : String} {tokens : List Token}
    (h : tokenize source = .ok tokens) : Stream.IsInput tokens := by
  obtain ⟨ts, last, rfl, hlast, hlexes⟩ := exists_lexes_of_tokenize h
  refine ⟨ts, last, rfl, Token.kind_eq_of_unplaced (u := .finish {}) hlast, fun t ht => ?_⟩
  exact hlexes.isLexed t.unplaced (List.mem_map_of_mem ht)

/-- A text that is read is closed already. -/
theorem Stream.ofText_eq {source : String} : ofText source = tokenize source := by
  cases h : tokenize source with
  | error stop => simp only [ofText, h]; rfl
  | ok tokens =>
    obtain ⟨ts, last, rfl, hlast, -⟩ := isInput_of_tokenize h
    rw [ofText, h]
    show (liftM (close (ts ++ [last])) : Scan Stream) = _
    rw [close_append_of_eof ts hlast]
    rfl

/-- A stream that is left of a text has its end. -/
theorem Stream.IsInput.exists_eof {u : Stream} (h : u.IsInput) : ∃ t ∈ u, t.kind = .eof := by
  obtain ⟨ts, last, rfl, hlast, -⟩ := h
  exact ⟨last, by simp, hlast⟩

/-- A stream that is left of a text has a next token. -/
theorem Stream.IsInput.exists_cons {u : Stream} (h : u.IsInput) : ∃ t s, u = t :: s := by
  obtain ⟨ts, last, rfl, -⟩ := h
  cases ts with
  | nil => exact ⟨last, [], rfl⟩
  | cons t ts => exact ⟨t, ts ++ [last], rfl⟩

/-- All tokens of a text but the end are lexed. -/
theorem Stream.IsInput.isLexed {u : Stream} (h : u.IsInput) :
    ∀ t ∈ u, t.kind ≠ .eof → t.IsLexed := by
  obtain ⟨ts, last, rfl, hlast, hts⟩ := h
  intro t ht hk
  obtain ht | ht := List.mem_append.1 ht
  · exact hts t ht
  · rw [List.mem_singleton.1 ht] at hk
    exact absurd hlast hk

/-- The rest of an input behind some tokens is an input if it has a token. -/
theorem Stream.IsInput.of_append_ne_nil {ts : List Token} {rest : Stream} (h : IsInput (ts ++ rest))
    (hrest : rest ≠ []) : rest.IsInput := by
  obtain ⟨us, last, heq, hlast, hus⟩ := h
  obtain rfl | ⟨rest', last', rfl⟩ := List.eq_nil_or_concat' rest
  · exact absurd rfl hrest
  · rw [← List.append_assoc] at heq
    obtain ⟨rfl, hsame⟩ := List.append_inj' heq rfl
    cases hsame
    exact ⟨rest', last, rfl, hlast, fun t ht => hus t (List.mem_append_right ts ht)⟩

/-- Behind tokens that are not its end, a stream still has its end. -/
theorem Stream.IsInput.of_append {ts : List Token} {rest : Stream} (h : IsInput (ts ++ rest))
    (hts : ∀ t ∈ ts, t.kind ≠ .eof) : rest.IsInput := by
  refine h.of_append_ne_nil ?_
  rintro rfl
  obtain ⟨us, last, heq, hlast, -⟩ := h
  rw [List.append_nil] at heq
  exact hts last (by simp [heq]) hlast

theorem Stream.IsInput.of_cons {t : Token} {rest : Stream} (h : IsInput (t :: rest))
    (ht : t.kind ≠ .eof) : rest.IsInput := by
  rw [← List.singleton_append] at h
  exact h.of_append (by simpa using ht)

/-- A text that does not go on with a word before it. -/
def Breaks (cs : List Char) : Prop := ∀ x, cs.head? = some x → isWordPart x = false ∧ x ≠ '['

theorem breaks_nil : Breaks [] := nofun

theorem breaks_cons (hc : isWordPart c = false) (hne : c ≠ '[') : Breaks (c :: cs) := by
  intro x hx
  cases hx
  exact ⟨hc, hne⟩

namespace Lexes

/-- Blanks may stand in front. -/
theorem blank (hc : isBlank c = true) (h : Lexes cs ts) : Lexes (c :: cs) ts := by
  have hgap : gap false (c :: cs) = (c :: (gap false cs).1, (gap false cs).2) := by
    simp [gap, hc]
  cases h with
  | finish h => exact .finish (by rw [hgap, h])
  | token h hl hrest => exact .token (by rw [hgap, h]) hl hrest

/-- A word before a text that breaks it. -/
theorem word (hc : isWordStart c = true) (hmore : ∀ x ∈ more, isWordPart x = true)
    (hcs : Breaks cs) (h : Lexes cs ts) :
    Lexes (c :: (more ++ cs))
      (⟨wordKind (String.ofList (c :: more)), String.ofList (c :: more), {}⟩ :: ts) := by
  have hgap : gap false (c :: (more ++ cs)) = ([], c :: (more ++ cs)) := by
    have hsharp : c ≠ '#' := by
      rintro rfl
      exact absurd hc (by decide)
    have hslash : c ≠ '/' := by
      rintro rfl
      exact absurd hc (by decide)
    simp [gap, isBlank_of_isWordStart hc, hsharp, hslash]
  have hcs₀ : cs.takeWhile isWordPart = [] ∧ cs.dropWhile isWordPart = cs := by
    cases cs with
    | nil => simp
    | cons x cs => simp [(hcs x rfl).1]
  have hhead : (more ++ cs).head? ≠ some '[' := by
    cases more with
    | nil => exact fun h => (hcs _ h).2 rfl
    | cons x more =>
      rintro hx
      cases hx
      exact absurd (hmore '[' (by simp)) (by decide)
  have hl : lexeme? c (more ++ cs) = some ⟨wordKind (String.ofList (c :: more)), more, cs⟩ := by
    rw [lexeme?_eq_run? (.inl hc) hhead]
    simp only [run?, isDigit_of_isWordStart hc, hc, if_true, List.takeWhile_append_of_pos hmore,
      List.dropWhile_append_of_pos hmore, hcs₀, List.append_nil]
    rfl
  exact .token hgap hl h

/-- A name may stand in front of what breaks a word. -/
theorem name {name : String} (hname : IsName name) (hcs : Breaks cs) (h : Lexes cs ts) :
    Lexes (name.toList ++ cs) (⟨.proposition, name, {}⟩ :: ts) := by
  obtain ⟨⟨c, more, hlist, hc, hmore⟩, hkey⟩ := hname
  have hofList : String.ofList (c :: more) = name := by rw [← hlist, String.ofList_toList]
  have hword := word hc hmore hcs h
  rw [hofList, wordKind_eq_proposition_iff.2 hkey] at hword
  rw [hlist]
  exact hword

end Lexes

/-! ## Texts one after another -/

/-- A gap goes on over the end of a line only if it takes the whole line. -/
theorem gap_append_line (inComment : Bool) (cs ds : List Char) :
    (gap inComment (cs ++ '\n' :: ds)).2 =
      if (gap inComment cs).2 = [] then (gap false ds).2
      else (gap inComment cs).2 ++ '\n' :: ds := by
  have hnewline : isBlank '\n' = true := by decide
  have hhead : ∀ cs : List Char, (cs ++ '\n' :: ds).head? = some '/' ↔ cs.head? = some '/' := by
    intro cs
    cases cs <;> simp
  fun_induction gap inComment cs with
  | case1 inComment => cases inComment <;> simp [gap, hnewline]
  | case2 c cs skipped rest hgap ih =>
    rw [hgap] at ih
    simpa [gap] using ih
  | case3 c cs hblank skipped rest hgap ih =>
    rw [hgap] at ih
    simpa [gap, hblank] using ih
  | case4 c cs hblank hcomment skipped rest hgap ih =>
    rw [hgap] at ih
    rw [← hhead cs] at hcomment
    rw [List.cons_append, gap, if_neg hblank, if_pos hcomment]
    exact ih
  | case5 c cs hblank hcomment =>
    rw [← hhead cs] at hcomment
    rw [List.cons_append, gap, if_neg hblank, if_neg hcomment]
    rfl

/-- The end of a line ends a run. -/
theorem span_append_line {p : Char → Bool} (hp : p '\n' = false) (cs ds : List Char) :
    (cs ++ '\n' :: ds).takeWhile p = cs.takeWhile p ∧
      (cs ++ '\n' :: ds).dropWhile p = cs.dropWhile p ++ '\n' :: ds := by
  induction cs with
  | nil => simp [hp]
  | cons c cs ih => cases hc : p c <;> simp [hc, ih]

/-- A run of letters or digits ends at a line break, whatever stands behind it. -/
theorem run?_append_line (h : run? c cs = some l) (ds : List Char) :
    run? c (cs ++ '\n' :: ds) = some { l with rest := l.rest ++ '\n' :: ds } := by
  have hdigits := span_append_line (p := isDigit) (by decide) cs ds
  have hword := span_append_line (p := isWordPart) (isWordPart_of_isBlank (by decide)) cs ds
  unfold run? at h ⊢
  split at h
  · next hdigit =>
    cases h
    rw [if_pos hdigit, hdigits.1, hdigits.2]
  · next hdigit =>
    rw [if_neg hdigit]
    split at h
    · next hstart =>
      cases h
      simp only [if_pos hstart, hword.1, hword.2]
    · cases h

/-- The end of a line ends a token. -/
theorem lexeme?_append_line (h : lexeme? c cs = some l) (ds : List Char) :
    lexeme? c (cs ++ '\n' :: ds) = some { l with rest := l.rest ++ '\n' :: ds } := by
  unfold lexeme? at h ⊢
  cases hpunct : punctuation.lookup c with
  | some kind =>
    rw [hpunct] at h
    cases h
    rfl
  | none =>
    rw [hpunct] at h
    clear hpunct
    dsimp only at h ⊢
    -- The character behind `c`, if there is one, is the same in both texts, or it ends the line.
    obtain rfl | ⟨x, more, rfl⟩ : cs = [] ∨ ∃ x more, cs = x :: more := by cases cs <;> simp
    all_goals
      split at h
      case h_8 =>
        split
        case h_8 => exact run?_append_line h ds
        all_goals simp_all
      all_goals
        cases h
        split <;> simp_all

/-- Two texts on lines of their own are cut into the tokens of the one and then those of the
other. -/
theorem Lexes.append_line {ds : List Char} {us : List Token} (h : Lexes cs ts) (hd : Lexes ds us) :
    Lexes (cs ++ '\n' :: ds) (ts ++ us) := by
  induction h with
  | @finish cs skipped hgap =>
    have hrest : (gap false (cs ++ '\n' :: ds)).2 = (gap false ds).2 := by
      rw [gap_append_line, hgap, if_pos rfl]
    cases hd with
    | finish hgap' => exact .finish (Prod.ext rfl (by rw [hrest, hgap']))
    | token hgap' hl hd => exact .token (Prod.ext rfl (by rw [hrest, hgap'])) hl hd
  | @token cs skipped rest c l ts hgap hl _ ih =>
    have hrest : (gap false (cs ++ '\n' :: ds)).2 = c :: (rest ++ '\n' :: ds) := by
      rw [gap_append_line, hgap, if_neg (List.cons_ne_nil c rest)]
      rfl
    have htoken := Lexes.token (Prod.ext rfl hrest) (lexeme?_append_line hl ds) ih
    exact htoken

/-- The tokens of two texts on lines of their own. -/
theorem tokenize_append_line {a b : String} {us : List Token} {last : Token}
    (ha : tokenize a = .ok (ts ++ [last])) (hb : tokenize b = .ok us) :
    ∃ ts' us', tokenize (a ++ "\n" ++ b) = .ok (ts' ++ us') ∧
      ts'.map Token.unplaced = ts.map Token.unplaced ∧
      us'.map Token.unplaced = us.map Token.unplaced := by
  obtain ⟨ts₀, last₀, heq, -, hts⟩ := exists_lexes_of_tokenize ha
  obtain ⟨rfl, -⟩ := List.append_inj' heq rfl
  obtain ⟨us, last', rfl, hlast', hus⟩ := exists_lexes_of_tokenize hb
  have hsource : a.toList ++ '\n' :: b.toList = (a ++ "\n" ++ b).toList := by simp
  obtain ⟨tokens, htokens, hmap⟩ := (hsource ▸ hts.append_line hus).exists_tokenize
  rw [List.append_assoc] at hmap
  obtain ⟨ts', us', rfl, hts', hus'⟩ := List.map_eq_append_iff.1 hmap
  exact ⟨ts', us', htokens, hts', by simp [hus', hlast']⟩

end TemporalCheck
