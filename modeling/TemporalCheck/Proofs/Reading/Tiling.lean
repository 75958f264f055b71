import Mathlib.Data.List.Induction
import TemporalCheck.Proofs.Reading.Lexing

/-!
# TemporalCheck.Proofs.Reading.Tiling

The tokens of a text with their places.  A text is cut from its front: `LexesUpTo source before ts
rest` says that the tokens `ts` have been cut from the text `before`, which `rest` follows.  The
lexer goes on from there as if it had started anew (`LexesUpTo.tokenize_eq`), so it ends with the
tokens of a whole text (`tokenize_eq_ok_iff`) or at a character that starts no token
(`tokenize_eq_error_iff`).

What a gap is and what a token is are stated without the lexer.  A gap is made of blanks and
comments (`IsGap`), and it is followed by the longest token that starts behind it (`IsLongest`).

The tokens of a text tile it (`Tiles`): they stand one behind the other at the places that their
spans tell, with nothing but gaps between them.
-/

namespace TemporalCheck

open Text

variable {c : Char} {cs more rest g : List Char} {k : Kind} {l : Lexeme} {atEnd : Prop}

/-! ## Places -/

/-- The number of the line behind some text. -/
def lineBehind (before : String) : Nat := before.toList.count '\n' + 1

/-- The number of the column behind some text: the characters since the last line break count. -/
def columnBehind (before : String) : Nat :=
  (before.toList.reverse.takeWhile (· ≠ '\n')).length + 1

/-- The stretch of a text that stands behind another one: its place is told by the bytes, the line
breaks and, since the last of these, the characters before it.  Lines and columns are told modulo
`2 ^ 32`. -/
def Span.behind (before text : String) : Span where
  offset := before.utf8ByteSize
  size := text.utf8ByteSize
  line := .ofNat (lineBehind before)
  column := .ofNat (columnBehind before)

/-- Where a stretch ends. -/
def Span.stop (s : Span) : Nat := s.offset + s.size

theorem Span.stop_behind (before text : String) :
    (Span.behind before text).stop = (before ++ text).utf8ByteSize := by
  rw [String.utf8ByteSize_append]
  rfl

namespace Position

/-- The place behind some characters, if nothing stands before them. -/
theorem after_start (before : String) : ({} : Position).after before.toList =
    ⟨before.utf8ByteSize, .ofNat (lineBehind before), .ofNat (columnBehind before)⟩ := by
  obtain ⟨cs, rfl⟩ : ∃ cs, before = String.ofList cs := ⟨before.toList, by simp⟩
  rw [lineBehind, columnBehind, String.toList_ofList]
  -- The last character counts first in the column, so it is the last that is added.
  induction cs using List.reverseRecOn with
  | nil => simp
  | append_singleton cs c ih =>
    rw [after_append, ih]
    by_cases hc : c = '\n'
    · simp [step, hc, String.ofList_append, UInt32.ofNat_add]
      rfl
    · simp [step, hc, String.ofList_append, UInt32.ofNat_add]

/-- Counting from the start of the text gives the span of what stands behind `before`. -/
theorem span_after_start (before text : String) :
    (({} : Position).after before.toList).span text.toList = .behind before text := by
  have hstop := offset_after (({} : Position).after before.toList) text.toList
  rw [String.ofList_toList] at hstop
  rw [span, hstop, Nat.add_sub_cancel_left, after_start]
  rfl

theorem standsBefore_after (before rest : String) :
    (({} : Position).after before.toList).StandsBefore (before ++ rest) rest.toList :=
  ⟨before, by simp, by rw [after_start]⟩

end Position

/-! ## Gaps -/

/-- A comment, up to the end of its line. -/
def IsComment (cs : List Char) : Prop :=
  ∃ body, (cs = '#' :: body ∨ cs = '/' :: '/' :: body) ∧ '\n' ∉ body

/-- What stands before a token: blanks, and comments with the end of their line.  At the end of a
text, the line of the last comment need not end. -/
inductive IsGap (atEnd : Prop) : List Char → Prop
  | nil : IsGap atEnd []
  | blank {c : Char} {cs : List Char} (hc : isBlank c = true) (h : IsGap atEnd cs) :
      IsGap atEnd (c :: cs)
  | comment {comment cs : List Char} (hcomment : IsComment comment) (h : IsGap atEnd cs) :
      IsGap atEnd (comment ++ '\n' :: cs)
  | lastComment {comment : List Char} (hend : atEnd) (hcomment : IsComment comment) :
      IsGap atEnd comment

/-- What is a gap stays one where comments may end the text, too. -/
theorem IsGap.mono {atEnd' : Prop} (h : IsGap atEnd g) (himp : atEnd → atEnd') :
    IsGap atEnd' g := by
  induction h with
  | nil => exact .nil
  | blank hc _ ih => exact .blank hc ih
  | comment hcomment _ ih => exact .comment hcomment ih
  | lastComment hend hcomment => exact .lastComment (himp hend) hcomment

/-- A blank or a comment stands at the front of a text. -/
def OpensGap : List Char → Prop
  | [] => False
  | c :: cs => isBlank c = true ∨ c = '#' ∨ c = '/' ∧ cs.head? = some '/'

/-- Where no gap opens there is none. -/
theorem gap_of_not_opensGap (h : ¬ OpensGap cs) : gap false cs = ([], cs) := by
  cases cs with
  | nil => rfl
  | cons c cs =>
    simp only [OpensGap, not_or] at h
    simp [gap, h]

/-- The rest of a comment takes everything up to the end of the line, and goes on with a gap. -/
theorem gap_true_append (h : '\n' ∉ more) (cs : List Char) :
    gap true (more ++ '\n' :: cs) = (more ++ '\n' :: (gap false cs).1, (gap false cs).2) := by
  induction more with
  | nil => simp [gap]
  | cons c more ih =>
    simp only [List.mem_cons, not_or] at h
    simp [gap, ih h.2, Ne.symm h.1]

/-- A comment without a line break reaches to the end. -/
theorem gap_true_of_not_mem (h : '\n' ∉ cs) : gap true cs = (cs, []) := by
  induction cs with
  | nil => rfl
  | cons c cs ih =>
    simp only [List.mem_cons, not_or] at h
    simp [gap, ih h.2, Ne.symm h.1]

/-- A gap goes on through a comment to the end of its line. -/
theorem gap_comment_append {comment : List Char} (h : IsComment comment) :
    ∃ c more, comment = c :: more ∧ '\n' ∉ more ∧ ∀ cs,
      gap false (comment ++ cs) = (c :: (gap true (more ++ cs)).1, (gap true (more ++ cs)).2) := by
  obtain ⟨body, rfl | rfl, hbody⟩ := h
  · refine ⟨'#', body, rfl, hbody, fun cs => ?_⟩
    simp [gap, show isBlank '#' = false by decide]
  · refine ⟨'/', '/' :: body, rfl, by simpa using hbody, fun cs => ?_⟩
    simp [gap, show isBlank '/' = false by decide]

/-- The lexer passes over a gap and no further. -/
theorem gap_append_of_isGap (hg : IsGap (rest = []) g) (hrest : ¬ OpensGap rest) :
    gap false (g ++ rest) = (g, rest) := by
  induction hg with
  | nil => exact gap_of_not_opensGap hrest
  | blank hc _ ih => simp [gap, hc, ih]
  | @comment comment cs hcomment _ ih =>
    obtain ⟨c, more, rfl, hmore, hgap⟩ := gap_comment_append hcomment
    rw [List.append_assoc, hgap, List.cons_append, gap_true_append hmore, ih]
    rfl
  | lastComment hend hcomment =>
    obtain ⟨c, more, rfl, hmore, hgap⟩ := gap_comment_append hcomment
    rw [hgap, hend, List.append_nil, gap_true_of_not_mem hmore]

/-- A comment that starts a text ends with its line or with the text. -/
theorem exists_comment (hc : c = '#' ∨ c = '/' ∧ cs.head? = some '/') :
    IsComment (c :: cs) ∨ ∃ more ds, cs = more ++ '\n' :: ds ∧ IsComment (c :: more) := by
  have hcomment : ∀ more ds : List Char, cs = more ++ ds → '\n' ∉ more → ds.head? ≠ some '/' →
      IsComment (c :: more) := by
    rintro more ds rfl hmore hds
    obtain rfl | ⟨rfl, hhead⟩ := hc
    · exact ⟨more, .inl rfl, hmore⟩
    · cases more with
      | nil => exact absurd hhead hds
      | cons x more =>
        cases hhead
        exact ⟨more, .inr rfl, fun h => hmore (List.mem_cons_of_mem _ h)⟩
  by_cases hline : '\n' ∈ cs
  · obtain ⟨more, ds, rfl, hmore⟩ := List.eq_append_cons_of_mem hline
    exact .inr ⟨more, ds, rfl, hcomment more _ rfl hmore (by simp)⟩
  · exact .inl (hcomment cs [] (by simp) hline nofun)

/-- Every text starts with a gap, which may be empty, behind which no gap opens. -/
theorem exists_gap (cs : List Char) :
    ∃ g rest, cs = g ++ rest ∧ IsGap (rest = []) g ∧ ¬ OpensGap rest := by
  induction hn : cs.length using Nat.strong_induction_on generalizing cs with
  | _ n ih =>
    subst hn
    cases cs with
    | nil => exact ⟨[], [], rfl, .nil, id⟩
    | cons c cs =>
      by_cases hopen : OpensGap (c :: cs)
      case neg => exact ⟨[], c :: cs, rfl, .nil, hopen⟩
      obtain hblank | hc := hopen
      · obtain ⟨g, rest, rfl, hg, hrest⟩ := ih cs.length (by simp) cs rfl
        exact ⟨c :: g, rest, rfl, .blank hblank hg, hrest⟩
      · obtain hlast | ⟨more, ds, rfl, hcomment⟩ := exists_comment hc
        · exact ⟨c :: cs, [], by simp, .lastComment rfl hlast, id⟩
        · have hlt : ds.length < (c :: (more ++ '\n' :: ds)).length := by
            simp only [List.length_cons, List.length_append]
            omega
          obtain ⟨g, rest, rfl, hg, hrest⟩ := ih ds.length hlt ds rfl
          exact ⟨c :: more ++ '\n' :: g, rest, by simp, .comment hcomment hg, hrest⟩

/-! ## Longest tokens -/

/-- A token at the front of a text, none longer than which starts there. -/
structure IsLongest (k : Kind) (text rest : List Char) : Prop where
  isTokenText : IsTokenText k text
  eq_nil : ∀ k' more behind, rest = more ++ behind → IsTokenText k' (text ++ more) → more = []

/-- No token stands at the front of a text. -/
def StartsNoToken (cs : List Char) : Prop :=
  ∀ k text rest, cs = text ++ rest → ¬ IsTokenText k text

/-- A character that is no punctuation starts a lexeme if it is a bar, an `&`, or starts a run. -/
theorem exists_lexeme?_of_lookup (hlookup : punctuation.lookup c = none)
    (hrun : c ≠ '&' → c ≠ '|' → ∃ l, run? c cs = some l) : ∃ l, lexeme? c cs = some l := by
  unfold lexeme?
  rw [hlookup]
  dsimp only
  split
  case h_8 => exact hrun (by assumption) (by assumption)
  all_goals exact ⟨_, rfl⟩

/-- A connective of one character starts a token. -/
theorem exists_lexeme?_of_single (hc : c = '&' ∨ c = '|') (cs : List Char) :
    ∃ l, lexeme? c cs = some l := by
  refine exists_lexeme?_of_lookup ?_ fun hand hor => absurd hc (not_or.2 ⟨hand, hor⟩)
  obtain rfl | rfl := hc <;> rfl

/-- What starts a run starts a token. -/
theorem exists_lexeme?_of_start (hc : isWordStart c = true ∨ isDigit c = true) (cs : List Char) :
    ∃ l, lexeme? c cs = some l := by
  refine exists_lexeme?_of_lookup (lookup_punctuation hc) fun _ _ => ?_
  unfold run?
  obtain hc | hc := hc
  · simp [hc, isDigit_of_isWordStart hc]
  · simp [hc]

/-- Where a symbol stands, the lexer finds it or a longer one. -/
theorem exists_lexeme?_of_symbol : ∀ s ∈ symbols, ∀ cs,
    ∃ l, lexeme? s.1 (s.2.1 ++ cs) = some l ∧ s.2.1.length ≤ l.more.length := by
  simp only [symbols, punctuation, List.map_cons, List.map_nil, List.cons_append, List.nil_append,
    List.forall_mem_cons]
  and_intros
  all_goals first
    | exact fun cs => ⟨_, rfl, Nat.le_refl _⟩
    | exact fun s hs => absurd hs List.not_mem_nil
    | exact fun cs => (exists_lexeme?_of_single (by simp) cs).imp fun l hl => ⟨hl, Nat.zero_le _⟩

/-- A run of letters or digits is a lexeme that takes in all of them. -/
theorem exists_lexeme?_of_run {p : Char → Bool} (hc : isWordStart c = true ∨ isDigit c = true)
    (hp : p '[' = false) (hmore : ∀ x ∈ more, p x = true)
    (hrun : ∀ cs, ∃ k, run? c cs = some ⟨k, cs.takeWhile p, cs.dropWhile p⟩) (cs : List Char) :
    ∃ l, lexeme? c (more ++ cs) = some l ∧ more.length ≤ l.more.length := by
  by_cases hhead : (more ++ cs).head? = some '['
  · -- Then the run is a single character, and any token is as long.
    obtain ⟨l, hl⟩ := exists_lexeme?_of_start hc (more ++ cs)
    cases more with
    | nil => exact ⟨l, hl, Nat.zero_le _⟩
    | cons x more =>
      cases hhead
      simp [hp] at hmore
  · obtain ⟨k, hk⟩ := hrun (more ++ cs)
    refine ⟨_, (lexeme?_eq_run? hc hhead).trans hk, ?_⟩
    simp [List.takeWhile_append_of_pos hmore]

/-- Where a token stands, the lexer finds one that is no shorter. -/
theorem IsTokenText.exists_lexeme? (h : IsTokenText k (c :: more)) (cs : List Char) :
    ∃ l, lexeme? c (more ++ cs) = some l ∧ more.length ≤ l.more.length := by
  cases h with
  | symbol h => exact exists_lexeme?_of_symbol _ h cs
  | integer h =>
    rw [List.forall_mem_cons] at h
    refine exists_lexeme?_of_run (.inr h.1) (p := isDigit) (by decide) h.2 (fun cs => ?_) cs
    exact ⟨.integer, by simp [run?, h.1]⟩
  | word hc hmore =>
    refine exists_lexeme?_of_run (.inl hc) (p := isWordPart) (by decide) hmore (fun cs => ?_) cs
    exact ⟨_, by simp only [run?, isDigit_of_isWordStart hc, hc, if_true]; rfl⟩

theorem IsTokenText.exists_cons (h : IsTokenText k cs) : ∃ c more, cs = c :: more := by
  cases h <;> exact ⟨_, _, rfl⟩

/-- The lexer recognises the longest token, whatever follows it. -/
theorem lexeme?_eq_some_iff :
    lexeme? c (more ++ rest) = some ⟨k, more, rest⟩ ↔ IsLongest k (c :: more) rest := by
  constructor
  · intro h
    refine ⟨isTokenText_of_lexeme? h, ?_⟩
    rintro k' more' behind rfl htext
    rw [List.cons_append] at htext
    obtain ⟨l, hl, hle⟩ := htext.exists_lexeme? behind
    rw [List.append_assoc, h] at hl
    cases hl
    simp only [List.length_append] at hle
    exact List.eq_nil_of_length_eq_zero (by omega)
  · intro h
    obtain ⟨l, hl, hle⟩ := h.isTokenText.exists_lexeme? rest
    have happend := append_of_lexeme? hl
    obtain ⟨more', hmore⟩ : more <+: l.more :=
      List.prefix_of_prefix_length_le (List.prefix_append more rest) ⟨l.rest, happend⟩ hle
    have htext := isTokenText_of_lexeme? hl
    rw [← hmore] at htext happend
    rw [List.append_assoc, List.append_cancel_left_eq] at happend
    -- Nothing is added to the longest token, and its text tells its kind.
    obtain rfl := h.eq_nil l.kind more' l.rest happend.symm htext
    rw [List.append_nil] at htext hmore
    have hkind := htext.lexeme?_eq.symm.trans h.isTokenText.lexeme?_eq
    simp only [Option.some.injEq, Lexeme.mk.injEq, and_true] at hkind
    rw [hl, ← hkind, hmore, ← happend]
    rfl

/-- There is no lexeme if and only if no token can start. -/
theorem lexeme?_eq_none_iff : lexeme? c cs = none ↔ StartsNoToken (c :: cs) := by
  constructor
  · rintro h k text rest heq htext
    obtain ⟨c', more, rfl⟩ := htext.exists_cons
    rw [List.cons_append, List.cons.injEq] at heq
    obtain ⟨rfl, rfl⟩ := heq
    obtain ⟨l, hl, -⟩ := htext.exists_lexeme? rest
    rw [h] at hl
    cases hl
  · intro h
    cases hl : lexeme? c cs with
    | none => rfl
    | some l =>
      refine absurd (isTokenText_of_lexeme? hl) (h l.kind (c :: l.more) l.rest ?_)
      rw [List.cons_append, append_of_lexeme? hl]

theorem symbols_open_no_gap : ∀ s ∈ symbols, isBlank s.1 = false ∧ s.1 ≠ '#' ∧ s.1 ≠ '/' := by
  decide

/-- A token opens no gap. -/
theorem IsTokenText.not_opensGap (h : IsTokenText k cs) (rest : List Char) :
    ¬ OpensGap (cs ++ rest) := by
  have hfirst : ∃ c more, cs = c :: more ∧ isBlank c = false ∧ c ≠ '#' ∧ c ≠ '/' := by
    cases h with
    | symbol h => exact ⟨_, _, rfl, symbols_open_no_gap _ h⟩
    | @integer c more h =>
      have hc := h c List.mem_cons_self
      refine ⟨_, _, rfl, isBlank_of_isDigit hc, ?_, ?_⟩ <;> rintro rfl <;>
        exact absurd hc (by decide)
    | @word c more hc hmore =>
      refine ⟨_, _, rfl, isBlank_of_isWordStart hc, ?_, ?_⟩ <;> rintro rfl <;>
        exact absurd hc (by decide)
  obtain ⟨c, more, rfl, hblank, hsharp, hslash⟩ := hfirst
  simp [OpensGap, hblank, hsharp, hslash]

/-! ## Cutting a text from its front -/

/-- Some tokens have been cut from the front of a text, each the longest behind the gap before it,
and the rest follows. -/
inductive LexesUpTo (source : String) : String → List Token → String → Prop
  | start : LexesUpTo source "" [] source
  | token {before g text rest : String} {ts : List Token} {k : Kind}
      (h : LexesUpTo source before ts (g ++ text ++ rest)) (hg : IsGap False g.toList)
      (htext : IsLongest k text.toList rest.toList) :
      LexesUpTo source (before ++ g ++ text) (ts ++ [⟨k, text, .behind (before ++ g) text⟩]) rest

section Cutting

variable {source before rest g text : String} {ts : List Token} {k : Kind}

theorem LexesUpTo.append_eq (h : LexesUpTo source before ts rest) : source = before ++ rest := by
  induction h with
  | start => simp
  | token _ _ _ ih => rw [ih, ← String.append_assoc, ← String.append_assoc]

theorem after_toList_append (before text : String) :
    (({} : Position).after before.toList).after text.toList =
      ({} : Position).after (before ++ text).toList := by
  rw [String.toList_append, Position.after_append]

/-- One token is cut from what follows some text. -/
theorem tokensFrom_longest (hsource : source = before ++ (g ++ text ++ rest))
    (hg : IsGap False g.toList) (htext : IsLongest k text.toList rest.toList) :
    tokensFrom source (({} : Position).after before.toList) (g ++ text ++ rest).toList = (do
      let tokens ←
        tokensFrom source (({} : Position).after (before ++ g ++ text).toList) rest.toList
      return ⟨k, text, .behind (before ++ g) text⟩ :: tokens) := by
  obtain ⟨c, more, hcons⟩ := htext.isTokenText.exists_cons
  have hgap := gap_append_of_isGap (hg.mono False.elim) (htext.isTokenText.not_opensGap rest.toList)
  rw [hcons] at htext
  rw [← List.append_assoc, ← String.toList_append, ← String.toList_append, hcons] at hgap
  have hstep := tokensFrom_token hgap (lexeme?_eq_some_iff.2 htext)
    (hsource ▸ Position.standsBefore_after before (g ++ text ++ rest))
  dsimp only at hstep
  rwa [← hcons, after_toList_append, after_toList_append, Position.span_after_start,
    String.ofList_toList] at hstep

/-- A gap up to the end gives the end mark alone. -/
theorem tokensFrom_gap (hg : IsGap True g.toList) (source before : String) :
    tokensFrom source (({} : Position).after before.toList) g.toList =
      .ok [.finish (.behind (before ++ g) "")] := by
  have hgap : gap false g.toList = (g.toList, []) := by
    simpa using gap_append_of_isGap (hg.mono fun _ => rfl) (id : ¬ OpensGap [])
  rw [tokensFrom_finish hgap, after_toList_append]
  exact congrArg (fun s => Except.ok [Token.finish s]) (Position.span_after_start _ "")

/-- A character that starts no token is refused, with the place behind all that has been passed. -/
theorem tokensFrom_unknown {c : Char} (hg : IsGap False g.toList)
    (hopen : ¬ OpensGap (c :: rest.toList)) (hno : StartsNoToken (c :: rest.toList))
    (source before : String) :
    tokensFrom source (({} : Position).after before.toList) (g ++ .singleton c ++ rest).toList =
      .error (.refused (.unknownCharacter c (.behind (before ++ g) (.singleton c)))) := by
  have hgap := gap_append_of_isGap (hg.mono False.elim) hopen
  have hchars : (g ++ .singleton c ++ rest).toList = g.toList ++ c :: rest.toList := by simp
  rw [← Position.span_after_start, ← after_toList_append, String.toList_singleton, hchars]
  exact tokensFrom_none hgap (lexeme?_eq_none_iff.2 hno) source _

/-- The lexer goes on behind the tokens that have been cut. -/
theorem LexesUpTo.tokenize_eq (h : LexesUpTo source before ts rest) :
    tokenize source = (do
      let tokens ← tokensFrom source (({} : Position).after before.toList) rest.toList
      return ts ++ tokens) := by
  induction h with
  | start => simp [tokenize]
  | @token before g text rest ts k h hg htext ih =>
    rw [ih, tokensFrom_longest h.append_eq hg htext]
    cases tokensFrom source _ rest.toList with
    | error => rfl
    | ok tokens => exact congrArg Except.ok (List.append_assoc ts [_] tokens).symm

/-- A text up to whose end tokens have been cut. -/
def LexesAll (source : String) (ts : List Token) : Prop :=
  ∃ before g, LexesUpTo source before ts g ∧ IsGap True g.toList

/-- The character that the tokens of a text stop at: it stands behind a gap and starts no token. -/
def LexesUntil (source : String) (c : Char) (place : Span) : Prop :=
  ∃ before ts g rest, LexesUpTo source before ts (g ++ .singleton c ++ rest) ∧
    IsGap False g.toList ∧ ¬ OpensGap (c :: rest.toList) ∧ StartsNoToken (c :: rest.toList) ∧
    place = .behind (before ++ g) (.singleton c)

theorem LexesAll.tokenize_eq (h : LexesAll source ts) :
    tokenize source = .ok (ts ++ [.finish (.behind source "")]) := by
  obtain ⟨before, g, h, hg⟩ := h
  rw [h.tokenize_eq, tokensFrom_gap hg, ← h.append_eq]
  rfl

theorem LexesUntil.tokenize_eq {c : Char} {place : Span} (h : LexesUntil source c place) :
    tokenize source = .error (.refused (.unknownCharacter c place)) := by
  obtain ⟨before, ts, g, rest, h, hg, hopen, hno, rfl⟩ := h
  rw [h.tokenize_eq, tokensFrom_unknown hg hopen hno]
  rfl

theorem exists_toList (cs : List Char) : ∃ s : String, s.toList = cs :=
  ⟨String.ofList cs, String.toList_ofList⟩

/-- What a text starts with: a gap, and behind it the end, a token or a character that starts
none. -/
theorem exists_next (rest : String) :
    IsGap True rest.toList ∨
      (∃ g text behind k, rest = g ++ text ++ behind ∧ IsGap False g.toList ∧
        IsLongest k text.toList behind.toList) ∨
      ∃ g c behind, rest = g ++ .singleton c ++ behind ∧ IsGap False g.toList ∧
        ¬ OpensGap (c :: behind.toList) ∧ StartsNoToken (c :: behind.toList) := by
  obtain ⟨g, cs, hrest, hg, hopen⟩ := exists_gap rest.toList
  cases cs with
  | nil =>
    rw [List.append_nil] at hrest
    exact .inl (hrest ▸ hg.mono fun _ => trivial)
  | cons c cs =>
    obtain ⟨g, rfl⟩ := exists_toList g
    replace hg : IsGap False g.toList := hg.mono (List.cons_ne_nil c cs)
    cases hl : lexeme? c cs with
    | none =>
      obtain ⟨behind, rfl⟩ := exists_toList cs
      refine .inr (.inr ⟨g, c, behind, ?_, hg, hopen, lexeme?_eq_none_iff.1 hl⟩)
      rw [← String.toList_inj, hrest]
      simp
    | some l =>
      obtain ⟨k, more, behind⟩ := l
      obtain rfl : more ++ behind = cs := append_of_lexeme? hl
      have htext := lexeme?_eq_some_iff.1 hl
      obtain ⟨behind, rfl⟩ := exists_toList behind
      obtain ⟨text, htoList⟩ := exists_toList (c :: more)
      rw [← htoList] at htext
      refine .inr (.inl ⟨g, text, behind, k, ?_, hg, htext⟩)
      rw [← String.toList_inj, hrest, String.toList_append, String.toList_append, htoList,
        List.append_assoc, List.cons_append]

/-- Tokens can be cut up to the end or up to a character that starts none. -/
theorem LexesUpTo.ends (h : LexesUpTo source before ts rest) :
    (∃ ts, LexesAll source ts) ∨ ∃ c place, LexesUntil source c place := by
  induction hn : rest.length using Nat.strong_induction_on generalizing before ts rest with
  | _ n ih =>
    subst hn
    obtain hg | ⟨g, text, behind, k, rfl, hg, htext⟩ | ⟨g, c, behind, rfl, hg, hopen, hno⟩ :=
      exists_next rest
    · exact .inl ⟨ts, before, rest, h, hg⟩
    · refine ih behind.length ?_ (.token h hg htext) rfl
      obtain ⟨c, more, htext⟩ := htext.isTokenText.exists_cons
      simp only [← String.length_toList, String.toList_append, htext, List.length_append,
        List.length_cons]
      omega
    · exact .inr ⟨c, _, before, ts, g, behind, h, hg, hopen, hno, rfl⟩

end Cutting

/-! ## Tokens that tile a text -/

/-- Where the last of some tokens ends. -/
def endOf (ts : List Token) : Nat := (ts.getLast?.map fun t => t.span.stop).getD 0

/-- A token stands in a text behind its first bytes and a gap, at the place that its span tells,
and none that is longer starts there.  The gap before the end may be a comment whose line does not
end. -/
def Token.Follows (t : Token) (source : String) (bytes : Nat) : Prop :=
  ∃ before g behind, source = before ++ g ++ t.text ++ behind ∧ before.utf8ByteSize = bytes ∧
    IsGap (t.kind = .eof) g.toList ∧ t.span = .behind (before ++ g) t.text ∧
    (t.kind ≠ .eof → IsLongest t.kind t.text.toList behind.toList)

/-- The tokens of a text stand in it one behind the other, with gaps between them, and the last of
them is its end. -/
structure Tiles (source : String) (tokens : List Token) : Prop where
  ends : ∃ ts, tokens = ts ++ [.finish (.behind source "")] ∧ ∀ t ∈ ts, t.kind ≠ .eof
  ordered : tokens.Pairwise fun t u => t.span.stop ≤ u.span.offset
  follows : ∀ ts t us, tokens = ts ++ t :: us → t.Follows source (endOf ts)

section Tiling

variable {source before rest : String} {ts : List Token} {t : Token}

theorem endOf_concat (ts : List Token) (t : Token) : endOf (ts ++ [t]) = t.span.stop := by
  simp [endOf]

/-- What holds of each element of a list and those before it holds so if one is added. -/
theorem forall_split_concat {α : Type} {P : List α → α → Prop} {xs : List α} {x : α}
    (h : ∀ as a bs, xs = as ++ a :: bs → P as a) (hx : P xs x) :
    ∀ as a bs, xs ++ [x] = as ++ a :: bs → P as a := by
  intro as a bs heq
  obtain rfl | ⟨bs, b, rfl⟩ := List.eq_nil_or_concat' bs
  · obtain ⟨rfl, hlast⟩ := List.append_inj' heq rfl
    cases hlast
    exact hx
  · rw [← List.cons_append, ← List.append_assoc] at heq
    obtain ⟨rfl, -⟩ := List.append_inj' heq rfl
    exact h as a bs rfl

theorem LexesUpTo.endOf_eq (h : LexesUpTo source before ts rest) :
    endOf ts = before.utf8ByteSize := by
  cases h with
  | start => rfl
  | token => rw [endOf_concat, Span.stop_behind]

/-- The end mark is no token of the text. -/
theorem LexesUpTo.kind_ne_eof (h : LexesUpTo source before ts rest) : ∀ t ∈ ts, t.kind ≠ .eof := by
  induction h with
  | start => simp
  | token _ _ htext ih =>
    intro t ht
    obtain ht | ht := List.mem_append.1 ht
    · exact ih t ht
    · rw [List.mem_singleton.1 ht]
      exact htext.isTokenText.kind_ne_eof

/-- The tokens that have been cut end in the text that they were cut from. -/
theorem LexesUpTo.stop_le (h : LexesUpTo source before ts rest) :
    ∀ t ∈ ts, t.span.stop ≤ before.utf8ByteSize := by
  induction h with
  | start => simp
  | token _ _ _ ih =>
    intro t ht
    obtain ht | ht := List.mem_append.1 ht
    · refine Nat.le_trans (ih t ht) ?_
      simp only [String.utf8ByteSize_append, Nat.add_assoc]
      exact Nat.le_add_right _ _
    · rw [List.mem_singleton.1 ht, Span.stop_behind]

/-- A token behind those that have been cut does not overlap them. -/
theorem LexesUpTo.ordered_concat (h : LexesUpTo source before ts rest)
    (hts : ts.Pairwise fun t u => t.span.stop ≤ u.span.offset)
    (ht : before.utf8ByteSize ≤ t.span.offset) :
    (ts ++ [t]).Pairwise fun t u => t.span.stop ≤ u.span.offset := by
  rw [List.pairwise_append]
  refine ⟨hts, List.pairwise_singleton _ t, fun u hu v hv => ?_⟩
  rw [List.mem_singleton.1 hv]
  exact Nat.le_trans (h.stop_le u hu) ht

/-- Tokens stand one behind another and do not overlap. -/
theorem LexesUpTo.ordered (h : LexesUpTo source before ts rest) :
    ts.Pairwise fun t u => t.span.stop ≤ u.span.offset := by
  induction h with
  | start => exact .nil
  | token h _ _ ih =>
    refine h.ordered_concat ih ?_
    simp [Span.behind]

/-- Each token follows the one before it, with nothing but a gap between them. -/
theorem LexesUpTo.follows (h : LexesUpTo source before ts rest) :
    ∀ xs t ys, ts = xs ++ t :: ys → t.Follows source (endOf xs) := by
  induction h with
  | start => simp
  | @token before g text rest ts k h hg htext ih =>
    refine forall_split_concat ih ⟨before, g, rest, ?_, h.endOf_eq.symm, hg.mono False.elim, rfl,
      fun _ => htext⟩
    rw [h.append_eq, ← String.append_assoc, ← String.append_assoc]

end Tiling

end TemporalCheck
