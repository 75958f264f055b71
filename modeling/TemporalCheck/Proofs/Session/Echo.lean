import TemporalCheck.Proofs.Reading.Tiling
import TemporalCheck.Session

/-!
# TemporalCheck.Proofs.Session.Echo

What a session writes of the input that it passes.  The texts of the tokens are joined by single
spaces, whatever stood between them in the input.  No token has a blank in it, so a blank ends the
longest token before it (`IsTokenText.isLongest`), and the joined text is cut into the same tokens
(`lexes_joined`).
-/

namespace TemporalCheck

open Text

variable {cs rest : List Char} {k : Kind} {ts : List Token}

/-! ## Tokens before a blank -/

theorem all_not_isBlank_symbols : ∀ s ∈ symbols, (s.1 :: s.2.1).all (!isBlank ·) = true := by
  decide

theorem isBlank_of_isWordPart {c : Char} (h : isWordPart c = true) : isBlank c = false := by
  by_contra hblank
  rw [isWordPart_of_isBlank (by simpa using hblank)] at h
  cases h

/-- No token has a blank in it. -/
theorem IsTokenText.isBlank_eq_false (h : IsTokenText k cs) : ∀ x ∈ cs, isBlank x = false := by
  cases h with
  | symbol h => simpa using all_not_isBlank_symbols _ h
  | integer h => exact fun x hx => isBlank_of_isDigit (h x hx)
  | word hc hmore =>
    rw [List.forall_mem_cons]
    exact ⟨isBlank_of_isWordStart hc, fun x hx => isBlank_of_isWordPart (hmore x hx)⟩

/-- Before a blank, and at the end of a text, a token is the longest one. -/
theorem IsTokenText.isLongest (h : IsTokenText k cs)
    (hrest : ∀ x, rest.head? = some x → isBlank x = true) : IsLongest k cs rest where
  isTokenText := h
  eq_nil k' more behind heq hlonger := by
    cases more with
    | nil => rfl
    | cons x more =>
      have hblank := hrest x (by simp [heq])
      rw [hlonger.isBlank_eq_false x (by simp)] at hblank
      cases hblank

/-- A text is cut at the longest token that it starts with. -/
theorem Lexes.longest (h : IsLongest k cs rest) (hrest : Lexes rest ts) :
    Lexes (cs ++ rest) (⟨k, String.ofList cs, {}⟩ :: ts) := by
  have hgap := gap_of_not_opensGap (h.isTokenText.not_opensGap rest)
  obtain ⟨c, more, rfl⟩ := h.isTokenText.exists_cons
  exact .token hgap (lexeme?_eq_some_iff.2 h) hrest

/-! ## Joined tokens -/

/-- The texts of some tokens, with single spaces between them. -/
def joined (ts : List Token) : String := " ".intercalate (ts.map Token.text)

theorem joined_cons_cons (t u : Token) (ts : List Token) :
    (joined (t :: u :: ts)).toList = t.text.toList ++ ' ' :: (joined (u :: ts)).toList := by
  simp [joined, String.intercalate_cons_cons]

theorem Token.IsLexed.isTokenText {t : Token} (h : t.IsLexed) :
    IsTokenText t.kind t.text.toList := by
  obtain ⟨c, more, htext, hl⟩ := h
  rw [htext, String.toList_ofList]
  exact isTokenText_of_lexeme? hl

/-- Joined tokens are cut into these tokens. -/
theorem lexes_joined (h : ∀ t ∈ ts, t.IsLexed) :
    Lexes (joined ts).toList (ts.map Token.unplaced) := by
  induction ts with
  | nil => exact .finish rfl
  | cons t ts ih =>
    rw [List.forall_mem_cons] at h
    have ht := h.1.isTokenText
    cases ts with
    | nil =>
      have hlast : Lexes (t.text.toList ++ []) _ := .longest (ht.isLongest (by simp)) (.finish rfl)
      simpa [joined, Token.unplaced] using hlast
    | cons u ts =>
      have hrest := Lexes.blank (c := ' ') (by decide) (ih h.2)
      have hfirst := Lexes.longest (ht.isLongest (by simp; decide)) hrest
      simpa [joined_cons_cons, Token.unplaced] using hfirst

/-- The lexer finds joined tokens again. -/
theorem exists_tokenize_joined (h : ∀ t ∈ ts, t.IsLexed) :
    ∃ us, tokenize (joined ts) = .ok us ∧
      us.map Token.unplaced = ts.map Token.unplaced ++ [.finish {}] :=
  (lexes_joined h).exists_tokenize

/-- What lies between two streams is shown as joined tokens. -/
theorem Session.echo_append {s : Session} (hecho : s.options.echo = true) (passed : List Token)
    (after : Stream) : Session.echo (passed ++ after) after s = Session.say (joined passed) s := by
  show (if s.options.echo then _ else _ : Session.Action Unit) s = _
  rw [if_pos hecho, Stream.passed_append]
  rfl

/-- **Echoed input is equivalent input.**  The tokens of a text, joined by single spaces without its
end, are a text with the same tokens, up to their places.  A session that echoes its input writes
the tokens that it has passed in this way, and what it writes has just these tokens. -/
theorem tokenize_echoed {source : String} {tokens : List Token} (h : tokenize source = .ok tokens) :
    (∃ ts last us, tokens = ts ++ [last] ∧ last.kind = .eof ∧ tokenize (joined ts) = .ok us ∧
      us.map Token.unplaced = tokens.map Token.unplaced) ∧
    ∀ before passed after, tokens = before ++ passed ++ after → after ≠ [] →
      (∃ us, tokenize (joined passed) = .ok us ∧
        us.map Token.unplaced = passed.map Token.unplaced ++ [.finish {}]) ∧
      ∀ s : Session, s.options.echo = true →
        Session.echo (passed ++ after) after s = Session.say (joined passed) s := by
  obtain ⟨ts, last, rfl, hlast, -⟩ := exists_lexes_of_tokenize h
  have hts : ∀ t ∈ ts, t.IsLexed := by
    obtain ⟨ts', last', heq, -, hts⟩ := isInput_of_tokenize h
    obtain ⟨rfl, -⟩ := List.append_inj' heq rfl
    exact hts
  constructor
  · obtain ⟨us, hus, hmap⟩ := exists_tokenize_joined hts
    refine ⟨ts, last, us, rfl, congrArg Token.kind hlast, hus, ?_⟩
    rw [hmap, List.map_append, List.map_singleton, hlast]
  · intro before passed after heq hafter
    refine ⟨exists_tokenize_joined fun t ht => hts t ?_, fun s hecho =>
      Session.echo_append hecho passed after⟩
    -- What is left has the end of the text, so this is not among what has been passed.
    obtain ⟨after', last', rfl⟩ := (List.eq_nil_or_concat' after).resolve_left hafter
    rw [← List.append_assoc] at heq
    obtain ⟨rfl, -⟩ := List.append_inj' heq rfl
    simp [ht]

/-- Two connectives without a blank between them, a letter that is not ASCII and a comment. -/
theorem tokenize_echoed_adjacent :
    let tokens : List Token :=
      [⟨.allUntil, "A[", ⟨0, 2, 1, 1⟩⟩, ⟨.proposition, "é", ⟨2, 2, 1, 3⟩⟩,
        ⟨.until, "U", ⟨5, 1, 1, 5⟩⟩, ⟨.proposition, "q", ⟨7, 1, 1, 7⟩⟩,
        ⟨.untilEnd, "]", ⟨8, 1, 1, 8⟩⟩, ⟨.and, "&&", ⟨9, 2, 1, 9⟩⟩, ⟨.and, "&", ⟨11, 1, 1, 11⟩⟩,
        ⟨.proposition, "q", ⟨12, 1, 1, 12⟩⟩, ⟨.eof, "", ⟨16, 0, 1, 16⟩⟩]
    tokenize "A[é U\tq]&&&q //" = .ok tokens ∧
    (∃ ts last us, tokens = ts ++ [last] ∧ last.kind = .eof ∧ tokenize (joined ts) = .ok us ∧
      us.map Token.unplaced = tokens.map Token.unplaced) ∧
    ∀ before passed after, tokens = before ++ passed ++ after → after ≠ [] →
      (∃ us, tokenize (joined passed) = .ok us ∧
        us.map Token.unplaced = passed.map Token.unplaced ++ [.finish {}]) ∧
      ∀ s : Session, s.options.echo = true →
        Session.echo (passed ++ after) after s = Session.say (joined passed) s := by
  intro tokens
  have h : tokenize "A[é U\tq]&&&q //" = .ok tokens := by decide +kernel
  exact ⟨h, tokenize_echoed h⟩

end TemporalCheck
