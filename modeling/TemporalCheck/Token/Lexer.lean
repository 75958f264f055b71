import TemporalCheck.Error
import TemporalCheck.Text.Character

/-!
# TemporalCheck.Token.Lexer

Cutting a text into tokens.

1. Blanks separate tokens, and so do comments: `#` or `//` and everything up to the end of the
   line.
2. A token is the longest that starts where it stands: `&&` is one conjunction, `A[` is one
   bracket, and a run of word characters is one word.
3. A word is a keyword or a variable; a run of ASCII digits is an integer.
4. The first character that starts no token is an error; otherwise the tokens end with one `eof`.

`gap` passes over what rule 1 names, `lexeme?` recognises one token without regard to its place,
and `tokensFrom` strings the two together while it keeps count of bytes, lines and columns.  The
text of a token is cut out of the whole text at the bytes that were counted.
-/

namespace TemporalCheck

open Text

/-! ## Places -/

/-- A place between two characters of a text.  Lines and columns are counted with 32 bits. -/
structure Position where
  offset : Nat := 0
  line : UInt32 := 1
  column : UInt32 := 1
deriving DecidableEq

namespace Position

/-- The place behind one more character. -/
def step (p : Position) (c : Char) : Position where
  offset := p.offset + c.utf8Size
  line := if c = '\n' then p.line + 1 else p.line
  column := if c = '\n' then 1 else p.column + 1

/-- The place behind some more characters. -/
def after (p : Position) (cs : List Char) : Position := cs.foldl step p

/-- The stretch that some characters take from a place on. -/
def span (p : Position) (cs : List Char) : Span :=
  ⟨p.offset, (p.after cs).offset - p.offset, p.line, p.column⟩

@[simp] theorem after_nil (p : Position) : p.after [] = p := rfl

@[simp] theorem after_cons (p : Position) (c : Char) (cs : List Char) :
    p.after (c :: cs) = (p.step c).after cs := rfl

theorem after_append (p : Position) (xs ys : List Char) :
    p.after (xs ++ ys) = (p.after xs).after ys := List.foldl_append ..

end Position

/-! ## Gaps between tokens -/

/-- Split a text into the gap at its front and the rest.  Inside a comment everything up to the
next line break belongs to the gap. -/
def gap : (inComment : Bool) → List Char → List Char × List Char
  | _, [] => ([], [])
  | true, c :: cs =>
    let (skipped, rest) := gap (c ≠ '\n') cs
    (c :: skipped, rest)
  | false, c :: cs =>
    if isBlank c then
      let (skipped, rest) := gap false cs
      (c :: skipped, rest)
    else if c = '#' ∨ (c = '/' ∧ cs.head? = some '/') then
      let (skipped, rest) := gap true cs
      (c :: skipped, rest)
    else ([], c :: cs)

/-- A gap and what follows it make up the text. -/
theorem gap_append (inComment : Bool) (cs : List Char) :
    (gap inComment cs).1 ++ (gap inComment cs).2 = cs := by
  fun_induction gap inComment cs <;> simp_all

theorem length_gap_le (inComment : Bool) (cs : List Char) :
    (gap inComment cs).2.length ≤ cs.length := by
  have h := congrArg List.length (gap_append inComment cs)
  rw [List.length_append] at h
  omega

/-! ## Lexemes -/

/-- The tokens of a single character that starts no longer token. -/
def punctuation : List (Char × Kind) := [
  ('(', .parenOpen), (')', .parenClose), (']', .untilEnd), ('{', .modelOpen), ('}', .modelClose),
  ('>', .initialMark), ('?', .compare), (':', .against), ('!', .negation), ('~', .negation)]

/-- A recognised token: its kind, its characters after the first, and the text behind it. -/
structure Lexeme where
  kind : Kind
  more : List Char
  rest : List Char

/-- The word or integer that starts with `c`, if there is one. -/
def run? (c : Char) (cs : List Char) : Option Lexeme :=
  if isDigit c then some ⟨.integer, cs.takeWhile isDigit, cs.dropWhile isDigit⟩
  else if isWordStart c then
    let more := cs.takeWhile isWordPart
    some ⟨wordKind (String.ofList (c :: more)), more, cs.dropWhile isWordPart⟩
  else none

/-- The longest token that starts with `c` when the text goes on with `cs`. -/
def lexeme? (c : Char) (cs : List Char) : Option Lexeme :=
  match punctuation.lookup c with
  | some kind => some ⟨kind, [], cs⟩
  | none =>
    match c, cs with
    | '&', '&' :: rest => some ⟨.and, ['&'], rest⟩
    | '&', _ => some ⟨.and, [], cs⟩
    | '|', '|' :: rest => some ⟨.or, ['|'], rest⟩
    | '|', _ => some ⟨.or, [], cs⟩
    | '-', '>' :: rest => some ⟨.implies, ['>'], rest⟩
    | 'A', '[' :: rest => some ⟨.allUntil, ['['], rest⟩
    | 'E', '[' :: rest => some ⟨.existsUntil, ['['], rest⟩
    | _, _ => run? c cs

/-- A run is made of the characters at the front of the text. -/
theorem append_of_run? {c : Char} {cs : List Char} {l : Lexeme} (h : run? c cs = some l) :
    l.more ++ l.rest = cs := by
  unfold run? at h
  split at h
  · cases h; simp
  · split at h
    · cases h; simp
    · cases h

/-- A lexeme is made of the characters at the front of the text. -/
theorem append_of_lexeme? {c : Char} {cs : List Char} {l : Lexeme} (h : lexeme? c cs = some l) :
    l.more ++ l.rest = cs := by
  unfold lexeme? at h
  split at h
  · cases h; simp
  · split at h
    all_goals first
      | (cases h; simp)
      | exact append_of_run? h

theorem length_rest_le {c : Char} {cs : List Char} {l : Lexeme} (h : lexeme? c cs = some l) :
    l.rest.length ≤ cs.length := by
  have := congrArg List.length (append_of_lexeme? h)
  rw [List.length_append] at this
  omega

/-! ## Token lists -/

/-- The part of a text between two bytes.  Both have to stand between characters of the text, and
the first not behind the second. -/
def cut (source : String) (start stop : Nat) : Except Fault String :=
  if h : String.Pos.Raw.IsValid source ⟨start⟩ ∧ String.Pos.Raw.IsValid source ⟨stop⟩ ∧
      start ≤ stop then
    .ok (source.slice (source.pos ⟨start⟩ h.1) (source.pos ⟨stop⟩ h.2.1) h.2.2).copy
  else .error .outOfRange

/-- The tokens of the end `cs` of a text, which starts at a given place. -/
def tokensFrom (source : String) (p : Position) (cs : List Char) : Scan (List Token) :=
  match _hg : gap false cs with
  | (skipped, []) => return [.finish ((p.after skipped).span [])]
  | (skipped, c :: rest) =>
    let start := p.after skipped
    match _hl : lexeme? c rest with
    | none => throw (.refused (.unknownCharacter c (start.span [c])))
    | some l => do
      let stop := start.after (c :: l.more)
      let text ← cut source start.offset stop.offset
      let tokens ← tokensFrom source stop l.rest
      return ⟨l.kind, text, start.span (c :: l.more)⟩ :: tokens
termination_by cs.length
decreasing_by
  have h₁ := length_gap_le false cs
  have h₂ := length_rest_le _hl
  rw [_hg] at h₁
  simp only [List.length_cons] at h₁
  omega

/-- The tokens of a text, the last of which is its end. -/
def tokenize (source : String) : Scan (List Token) := tokensFrom source {} source.toList

end TemporalCheck
