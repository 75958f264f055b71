import TemporalCheck.Token.Lexer

/-!
# TemporalCheck.Token.Stream

Reading tokens one after another.  A `Stream` is what is left to read.  Its last token is an `eof`,
which is met again and again once it has been reached, so that a reader never has to look beyond
the end of the list; one that does meets a fault.
-/

namespace TemporalCheck

/-- The tokens still to be read. -/
abbrev Stream := List Token

namespace Stream

/-- The tokens, with an `eof` behind the last of them unless they end with one.  It stands
directly behind the last token, on that token's line and column; a token behind which there is no
place is a fault. -/
def close (tokens : List Token) : Except Fault Stream :=
  match tokens.getLast? with
  | none => .ok [.finish {}]
  | some last =>
    if last.kind = .eof then .ok tokens
    else do
      let offset ← checkedNumber (last.span.offset + last.span.size)
      return tokens ++ [.finish { last.span with offset }]

/-- The stream of the tokens of a text. -/
def ofText (source : String) : Scan Stream := do
  let tokens ← tokenize source
  close tokens

/-- The next token. -/
def peek : Stream → Except Fault Token
  | [] => .error .outOfRange
  | t :: _ => .ok t

/-- What is left after the next token; an `eof` is never passed. -/
def skip : Stream → Except Fault Stream
  | [] => .error .outOfRange
  | t :: ts => .ok (if t.kind = .eof then t :: ts else ts)

/-- Whether the next token is of the given kind. -/
def atKind (s : Stream) (kind : Kind) : Except Fault Bool := return (← s.peek).kind = kind

/-- Read a token of the given kind. -/
def expect (s : Stream) (kind : Kind) : Scan (Token × Stream) := do
  let t ← s.peek
  if t.kind = kind then return (t, ← s.skip)
  else throw (.refused (.unexpectedToken (.token kind) t))

/-- The tokens that have been read since a stream was what it was before. -/
def passed (before after : Stream) : Except Fault (List Token) :=
  if after.length ≤ before.length then .ok (before.take (before.length - after.length))
  else .error .outOfRange

@[simp] theorem peek_cons (t : Token) (ts : List Token) : peek (t :: ts) = .ok t := rfl

@[simp] theorem atKind_nil (kind : Kind) : atKind [] kind = .error .outOfRange := rfl

@[simp] theorem atKind_cons (t : Token) (ts : List Token) (kind : Kind) :
    atKind (t :: ts) kind = .ok (t.kind = kind) := rfl

theorem skip_cons_of_ne {t : Token} (h : t.kind ≠ .eof) (ts : List Token) :
    skip (t :: ts) = .ok ts := by
  simp [skip, h]

@[simp] theorem passed_append (ts : List Token) (s : Stream) : passed (ts ++ s) s = .ok ts := by
  simp [passed]

/-- Tokens that end with an `eof` are closed already. -/
theorem close_append_of_eof (tokens : List Token) {last : Token} (h : last.kind = .eof) :
    close (tokens ++ [last]) = .ok (tokens ++ [last]) := by
  simp [close, h]

end Stream

/-- The integer that a token writes. -/
def Token.integer (t : Token) : Except ParseError Int :=
  match Text.integer? t.text with
  | some i => .ok i
  | none => .error (.malformedInteger t.text t.span)

end TemporalCheck
