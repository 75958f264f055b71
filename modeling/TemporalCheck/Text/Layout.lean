/-!
# TemporalCheck.Text.Layout

Aligning and shortening the pieces of a printed line, and cutting bytes into lines.  Each line that
is read keeps the line break at its end, and lines are decoded one by one, so that a line is
readable whatever comes after it.
-/

namespace TemporalCheck.Text

/-! ## Pieces of a line -/

/-- A text of `n` spaces. -/
def spaces (n : Nat) : String := String.ofList (List.replicate n ' ')

/-- A text moved to the right of a field of `width` characters; a longer text is left as it is. -/
def alignRight (width : Nat) (s : String) : String := spaces (width - s.length) ++ s

/-- A line filled with spaces until it is `column` bytes long; a longer line is left as it is. -/
def fillTo (column : Nat) (line : String) : String := line ++ spaces (column - line.utf8ByteSize)

/-- A text of at most `max` characters: a longer one is cut and ends in three dots.  The dots are
written even where `max` has no room for them. -/
def shorten (max : Nat) (s : String) : String :=
  if s.length ≤ max then s else String.ofList (s.toList.take (max - 3)) ++ "..."

/-- The characters of a text that fit into `room` bytes, up to the first that does not. -/
def fitting : Nat → List Char → List Char
  | _, [] => []
  | room, c :: cs => if c.utf8Size ≤ room then c :: fitting (room - c.utf8Size) cs else []

/-! ## Lines -/

/-- Cut bytes behind every line break. -/
def splitLines : List UInt8 → List (List UInt8)
  | [] => []
  | b :: bs =>
    if b = 10 then [b] :: splitLines bs
    else
      match splitLines bs with
      | [] => [[b]]
      | line :: lines => (b :: line) :: lines

/-- The text that bytes encode, if they encode one. -/
def decode? (bytes : List UInt8) : Option String := String.fromUTF8? ⟨bytes.toArray⟩

/-- The lines that bytes encode; `none` where a line is not the encoding of a text. -/
def lines (bytes : List UInt8) : List (Option String) := (splitLines bytes).map decode?

end TemporalCheck.Text
