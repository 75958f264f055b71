/-!
# TemporalCheck.Token

The lexical units of the input language.  An input is a sequence of items, each a model
definition, a formula or a comparison of two formulas; all three are made of the tokens declared
here.  A token keeps its text and the place where it stands, so that input can be echoed and
errors can point at it.
-/

namespace TemporalCheck

/-- A stretch of the input: where it starts, in bytes and as line and column, and how many bytes
it takes.  Lines and columns count from one, columns in characters, and both have 32 bits: behind
the last number that fits, counting goes on with zero. -/
structure Span where
  offset : Nat := 0
  size : Nat := 0
  line : UInt32 := 0
  column : UInt32 := 0
deriving DecidableEq, Inhabited

/-- The line and column at which a stretch starts, as messages show them. -/
def Span.place (s : Span) : String := s!"{s.line}:{s.column}"

/-- The kinds of token. -/
inductive Kind where
  | negation
  | and
  | or
  | implies
  | until
  | release
  | weakUntil
  | next
  | future
  | global
  /-- `A[`, the start of an until on all paths. -/
  | allUntil
  /-- `E[`, the start of an until on some path. -/
  | existsUntil
  /-- `]`, the end of either. -/
  | untilEnd
  | allGlobally
  | existsGlobally
  | allFinally
  | existsFinally
  | allNext
  | existsNext
  | parenOpen
  | parenClose
  | proposition
  | top
  | bottom
  | integer
  | modelOpen
  | modelClose
  /-- `>`, the mark of an initial state. -/
  | initialMark
  /-- `?`, the start of a comparison. -/
  | compare
  /-- `:`, between the two formulas of a comparison. -/
  | against
  /-- The end of the input. -/
  | eof
deriving DecidableEq, Inhabited

/-- How messages name a kind of token. -/
def Kind.describe : Kind → String
  | .negation => "'!'"
  | .and => "'&'"
  | .or => "'|'"
  | .implies => "'->'"
  | .until => "'U'"
  | .release => "'R'"
  | .weakUntil => "'W'"
  | .next => "'X'"
  | .future => "'F'"
  | .global => "'G'"
  | .allUntil => "'A['"
  | .existsUntil => "'E['"
  | .untilEnd => "']'"
  | .allGlobally => "'AG'"
  | .existsGlobally => "'EG'"
  | .allFinally => "'AF'"
  | .existsFinally => "'EF'"
  | .allNext => "'AX'"
  | .existsNext => "'EX'"
  | .parenOpen => "'('"
  | .parenClose => "')'"
  | .proposition => "propositional variable"
  | .top => "'T'"
  | .bottom => "'B'"
  | .integer => "integer"
  | .modelOpen => "'\x7b'"
  | .modelClose => "'\x7d'"
  | .initialMark => "'>'"
  | .compare => "'?'"
  | .against => "':'"
  | .eof => "end of input"

/-- A token: its kind, the text it was written with and where it stands. -/
structure Token where
  kind : Kind
  text : String
  span : Span
deriving DecidableEq, Inhabited

/-- The token that ends an input at a given place. -/
def Token.finish (span : Span) : Token := ⟨.eof, "", { span with size := 0 }⟩

/-- The words with a meaning of their own; every other word is a variable. -/
def keywords : List (String × Kind) := [
  ("U", .until), ("R", .release), ("W", .weakUntil),
  ("X", .next), ("F", .future), ("G", .global),
  ("AG", .allGlobally), ("EG", .existsGlobally), ("AF", .allFinally), ("EF", .existsFinally),
  ("AX", .allNext), ("EX", .existsNext),
  ("T", .top), ("true", .top), ("B", .bottom), ("false", .bottom)]

/-- The kind of token that a word is. -/
def wordKind (word : String) : Kind := (keywords.lookup word).getD .proposition

end TemporalCheck
