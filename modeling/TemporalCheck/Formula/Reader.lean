import TemporalCheck.Formula.Expr
import TemporalCheck.Token.Stream

/-!
# TemporalCheck.Formula.Reader

Reading a formula from tokens.  The grammar has four layers, the loosest first:

```text
implication := junction ( '->' implication )?
junction    := temporal ( ('&' | '|') temporal )*
temporal    := operand ( ('U' | 'R' | 'W') temporal )?
operand     := unary-operator operand | atom
atom        := 'A[' operand 'U' temporal ']' | 'E[' operand 'U' temporal ']'
             | '(' implication ')' | variable | 'T' | 'B'
```

Implication and the temporal operators group to the right; conjunction and disjunction bind
equally and group to the left.  Reading stops at the first token that cannot go on with the
formula, and hands back the tokens from there.
-/

namespace TemporalCheck

/-- Why no formula could be read, and the operands that had been read completely before that,
from left to right. -/
structure ReadFailure where
  cause : ParseError
  finished : List Expr := []

/-- Reading a formula, which may fail. -/
abbrev Reading := Refusable ReadFailure

/-- A failure behind some operands that were read completely. -/
def ReadFailure.behind (done : List Expr) (f : ReadFailure) : ReadFailure :=
  { f with finished := done ++ f.finished }

/-- The prefix operator that a token is. -/
def Kind.unaryOp? : Kind → Option UnaryOp
  | .negation => some .not
  | .next => some .next
  | .future => some .future
  | .global => some .global
  | .allGlobally => some .allGlobally
  | .existsGlobally => some .existsGlobally
  | .allFinally => some .allFinally
  | .existsFinally => some .existsFinally
  | .allNext => some .allNext
  | .existsNext => some .existsNext
  | _ => none

/-- The operator of the layer `junction` that a token is. -/
def Kind.junctionOp? : Kind → Option BinaryOp
  | .and => some .and
  | .or => some .or
  | _ => none

/-- The operator of the layer `temporal` that a token is. -/
def Kind.temporalOp? : Kind → Option BinaryOp
  | .until => some .until
  | .release => some .release
  | .weakUntil => some .weakUntil
  | _ => none

/-- The quantified until that a token opens. -/
def Kind.quantifiedOp? : Kind → Option BinaryOp
  | .allUntil => some .allUntil
  | .existsUntil => some .existsUntil
  | _ => none

/-- The formula that a single token is. -/
def Token.atom? (t : Token) : Option Expr :=
  match t.kind with
  | .proposition => some (.prop t.text)
  | .top => some .top
  | .bottom => some .bottom
  | _ => none

/-- What is being read: a formula of some layer, or the rest of a junction whose first operands
are known. -/
inductive Layer where
  | implication
  | junction
  | junctionFrom (left : Expr)
  | temporal
  | operand

namespace Stream

/-- Read a token of the given kind behind some operands. -/
def expectBehind (s : Stream) (kind : Kind) (done : List Expr) : Reading Stream := do
  let (_, rest) ← (s.expect kind).mapError (.map (⟨·, done⟩))
  return rest

/-- Read a formula of a layer, and give what is left behind it.  `fuel` bounds the depth of the
recursion. -/
def readLayer : (fuel : Nat) → Layer → Stream → Reading (Expr × Stream)
  | 0, _, s => do throw (.refused { cause := .unexpectedToken .formula (← s.peek) })
  | n + 1, .implication, s => do
    let (left, s) ← readLayer n .junction s
    if ← s.atKind .implies then
      let (right, s) ← (readLayer n .implication (← s.skip)).mapError (.map (.behind [left]))
      return (.binary .implies left right, s)
    else return (left, s)
  | n + 1, .junction, s => do
    let (left, s) ← readLayer n .temporal s
    readLayer n (.junctionFrom left) s
  | n + 1, .junctionFrom left, s => do
    match (← s.peek).kind.junctionOp? with
    | none => return (left, s)
    | some op =>
      let (right, s) ← (readLayer n .temporal (← s.skip)).mapError (.map (.behind [left]))
      readLayer n (.junctionFrom (.binary op left right)) s
  | n + 1, .temporal, s => do
    let (left, s) ← readLayer n .operand s
    match (← s.peek).kind.temporalOp? with
    | none => return (left, s)
    | some op =>
      let (right, s) ← (readLayer n .temporal (← s.skip)).mapError (.map (.behind [left]))
      return (.binary op left right, s)
  | n + 1, .operand, s => do
    let t ← s.peek
    match t.kind.unaryOp?, t.kind.quantifiedOp?, t.atom? with
    | some op, _, _ =>
      let (arg, s) ← readLayer n .operand (← s.skip)
      return (.unary op arg, s)
    | none, some op, _ =>
      let (left, s) ← readLayer n .operand (← s.skip)
      let s ← s.expectBehind .until [left]
      let (right, s) ← (readLayer n .temporal s).mapError (.map (.behind [left]))
      let s ← s.expectBehind .untilEnd [left, right]
      return (.binary op left right, s)
    | none, none, some atom => return (atom, ← s.skip)
    | none, none, none =>
      if t.kind = .parenOpen then
        let (inner, s) ← readLayer n .implication (← s.skip)
        let s ← s.expectBehind .parenClose [inner]
        return (inner, s)
      else throw (.refused { cause := .unexpectedToken .formula t })

/- Four layers may be entered before a token is consumed, and a junction is picked up once more
after each of its operands, so five steps for each token suffice. -/

/-- Read a formula. -/
def readFormula (s : Stream) : Reading (Expr × Stream) :=
  readLayer (5 * s.length + 5) .implication s

end Stream

end TemporalCheck
