import TemporalCheck.Forest.Build

/-!
# TemporalCheck.Normal.Rule

Rules that replace one formula by another.  A rule is a pattern and a template: where the pattern
matches a node, the template is stored in its place, with the operands that the pattern left open.
Open operands are numbered from left to right.

Two tables of rules bring formulas into the forms that the checkers work on:

* `Rule.linear` pushes negations down to the atoms, over `T`, `B`, `!`, `&`, `|`, `U`, `R`, `X`;
* `Rule.branching` leaves `B`, `!`, `&`, `AF`, `EX` and `E[ U ]`.
-/

namespace TemporalCheck

/-! ## Patterns -/

/-- What the left side of a rule looks like. -/
inductive Pattern where
  /-- Any formula, which is left open. -/
  | any
  | top
  | unary (op : UnaryOp) (arg : Pattern)
  | binary (op : BinaryOp) (left right : Pattern)
deriving DecidableEq, Inhabited

/-- Whether a pattern matches a node, and the open operands that were met, behind those in
`bound`.  They are kept where the match fails later. -/
def Pattern.bind (f : Forest) : Pattern → (id : NodeId) → (bound : List NodeId) →
    Except Fault (Bool × List NodeId)
  | .any, id, bound => do
    let _ ← f.get id
    return (true, bound ++ [id])
  | .top, id, bound => do
    match ← f.get id with
    | .top => return (true, bound)
    | _ => return (false, bound)
  | .unary op arg, id, bound => do
    match ← f.get id with
    | .unary op' a => if op = op' then arg.bind f a bound else return (false, bound)
    | _ => return (false, bound)
  | .binary op left right, id, bound => do
    match ← f.get id with
    | .binary op' a b =>
      if op = op' then
        let (matched, bound) ← left.bind f a bound
        if matched then right.bind f b bound else return (false, bound)
      else return (false, bound)
    | _ => return (false, bound)

/-! ## Templates -/

/-- What the right side of a rule looks like. -/
inductive Template where
  /-- The open operand with this number. -/
  | operand (i : Nat)
  | top
  | bottom
  | unary (op : UnaryOp) (arg : Template)
  | binary (op : BinaryOp) (left right : Template)
  /-- The same, except that the right operand is stored before the left one. -/
  | binaryRightFirst (op : BinaryOp) (left right : Template)
deriving DecidableEq

/-- Store a template over some operands. -/
def Template.build (bound : List NodeId) : Template → Build NodeId
  | .operand i =>
    match bound[i]? with
    | some id => return id
    | none => throw .outOfRange
  | .top => Build.add .top
  | .bottom => Build.add .bottom
  | .unary op arg => do
    let arg ← arg.build bound
    Build.add (.unary op arg)
  | .binary op left right => do
    let left ← left.build bound
    let right ← right.build bound
    Build.add (.binary op left right)
  | .binaryRightFirst op left right => do
    let right ← right.build bound
    let left ← left.build bound
    Build.add (.binary op left right)

/-- The tree that a template stands for over some trees. -/
def Template.tree? (bound : List Expr) : Template → Option Expr
  | .operand i => bound[i]?
  | .top => some .top
  | .bottom => some .bottom
  | .unary op arg => return .unary op (← arg.tree? bound)
  | .binary op left right | .binaryRightFirst op left right =>
    return .binary op (← left.tree? bound) (← right.tree? bound)

/-- The pattern of a negation. -/
abbrev Pattern.neg (p : Pattern) : Pattern := .unary .not p

/-- The template of a negation. -/
abbrev Template.neg (t : Template) : Template := .unary .not t

/-- The first open operand. -/
abbrev Template.a : Template := .operand 0

/-- The second open operand. -/
abbrev Template.b : Template := .operand 1

/-! ## Rules -/

/-- A rule that replaces one formula by another. -/
structure Rule where
  name : String
  pattern : Pattern
  result : Template
deriving DecidableEq

namespace Rule

/-- `!!a` is `a`. -/
def doubleNegation : Rule := ⟨"double negation", .neg (.neg .any), .a⟩

/-- Rules towards negation normal form over `T`, `B`, `!`, `&`, `|`, `U`, `R`, `X`. -/
def linear : List Rule := [
  doubleNegation,
  ⟨"implication", .binary .implies .any .any, .binary .or (.neg .a) .b⟩,
  ⟨"weak until", .binary .weakUntil .any .any, .binary .release .b (.binary .or .a .b)⟩,
  ⟨"future", .unary .future .any, .binary .until .top .a⟩,
  ⟨"global", .unary .global .any, .binary .release .bottom .a⟩,
  ⟨"negated and", .neg (.binary .and .any .any), .binary .or (.neg .a) (.neg .b)⟩,
  ⟨"negated or", .neg (.binary .or .any .any), .binary .and (.neg .a) (.neg .b)⟩,
  ⟨"negated until", .neg (.binary .until .any .any), .binary .release (.neg .a) (.neg .b)⟩,
  ⟨"negated release", .neg (.binary .release .any .any), .binary .until (.neg .a) (.neg .b)⟩,
  ⟨"negated next", .neg (.unary .next .any), .unary .next (.neg .a)⟩]

/-- Rules towards the connectives `B`, `!`, `&`, `AF`, `EX` and `E[ U ]`. -/
def branching : List Rule := [
  doubleNegation,
  ⟨"implication", .binary .implies .any .any, .neg (.binary .and .a (.neg .b))⟩,
  ⟨"or", .binary .or .any .any, .neg (.binary .and (.neg .a) (.neg .b))⟩,
  ⟨"all until", .binary .allUntil .any .any,
    .binary .and
      (.neg (.binaryRightFirst .existsUntil (.neg .b) (.binary .and (.neg .a) (.neg .b))))
      (.unary .allFinally .b)⟩,
  ⟨"true", .top, .neg .bottom⟩,
  ⟨"always globally", .unary .allGlobally .any,
    .neg (.binary .existsUntil (.neg .bottom) (.neg .a))⟩,
  ⟨"exists globally", .unary .existsGlobally .any, .neg (.unary .allFinally (.neg .a))⟩,
  ⟨"exists future", .unary .existsFinally .any, .binary .existsUntil (.neg .bottom) .a⟩,
  ⟨"all next", .unary .allNext .any, .neg (.unary .existsNext (.neg .a))⟩]

/-- The rules of a table with the given names, in the order of the names. -/
def select (rules : List Rule) (names : List String) : List Rule :=
  names.filterMap fun name => rules.find? (·.name = name)

/-- The table for formulas of some logics: that of linear time if the formula belongs to it, else
that of branching time if it belongs to that, else none. -/
def table (u : Usage) : List Rule :=
  if !u.branching then linear else if !u.linear then branching else []

end Rule

end TemporalCheck
