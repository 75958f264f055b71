import TemporalCheck.Automaton.Printer
import TemporalCheck.Branching
import TemporalCheck.Linear
import TemporalCheck.Model.Reader
import TemporalCheck.Text.Layout

/-!
# TemporalCheck.Session

Working through an input.  An input is a sequence of items:

* `{ … }` defines a model and forgets everything before it;
* a formula is checked against the current model, if there is one;
* `? f : g` compares two formulas.

Each item is read, carried out and reported before the next one is looked at.  The first item that
cannot be read ends the input, but what was done before stays done, and the session can go on with
another input.  Behind every item the formulas that are no longer needed are thrown away.
-/

namespace TemporalCheck

open Text

/-- What a session is asked to show. -/
structure SessionOptions where
  /-- Show the automata of linear-time checks and of comparisons. -/
  showAutomata : Bool := false
  /-- Show models as they are defined, a table of the subformulas that hold in each state, and the
  products of comparisons. -/
  verbose : Bool := false
  /-- Show the marks of branching-time checks as they are made. -/
  showMarks : Bool := false
  /-- Show the normal form of each formula. -/
  showNormal : Bool := false
  /-- Show each item before its results. -/
  echo : Bool := false
  /-- Show every parenthesis. -/
  allParens : Bool := false
  /-- Do not shorten counterexamples. -/
  fullTraces : Bool := false
deriving DecidableEq, Inhabited

/-! ## Output -/

/-- Text that has been written, and how many more bytes can be. -/
structure Output where
  text : String := ""
  /-- The bytes that can still be written; `none` if there is no limit. -/
  room : Option Nat := none
deriving DecidableEq, Inhabited

/-- Write a text.  If there is not enough room for it, what fits is written and the answer is
`false`. -/
def Output.write (o : Output) (s : String) : Bool × Output :=
  match o.room with
  | none => (true, { o with text := o.text ++ s })
  | some room =>
    if s.utf8ByteSize ≤ room then (true, ⟨o.text ++ s, some (room - s.utf8ByteSize)⟩)
    else (false, ⟨o.text ++ String.ofList (fitting room s.toList), some 0⟩)

/-- How a table is drawn, given its header and its rows. -/
abbrev TableStyle := List String → List (List String) → String

/-! ## Sessions -/

/-- The state of a session. -/
structure Session where
  options : SessionOptions := {}
  /-- How the table of subformulas is drawn. -/
  table : TableStyle
  context : Context := {}
  model : Model := .empty
  /-- Whether the current model has been put to use or shown. -/
  modelUsed : Bool := false
  output : Output := {}

namespace Session

/-- A new session that draws tables in the given style and writes to the given output. -/
def ofOptions (options : SessionOptions) (table : TableStyle) (output : Output) : Session where
  options
  table
  context := { allParens := options.allParens }
  output

/-- Operations on a session. -/
abbrev Action := ExceptT Error (StateT Session (Except Fault))

/-- Carry out an attempt on the context of the session. -/
def attempt {α : Type} (a : Attempt α) : Action α := fun s => do
  let (result, context) ← a s.context
  return (result, { s with context })

/-- Carry out an attempt and look at how it ended. -/
def tryAttempt {α : Type} (a : Attempt α) : Action (Except Error α) := fun s => do
  let (result, context) ← a s.context
  return (.ok result, { s with context })

/-- Write a line. -/
def say (line : String) : Action Unit := do
  let s ← get
  let (written, output) := s.output.write (line ++ "\n")
  set { s with output }
  if !written then throw .output

/-- The text of a formula behind the letters that tell its family. -/
def typed (f : Formula) : Action String := do f.renderTyped (← get).context

/-- Write the tokens that lie between two streams, if items are to be shown. -/
def echo (before after : Stream) : Action Unit := do
  if (← get).options.echo then
    let passed ← before.passed after
    say (" ".intercalate (passed.map Token.text))

/-- The longest line that is written in full. -/
def maxLine : Nat := 75

/-- Shorten a line, unless long ones are asked for. -/
def shortened (line : String) : Action String := do
  let options := (← get).options
  return if options.fullTraces || options.verbose then line else shorten maxLine line

/-- Write the listing of an automaton under a title. -/
def sayAutomaton (title : String) (b : Automaton) : Action Unit := do
  say (title ++ " automaton:\n" ++ b.render (← get).context.vars)

/-- Write warnings about variables. -/
def sayUnused (names : List String) : Action Unit :=
  names.forM fun name => say ("Warning: Variable '" ++ name ++ "' not used in model")

/-! ## Models -/

/-- Read and take over a model definition. -/
def defineModel (s : Stream) : Action Stream := do
  modify fun σ => { σ with model := .empty, context := σ.context.clear, modelUsed := false }
  let (result, vars) ← Model.read (← get).context.vars s
  modify fun σ => { σ with context := { σ.context with vars } }
  match result with
  | .error error => throw error
  | .ok (model, rest) =>
    modify fun σ => { σ with model }
    echo s rest
    say ("Parsed model, " ++ toString model.size ++ " states\n")
    if (← get).options.verbose then
      say model.render
      modify fun σ => { σ with modelUsed := true }
    return rest

/-! ## Formulas -/

/-- Check a linear-time formula and report. -/
def checkLinear (f : Formula) : Action Unit := do
  let checked ← attempt (Linear.check (← get).model f)
  sayUnused checked.unused
  if (← get).options.showAutomata then
    sayAutomaton "Formula" checked.formula
    sayAutomaton "Model" checked.model
    sayAutomaton "Product" checked.product
  say ((← shortened checked.verdict.render) ++ "\n")

/-- The row of a state in the table of subformulas: its name, and an `x` under each subformula that
holds. -/
def marksRow (m : Model) (checked : Branching.Check) (s : Nat) : Except Fault (List String) :=
  return toString (← m.name s) :: checked.marks.map fun marks => if s ∈ marks then "x" else ""

/-- Write the table of the subformulas that hold in each state. -/
def sayMarks (checked : Branching.Check) : Action Unit := do
  let σ ← get
  let rows ← (List.range σ.model.size).mapM fun s => liftM (marksRow σ.model checked s)
  say (σ.table ("State" :: checked.subformulas) rows ++ "\n")

/-- Check a branching-time formula and report. -/
def checkBranching (f : Formula) : Action Unit := do
  let checked ← attempt (Branching.check (← get).model f (← get).options.showMarks)
  sayUnused checked.unused
  checked.progress.forM say
  if (← get).options.verbose then sayMarks checked
  say (checked.verdict.render ++ "\n")

/-- Read a formula and check it. -/
def checkFormula (s : Stream) : Action Stream := do
  modify fun σ => { σ with modelUsed := σ.model.isDefined }
  let (f, rest) ← attempt (Formula.read s)
  echo s rest
  say (← typed f)
  if (← get).options.showNormal then
    let normal ← attempt f.normalized
    say (← typed normal)
  if (← get).model.isDefined then
    if f.isLinear then checkLinear f
    else if f.isBranching then checkBranching f
    else say "(cannot check mixed CTL/LTL formula...)\n"
  return rest

/-! ## Comparisons -/

/-- Read a token of the given kind. -/
def expect (s : Stream) (kind : Kind) : Action Stream :=
  return (← attempt (liftM (s.expect kind))).2

/-- Write one of two formulas to be compared, behind eleven columns. -/
def sayCompared (title : String) (f : Formula) : Action Unit := do
  say (title ++ (← typed f))
  if (← get).options.showNormal then
    let normal ← attempt f.normalized
    say (spaces 11 ++ (← typed normal))

/-- Report one direction of a comparison.  `isFirst` says whether it is the first in which a run
was found. -/
def sayPass (name : String) (pass : Linear.Pass) (isFirst : Bool) : Action Unit := do
  let options := (← get).options
  if options.showAutomata then
    sayAutomaton "First" pass.first
    sayAutomaton "Second" pass.second
  if options.showAutomata || options.verbose then
    sayAutomaton "Product" pass.product
  match pass.allows with
  | none => return
  | some trace =>
    if isFirst then say "Not equivalent."
    say ("\n" ++ (← shortened (name ++ " allows: " ++ trace.render)))

/-- Report a comparison. -/
def sayComparison (c : Linear.Comparison) : Action Unit := do
  sayPass " first" c.first true
  sayPass "second" c.second c.first.allows.isNone
  if c.isEquivalence then say "Equivalent."
  say ""

/-- Read two formulas and compare them.  Formulas that cannot be compared are reported, and the
session goes on. -/
def compareFormulas (s : Stream) : Action Stream := do
  modify fun σ => { σ with modelUsed := σ.model.isDefined }
  let rest ← expect s .compare
  let (f, rest) ← attempt (Formula.read rest)
  let rest ← expect rest .against
  let (g, rest) ← attempt (Formula.read rest)
  echo s rest
  sayCompared "Comparing: " f
  sayCompared "     with: " g
  say ""
  match ← tryAttempt (Linear.compare f g) with
  | .ok comparison => sayComparison comparison
  | .error error => say ("(" ++ error.message ++ ")\n")
  return rest

/-! ## Inputs -/

/-- Read and carry out one item. -/
def item (s : Stream) : Action Stream := do
  match (← s.peek).kind with
  | .modelOpen => defineModel s
  | .compare => compareFormulas s
  | _ => checkFormula s

/-- Throw away the formulas that are not pinned. -/
def collect : Action Unit := do
  let s ← get
  let (_, forest) ← s.context.forest.collect []
  set { s with context := { s.context with forest } }

/-- Carry out the items of a stream, at most `count` of them. -/
def items : (count : Nat) → Stream → Action Unit
  | 0, _ => return
  | n + 1, s => do
    if ← s.atKind .eof then return
    let rest ← item s
    collect
    items n rest

/-- Work through an input.  Every item takes a token at least, so there are no more items than
tokens. -/
def input (source : String) : Action Unit := do
  let s ← attempt (Stream.ofText source)
  items s.length s

/-- Work through an input and give the session as it is afterwards. -/
def run (s : Session) (source : String) : Except Fault (Except Error Unit × Session) :=
  (input source).run s

/-- Show a model that was neither used nor shown. -/
def closing : Action Unit := do
  let s ← get
  if !s.modelUsed && s.model.isDefined then say s.model.render

/-- End a session. -/
def finish (s : Session) : Except Fault (Except Error Unit × Session) := closing.run s

end Session

end TemporalCheck
