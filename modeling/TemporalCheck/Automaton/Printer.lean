import TemporalCheck.Automaton
import TemporalCheck.Text.Layout

/-!
# TemporalCheck.Automaton.Printer

Automata as text: a listing for the terminal and a description of a drawing.
-/

namespace TemporalCheck.Automaton

open Text

/-! ## Listings

A line for each state: a mark for initial states, the number, the literals, the successors from
column 20 on and the label from column 40 on, and behind the states a line for each accept set. -/

/-- A letter for a variable without a name. -/
def varLetter (v : Nat) : String :=
  if v < 26 then (Char.ofNat ('a'.toNat + v)).toString else "?"

/-- The name of a variable in a listing. -/
def varName (vars : Vars) (v : Nat) : String := (vars.name? v).getD (varLetter v)

/-- A literal in a listing; a star marks a variable that has to hold and must not. -/
def renderLiteral (vars : Vars) (st : AutomatonState) (v : Nat) : String :=
  (if v ∈ st.forbidden then if v ∈ st.required then "*" else "!" else "") ++ varName vars v

/-- The line of a state. -/
def renderState (b : Automaton) (vars : Vars) (s : Nat) (st : AutomatonState) : String :=
  let literals := (st.required.union st.forbidden).toList.map (renderLiteral vars st)
  let line := (if s ∈ b.initial then ">" else " ") ++ alignRight 3 (toString s) ++ ": " ++
    ",".intercalate literals
  let line := fillTo 20 line ++ String.join (st.next.map fun t => toString t ++ " ")
  match st.label with
  | some label => fillTo 40 line ++ label
  | none => line

/-- The listing of an automaton.  Variables beyond the table are named by letters. -/
def render (b : Automaton) (vars : Vars) : String :=
  String.join (b.states.toList.zipIdx.map fun (st, s) => b.renderState vars s st ++ "\n") ++
  (if b.acceptSets.isEmpty then "" else " --- accept sets ---\n") ++
  String.join (b.acceptSets.map fun set =>
    " (" ++ " ".intercalate (set.toList.map fun s => toString s) ++ ")\n")

/-! ## Drawings

A directed graph in the dot language.  An arrow from nowhere marks each initial state, and the
states of the first accept set have double circles. -/

/-- The arrow from nowhere to an initial state. -/
def entryArrow (name : String) (number : Nat) : String :=
  let origin := "invis" ++ toString number
  origin ++ " [label = \"\", shape = none, height = 0, width = 0]\n" ++
    origin ++ " -> \"" ++ name ++ "\"\n"

/-- The node of a state in a drawing.  The variables have to be in the table. -/
def drawState (b : Automaton) (vars : Vars) (s : Nat) (st : AutomatonState) :
    Except Fault String := do
  let required ← st.required.toList.mapM vars.name
  let forbidden ← st.forbidden.toList.mapM fun v => return "!" ++ (← vars.name v)
  let shape := if b.accepts s then "doublecircle" else "circle"
  return "\"" ++ toString s ++ "\" [shape = " ++ shape ++ ", xlabel = \"" ++
    " ".intercalate (required ++ forbidden) ++ "\"]\n"

/-- The edges from a state in a drawing, each target once. -/
def drawEdges (s : Nat) (st : AutomatonState) : String :=
  String.join (st.next.eraseDups.map fun t =>
    "\"" ++ toString s ++ "\" -> \"" ++ toString t ++ "\"\n")

/-- The description of a drawing with a given name. -/
def toDot (b : Automaton) (name : String) (vars : Vars) : Except Fault String := do
  let states := b.states.toList.zipIdx
  let nodes ← states.mapM fun (st, s) => b.drawState vars s st
  return "digraph " ++ name ++ " \x7b\n" ++
    String.join (b.initial.zipIdx.map fun (s, i) => entryArrow (toString s) i) ++
    String.join nodes ++ String.join (states.map fun (st, s) => drawEdges s st) ++ "\x7d"

end TemporalCheck.Automaton
