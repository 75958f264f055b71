import TemporalCheck.Automaton.Degeneralize
import TemporalCheck.Automaton.Printer
import TemporalCheck.Automaton.Reduce
import TemporalCheck.Tableau
import TemporalCheck.Text.Character

/-!
# TemporalCheck.Command.Draw

The command that draws the automata of a formula.  It asks for a linear-time formula until a line
holds one, then lists the automata built from it and writes drawings of them.  The exit status is
0 on success and 1 if the input ends, cannot be read, or holds a formula of another logic.
-/

namespace TemporalCheck.Command

open Text

/-- The end of the drawing command: its exit status, what it wrote, and the drawings by name. -/
structure DrawResult where
  status : Nat
  output : String
  drawings : List (String × String) := []
deriving DecidableEq

/-- The folder in which drawings are kept. -/
def drawingFolder : String := "graphviz_output"

/-- The file of a drawing. -/
def drawingFile (name : String) : String := name ++ ".dot"

/-- The line that says where a drawing was written to. -/
def wroteLine (title name : String) : String :=
  "Wrote " ++ title ++ " to " ++ drawingFolder ++ "/" ++ drawingFile name ++ "\n"

/-- List and draw the automata of a linear-time formula. -/
def drawFormula (f : Formula) : Work (String × List (String × String)) := do
  let normal ← f.normalized
  let text ← normal.renderTyped (← get)
  let general ← Tableau.construct normal.root
  let vars := (← get).vars
  let ordinary := general.degeneralize
  let reduced ← ordinary.reduce
  let output := "Reduced formula: " ++ text ++ "\n" ++
    "\nGBA (" ++ toString general.acceptSets.length ++ " accept sets):\n" ++
    general.render vars ++ "\n" ++ wroteLine "GBA" "gba" ++ wroteLine "NBA" "nba" ++
    "\nReduced NBA:\n" ++ reduced.render vars ++ "\n" ++ wroteLine "reduced NBA" "nba_reduced"
  return (output, [
    ("gba", ← general.toDot "gba" vars),
    ("nba", ← ordinary.toDot "nba" vars),
    ("nba_reduced", ← reduced.toDot "nba_reduced" vars)])

/-- What the command asks before it reads a line. -/
def question : String := "Please enter the desired LTL formula: "

/-- Draw the formula of the first line that holds one; `none` is a line that cannot be read.
`output` has been written before, the question for the first line included. -/
def drawFrom (c : Context) (output : String) : List (Option String) → Except Fault DrawResult
  | [] | none :: _ => return { status := 1, output }
  | some line :: lines => do
    let (result, c) ← (Formula.parse (trimBlanks line)).run c
    match result with
    | .error error =>
      let refusal := "Please enter a valid formula: " ++ error.message ++ "\n"
      drawFrom c (output ++ refusal ++ question) lines
    | .ok f =>
      if f.isLinear then
        let ((text, drawings), _) ← (drawFormula f).run c
        return { status := 0, output := output ++ text, drawings }
      else return { status := 1, output }

/-- Run the command on the lines of the standard input. -/
def draw (lines : List (Option String)) : Except Fault DrawResult := drawFrom {} question lines

end TemporalCheck.Command
