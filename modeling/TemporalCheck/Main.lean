import TemporalCheck.Command.Check
import TemporalCheck.Command.Draw
import TemporalCheck.Text.Layout
import TemporalCheck.Text.Table

/-!
# TemporalCheck.Main

The program.  Called as `draw` it draws the automata of a formula, under any other name it checks
inputs.
-/

namespace TemporalCheck

/-- All bytes of the standard input. -/
partial def readStdin : IO (List UInt8) := do
  let stdin ← IO.getStdin
  let rec go (bytes : ByteArray) : IO ByteArray := do
    let chunk ← stdin.read 65536
    if chunk.isEmpty then return bytes else go (bytes ++ chunk)
  return (← go .empty).toList

/-- The text in a file, if it can be read. -/
def readText? (name : String) : IO (Option String) := do
  try return Text.decode? (← IO.FS.readBinFile name).toList
  catch _ => return none

/-- Report a fault. -/
def reportFault (fault : Fault) : IO UInt32 := do
  IO.eprintln (fault.message?.getD "a number is out of range")
  return 101

/-- Check the files named in the arguments, or the standard input. -/
def checkMain (arguments : List String) : IO UInt32 := do
  let files ← (match Command.request? arguments with
    | some (.check _ files) => files.mapM fun name => return (name, ← readText? name)
    | _ => pure [])
  let stdin? ← if files.isEmpty then Text.decode? <$> readStdin else pure none
  match Command.check Text.renderTable arguments (fun name => (files.lookup name).join) stdin? with
  | .ok result =>
    IO.print result.output
    return UInt32.ofNat result.status
  | .error fault => reportFault fault

/-- Draw the automata of a formula read from the standard input. -/
def drawMain : IO UInt32 := do
  match Command.draw (Text.lines (← readStdin)) with
  | .ok result =>
    if !result.drawings.isEmpty then IO.FS.createDirAll Command.drawingFolder
    for (name, text) in result.drawings do
      IO.FS.writeFile (Command.drawingFolder ++ "/" ++ Command.drawingFile name) text
    IO.print result.output
    return UInt32.ofNat result.status
  | .error fault => reportFault fault

end TemporalCheck

/-- The program, which does the job it is called by. -/
def main (arguments : List String) : IO UInt32 := do
  if (← IO.appPath).fileStem = some "draw" then TemporalCheck.drawMain
  else TemporalCheck.checkMain arguments
