import TemporalCheck.Session

/-!
# TemporalCheck.Command.Check

The command that checks inputs.  Its arguments are flags and names of files, in any order.  A flag
is written with two dashes and a word or with one dash and a letter; letters may be put together
behind one dash.  Behind `--` every argument is a file name, and `-` alone is one everywhere.  No
flag may be given twice.

All files are worked through in one session; without files the standard input is.  The exit status
is 0 on success, 1 if an input cannot be read or ends in an error, and 2 if the arguments are not
understood.
-/

namespace TemporalCheck.Command

/-- The flags of the command. -/
inductive Flag where
  | buchi
  | echo
  | mark
  | paren
  | reduced
  | verbose
deriving DecidableEq

namespace Flag

/-- All flags. -/
def all : List Flag := [.buchi, .echo, .mark, .paren, .reduced, .verbose]

/-- The word of a flag. -/
def word : Flag → String
  | .buchi => "buchi"
  | .echo => "echo"
  | .mark => "mark"
  | .paren => "paren"
  | .reduced => "reduced"
  | .verbose => "verbose"

/-- The letter of a flag. -/
def letter : Flag → Char
  | .buchi => 'b'
  | .echo => 'e'
  | .mark => 'm'
  | .paren => 'p'
  | .reduced => 'r'
  | .verbose => 'v'

end Flag

/-- What the arguments ask for. -/
inductive Request where
  /-- Show the version of the program. -/
  | version
  /-- Check some files, or the standard input if there are none. -/
  | check (flags : List Flag) (files : List String)
deriving DecidableEq

/-- Some flags and files, with more of either to come. -/
structure Arguments where
  flags : List Flag := []
  files : List String := []

/-- What one argument does to those before it: it is refused, it ends the reading, or it adds to
them. -/
inductive ArgumentStep where
  | refused
  | version
  | goOn (args : Arguments)

namespace Arguments

/-- Add a flag that has not been given. -/
def addFlag (a : Arguments) (flag : Flag) : ArgumentStep :=
  if flag ∈ a.flags then .refused else .goOn { a with flags := a.flags ++ [flag] }

/-- Add a file, whose name must not be empty. -/
def addFile (a : Arguments) (name : String) : ArgumentStep :=
  if name = "" then .refused else .goOn { a with files := a.files ++ [name] }

/-- Add the flags of some letters. -/
def addLetters (a : Arguments) : List Char → ArgumentStep
  | [] => .goOn a
  | 'V' :: _ => .version
  | c :: cs =>
    match Flag.all.find? (·.letter = c) with
    | none => .refused
    | some flag =>
      match a.addFlag flag with
      | .goOn a => a.addLetters cs
      | stop => stop

/-- Add the flag of a word. -/
def addWord (a : Arguments) (word : String) : ArgumentStep :=
  if word = "version" then .version
  else
    match Flag.all.find? (·.word = word) with
    | none => .refused
    | some flag => a.addFlag flag

/-- Add one argument. -/
def add (a : Arguments) (argument : String) : ArgumentStep :=
  match argument.toList with
  | '-' :: '-' :: word => a.addWord (String.ofList word)
  | '-' :: c :: cs => a.addLetters (c :: cs)
  | _ => a.addFile argument

/-- Add arguments that are all file names. -/
def addFiles (a : Arguments) : List String → Option Request
  | [] => some (.check a.flags a.files)
  | name :: names =>
    match a.addFile name with
    | .goOn a => a.addFiles names
    | _ => none

/-- Add arguments. -/
def addAll (a : Arguments) : List String → Option Request
  | [] => some (.check a.flags a.files)
  | argument :: rest =>
    if argument = "--" then a.addFiles rest
    else
      match a.add argument with
      | .refused => none
      | .version => some .version
      | .goOn a => a.addAll rest

end Arguments

/-- What some arguments ask for; `none` if they are not understood. -/
def request? (arguments : List String) : Option Request := Arguments.addAll {} arguments

/-- What a session shows under some flags. -/
def sessionOptions (flags : List Flag) : SessionOptions where
  showAutomata := .buchi ∈ flags
  verbose := .verbose ∈ flags
  showMarks := .mark ∈ flags
  showNormal := .reduced ∈ flags
  echo := .echo ∈ flags
  allParens := .paren ∈ flags
  fullTraces := .verbose ∈ flags

/-- The end of a command: its exit status and what it wrote. -/
structure Result where
  status : Nat
  output : String
deriving DecidableEq

/-- Work through some inputs in a session; `none` is an input that cannot be read. -/
def checkInputs (s : Session) : List (Option String) → Except Fault Result
  | [] => do
    let (result, s) ← s.finish
    match result with
    | .ok _ => return ⟨0, s.output.text⟩
    | .error _ => return ⟨1, s.output.text⟩
  | none :: _ => return ⟨1, s.output.text⟩
  | some source :: rest => do
    let (result, s) ← s.run source
    match result with
    | .ok _ => checkInputs s rest
    | .error _ => return ⟨1, s.output.text⟩

/-- Run the command.  `table` is the style in which tables are drawn, `file?` gives the contents of
a file, if it is a readable text, and `stdin?` those of the standard input. -/
def check (table : TableStyle) (arguments : List String) (file? : String → Option String)
    (stdin? : Option String) : Except Fault Result :=
  match request? arguments with
  | none => return ⟨2, ""⟩
  | some .version => return ⟨0, "mch 0.1.0\n"⟩
  | some (.check flags files) =>
    let inputs := if files.isEmpty then [stdin?] else files.map file?
    checkInputs (.ofOptions (sessionOptions flags) table {}) inputs

end TemporalCheck.Command
