import TemporalCheck.Fault
import TemporalCheck.Token

/-!
# TemporalCheck.Error

What can be wrong with an input or a request, as causes.  `message` holds the wording of each
cause and `span?` the place in the input it is about, where there is one.
-/

namespace TemporalCheck

/-- What a reader was looking for when it met another token. -/
inductive Expectation where
  | token (kind : Kind)
  | formula
deriving DecidableEq

/-- How messages name what was expected. -/
def Expectation.describe : Expectation → String
  | .token kind => kind.describe
  | .formula => "formula"

/-- Why a text could not be read. -/
inductive ParseError where
  | unexpectedToken (expected : Expectation) (found : Token)
  | malformedInteger (text : String) (span : Span)
  | unknownCharacter (found : Char) (span : Span)
deriving DecidableEq

namespace ParseError

/-- The place of the text that could not be read. -/
def span : ParseError → Span
  | .unexpectedToken _ found => found.span
  | .malformedInteger _ span => span
  | .unknownCharacter _ span => span

/-- The wording of the error. -/
def message : ParseError → String
  | .unexpectedToken expected found =>
    "unexpected token at " ++ found.span.place ++ ": expected " ++ expected.describe ++
      ", found " ++ found.kind.describe ++ " '" ++ found.text ++ "'"
  | .malformedInteger text span => "malformed integer '" ++ text ++ "' at " ++ span.place
  | .unknownCharacter found span =>
    "unknown character '" ++ found.toString ++ "' at " ++ span.place

end ParseError

/-- Reading, which may be refused for what is found. -/
abbrev Scan := Refusable ParseError

/-- Why a model is not well formed, or has no answer to a question about a state. -/
inductive ModelError where
  | duplicateState (name : Int) (span : Span)
  | unknownTransition (source target : Int) (span : Span)
  | unknownState (name : Int)
deriving DecidableEq

namespace ModelError

/-- The wording of the error. -/
def message : ModelError → String
  | .duplicateState name span =>
    "duplicate state definition: state " ++ toString name ++ " at " ++ span.place
  | .unknownTransition source target span =>
    "transition to unknown state: state " ++ toString source ++ " to " ++ toString target ++
      " at " ++ span.place
  | .unknownState name => "no state named " ++ toString name ++ " in the model"

end ModelError

/-- Why a check cannot be carried out.  The formulas are given as they print. -/
inductive CheckError where
  | notLinear (formula : String)
  | notBranching (formula : String)
  | undefinedModel
deriving DecidableEq

/-- The wording of the error. -/
def CheckError.message : CheckError → String
  | .notLinear formula => "cannot build an automaton for non-LTL formula " ++ formula
  | .notBranching formula => "CTL checking needs a CTL formula, got " ++ formula
  | .undefinedModel => "no model has been defined"

/-- Everything that a session reports as an error. -/
inductive Error where
  | parse (cause : ParseError)
  | model (cause : ModelError)
  | check (cause : CheckError)
  /-- The output takes no more text. -/
  | output
deriving DecidableEq

namespace Error

/-- The wording of the error. -/
def message : Error → String
  | .parse cause => cause.message
  | .model cause => cause.message
  | .check cause => cause.message
  | .output => "could not write results"

end Error

end TemporalCheck
