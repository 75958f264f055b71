import TemporalCheck.Automaton
import TemporalCheck.Automaton.Degeneralize
import TemporalCheck.Automaton.Emptiness
import TemporalCheck.Automaton.OfModel
import TemporalCheck.Automaton.Printer
import TemporalCheck.Automaton.Product
import TemporalCheck.Automaton.Reduce
import TemporalCheck.Automaton.Run
import TemporalCheck.Branching
import TemporalCheck.Command.Check
import TemporalCheck.Command.Draw
import TemporalCheck.Context
import TemporalCheck.Error
import TemporalCheck.Fault
import TemporalCheck.Forest
import TemporalCheck.Forest.Build
import TemporalCheck.Forest.Denotes
import TemporalCheck.Forest.Node
import TemporalCheck.Formula
import TemporalCheck.Formula.Expr
import TemporalCheck.Formula.Printer
import TemporalCheck.Formula.Reader
import TemporalCheck.Linear
import TemporalCheck.Main
import TemporalCheck.Marks
import TemporalCheck.Meaning.Structure
import TemporalCheck.Meaning.Word
import TemporalCheck.Model
import TemporalCheck.Model.Reader
import TemporalCheck.NatSet
import TemporalCheck.Normal
import TemporalCheck.Normal.Rule
import TemporalCheck.Proofs.Automaton.Degeneralize
import TemporalCheck.Proofs.Automaton.Emptiness
import TemporalCheck.Proofs.Automaton.OfModel
import TemporalCheck.Proofs.Automaton.Product
import TemporalCheck.Proofs.Automaton.Reduce
import TemporalCheck.Proofs.Automaton.Restriction
import TemporalCheck.Proofs.Automaton.Run
import TemporalCheck.Proofs.Automaton.Witness
import TemporalCheck.Proofs.Branching.Check
import TemporalCheck.Proofs.Branching.Labelling
import TemporalCheck.Proofs.Branching.Marking
import TemporalCheck.Proofs.Branching.Path
import TemporalCheck.Proofs.Branching.Sweeps
import TemporalCheck.Proofs.Build
import TemporalCheck.Proofs.Collection
import TemporalCheck.Proofs.Completion
import TemporalCheck.Proofs.Cover
import TemporalCheck.Proofs.Deterministic
import TemporalCheck.Proofs.Forest
import TemporalCheck.Proofs.Forest.History
import TemporalCheck.Proofs.Frame
import TemporalCheck.Proofs.Handle
import TemporalCheck.Proofs.Lasso
import TemporalCheck.Proofs.Linear.Automaton
import TemporalCheck.Proofs.Linear.Check
import TemporalCheck.Proofs.Linear.Comparison
import TemporalCheck.Proofs.Literal
import TemporalCheck.Proofs.Meaning
import TemporalCheck.Proofs.Model
import TemporalCheck.Proofs.NatSet
import TemporalCheck.Proofs.NormalForm
import TemporalCheck.Proofs.Operation
import TemporalCheck.Proofs.Outcome
import TemporalCheck.Proofs.Reach
import TemporalCheck.Proofs.Reading.Definition
import TemporalCheck.Proofs.Reading.Derivation
import TemporalCheck.Proofs.Reading.Flaw
import TemporalCheck.Proofs.Reading.Formula
import TemporalCheck.Proofs.Reading.Grammar
import TemporalCheck.Proofs.Reading.Lexing
import TemporalCheck.Proofs.Reading.Model
import TemporalCheck.Proofs.Reading.Printing
import TemporalCheck.Proofs.Reading.Records
import TemporalCheck.Proofs.Reading.Tiling
import TemporalCheck.Proofs.Rewriting
import TemporalCheck.Proofs.Sequence
import TemporalCheck.Proofs.Session.Action
import TemporalCheck.Proofs.Session.Answer
import TemporalCheck.Proofs.Session.Batch
import TemporalCheck.Proofs.Session.Blame
import TemporalCheck.Proofs.Session.Echo
import TemporalCheck.Proofs.Session.Failure
import TemporalCheck.Proofs.Session.History
import TemporalCheck.Proofs.Session.Item
import TemporalCheck.Proofs.Session.Run
import TemporalCheck.Proofs.Sharing
import TemporalCheck.Proofs.Tableau
import TemporalCheck.Proofs.Tableau.Consistency
import TemporalCheck.Proofs.Tableau.Language
import TemporalCheck.Proofs.Tableau.Rounds
import TemporalCheck.Proofs.TargetForm
import TemporalCheck.Proofs.Termination
import TemporalCheck.Proofs.Warning
import TemporalCheck.Proofs.Word
import TemporalCheck.Session
import TemporalCheck.Tableau
import TemporalCheck.Text.Character
import TemporalCheck.Text.Layout
import TemporalCheck.Text.Table
import TemporalCheck.Token
import TemporalCheck.Token.Lexer
import TemporalCheck.Token.Stream
import TemporalCheck.Vars
