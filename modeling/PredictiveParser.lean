import PredictiveParser.Span
import PredictiveParser.NameTable
import PredictiveParser.TokenSet
import PredictiveParser.TokenWindow
import PredictiveParser.Journal
import PredictiveParser.SyntaxTree
import PredictiveParser.Program
import PredictiveParser.Machine.Error
import PredictiveParser.Machine.State
import PredictiveParser.Machine.Step
import PredictiveParser.Machine.Run
import PredictiveParser.Machine.Journal
import PredictiveParser.Grammar.Error
import PredictiveParser.Grammar.Basic
import PredictiveParser.Grammar.Draft
import PredictiveParser.Analysis
import PredictiveParser.Prediction
import PredictiveParser.Decision.Thread
import PredictiveParser.Decision.State
import PredictiveParser.Decision.Automaton
import PredictiveParser.Decision.Journal
import PredictiveParser.Tables.Basic
import PredictiveParser.Tables.Build
import PredictiveParser.Tables.Listing
import PredictiveParser.Calculator.Value
import PredictiveParser.Calculator.Variables
import PredictiveParser.Calculator.Error
import PredictiveParser.Calculator.Language
import PredictiveParser.Calculator.Lexer
import PredictiveParser.Calculator.Evaluator
import PredictiveParser.Text.Unprintable
import PredictiveParser.Text.Quoted
import PredictiveParser.Calculator.CommandLine
import PredictiveParser.Main
import PredictiveParser.Proofs.Distinct
import PredictiveParser.Proofs.Grammar.WellFormed
import PredictiveParser.Proofs.Grammar.Written
import PredictiveParser.Proofs.Grammar.Forest
import PredictiveParser.Proofs.Analysis.Rounds
import PredictiveParser.Proofs.Analysis.Least
import PredictiveParser.Proofs.Analysis.Fixpoint
import PredictiveParser.Proofs.Analysis.Closure
import PredictiveParser.Proofs.Analysis.Resolvers
import PredictiveParser.Proofs.Prediction
import PredictiveParser.Proofs.Grammar.Reordering
import PredictiveParser.Proofs.Grammar.Resolvers
import PredictiveParser.Proofs.Grammar.LeftRecursion
import PredictiveParser.Proofs.Tables
import PredictiveParser.Proofs.Decision.Thread
import PredictiveParser.Proofs.Decision.State
import PredictiveParser.Proofs.Decision.Automaton
import PredictiveParser.Proofs.Decision.LeftRecursion
import PredictiveParser.Proofs.Decision.Tests
import PredictiveParser.Proofs.Decision.Simulation
import PredictiveParser.Proofs.Decision.Limits
import PredictiveParser.Proofs.Decision.Reordering
import PredictiveParser.Proofs.Ambiguity
import PredictiveParser.Proofs.Machine.Projection
import PredictiveParser.Proofs.Machine.Effect
import PredictiveParser.Proofs.Machine.Session
import PredictiveParser.Proofs.Machine.History
import PredictiveParser.Proofs.Machine.Alignment
import PredictiveParser.Proofs.Machine.Cursor
import PredictiveParser.Proofs.Machine.Retention
import PredictiveParser.Proofs.Machine.Resumption
import PredictiveParser.Proofs.Machine.Batch
import PredictiveParser.Proofs.Machine.Episode
import PredictiveParser.Proofs.Machine.Speculation
import PredictiveParser.Proofs.Machine.Matching
import PredictiveParser.Proofs.SyntaxTree
import PredictiveParser.Proofs.Machine.View
import PredictiveParser.Proofs.Machine.Traversal
import PredictiveParser.Proofs.Machine.Callbacks
import PredictiveParser.Proofs.Machine.Soundness
import PredictiveParser.Proofs.Machine.Coherence
import PredictiveParser.Proofs.Machine.Exactness
import PredictiveParser.Proofs.Decision.Rivals
import PredictiveParser.Proofs.Decision.Walk
import PredictiveParser.Proofs.Machine.Completeness
import PredictiveParser.Proofs.Machine.Decision
import PredictiveParser.Proofs.Machine.Lookahead
import PredictiveParser.Proofs.Machine.Termination
import PredictiveParser.Proofs.Termination
import PredictiveParser.Proofs.Decision.Reading
import PredictiveParser.Proofs.Machine.Tracking
import PredictiveParser.Proofs.Machine.EndOfInput
import PredictiveParser.Proofs.Closed
import PredictiveParser.Proofs.Calculator.Evaluation
import PredictiveParser.Proofs.Calculator.Execution
import PredictiveParser.Proofs.Decision.Chain
import PredictiveParser.Proofs.Calculator.Steps
import PredictiveParser.Proofs.Calculator.Descent
import PredictiveParser.Proofs.Calculator.Statements
import PredictiveParser.Proofs.Calculator.Sources
import PredictiveParser.Proofs.Calculator.Outcomes
import PredictiveParser.Proofs.Calculator.Composition
import PredictiveParser.Proofs.Analysis.Exactness
import PredictiveParser.Proofs.Filling
import PredictiveParser.Proofs.Decision.Survival
import PredictiveParser.Proofs.Machine.Probing
import PredictiveParser.Proofs.Machine.Commitment
import PredictiveParser.Proofs.Budget
import PredictiveParser.Proofs.Decision.Reports
import PredictiveParser.Proofs.Decision.Wildcards
import PredictiveParser.Proofs.Calculator.Layout
import PredictiveParser.Proofs.DocumentOrder
import PredictiveParser.Proofs.Grammar.Handles
import PredictiveParser.Proofs.Machine.LifeCycle
import PredictiveParser.Proofs.Calculator.Positions
import PredictiveParser.Proofs.TokenWindow
import PredictiveParser.Proofs.Numbering
