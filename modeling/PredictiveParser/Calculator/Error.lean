import PredictiveParser.Grammar.Error
import PredictiveParser.Machine.Error
import PredictiveParser.Calculator.Value

/-!
# Why a calculation fails

A calculation fails when its text has characters or literals that mean nothing, when it does not parse, and when an
operation has no value. `Error.message` is the wording.
-/

namespace PredictiveParser.Calculator

/-- The causes of a failed calculation. -/
inductive Error
  /-- The tables could not be built. -/
  | grammar (e : GrammarError)
  /-- The text does not parse. -/
  | parse (e : ParseError)
  /-- A literal is no value. -/
  | literal (e : Value.ReadError)
  /-- A character begins no lexeme. -/
  | unrecognized (text : String) (span : Option Span)
  /-- A variable is read before it was assigned. -/
  | undefinedVariable (name : String) (span : Option Span)
  | divisionByZero (span : Option Span)
  /-- The result of an operation does not fit. -/
  | overflow (span : Option Span)
  /-- The grammar and the evaluator do not fit together. -/
  | internal (reason : String)
  deriving DecidableEq, Inhabited

namespace Error

/-- The suffix that attaches the start of a span, when there is one, to a message. -/
def suffix (span : Option Span) : String :=
  Position.suffix (span.map (·.start))

/-- The wording of an error. -/
def message : Error → String
  | grammar e => e.message
  | parse e => e.message
  | literal e => e.message
  | unrecognized text span => s!"unrecognized input `{text}`" ++ suffix span
  | undefinedVariable name span => s!"undefined variable {name}" ++ suffix span
  | divisionByZero span => "division by zero" ++ suffix span
  | overflow span => "arithmetic overflow" ++ suffix span
  | internal reason => s!"internal error: {reason}"

end Error

end PredictiveParser.Calculator
