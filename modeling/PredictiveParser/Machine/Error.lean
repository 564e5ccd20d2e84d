import PredictiveParser.Span

/-!
# Why a parse fails

A parse fails on a token that fits nowhere, on a decision all of whose resolvers fail, or in a callback; and a token is
refused before a parse was started and after it ended. `ParseError.message` is the wording.
-/

namespace PredictiveParser

/-- The causes of a failed parse, with the names that their messages need. -/
inductive ParseError
  /-- The token `found` is not one of `expected`. -/
  | unexpectedToken (found : String) (expected : List String) (span : Option Span)
  /-- Every alternative of the decision for `symbol` failed, which began at `found`. -/
  | noViableAlternative (symbol found : String) (span : Option Span)
  /-- A callback failed. -/
  | semantic (message : String) (span : Option Span)
  /-- A token was fed before a parse was started. -/
  | notStarted
  /-- A token was fed after the parse had ended. -/
  | finished
  deriving DecidableEq, Inhabited

namespace ParseError

/-- An enumeration in words: commas between names, and "or" before the last. -/
def alternatives : List String → String
  | [] => "nothing"
  | [name] => name
  | names => ", ".intercalate names.dropLast ++ " or " ++ names.getLast?.getD ""

/-- The wording of an error. -/
def message : ParseError → String
  | unexpectedToken found expected span =>
    s!"unexpected {found} at {Span.detail? span}, expected {alternatives expected}"
  | noViableAlternative symbol found span => s!"no viable alternative for {symbol} at {found} ({Span.detail? span})"
  | semantic text span => s!"semantic error at {Span.detail? span}: {text}"
  | notStarted => "parser not started"
  | finished => "parse already finished"

end ParseError

end PredictiveParser
