import PredictiveParser.Calculator.Lexer
import PredictiveParser.Calculator.Variables
import PredictiveParser.Machine.Journal

/-!
# Evaluating programs

The evaluator is the host of a parse: the actions of the grammar work on a stack of values, and operands are read from
the tokens that the locators captured. Assignments take effect at once, so the statements that were completed before an
error have been carried out.
-/

namespace PredictiveParser.Calculator

open Machine

/-- The state of an evaluation. -/
structure Evaluation where
  «variables» : Variables := {}
  /-- The values that are still to be used, the latest first. -/
  values : List Value := []
  /-- The values of the completed statements. -/
  results : Array Value := #[]
  /-- The error behind the last failed action. -/
  failure : Option Error := none
  deriving Inhabited

/-- A computation on the state of an evaluation, which keeps its effects when it fails. -/
abbrev Eval := ExceptT Error (StateM Evaluation)

namespace Eval

/-- Takes the latest value. -/
def pop : Eval Value := do
  match (← get).values with
  | v :: values =>
    modify ({ · with values })
    return v
  | [] => throw (.internal "value stack underflow")

/-- Leaves a value for later use. -/
def push (v : Value) : Eval Unit :=
  modify fun e => { e with values := v :: e.values }

/-- Completes a statement with a value. -/
def complete (v : Value) : Eval Unit :=
  modify fun e => { e with results := e.results.push v }

/-- The identifier captured for a slot. -/
def identAt (s : State Token) (slot : Slot) : Eval (String × Option Span) :=
  match s.locator? slot.index with
  | some ⟨_, .ident name, span⟩ => return (name, span)
  | _ => throw (.internal "identifier locator not bound")

/-- The span of the last matched token. -/
def lastSpan (s : State Token) : Option Span :=
  s.last.bind (·.span)

/-- The value, unless there is none because it does not fit. -/
def fitting (s : State Token) (v? : Option Value) : Eval Value :=
  match v? with
  | some v => return v
  | none => throw (.overflow (lastSpan s))

/-- Replaces the two latest values by the result of an operation on them. -/
def binary (s : State Token) (f : Value → Value → Option Value) : Eval Unit := do
  let b ← pop
  let a ← pop
  push (← fitting s (f a b))

/-- Carries out an operation; the result is the note that it leaves. -/
def apply (s : State Token) : Op → Eval (List Note)
  | .number => do
    match s.locator? Slot.lit.index with
    | some ⟨_, .number n, _⟩ => push n
    | _ => throw (.internal "literal locator not bound")
    return []
  | .var => do
    let (name, span) ← identAt s .var
    match (← get).variables.get? name with
    | some v => push v
    | none => throw (.undefinedVariable name span)
    return []
  | .add => do binary s Value.add?; return []
  | .sub => do binary s Value.sub?; return []
  | .mul => do binary s Value.mul?; return []
  | .div => do
    if (← get).values.head? = some 0 then throw (.divisionByZero (lastSpan s))
    binary s Value.div?
    return []
  | .neg => do
    push (← fitting s (← pop).neg?)
    return []
  | .assign => do
    let v ← pop
    let (name, _) ← identAt s .target
    modify fun e => { e with «variables» := e.variables.set name v }
    complete v
    return [.debug s!"{name} = {v.display}"]
  | .print => do
    complete (← pop)
    return []

end Eval

/-- The host that evaluates. -/
def host : Host Evaluation Token where
  call
    | .action a, s, e =>
      match Op.ofIndex? a with
      | none => { host := e, failure := some (Error.internal "unknown action").message }
      | some op =>
        match (Eval.apply s op).run e with
        | (.ok notes, e) => { host := e, notes }
        | (.error error, e) => { host := { e with failure := some error }, failure := some error.message }
    | _, _, e => { host := e }

/-! ## Whole programs -/

/-- What an evaluation needs: the tables, and the terminals of the lexemes. -/
structure Engine where
  tables : Tables
  alphabet : Alphabet

/-- The engine whose tables are built within limits. -/
def Engine.new (limits : Limits := {}) : Except Error Engine := do
  let T ← (Calculator.tables limits).mapError .grammar
  return ⟨T, ← Alphabet.ofTables T⟩

namespace Engine

variable (C : Engine)

/-- The parser at the start of a program. -/
def begin (V : Variables) : Parser Evaluation Token :=
  Parser.start C.tables.program C.tables.start false { host := { «variables» := V } }

/-- The error behind an error of the parser. -/
def errorOf (e : ParseError) (evaluation : Evaluation) : Error :=
  match e with
  | .semantic _ _ => evaluation.failure.getD (.parse e)
  | e => .parse e

/-- Feeds a token, within `fuel` steps. -/
def feed (fuel : Nat) (t : Token) (p : Parser Evaluation Token) :
    Option (Except Error Feed × Parser Evaluation Token) :=
  match p.feed C.tables.program host fuel t with
  | some (.ok answer, p) => some (.ok answer, p)
  | some (.error e, p) => some (.error (errorOf e p.host), p)
  | none => none

/-- The token that ends a program. -/
def endTokenAt (span : Span) : Token :=
  { id := endToken, span }

/-- Feeds lexemes and then the end of the input, up to the first error, within `fuel` steps for each. -/
def feedAll (fuel : Nat) (stop : Span) :
    List (Except Error Lexed) → Parser Evaluation Token → Option (Except Error Unit × Parser Evaluation Token)
  | [], p =>
    match C.feed fuel (endTokenAt stop) p with
    | some (.ok .done, p) => some (.ok (), p)
    | some (.ok .more, p) => some (.error (.internal "parser did not finish"), p)
    | some (.error e, p) => some (.error e, p)
    | none => none
  | .error e :: _, p => some (.error e, p)
  | .ok l :: ls, p =>
    match C.feed fuel l.token p with
    | some (.ok _, p) => feedAll fuel stop ls p
    | some (.error e, p) => some (.error e, p)
    | none => none

/-- Evaluates a program, within `fuel` steps for each token: the values of its statements, and the variables. -/
def evalWithin (fuel : Nat) (source : String) (V : Variables) :
    Option (Except Error (List Value) × Variables) :=
  (C.feedAll fuel (endSpan source) (lex C.alphabet source) (C.begin V)).map fun (r, p) =>
    (r.map fun _ => p.host.results.toList, p.host.variables)

/-- A number of steps that is enough for every token of a program. A token makes the parser leave the symbols that were
entered on earlier tokens and enter new ones, and the stack grows by a bounded number of frames on every token. -/
def stepBound (source : String) : Nat :=
  256 * (source.length + 4)

/-- Evaluates a program: the values of its statements, and the variables, which keep what the completed statements
assigned. -/
def eval (source : String) (V : Variables) : Except Error (List Value) × Variables :=
  (C.evalWithin (stepBound source) source V).getD
    (.error (.internal "parser did not finish"), V)

/-! ## Notes -/

/-- The notes on feeding lexemes and then the end of the input, up to the first error. -/
def feedAllNotes (fuel : Nat) (stop : Span) : List (Except Error Lexed) → Parser Evaluation Token → List Note
  | [], p =>
    let t := endTokenAt stop
    p.feedNotes C.tables.program host fuel t ++
      match C.feed fuel t p with
      | some (.ok .done, p) => [.info p.state.stats.display]
      | _ => []
  | .error _ :: _, _ => []
  | .ok l :: ls, p =>
    l.note :: p.feedNotes C.tables.program host fuel l.token ++
      match C.feed fuel l.token p with
      | some (.ok _, p) => feedAllNotes fuel stop ls p
      | _ => []

/-- The notes on evaluating a program. -/
def evalNotes (source : String) (V : Variables) : List Note :=
  Parser.startNote C.tables.program C.tables.start ::
    C.feedAllNotes (stepBound source) (endSpan source) (lex C.alphabet source) (C.begin V)

end Engine

end PredictiveParser.Calculator
