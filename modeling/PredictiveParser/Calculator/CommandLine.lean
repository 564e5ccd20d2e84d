import PredictiveParser.Calculator.Evaluator
import PredictiveParser.Tables.Listing
import PredictiveParser.Text.Quoted

/-!
# The command line of the calculator

The command `eval` evaluates a file and prints the values of its statements; the command `dump` lists the tables. Options
in front of the command set the limits on building the tables. Each option is given at most once; a value follows its
option as the next argument or behind an equals sign.
-/

namespace PredictiveParser.Calculator

/-- What to do. -/
inductive Command
  /-- Evaluate a file. -/
  | eval (file : String)
  /-- List the tables. -/
  | dump
  deriving DecidableEq, Inhabited

/-- A command with the limits on building the tables. -/
structure Invocation where
  limits : Limits := {}
  command : Command
  deriving DecidableEq, Inhabited

namespace Invocation

/-- The largest limit. -/
def maxLimit : Nat :=
  UInt64.size - 1

/-- Reads a limit: digits, which a plus sign may precede. -/
def readLimit? (text : String) : Option Nat :=
  let digits :=
    match text.toList with
    | '+' :: cs => cs
    | cs => cs
  if digits.isEmpty || digits.any (!·.isDigit) then none
  else
    let n := digits.foldl (fun n c => n * 10 + (c.toNat - '0'.toNat)) 0
    if n ≤ maxLimit then some n else none

/-- The argument behind the text `start`, if it begins with it. -/
def after? (start arg : String) : Option String :=
  let (start, arg) := (start.toList, arg.toList)
  if start.isPrefixOf arg then some (String.ofList (arg.drop start.length)) else none

/-- The value of a long option, and the arguments behind it, if the option comes next. -/
def longOption? (name : String) : List String → Option (String × List String)
  | [] => none
  | arg :: rest =>
    if arg = name then
      match rest with
      | value :: rest => some (value, rest)
      | [] => some ("", [])
    else (after? (name ++ "=") arg).map (·, rest)

/-- The arguments left after a command; a pair of dashes ends the options. -/
def atEnd (args : List String) : Bool :=
  args.isEmpty || args == ["--"]

/-- A file name, which is not empty. -/
def fileName? (text : String) : Option String :=
  if text.isEmpty then none else some text

/-- The file of the next argument or arguments and what is behind them, if they name one. A name that is an argument of
its own does not begin with a dash, unless it is a dash. -/
def inputOption? : List String → Option (String × List String)
  | [] => none
  | arg :: rest =>
    if arg = "-i" || arg = "--input" then
      match rest with
      | value :: rest =>
        if value != "-" && (after? "-" value).isSome then none else (fileName? value).map (·, rest)
      | [] => none
    else
      let value? := after? "--input=" arg <|> after? "-i=" arg <|> after? "-i" arg
      (value?.bind fileName?).map (·, rest)

/-- Reads the arguments behind the limits. -/
def readCommand? : List String → Option Command
  | "dump" :: rest => if atEnd rest then some .dump else none
  | "eval" :: rest =>
    match inputOption? rest with
    | some (file, rest) => if atEnd rest then some (.eval file) else none
    | none => none
  | _ => none

/-- Reads the arguments; `lookahead?` and `depth?` are the limits that were already given. Every option takes at least
one argument, so `fuel` arguments are enough. -/
def readArgs? : (fuel : Nat) → (lookahead? depth? : Option Nat) → List String → Option Invocation
  | 0, _, _, _ => none
  | fuel + 1, lookahead?, depth?, args =>
    match longOption? "--lookahead" args, longOption? "--conflict-depth" args with
    | some (value, rest), _ =>
      match lookahead?, readLimit? value with
      | none, some n => readArgs? fuel (some n) depth? rest
      | _, _ => none
    | none, some (value, rest) =>
      match depth?, readLimit? value with
      | none, some n => readArgs? fuel lookahead? (some n) rest
      | _, _ => none
    | none, none =>
      (readCommand? args).map fun command =>
        { limits := ⟨lookahead?.getD 4, depth?.getD 8⟩, command }

/-- Reads the arguments of a call, if they make sense. -/
def ofArgs? (args : List String) : Option Invocation :=
  readArgs? (args.length + 1) none none args

end Invocation

/-- What a call leaves behind. -/
structure Outcome where
  exitCode : Nat
  stdout : String := ""
  stderr : String := ""
  deriving DecidableEq, Inhabited

namespace Outcome

/-- A failed call: what was tried, and why it failed. -/
def failure (attempt cause : String) : Outcome where
  exitCode := 1
  stderr := s!"Error: {attempt}\n\nCaused by:\n    {cause}\n"

/-- A call whose arguments make no sense. -/
def misuse : Outcome where
  exitCode := 2
  stderr := "usage: [--lookahead N] [--conflict-depth N] (eval --input FILE | dump)\n"

end Outcome

/-- Carries out a command. The source of a file comes from `readFile`, which may fail with a message. -/
def Invocation.run (readFile : String → Except String String) (call : Invocation) : Outcome :=
  match Engine.new call.limits with
  | .error e => .failure "can't build calculator tables" e.message
  | .ok C =>
    match call.command with
    | .dump =>
      { exitCode := 0, stdout := "\n".intercalate [C.tables.listSets, C.tables.listEntries, C.tables.listDfas] }
    | .eval file =>
      match readFile file with
      | .error message => .failure s!"can't open {Text.quote file}" message
      | .ok source =>
        match (C.eval source {}).1 with
        | .error e => .failure s!"error in {Text.quote file}" e.message
        | .ok values => { exitCode := 0, stdout := String.join (values.map fun v => v.display ++ "\n") }

/-- Carries out a call with some arguments. -/
def runArgs (readFile : String → Except String String) (args : List String) : Outcome :=
  match Invocation.ofArgs? args with
  | none => .misuse
  | some call => call.run readFile

end PredictiveParser.Calculator
