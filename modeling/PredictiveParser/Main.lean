import PredictiveParser.Calculator.CommandLine

/-!
# The calculator program

Reads the file of an `eval` command, carries the command out and prints what it leaves behind.
-/

namespace PredictiveParser.Calculator

/-- The message of a failed read. -/
def readErrorText : IO.Error → String
  | .noFileOrDirectory _ code details | .inappropriateType _ code details | .permissionDenied _ code details =>
    s!"{details} (os error {code})"
  | e => toString e

/-- The source in a file. -/
def readSource (file : String) : IO (Except String String) := do
  match ← (IO.FS.readBinFile file).toBaseIO with
  | .error e => return .error (readErrorText e)
  | .ok bytes =>
    match String.fromUTF8? bytes with
    | some source => return .ok source
    | none => return .error "stream did not contain valid UTF-8"

end PredictiveParser.Calculator

open PredictiveParser.Calculator in
/-- Runs the calculator. -/
def main (args : List String) : IO UInt32 := do
  let source ←
    match Invocation.ofArgs? args with
    | some ⟨_, .eval file⟩ => readSource file
    | _ => pure (.ok "")
  let outcome := runArgs (fun _ => source) args
  IO.print outcome.stdout
  IO.eprint outcome.stderr
  return UInt32.ofNat outcome.exitCode
