import PredictiveParser.Machine.Run

/-!
# Notes on a parse

The finest notes show the machine before every step and say what the step did. `runNoted` makes the same steps as `run`
and stops with the same answer (`runNoted_snd`), so taking notes changes nothing else.
-/

namespace PredictiveParser.Machine

variable {σ τ : Type}

/-- The text of a frame. -/
def Frame.display (P : Program) : Frame → String
  | .finish => "$"
  | .node n => (P.instruction n).display
  | .entered symbol speculative => "<" ++ P.symbolName symbol ++ (if speculative then "?>" else ">")
  | .lookahead d entry => s!"LaDfa({d}@{entry})"
  | .resolving => "Resolving"

/-- The text of a state: the number of open episodes, the cursor, the retained positions and the stack from the bottom
to the top. -/
def State.display (P : Program) (s : State τ) : String :=
  let frames := s.stack.reverse.map fun f => f.display P ++ "  "
  s!"[{s.episodeDepth}] pos={s.cursor}" ++ (if s.matched then "+" else "") ++
    s!" tokens={s.window.base}..{s.window.stop}  " ++ String.join frames

/-- The note of a remark. -/
def Remark.note (P : Program) : Remark → Note
  | .said note => note
  | .accepted => .trace "Accept"
  | .committed p => .trace s!"Commit resolver, then {p}"
  | .resolved d p => .trace s!"LaDfa {d} resolved to {p}"
  | .attempted d n => .trace s!"LaDfa {d} enters resolver {n}"
  | .entered symbol p => .trace s!"Enter {P.symbolName symbol} -> {p}"
  | .rolledBack error => .trace s!"Rollback on {error.message}"

section Run

variable [Terminal τ]

/-- The notes of a step: the state before it and its remarks. -/
def stepNotes (P : Program) (s : State τ) (turn : Turn σ τ) : List Note :=
  .trace (s.display P) :: turn.remarks.map (·.note P)

/-- Runs the machine for at most `fuel` steps and takes notes, the latest first, in front of `notes`. -/
def runNoted (P : Program) (H : Host σ τ) :
    (fuel : Nat) → List Note → State τ → σ → List Note × Option (Stop σ τ)
  | 0, notes, _, _ => (notes, none)
  | fuel + 1, notes, s, h =>
    let turn := step P H s h
    let notes := (stepNotes P s turn).reverse ++ notes
    match turn.verdict with
    | .proceed => runNoted P H fuel notes turn.state turn.host
    | .await => (notes, some ⟨.ok .more, turn.state, turn.host⟩)
    | .accept => (notes, some ⟨.ok .done, turn.state, turn.host⟩)
    | .reject error => (notes, some ⟨.error error, turn.state, turn.host⟩)

theorem runNoted_snd (P : Program) (H : Host σ τ) (fuel : Nat) (notes : List Note) (s : State τ) (h : σ) :
    (runNoted P H fuel notes s h).2 = run P H fuel s h := by
  induction fuel generalizing notes s h with
  | zero => rfl
  | succ fuel ih =>
    rw [runNoted, run]
    cases hv : (step P H s h).verdict with
    | proceed => exact ih ..
    | _ => rfl

namespace Parser

/-- The note on the start of a parse. -/
def startNote (P : Program) (symbol : Nat) : Note :=
  .trace s!"start {P.symbolName symbol}"

/-- The notes on feeding a token, in order. -/
def feedNotes (P : Program) (H : Host σ τ) (fuel : Nat) (t : τ) (p : Parser σ τ) : List Note :=
  match p.state.status with
  | .running => (runNoted P H fuel [] (p.state.receive t) p.host).1.reverse
  | _ => []

end Parser

end Run

end PredictiveParser.Machine
