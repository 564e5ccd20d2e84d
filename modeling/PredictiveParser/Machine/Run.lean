import PredictiveParser.Machine.Step

/-!
# Parsing token by token

A `Parser` is a machine with a host. `Parser.start` begins a parse and forgets any earlier one; `Parser.feed` adds one
token and runs the machine until it needs another, ends or fails. A program may make the machine run forever, so the
number of steps is bounded by an explicit fuel, and running out of it is no answer at all (`none`). More fuel never
changes an answer (`run_succ`, `run_le`).
-/

namespace PredictiveParser.Machine

variable {σ τ : Type} [Terminal τ]

/-- The answer to a token. -/
inductive Feed
  /-- More tokens are needed. -/
  | more
  /-- The start symbol was matched and the end of the input was seen. -/
  | done
  deriving DecidableEq, Inhabited

/-- Where a run stopped. -/
structure Stop (σ τ : Type) where
  answer : Except ParseError Feed
  state : State τ
  host : σ

/-- Runs the machine for at most `fuel` steps. -/
def run (P : Program) (H : Host σ τ) : (fuel : Nat) → State τ → σ → Option (Stop σ τ)
  | 0, _, _ => none
  | fuel + 1, s, h =>
    let turn := step P H s h
    match turn.verdict with
    | .proceed => run P H fuel turn.state turn.host
    | .await => some ⟨.ok .more, turn.state, turn.host⟩
    | .accept => some ⟨.ok .done, turn.state, turn.host⟩
    | .reject error => some ⟨.error error, turn.state, turn.host⟩

/-- The status after an answer. -/
def Status.after : Except ParseError Feed → Status → Status
  | .ok .more, status => status
  | .ok .done, _ => .done
  | .error _, _ => .failed

namespace State

/-- Takes in a token. -/
def receive (s : State τ) (t : τ) : State τ :=
  { s with window := s.window.push t, stats.tokens := s.stats.tokens + 1 }

/-- Notes the answer and releases the tokens that cannot be looked at again. -/
def settle (s : State τ) (answer : Except ParseError Feed) : State τ :=
  { s with status := s.status.after answer, window := s.window.release s.lowWater }

end State

/-- A machine and its host. -/
structure Parser (σ τ : Type) where
  state : State τ := {}
  host : σ

namespace Parser

/-- Starts a parse of a symbol. -/
def start (P : Program) (symbol : Nat) (buildTree : Bool) (p : Parser σ τ) : Parser σ τ :=
  let state := p.state.reset buildTree
  { p with state := { state with stack := [.node (P.symbolNode symbol), .finish], status := .running } }

omit [Terminal τ] in
/-- No state of an earlier parse is left. -/
theorem state_start (P : Program) (symbol : Nat) (buildTree : Bool) (p : Parser σ τ) :
    (p.start P symbol buildTree).state = .initial (P.symbolNode symbol) buildTree := rfl

/-- Feeds the next token. -/
def feed (P : Program) (H : Host σ τ) (fuel : Nat) (t : τ) (p : Parser σ τ) :
    Option (Except ParseError Feed × Parser σ τ) :=
  match p.state.status with
  | .idle => some (.error .notStarted, p)
  | .done | .failed => some (.error .finished, p)
  | .running =>
    (run P H fuel (p.state.receive t) p.host).map fun stop =>
      (stop.answer, ⟨stop.state.settle stop.answer, stop.host⟩)

/-- Gives away the tree. -/
def takeTree (p : Parser σ τ) : Option (SyntaxTree τ) × Parser σ τ :=
  (p.state.tree, { p with state := { p.state with tree := none } })

end Parser

/-! ## More fuel -/

/-- One more unit of fuel keeps an answer. -/
theorem run_succ {P : Program} {H : Host σ τ} {fuel : Nat} {s : State τ} {h : σ} {stop : Stop σ τ}
    (hr : run P H fuel s h = some stop) : run P H (fuel + 1) s h = some stop := by
  induction fuel generalizing s h with
  | zero => simp [run] at hr
  | succ fuel ih =>
    rw [run] at hr ⊢
    cases hv : (step P H s h).verdict with
    | proceed => simp only [hv] at hr ⊢; exact ih hr
    | _ => simp only [hv] at hr ⊢; exact hr

/-- More fuel keeps an answer. -/
theorem run_le {P : Program} {H : Host σ τ} {fuel fuel' : Nat} {s : State τ} {h : σ} {stop : Stop σ τ}
    (hle : fuel ≤ fuel') (hr : run P H fuel s h = some stop) : run P H fuel' s h = some stop := by
  induction hle with
  | refl => exact hr
  | step _ ih => exact run_succ ih

end PredictiveParser.Machine
