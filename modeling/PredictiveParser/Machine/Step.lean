import PredictiveParser.Machine.State
import PredictiveParser.Journal

/-!
# One step of the parsing machine

`step` looks at the top of the prediction stack and acts on it once. It calls the host for actions, arguments and the
entry and exit of symbols; only actions are called while the machine speculates. A failure while speculating is undone
by `unwind`, which takes the else branch of the innermost episode that has one; any other failure ends the parse.
-/

namespace PredictiveParser.Machine

variable {σ τ : Type}

/-! ## The host -/

/-- A callback of the host. -/
inductive Event
  | action (a : Nat)
  | argument (a : Nat)
  | enter (symbol : Nat)
  | leave (symbol : Nat)
  deriving DecidableEq, Inhabited

/-- What the host answers to a callback: its new state, a message if it fails, and its own notes. -/
structure Reply (σ : Type) where
  host : σ
  failure : Option String := none
  notes : List Note := []

/-- A host with states `σ`; its callbacks see the state of the machine. -/
structure Host (σ τ : Type) where
  call : Event → State τ → σ → Reply σ

namespace Host

/-- Calls the host for events in order, up to the first failure. -/
def callAll (H : Host σ τ) (s : State τ) : List Event → σ → Reply σ
  | [], h => ⟨h, none, []⟩
  | e :: events, h =>
    match H.call e s h with
    | ⟨h, some message, notes⟩ => ⟨h, some message, notes⟩
    | ⟨h, none, notes⟩ =>
      let reply := H.callAll s events h
      { reply with notes := notes ++ reply.notes }

end Host

/-! ## Turns -/

/-- What a step did that is worth a note. -/
inductive Remark
  /-- The host left a note. -/
  | said (note : Note)
  /-- The input is accepted. -/
  | accepted
  /-- A resolver matched, so the decision falls on a production. -/
  | committed (production : Nat)
  /-- An automaton state decided for a production. -/
  | resolved (dfa production : Nat)
  /-- An automaton state began to match a resolver. -/
  | attempted (dfa resolver : Nat)
  /-- A symbol was entered with a production. -/
  | entered (symbol production : Nat)
  /-- An error was answered by going back to an open episode. -/
  | rolledBack (error : ParseError)

/-- How the machine goes on after a step. -/
inductive Verdict
  /-- With another step. -/
  | proceed
  /-- With the next token, which was not fed yet. -/
  | await
  /-- Not at all: the input is accepted. -/
  | accept
  /-- Not at all: the parse failed. -/
  | reject (error : ParseError)

/-- The result of a step. -/
structure Turn (σ τ : Type) where
  verdict : Verdict
  state : State τ
  host : σ
  remarks : List Remark := []

section Step

variable [Terminal τ]

/-- Goes back through the open episodes `es`, innermost first, to the first that has an else branch, and takes it. If
none has one the parse fails; `symbol?` is the symbol whose decision was given up last. -/
def unwind (P : Program) : List Episode → Option Nat → State τ → Option ParseError × State τ
  | [], symbol?, s =>
    (some (.noViableAlternative ((symbol?.map P.symbolName).getD "?") (s.found P) s.currentSpan?), s)
  | e :: es, _, s =>
    let s := s.undo e es
    match e.otherwise with
    | some (.dfa d) => (none, s.goto e.resume (.lookahead d e.entry :: s.stack.tail))
    | some (.node p) => (none, s.goto e.entry (.node p :: s.stack.tail))
    | none => unwind P es s.symbols.head? (s.goto e.entry s.stack.tail)

/-- Answers an error: while speculating by going back, otherwise by failing. -/
def miss (P : Program) (error : ParseError) (s : State τ) (h : σ) (remarks : List Remark := []) : Turn σ τ :=
  if s.isSpeculating then
    match unwind P s.episodes none s with
    | (none, s) => ⟨.proceed, s, h, remarks ++ [.rolledBack error]⟩
    | (some error', s) => ⟨.reject error', s, h, remarks ++ [.rolledBack error]⟩
  else ⟨.reject error, s, h, remarks⟩

/-- The arguments bound when a symbol above `stack` is entered: the unbroken run of argument nodes on its top. -/
def pendingArguments (P : Program) : List Frame → List Nat
  | .node n :: rest =>
    match P.instruction n with
    | .argument a => a :: pendingArguments P rest
    | _ => []
  | _ => []

/-- The callbacks due when `symbol` is entered above `stack`: its arguments, then its entry. -/
def entryEvents (P : Program) (symbol : Nat) (stack : List Frame) : List Event :=
  (pendingArguments P stack).map .argument ++ if (P.callbacks symbol).enter then [.enter symbol] else []

/-- The end of the input is expected. -/
def stepFinish (P : Program) (s : State τ) (rest : List Frame) (h : σ) : Turn σ τ :=
  let s := s.advance
  match s.currentId? with
  | none => { verdict := .await, state := s, host := h }
  | some id =>
    if id = endToken then ⟨.accept, s.withStack rest, h, [.accepted]⟩
    else { verdict := .reject (s.unexpected P [endToken]), state := s, host := h }

/-- The production of `symbol` is matched. -/
def stepEntered (P : Program) (H : Host σ τ) (s : State τ) (symbol : Nat) (speculative : Bool) (rest : List Frame)
    (h : σ) : Turn σ τ :=
  let s := { s with stack := rest, symbols := s.symbols.tail }
  if speculative then { verdict := .proceed, state := s, host := h }
  else
    let reply := H.callAll s (if (P.callbacks symbol).leave then [.leave symbol] else []) h
    let remarks := reply.notes.map .said
    match reply.failure with
    | some message => ⟨.reject (s.semantic message), s, reply.host, remarks⟩
    | none => ⟨.proceed, { s with tree := s.tree.map (·.close) }, reply.host, remarks⟩

/-- The innermost resolver is matched. -/
def stepResolving (s : State τ) (rest : List Frame) (h : σ) : Turn σ τ :=
  match s.episodes with
  | [] => { verdict := .reject (s.semantic "resolver stack underflow"), state := s, host := h }
  | e :: es =>
    ⟨.proceed, { s with episodes := es }.goto e.entry (.node e.accept :: rest), h, [.committed e.accept]⟩

/-- A decision that began at `entry` is in the automaton state `d`. -/
def stepLookahead (P : Program) (s : State τ) (d entry : Nat) (rest : List Frame) (h : σ) : Turn σ τ :=
  match P.dfa d with
  | .leaf p => ⟨.proceed, s.goto entry (.node p :: rest), h, [.resolved d p]⟩
  | .resolver n p otherwise => ⟨.proceed, s.openEpisode entry n p otherwise rest, h, [.attempted d n]⟩
  | .switch default? =>
    let s := s.advance
    match s.currentId? with
    | none => { verdict := .await, state := s, host := h }
    | some id =>
      match P.transition d id, default? with
      | some d', _ =>
        { verdict := .proceed, state := s.goto (s.cursor + 1) (.lookahead d' entry :: rest), host := h }
      | none, some p => { verdict := .proceed, state := s.goto entry (.node p :: rest), host := h }
      | none, none => miss P (s.unexpected P (P.dfaExpected d)) s h

/-- A terminal is expected. -/
def stepToken (P : Program) (s : State τ) (expected : Nat) (rest : List Frame) (h : σ) : Turn σ τ :=
  let s := s.advance
  match s.current? with
  | none => { verdict := .await, state := s, host := h }
  | some t =>
    if accepts expected (Terminal.id t) then { verdict := .proceed, state := s.consume t rest, host := h }
    else miss P (s.unexpected P [expected]) s h

/-- A symbol is expected. -/
def stepSymbol (P : Program) (H : Host σ τ) (s : State τ) (symbol : Nat) (rest : List Frame) (h : σ) : Turn σ τ :=
  let s := s.advance
  match s.currentId? with
  | none => { verdict := .await, state := s, host := h }
  | some id =>
    let fallback := if s.isSpeculating then P.emptyProduction symbol else none
    match P.lookup symbol id <|> fallback with
    | none => miss P (s.unexpected P (P.expected symbol)) s h
    | some p =>
      let s := s.withStack rest
      let reply := H.callAll s (if s.isSpeculating then [] else entryEvents P symbol rest) h
      let remarks := reply.notes.map .said
      match reply.failure with
      | some message => ⟨.reject (s.semantic message), s, reply.host, remarks⟩
      | none => ⟨.proceed, s.enterSymbol symbol p, reply.host, remarks ++ [.entered symbol p]⟩

/-- An action is due. -/
def stepAction (P : Program) (H : Host σ τ) (s : State τ) (action : Nat) (rest : List Frame) (h : σ) : Turn σ τ :=
  let s := s.withStack rest
  let reply := H.call (.action action) s h
  let remarks := reply.notes.map .said
  match reply.failure with
  | some message => miss P (s.semantic message) s reply.host remarks
  | none => ⟨.proceed, s, reply.host, remarks⟩

/-- A decision is due. -/
def stepDecision (s : State τ) (d : Nat) (rest : List Frame) (h : σ) : Turn σ τ :=
  let s := s.advance
  match s.currentId? with
  | none => { verdict := .await, state := s, host := h }
  | some _ =>
    { verdict := .proceed
      state := { s with stack := .lookahead d s.cursor :: rest, stats.lookaheads := s.stats.lookaheads + 1 }
      host := h }

/-- The node `n` is on top of the stack. -/
def stepNode (P : Program) (H : Host σ τ) (s : State τ) (n : Nat) (rest : List Frame) (h : σ) : Turn σ τ :=
  match P.instruction n with
  | .token expected => stepToken P s expected rest h
  | .symbol symbol => stepSymbol P H s symbol rest h
  | .sequence parts => { verdict := .proceed, state := s.withStack (parts.map .node ++ rest), host := h }
  | .action a => stepAction P H s a rest h
  | .beacon slot =>
    let s := s.withStack rest
    { verdict := .proceed, state := if s.isSpeculating then s else { s with armed := some slot }, host := h }
  | .epsilon | .argument _ => { verdict := .proceed, state := s.withStack rest, host := h }
  | .decision d => stepDecision s d rest h

/-- One step of the machine. -/
def step (P : Program) (H : Host σ τ) (s : State τ) (h : σ) : Turn σ τ :=
  match s.stack with
  | [] => { verdict := .accept, state := s, host := h }
  | .finish :: rest => stepFinish P s rest h
  | .entered symbol speculative :: rest => stepEntered P H s symbol speculative rest h
  | .resolving :: rest => stepResolving s rest h
  | .lookahead d entry :: rest => stepLookahead P s d entry rest h
  | .node n :: rest => stepNode P H s n rest h

end Step

end PredictiveParser.Machine
