import PredictiveParser.Proofs.Machine.Projection

/-!
# What a step can do

`Effect` lists the steps of the machine: what is on top of the stack, what the program and the next token say about it, and
the state and the host afterwards. Every step is one of them (`effect_step`), so what all steps have in common is proved
by cases on effects, above all what they leave alone (`step_frame`) and where they stop (`stops_step`). A step of which it is known
what it sees is told by an equation (`step_of_looks` and those after it). The callbacks of
a step (`calls`) are those that reach a host that keeps a record of them (`Host.recording`), and with such a host the step
is the same (`effect_recording`).
-/

namespace PredictiveParser.Machine

variable {σ τ : Type}

/-! ## Positions and the next token -/

@[simp] theorem window_advance (s : State τ) : s.advance.window = s.window := by
  unfold State.advance
  split <;> rfl

@[simp] theorem status_advance (s : State τ) : s.advance.status = s.status := by
  unfold State.advance
  split <;> rfl

/-- The token position after what is matched. -/
def State.position (s : State τ) : Nat :=
  s.cursor + s.matched.toNat

theorem advance_eq (s : State τ) : s.advance = { s with cursor := s.position, matched := false } := by
  obtain ⟨window, cursor, matched, stack, symbols, episodes, locators, armed, last, tree, stats, status⟩ := s
  cases matched <;> rfl

@[simp] theorem cursor_advance (s : State τ) : s.advance.cursor = s.position := by
  rw [advance_eq]

@[simp] theorem position_advance (s : State τ) : s.advance.position = s.position := by
  rw [advance_eq]
  rfl

@[simp] theorem stack_advance (s : State τ) : s.advance.stack = s.stack := by
  rw [advance_eq]

@[simp] theorem episodes_advance (s : State τ) : s.advance.episodes = s.episodes := by
  rw [advance_eq]

@[simp] theorem tree_advance (s : State τ) : s.advance.tree = s.tree := by
  rw [advance_eq]

/-- The token that a step looks at, if it was fed. -/
def State.next? (s : State τ) : Option τ :=
  s.window.get? s.position

@[simp] theorem current_advance (s : State τ) : s.advance.current? = s.next? := by
  rw [State.current?, window_advance, cursor_advance, State.next?]

@[simp] theorem currentId_advance [Terminal τ] (s : State τ) : s.advance.currentId? = s.next?.map Terminal.id := by
  rw [State.currentId?, current_advance]

@[simp] theorem isSpeculating_advance (s : State τ) : s.advance.isSpeculating = s.isSpeculating := by
  rw [State.isSpeculating, episodes_advance, State.isSpeculating]

@[simp] theorem isSpeculating_withStack (s : State τ) (stack : List Frame) :
    (s.withStack stack).isSpeculating = s.isSpeculating := rfl

theorem isSpeculating_iff {s : State τ} : s.isSpeculating = true ↔ s.episodes ≠ [] := by
  simp [State.isSpeculating]

@[simp] theorem symbols_advance (s : State τ) : s.advance.symbols = s.symbols := by
  rw [advance_eq]

/-- Inside of episodes a matched token leaves no trace but the place behind it. -/
theorem consume_speculating {s : State τ} (hs : s.isSpeculating = true) (t : τ) (rest : List Frame) :
    s.consume t rest = { s with stack := rest, matched := true, stats.matched := s.stats.matched + 1 } :=
  if_pos hs

theorem consume_eq (s : State τ) (t : τ) (rest : List Frame) :
    s.consume t rest = { s with
      stack := rest
      matched := true
      stats.matched := s.stats.matched + 1
      locators := (s.consume t rest).locators
      armed := (s.consume t rest).armed
      last := if s.isSpeculating then s.last else some t
      tree := if s.isSpeculating then s.tree else s.tree.map (·.leaf t) } := by
  by_cases hspec : s.isSpeculating = true
  · rw [consume_speculating hspec, if_pos hspec, if_pos hspec]
  · have hspec' : ¬ State.isSpeculating { s with
        stack := rest, matched := true, stats.matched := s.stats.matched + 1 } = true := hspec
    rw [if_neg hspec, if_neg hspec]
    unfold State.consume State.bindArmed
    dsimp only
    rw [if_neg hspec']
    split <;> rfl

section Effects

variable [Terminal τ]

/-- The production that the machine takes for a symbol on a token. -/
def State.production? (P : Program) (s : State τ) (symbol : Nat) (t : τ) : Option Nat :=
  P.lookup symbol (Terminal.id t) <|> if s.isSpeculating then P.emptyProduction symbol else none

/-- The state in which the mark of a symbol was taken off the stack. -/
def State.leaveSymbol (s : State τ) (rest : List Frame) : State τ :=
  { s with stack := rest, symbols := s.symbols.tail }

/-- The state in which a decision above `rest` begins at the current token. -/
def State.beginDecision (s : State τ) (d : Nat) (rest : List Frame) : State τ :=
  { s.advance with
    stack := .lookahead d s.advance.cursor :: rest
    stats.lookaheads := s.advance.stats.lookaheads + 1 }

/-- The reply of the host to the exit of a symbol above `rest`. -/
def leaveReply (P : Program) (H : Host σ τ) (s : State τ) (symbol : Nat) (rest : List Frame) (h : σ) : Reply σ :=
  H.callAll (s.leaveSymbol rest) (if (P.callbacks symbol).leave then [.leave symbol] else []) h

/-- The reply of the host to the entry of a symbol above `rest`. -/
def enterReply (P : Program) (H : Host σ τ) (s : State τ) (symbol : Nat) (rest : List Frame) (h : σ) : Reply σ :=
  H.callAll (s.advance.withStack rest) (if s.isSpeculating then [] else entryEvents P symbol rest) h

/-- The reply of the host to an action above `rest`. -/
def actionReply (H : Host σ τ) (s : State τ) (a : Nat) (rest : List Frame) (h : σ) : Reply σ :=
  H.call (.action a) (s.withStack rest) h

/-- The step on the frame looks at the next token. -/
def Frame.Looks (P : Program) : Frame → Prop
  | finish => True
  | lookahead d _ => ∃ default?, P.dfa d = .switch default?
  | node n => (∃ a, P.instruction n = .token a) ∨ (∃ a, P.instruction n = .symbol a) ∨ ∃ d, P.instruction n = .decision d
  | _ => False

/-- What the machine expects in the state `s` does not come, or an action fails; the machine is in the state `s'` when it
notices the error. -/
inductive Misses (P : Program) (H : Host σ τ) (s : State τ) (h : σ) : (s' : State τ) → (h' : σ) → ParseError → Prop
  | transition {d entry : Nat} {rest : List Frame} {t : τ} : s.stack = .lookahead d entry :: rest →
      P.dfa d = .switch none → s.next? = some t → P.transition d (Terminal.id t) = none →
      Misses P H s h s.advance h (s.advance.unexpected P (P.dfaExpected d))
  | token {n expected : Nat} {rest : List Frame} {t : τ} : s.stack = .node n :: rest →
      P.instruction n = .token expected → s.next? = some t → accepts expected (Terminal.id t) = false →
      Misses P H s h s.advance h (s.advance.unexpected P [expected])
  | symbol {n a : Nat} {rest : List Frame} {t : τ} : s.stack = .node n :: rest → P.instruction n = .symbol a →
      s.next? = some t → s.production? P a t = none →
      Misses P H s h s.advance h (s.advance.unexpected P (P.expected a))
  | action {n a : Nat} {rest : List Frame} {message : String} : s.stack = .node n :: rest →
      P.instruction n = .action a → (actionReply H s a rest h).failure = some message →
      Misses P H s h (s.withStack rest) (actionReply H s a rest h).host ((s.withStack rest).semantic message)

/-- The steps of the machine: how it goes on after them, and the state and the host then. -/
inductive Effect (P : Program) (H : Host σ τ) (s : State τ) (h : σ) : Verdict → (s' : State τ) → (h' : σ) → Prop
  /-- Nothing is expected any more. -/
  | empty : s.stack = [] → Effect P H s h .accept s h
  /-- The end of the input is expected and comes. -/
  | accepted {rest : List Frame} {t : τ} : s.stack = .finish :: rest → s.next? = some t → Terminal.id t = endToken →
      Effect P H s h .accept (s.advance.withStack rest) h
  /-- The next token is needed and was not fed yet. -/
  | waits {f : Frame} {rest : List Frame} : s.stack = f :: rest → f.Looks P → s.next? = none →
      Effect P H s h .await s.advance h
  /-- A symbol is matched inside of an episode. -/
  | passed {a : Nat} {rest : List Frame} : s.stack = .entered a true :: rest →
      Effect P H s h .proceed (s.leaveSymbol rest) h
  /-- A symbol is matched outside of episodes. -/
  | left {a : Nat} {rest : List Frame} : s.stack = .entered a false :: rest →
      (leaveReply P H s a rest h).failure = none →
      Effect P H s h .proceed { s.leaveSymbol rest with tree := s.tree.map (·.close) } (leaveReply P H s a rest h).host
  /-- A resolver is matched. -/
  | committed {e : Episode} {es : List Episode} {rest : List Frame} : s.stack = .resolving :: rest →
      s.episodes = e :: es →
      Effect P H s h .proceed (State.goto { s with episodes := es } e.entry (.node e.accept :: rest)) h
  /-- A decision is made. -/
  | resolved {d entry p : Nat} {rest : List Frame} : s.stack = .lookahead d entry :: rest → P.dfa d = .leaf p →
      Effect P H s h .proceed (s.goto entry (.node p :: rest)) h
  /-- A resolver is tried. -/
  | attempted {d entry n p : Nat} {otherwise : Option Target} {rest : List Frame} : s.stack = .lookahead d entry :: rest →
      P.dfa d = .resolver n p otherwise → Effect P H s h .proceed (s.openEpisode entry n p otherwise rest) h
  /-- A decision follows a token. -/
  | followed {d entry d' : Nat} {default? : Option Nat} {rest : List Frame} {t : τ} :
      s.stack = .lookahead d entry :: rest → P.dfa d = .switch default? → s.next? = some t →
      P.transition d (Terminal.id t) = some d' →
      Effect P H s h .proceed (s.advance.goto (s.position + 1) (.lookahead d' entry :: rest)) h
  /-- A decision is made by default. -/
  | defaulted {d entry p : Nat} {rest : List Frame} {t : τ} : s.stack = .lookahead d entry :: rest →
      P.dfa d = .switch (some p) → s.next? = some t → P.transition d (Terminal.id t) = none →
      Effect P H s h .proceed (s.advance.goto entry (.node p :: rest)) h
  /-- A token is matched. -/
  | matched {n expected : Nat} {rest : List Frame} {t : τ} : s.stack = .node n :: rest →
      P.instruction n = .token expected → s.next? = some t → accepts expected (Terminal.id t) = true →
      Effect P H s h .proceed (s.advance.consume t rest) h
  /-- A symbol is entered. -/
  | entered {n a p : Nat} {rest : List Frame} {t : τ} : s.stack = .node n :: rest → P.instruction n = .symbol a →
      s.next? = some t → s.production? P a t = some p → (enterReply P H s a rest h).failure = none →
      Effect P H s h .proceed ((s.advance.withStack rest).enterSymbol a p) (enterReply P H s a rest h).host
  /-- A sequence is unfolded. -/
  | unfolded {n : Nat} {parts : List Nat} {rest : List Frame} : s.stack = .node n :: rest →
      P.instruction n = .sequence parts → Effect P H s h .proceed (s.withStack (parts.map .node ++ rest)) h
  /-- An action succeeds. -/
  | acted {n a : Nat} {rest : List Frame} : s.stack = .node n :: rest → P.instruction n = .action a →
      (actionReply H s a rest h).failure = none →
      Effect P H s h .proceed (s.withStack rest) (actionReply H s a rest h).host
  /-- A slot is to be bound. -/
  | armed {n slot : Nat} {rest : List Frame} : s.stack = .node n :: rest → P.instruction n = .beacon slot →
      Effect P H s h .proceed { s.withStack rest with armed := if s.isSpeculating then s.armed else some slot } h
  /-- A node is passed over. -/
  | skipped {n : Nat} {rest : List Frame} : s.stack = .node n :: rest →
      P.instruction n = .epsilon ∨ (∃ a, P.instruction n = .argument a) → Effect P H s h .proceed (s.withStack rest) h
  /-- A decision begins. -/
  | began {n d : Nat} {rest : List Frame} {t : τ} : s.stack = .node n :: rest → P.instruction n = .decision d →
      s.next? = some t → Effect P H s h .proceed (s.beginDecision d rest) h
  /-- An error is answered by going back to an open episode. -/
  | rolledBack {b s' : State τ} {h' : σ} {error : ParseError} : Misses P H s h b h' error → s.episodes ≠ [] →
      unwind P s.episodes none b = (none, s') → Effect P H s h .proceed s' h'
  /-- An error ends the parse, since no open episode has an else branch. -/
  | exhausted {b s' : State τ} {h' : σ} {error error' : ParseError} : Misses P H s h b h' error → s.episodes ≠ [] →
      unwind P s.episodes none b = (some error', s') → Effect P H s h (.reject error') s' h'
  /-- An error outside of episodes ends the parse. -/
  | missed {b : State τ} {h' : σ} {error : ParseError} : Misses P H s h b h' error → s.episodes = [] →
      Effect P H s h (.reject error) b h'
  /-- The end of the input is expected and does not come. -/
  | unfinished {rest : List Frame} {t : τ} : s.stack = .finish :: rest → s.next? = some t → Terminal.id t ≠ endToken →
      Effect P H s h (.reject (s.advance.unexpected P [endToken])) s.advance h
  /-- The host objects to the exit of a symbol. -/
  | leaveRefused {a : Nat} {rest : List Frame} {message : String} : s.stack = .entered a false :: rest →
      (leaveReply P H s a rest h).failure = some message →
      Effect P H s h (.reject ((s.leaveSymbol rest).semantic message)) (s.leaveSymbol rest) (leaveReply P H s a rest h).host
  /-- The host objects to the entry of a symbol. -/
  | enterRefused {n a : Nat} {rest : List Frame} {message : String} : s.stack = .node n :: rest →
      P.instruction n = .symbol a → (enterReply P H s a rest h).failure = some message →
      Effect P H s h (.reject ((s.advance.withStack rest).semantic message)) (s.advance.withStack rest)
        (enterReply P H s a rest h).host
  /-- A decision waits without an episode. -/
  | underflow {rest : List Frame} : s.stack = .resolving :: rest → s.episodes = [] →
      Effect P H s h (.reject (s.semantic "resolver stack underflow")) s h

/-- The turn is one of the steps of the machine. -/
def Turn.Does (P : Program) (H : Host σ τ) (s : State τ) (h : σ) (turn : Turn σ τ) : Prop :=
  Effect P H s h turn.verdict turn.state turn.host

variable {P : Program} {H : Host σ τ} {s : State τ} {h : σ}

/-- Until the machine notices an error it has only moved past a matched token or taken the action off the stack. -/
theorem Misses.state_eq {s' : State τ} {h' : σ} {error : ParseError} (hm : Misses P H s h s' h' error) :
    s' = { s with cursor := s'.cursor, matched := s'.matched, stack := s'.stack } := by
  cases hm with
  | action => rfl
  | _ => rw [advance_eq]

theorem Misses.episodes {s' : State τ} {h' : σ} {error : ParseError} (hm : Misses P H s h s' h' error) :
    s'.episodes = s.episodes :=
  congrArg (·.episodes) hm.state_eq

/-- Answering an error. -/
theorem Misses.does {s' : State τ} {h' : σ} {error : ParseError} (hm : Misses P H s h s' h' error)
    (remarks : List Remark) : (miss P error s' h' remarks).Does P H s h := by
  unfold miss
  by_cases hspec : s'.isSpeculating = true
  · rw [if_pos hspec]
    rw [isSpeculating_iff, hm.episodes] at hspec
    rw [hm.episodes]
    rcases hu : unwind P s.episodes none s' with ⟨_ | error', b⟩
    · exact .rolledBack hm hspec hu
    · exact .exhausted hm hspec hu
  · rw [if_neg hspec]
    rw [isSpeculating_iff, hm.episodes, Decidable.not_not] at hspec
    exact .missed hm hspec

theorem does_stepFinish {rest : List Frame} (hs : s.stack = .finish :: rest) : (stepFinish P s rest h).Does P H s h := by
  unfold stepFinish
  dsimp only
  rw [currentId_advance]
  cases ht : s.next? with
  | none => exact .waits hs trivial ht
  | some t =>
    dsimp only [Option.map_some]
    split
    · next hend => exact .accepted hs ht hend
    · next hend => exact .unfinished hs ht hend

theorem does_stepEntered {a : Nat} {speculative : Bool} {rest : List Frame}
    (hs : s.stack = .entered a speculative :: rest) : (stepEntered P H s a speculative rest h).Does P H s h := by
  unfold stepEntered
  dsimp only
  cases speculative with
  | true => exact .passed hs
  | false =>
    rw [if_neg Bool.false_ne_true]
    split
    · next hf => exact .leaveRefused hs hf
    · next hf => exact .left hs hf

theorem does_stepResolving {rest : List Frame} (hs : s.stack = .resolving :: rest) :
    (stepResolving s rest h).Does P H s h := by
  unfold stepResolving
  split
  · next hes => exact .underflow hs hes
  · next hes => exact .committed hs hes

theorem does_stepLookahead {d entry : Nat} {rest : List Frame} (hs : s.stack = .lookahead d entry :: rest) :
    (stepLookahead P s d entry rest h).Does P H s h := by
  unfold stepLookahead
  cases hd : P.dfa d with
  | leaf p => exact .resolved hs hd
  | resolver n p otherwise => exact .attempted hs hd
  | switch default? =>
    dsimp only
    rw [currentId_advance, cursor_advance]
    cases ht : s.next? with
    | none => exact .waits hs ⟨_, hd⟩ ht
    | some t =>
      dsimp only [Option.map_some]
      cases htr : P.transition d (Terminal.id t) with
      | some d' => exact .followed hs hd ht htr
      | none =>
        cases default? with
        | some p => exact .defaulted hs hd ht htr
        | none => exact (Misses.transition hs hd ht htr).does []

theorem does_stepToken {n expected : Nat} {rest : List Frame} (hs : s.stack = .node n :: rest)
    (hn : P.instruction n = .token expected) : (stepToken P s expected rest h).Does P H s h := by
  unfold stepToken
  dsimp only
  rw [current_advance]
  cases ht : s.next? with
  | none => exact .waits hs (.inl ⟨_, hn⟩) ht
  | some t =>
    dsimp only
    split
    · next hacc => exact .matched hs hn ht hacc
    · next hacc => exact (Misses.token hs hn ht (Bool.eq_false_iff.2 hacc)).does []

theorem does_stepSymbol {n a : Nat} {rest : List Frame} (hs : s.stack = .node n :: rest)
    (hn : P.instruction n = .symbol a) : (stepSymbol P H s a rest h).Does P H s h := by
  unfold stepSymbol
  dsimp only
  rw [currentId_advance, isSpeculating_withStack, isSpeculating_advance]
  cases ht : s.next? with
  | none => exact .waits hs (.inr (.inl ⟨_, hn⟩)) ht
  | some t =>
    dsimp only [Option.map_some]
    split
    · next hp => exact (Misses.symbol hs hn ht hp).does []
    · next p hp =>
      split
      · next hf => exact .enterRefused hs hn hf
      · next hf => exact .entered hs hn ht hp hf

theorem does_stepAction {n a : Nat} {rest : List Frame} (hs : s.stack = .node n :: rest)
    (hn : P.instruction n = .action a) : (stepAction P H s a rest h).Does P H s h := by
  unfold stepAction
  dsimp only
  split
  · next hf => exact (Misses.action hs hn hf).does _
  · next hf => exact .acted hs hn hf

theorem does_stepNode {n : Nat} {rest : List Frame} (hs : s.stack = .node n :: rest) :
    (stepNode P H s n rest h).Does P H s h := by
  unfold stepNode
  cases hn : P.instruction n with
  | token expected => exact does_stepToken hs hn
  | symbol a => exact does_stepSymbol hs hn
  | action a => exact does_stepAction hs hn
  | sequence parts => exact .unfolded hs hn
  | epsilon => exact .skipped hs (.inl hn)
  | argument a => exact .skipped hs (.inr ⟨a, hn⟩)
  | beacon slot =>
    have := Effect.armed (H := H) (h := h) hs hn
    dsimp only
    rw [isSpeculating_withStack]
    cases hspec : s.isSpeculating <;> rw [hspec] at this <;> exact this
  | decision d =>
    dsimp only [stepDecision]
    rw [currentId_advance]
    cases ht : s.next? with
    | none => exact .waits hs (.inr (.inr ⟨_, hn⟩)) ht
    | some t => exact .began hs hn ht

/-- **Every step is one of the steps of the machine.** -/
theorem effect_step (P : Program) (H : Host σ τ) (s : State τ) (h : σ) :
    Effect P H s h (step P H s h).verdict (step P H s h).state (step P H s h).host := by
  show (step P H s h).Does P H s h
  unfold step
  split
  · next hs => exact .empty hs
  · next hs => exact does_stepFinish hs
  · next hs => exact does_stepEntered hs
  · next hs => exact does_stepResolving hs
  · next hs => exact does_stepLookahead hs
  · next hs => exact does_stepNode hs

theorem effect_of_verdict {v : Verdict} (hv : (step P H s h).verdict = v) :
    Effect P H s h v (step P H s h).state (step P H s h).host :=
  hv ▸ effect_step P H s h

/-! ## What steps leave alone, and where they stop -/

theorem unwind_frame (es : List Episode) (symbol? : Option Nat) (s : State τ) :
    (unwind P es symbol? s).2.window = s.window ∧ (unwind P es symbol? s).2.status = s.status := by
  induction es generalizing symbol? s with
  | nil => exact ⟨rfl, rfl⟩
  | cons e es ih =>
    rw [unwind]
    split
    · exact ⟨rfl, rfl⟩
    · exact ⟨rfl, rfl⟩
    · exact ih _ _

/-- **A step neither takes in nor releases tokens, and only an answer changes the status.** -/
theorem Effect.frame {v : Verdict} {s' : State τ} {h' : σ} (he : Effect P H s h v s' h') :
    s'.window = s.window ∧ s'.status = s.status := by
  have hunwind : ∀ {b b' : State τ} {h' : σ} {error : ParseError} {r : Option ParseError}, Misses P H s h b h' error →
      unwind P s.episodes none b = (r, b') → b'.window = s.window ∧ b'.status = s.status := by
    intro b b' h' error r hm hu
    have hframe := unwind_frame (P := P) s.episodes none b
    rw [hu, hm.state_eq] at hframe
    exact hframe
  cases he with
  | rolledBack hm _ hu => exact hunwind hm hu
  | exhausted hm _ hu => exact hunwind hm hu
  | missed hm =>
    rw [hm.state_eq]
    exact ⟨rfl, rfl⟩
  | matched =>
    rw [consume_eq]
    exact ⟨window_advance s, status_advance s⟩
  | accepted | waits | followed | defaulted | entered | began | unfinished | enterRefused =>
    exact ⟨window_advance s, status_advance s⟩
  | _ => exact ⟨rfl, rfl⟩

theorem step_frame (s : State τ) (h : σ) :
    (step P H s h).state.window = s.window ∧ (step P H s h).state.status = s.status :=
  (effect_step P H s h).frame

/-- A step that waits only moves past a matched token. -/
theorem Effect.waited {s' : State τ} {h' : σ} (he : Effect P H s h .await s' h') :
    s' = s.advance ∧ h' = h ∧ s.next? = none := by
  cases he with
  | waits _ _ hnext => exact ⟨rfl, rfl, hnext⟩

/-- A step that waits looks at the next token. -/
theorem exists_looks_of_await (hv : (step P H s h).verdict = .await) : ∃ f rest, s.stack = f :: rest ∧ f.Looks P := by
  have he := effect_of_verdict hv
  generalize (step P H s h).state = s', (step P H s h).host = h' at he
  cases he with
  | waits hs hf => exact ⟨_, _, hs, hf⟩

/-- A turn that waits only moves past a matched token; the input is accepted at its end, when nothing is expected any
more. -/
def Turn.Stops (s : State τ) (turn : Turn σ τ) : Prop :=
  (turn.verdict = .await → turn.state = s.advance) ∧
    (turn.verdict = .accept → s.stack = [] ∨
      ∃ rest, s.stack = .finish :: rest ∧ s.advance.currentId? = some endToken ∧ turn.state = s.advance.withStack rest)

/-- Where a step stops. -/
theorem stops_step (s : State τ) (h : σ) : (step P H s h).Stops s := by
  refine ⟨fun hv => (effect_of_verdict hv).waited.1, fun hv => ?_⟩
  have he := effect_of_verdict hv
  generalize (step P H s h).state = s', (step P H s h).host = h' at he ⊢
  cases he with
  | empty hs => exact .inl hs
  | @accepted rest t hs hnext hend =>
    exact .inr ⟨rest, hs, by rw [currentId_advance, hnext, Option.map_some, hend], rfl⟩

/-! ## Steps that are known

When it is known what is on top of the stack and which token comes next, the step can be told in full. -/

section Known

variable {rest : List Frame} {d entry n p : Nat} {t : τ}

/-- A step that looks at the next token waits for it. -/
theorem step_of_looks {f : Frame} (hs : s.stack = f :: rest) (hf : f.Looks P) (hnext : s.next? = none) (h : σ) :
    step P H s h = { verdict := .await, state := s.advance, host := h } := by
  have hid : s.advance.currentId? = none := by rw [currentId_advance, hnext, Option.map_none]
  have hcurrent : s.advance.current? = none := by rw [current_advance, hnext]
  rw [step, hs]
  cases f with
  | finish =>
    dsimp only [stepFinish]
    rw [hid]
  | lookahead d entry =>
    obtain ⟨default?, hd⟩ := hf
    dsimp only [stepLookahead]
    rw [hd]
    dsimp only
    rw [hid]
  | node m =>
    dsimp only [stepNode]
    rcases hf with ⟨a, hm⟩ | ⟨a, hm⟩ | ⟨d, hm⟩
    · rw [hm]
      dsimp only [stepToken]
      rw [hcurrent]
    · rw [hm]
      dsimp only [stepSymbol]
      rw [hid]
    · rw [hm]
      dsimp only [stepDecision]
      rw [hid]
  | entered => exact hf.elim
  | resolving => exact hf.elim

theorem step_finish (hs : s.stack = .finish :: rest) (hnext : s.next? = some t) (h : σ) : step P H s h =
    if Terminal.id t = endToken then ⟨.accept, s.advance.withStack rest, h, [.accepted]⟩
    else { verdict := .reject (s.advance.unexpected P [endToken]), state := s.advance, host := h } := by
  rw [step, hs]
  dsimp only [stepFinish]
  rw [currentId_advance, hnext]
  rfl

theorem step_node (hs : s.stack = .node n :: rest) (h : σ) : step P H s h = stepNode P H s n rest h := by
  rw [step, hs]

theorem step_token {expected : Nat} (hs : s.stack = .node n :: rest) (hn : P.instruction n = .token expected) (h : σ) :
    step P H s h = stepToken P s expected rest h := by
  rw [step_node hs, stepNode, hn]

theorem step_symbol {a : Nat} (hs : s.stack = .node n :: rest) (hn : P.instruction n = .symbol a) (h : σ) :
    step P H s h = stepSymbol P H s a rest h := by
  rw [step_node hs, stepNode, hn]

theorem step_action {a : Nat} (hs : s.stack = .node n :: rest) (hn : P.instruction n = .action a) (h : σ) :
    step P H s h = stepAction P H s a rest h := by
  rw [step_node hs, stepNode, hn]

/-- A decision begins at the next token. -/
theorem step_decision (hs : s.stack = .node n :: rest) (hn : P.instruction n = .decision d) (hnext : s.next? = some t) (h : σ) :
    step P H s h = { verdict := .proceed, state := s.beginDecision d rest, host := h } := by
  rw [step_node hs, stepNode, hn]
  dsimp only [stepDecision]
  rw [currentId_advance, hnext]
  rfl

/-- A leaf decides for its production. -/
theorem step_leaf (hs : s.stack = .lookahead d entry :: rest) (hd : P.dfa d = .leaf p) (h : σ) :
    step P H s h = ⟨.proceed, s.goto entry (.node p :: rest), h, [.resolved d p]⟩ := by
  rw [step, hs]
  dsimp only [stepLookahead]
  rw [hd]

/-- A resolver opens an episode, without a callback. -/
theorem step_resolver {accept : Nat} {otherwise : Option Target} (hs : s.stack = .lookahead d entry :: rest)
    (hd : P.dfa d = .resolver n accept otherwise) (h : σ) :
    step P H s h = ⟨.proceed, s.openEpisode entry n accept otherwise rest, h, [.attempted d n]⟩ := by
  rw [step, hs]
  dsimp only [stepLookahead]
  rw [hd]

/-- A switch is left with the next token or for the default. -/
theorem step_switch {default? : Option Nat} (hs : s.stack = .lookahead d entry :: rest) (hnext : s.next? = some t) (h : σ) :
    P.dfa d = .switch default? → step P H s h =
      match P.transition d (Terminal.id t), default? with
      | some d', _ =>
        { verdict := .proceed, state := s.advance.goto (s.position + 1) (.lookahead d' entry :: rest), host := h }
      | none, some p => { verdict := .proceed, state := s.advance.goto entry (.node p :: rest), host := h }
      | none, none => miss P (s.advance.unexpected P (P.dfaExpected d)) s.advance h := by
  intro hd
  rw [step, hs]
  dsimp only [stepLookahead]
  rw [hd]
  dsimp only
  rw [currentId_advance, hnext, cursor_advance]
  rfl

end Known

/-! ## The callbacks of a step -/

omit [Terminal τ] in
/-- The host, keeping a record of its callbacks and of whether it complied. -/
def Host.recording (H : Host σ τ) : Host (σ × List (Event × Bool)) τ :=
  H.keeping fun event _ failure => [(event, failure.isNone)]

omit [Terminal τ] in
theorem record_actionReply (H : Host σ τ) (s : State τ) (a : Nat) (rest : List Frame) (h : σ) :
    (actionReply H.recording s a rest (h, [])).host.2 =
      [(.action a, (actionReply H.recording s a rest (h, [])).failure.isNone)] := rfl

omit [Terminal τ] in
/-- Inside of episodes the host does not hear of entered symbols. -/
theorem enterReply_of_speculating (H : Host σ τ) (hs : s.isSpeculating = true) (a : Nat) (rest : List Frame) :
    enterReply P H s a rest h = ⟨h, none, []⟩ := by
  rw [enterReply, if_pos hs]
  rfl

/-- The callbacks of a step, and whether the host complied. -/
def calls (P : Program) (H : Host σ τ) (s : State τ) (h : σ) : List (Event × Bool) :=
  (step P H.recording s (h, [])).host.2

/-- A step as it is recorded. -/
theorem effect_recording (P : Program) (H : Host σ τ) (s : State τ) (h : σ) :
    Effect P H.recording s (h, []) (step P H s h).verdict (step P H s h).state ((step P H s h).host, calls P H s h) := by
  have he := effect_step P H.recording s (h, [])
  have hsame : step P H.recording s (h, []) = (step P H s h).map (·, calls P H s h) := step_keeping P H s h []
  rw [hsame] at he
  exact he

end Effects

end PredictiveParser.Machine
