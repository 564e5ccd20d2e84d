import PredictiveParser.Proofs.Machine.Retention

/-!
# Steps with another window

A step looks at few tokens: the current one, the next one and those where open episodes began (`State.ShownBy`). With another
window that shows them it does the same, if the host does not count tokens (`Host.Oblivious`, `step_onWindow`). A step that
waits for a token has only moved to it, and can be made again from there (`step_advance`). Within a call the current token,
and those where open episodes began, were fed (`invariant_before`).
-/

namespace PredictiveParser.Machine

variable {σ τ : Type}

/-! ## Another window -/

/-- The state with another window and another count of the tokens. -/
def State.onWindow (s : State τ) (w : TokenWindow τ) (n : Nat) : State τ :=
  { s with window := w, stats.tokens := n }

/-- The turn with another window and another count of the tokens. -/
def Turn.onWindow (turn : Turn σ τ) (w : TokenWindow τ) (n : Nat) : Turn σ τ :=
  { turn with state := turn.state.onWindow w n }

/-- The callbacks look neither at the retained tokens, apart from the current one, nor at the count of the tokens. -/
def Host.Oblivious (H : Host σ τ) : Prop :=
  ∀ (event : Event) (s : State τ) (w : TokenWindow τ) (n : Nat) (h : σ), w.get? s.cursor = s.current? →
    H.call event (s.onWindow w n) h = H.call event s h

section OnWindow

variable {w : TokenWindow τ} {n : Nat} {s : State τ}

theorem advance_onWindow : (s.onWindow w n).advance = s.advance.onWindow w n := by
  unfold State.advance
  show (if s.matched then _ else _) = _
  split <;> rfl

theorem consume_onWindow (t : τ) (rest : List Frame) :
    (s.onWindow w n).consume t rest = (s.consume t rest).onWindow w n := by
  obtain ⟨window, cursor, matched, stack, symbols, episodes, locators, armed, last, tree, stats, status⟩ := s
  cases episodes <;> cases armed <;> rfl

theorem advance_advance (s : State τ) : s.advance.advance = s.advance := by
  rw [advance_eq s.advance, position_advance, advance_eq]

theorem Host.Oblivious.callAll {H : Host σ τ} (hH : H.Oblivious) (hs : w.get? s.cursor = s.current?) (events : List Event)
    (h : σ) : H.callAll (s.onWindow w n) events h = H.callAll s events h := by
  induction events generalizing h with
  | nil => rfl
  | cons event events ih =>
    rw [Host.callAll, Host.callAll, hH event s w n h hs]
    split
    · rfl
    · rw [ih]

end OnWindow

variable [Terminal τ] {P : Program} {H : Host σ τ} {s : State τ} {h : σ} {w : TokenWindow τ} {n : Nat}

theorem unexpected_onWindow (hs : w.get? s.cursor = s.current?) (expected : List Nat) :
    (s.onWindow w n).unexpected P expected = s.unexpected P expected := by
  have hcurrent : (s.onWindow w n).current? = s.current? := hs
  unfold State.unexpected State.found State.currentSpan? State.currentId?
  rw [hcurrent]

theorem semantic_onWindow (hs : w.get? s.cursor = s.current?) (message : String) :
    (s.onWindow w n).semantic message = s.semantic message := by
  have hcurrent : (s.onWindow w n).current? = s.current? := hs
  unfold State.semantic State.currentSpan?
  rw [hcurrent]

/-- Going back looks at the tokens where open episodes began. -/
theorem unwind_onWindow {es : List Episode} {symbol? : Option Nat}
    (hes : ∀ e ∈ es, w.get? e.entry = s.window.get? e.entry) (hs : es = [] → w.get? s.cursor = s.current?) :
    unwind P es symbol? (s.onWindow w n) =
      ((unwind P es symbol? s).1, (unwind P es symbol? s).2.onWindow w n) := by
  induction es generalizing symbol? s with
  | nil =>
    have hcurrent : (s.onWindow w n).current? = s.current? := hs rfl
    unfold unwind State.found State.currentSpan? State.currentId?
    rw [hcurrent]
  | cons e es ih =>
    obtain ⟨he, hes⟩ := List.forall_mem_cons.1 hes
    rw [unwind, unwind]
    split
    · rfl
    · rfl
    · show unwind P es _ (((s.undo e es).goto e.entry (s.undo e es).stack.tail).onWindow w n) = _
      exact ih hes fun _ => he

/-- The window shows the tokens that a step from the state looks at. -/
structure State.ShownBy (s : State τ) (w : TokenWindow τ) : Prop where
  current : (∀ d entry rest, s.stack ≠ .lookahead d entry :: rest) → w.get? s.cursor = s.current?
  next : ∀ {t}, s.next? = some t → w.get? s.position = some t
  episodes : ∀ e ∈ s.episodes, w.get? e.entry = s.window.get? e.entry

theorem miss_onWindow (hs : s.ShownBy w) {b : State τ} (hepisodes : b.episodes = s.episodes) (hwindow : b.window = s.window)
    {error : ParseError} {remarks : List Remark} :
    miss P error (b.onWindow w n) h remarks = (miss P error b h remarks).onWindow w n := by
  have hes : ∀ e ∈ b.episodes, w.get? e.entry = b.window.get? e.entry := by
    rw [hepisodes, hwindow]
    exact hs.episodes
  unfold miss
  show (if b.isSpeculating then _ else _) = _
  by_cases hspec : b.isSpeculating = true
  · have hne : b.episodes ≠ [] := isSpeculating_iff.1 hspec
    have hu : unwind P (b.onWindow w n).episodes none (b.onWindow w n) =
        ((unwind P b.episodes none b).1, (unwind P b.episodes none b).2.onWindow w n) :=
      unwind_onWindow hes fun he => absurd he hne
    rw [if_pos hspec, if_pos hspec, hu]
    generalize unwind P b.episodes none b = r
    obtain ⟨_ | error', b'⟩ := r <;> rfl
  · rw [if_neg hspec, if_neg hspec]
    rfl

/-! ## The step with another window -/

omit [Terminal τ] in
/-- A window that shows the next token shows the token that is current after moving on. -/
theorem current_advance_onWindow (hnext : w.get? s.position = s.next?) :
    w.get? s.advance.cursor = s.advance.current? := by
  rw [cursor_advance, current_advance, hnext]

theorem currentId_onWindow (hs : w.get? s.cursor = s.current?) : (s.onWindow w n).currentId? = s.currentId? :=
  congrArg (Option.map Terminal.id) hs

theorem stepFinish_onWindow (hnext : w.get? s.position = s.next?) (rest : List Frame) :
    stepFinish P (s.onWindow w n) rest h = (stepFinish P s rest h).onWindow w n := by
  have hcurrent := current_advance_onWindow hnext
  unfold stepFinish
  dsimp only
  rw [advance_onWindow, currentId_onWindow hcurrent, unexpected_onWindow hcurrent]
  cases s.advance.currentId? with
  | none => rfl
  | some id =>
    dsimp only
    by_cases hend : id = endToken
    · rw [if_pos hend, if_pos hend]
      rfl
    · rw [if_neg hend, if_neg hend]
      rfl

theorem stepEntered_eq (a : Nat) (rest : List Frame) :
    stepEntered P H s a false rest h = match (leaveReply P H s a rest h).failure with
      | some message => ⟨.reject ((s.leaveSymbol rest).semantic message), s.leaveSymbol rest,
          (leaveReply P H s a rest h).host, (leaveReply P H s a rest h).notes.map .said⟩
      | none => ⟨.proceed, { s.leaveSymbol rest with tree := s.tree.map (·.close) }, (leaveReply P H s a rest h).host,
          (leaveReply P H s a rest h).notes.map .said⟩ := rfl

theorem stepEntered_onWindow (hH : H.Oblivious) (hs : w.get? s.cursor = s.current?) (a : Nat) (speculative : Bool)
    (rest : List Frame) :
    stepEntered P H (s.onWindow w n) a speculative rest h = (stepEntered P H s a speculative rest h).onWindow w n := by
  cases speculative with
  | true => rfl
  | false =>
    have hrest : (s.onWindow w n).leaveSymbol rest = (s.leaveSymbol rest).onWindow w n := rfl
    have hreply : leaveReply P H (s.onWindow w n) a rest h = leaveReply P H s a rest h :=
      hH.callAll (s := s.leaveSymbol rest) hs _ h
    rw [stepEntered_eq, stepEntered_eq, hreply, hrest]
    cases (leaveReply P H s a rest h).failure with
    | none => rfl
    | some message =>
      dsimp only
      rw [semantic_onWindow (s := s.leaveSymbol rest) hs]
      rfl

theorem stepResolving_onWindow (hs : w.get? s.cursor = s.current?) (rest : List Frame) :
    stepResolving (s.onWindow w n) rest h = (stepResolving s rest h).onWindow w n := by
  have hepisodes : (s.onWindow w n).episodes = s.episodes := rfl
  unfold stepResolving
  rw [hepisodes, semantic_onWindow hs]
  cases s.episodes <;> rfl

theorem stepLookahead_onWindow (hs : s.ShownBy w) {d entry : Nat} {rest : List Frame}
    (hnext : (Frame.lookahead d entry).Looks P → w.get? s.position = s.next?) :
    stepLookahead P (s.onWindow w n) d entry rest h = (stepLookahead P s d entry rest h).onWindow w n := by
  unfold stepLookahead
  cases hd : P.dfa d with
  | leaf p => rfl
  | resolver m p otherwise => rfl
  | switch default? =>
    have hcurrent := current_advance_onWindow (hnext ⟨default?, hd⟩)
    dsimp only
    rw [advance_onWindow, currentId_onWindow hcurrent, unexpected_onWindow hcurrent]
    cases s.advance.currentId? with
    | none => rfl
    | some id =>
      dsimp only
      cases P.transition d id with
      | some d' => rfl
      | none =>
        cases default? with
        | some p => rfl
        | none => exact miss_onWindow hs (episodes_advance s) (window_advance s)

theorem stepToken_onWindow (hs : s.ShownBy w) (hnext : w.get? s.position = s.next?) (a : Nat) (rest : List Frame) :
    stepToken P (s.onWindow w n) a rest h = (stepToken P s a rest h).onWindow w n := by
  have hcurrent := current_advance_onWindow hnext
  unfold stepToken
  dsimp only
  rw [advance_onWindow, unexpected_onWindow hcurrent, show (s.advance.onWindow w n).current? = _ from hcurrent]
  cases s.advance.current? with
  | none => rfl
  | some t =>
    dsimp only
    rw [consume_onWindow, miss_onWindow hs (episodes_advance s) (window_advance s)]
    cases accepts a (Terminal.id t) <;> rfl

theorem stepSymbol_onWindow (hH : H.Oblivious) (hs : s.ShownBy w) (hnext : w.get? s.position = s.next?) (a : Nat)
    (rest : List Frame) :
    stepSymbol P H (s.onWindow w n) a rest h = (stepSymbol P H s a rest h).onWindow w n := by
  have hcurrent := current_advance_onWindow hnext
  have hspec : (s.advance.onWindow w n).isSpeculating = s.advance.isSpeculating := rfl
  have hrest : (s.advance.onWindow w n).withStack rest = (s.advance.withStack rest).onWindow w n := rfl
  have hspec' : ((s.advance.withStack rest).onWindow w n).isSpeculating = (s.advance.withStack rest).isSpeculating := rfl
  unfold stepSymbol
  dsimp only
  rw [advance_onWindow, currentId_onWindow hcurrent, unexpected_onWindow hcurrent, hspec, hrest, hspec']
  cases s.advance.currentId? with
  | none => rfl
  | some id =>
    dsimp only
    cases P.lookup a id <|> if s.advance.isSpeculating then P.emptyProduction a else none with
    | none => exact miss_onWindow hs (episodes_advance s) (window_advance s)
    | some p =>
      dsimp only
      rw [hH.callAll (s := s.advance.withStack rest) hcurrent]
      cases Reply.failure _ with
      | none => rfl
      | some message =>
        dsimp only
        rw [semantic_onWindow (s := s.advance.withStack rest) hcurrent]
        rfl

theorem stepAction_onWindow (hH : H.Oblivious) (hs : s.ShownBy w) {m : Nat} {rest : List Frame}
    (hstack : s.stack = .node m :: rest) (a : Nat) :
    stepAction P H (s.onWindow w n) a rest h = (stepAction P H s a rest h).onWindow w n := by
  have hcurrent : w.get? s.cursor = s.current? := hs.current (by simp [hstack])
  have hrest : (s.onWindow w n).withStack rest = (s.withStack rest).onWindow w n := rfl
  unfold stepAction
  dsimp only
  rw [hrest, hH _ (s.withStack rest) w n h hcurrent]
  cases Reply.failure _ with
  | none => rfl
  | some message =>
    dsimp only
    rw [semantic_onWindow (s := s.withStack rest) hcurrent]
    exact miss_onWindow (b := s.withStack rest) hs rfl rfl

theorem stepNode_onWindow (hH : H.Oblivious) (hs : s.ShownBy w) {m : Nat} {rest : List Frame}
    (hstack : s.stack = .node m :: rest) (hnext : (Frame.node m).Looks P → w.get? s.position = s.next?) :
    stepNode P H (s.onWindow w n) m rest h = (stepNode P H s m rest h).onWindow w n := by
  unfold stepNode
  cases hm : P.instruction m with
  | token a => exact stepToken_onWindow hs (hnext (.inl ⟨a, hm⟩)) a rest
  | symbol a => exact stepSymbol_onWindow hH hs (hnext (.inr (.inl ⟨a, hm⟩))) a rest
  | action a => exact stepAction_onWindow hH hs hstack a
  | sequence parts => rfl
  | epsilon => rfl
  | argument a => rfl
  | beacon slot =>
    have hspec : ((s.onWindow w n).withStack rest).isSpeculating = (s.withStack rest).isSpeculating := rfl
    dsimp only
    rw [hspec]
    cases (s.withStack rest).isSpeculating <;> rfl
  | decision d =>
    have hcurrent := current_advance_onWindow (hnext (.inr (.inr ⟨d, hm⟩)))
    dsimp only [stepDecision]
    rw [advance_onWindow, currentId_onWindow hcurrent]
    cases s.advance.currentId? <;> rfl

/-- **A step does the same with another window that shows the tokens it looks at.** -/
theorem step_onWindow (hH : H.Oblivious) (hs : s.ShownBy w)
    (hnext : ∀ f rest, s.stack = f :: rest → f.Looks P → w.get? s.position = s.next?) :
    step P H (s.onWindow w n) h = (step P H s h).onWindow w n := by
  have hstack : (s.onWindow w n).stack = s.stack := rfl
  unfold step
  rw [hstack]
  cases hstack' : s.stack with
  | nil => rfl
  | cons f rest =>
    cases f with
    | finish => exact stepFinish_onWindow (hnext _ _ hstack' trivial) rest
    | node m => exact stepNode_onWindow hH hs hstack' (hnext _ _ hstack')
    | entered a speculative => exact stepEntered_onWindow hH (hs.current (by simp [hstack'])) a speculative rest
    | lookahead d entry => exact stepLookahead_onWindow hs (hnext _ _ hstack')
    | resolving => exact stepResolving_onWindow (hs.current (by simp [hstack'])) rest

/-! ## Steps that wait -/

/-- **A step that looks at the next token begins by moving to it**, so it can be made again from there. -/
theorem step_advance {f : Frame} {rest : List Frame} (hstack : s.stack = f :: rest) (hf : f.Looks P) :
    step P H s.advance h = step P H s h := by
  unfold step
  rw [stack_advance, hstack]
  cases f with
  | finish =>
    dsimp only [stepFinish]
    rw [advance_advance]
  | lookahead d entry =>
    obtain ⟨default?, hd⟩ := hf
    dsimp only [stepLookahead]
    rw [hd, advance_advance]
  | node m =>
    dsimp only [stepNode]
    rcases hf with ⟨a, hm⟩ | ⟨a, hm⟩ | ⟨d, hm⟩
    · rw [hm]
      dsimp only [stepToken]
      rw [advance_advance]
    · rw [hm]
      dsimp only [stepSymbol]
      rw [advance_advance]
    · rw [hm]
      dsimp only [stepDecision]
      rw [advance_advance]
  | entered => exact hf.elim
  | resolving => exact hf.elim

/-! ## Where the current token was fed -/

/-- The cursor, where the decision on top began and where open episodes began are before the position `stop`. -/
def Places.before (stop : Nat) : Places where
  here cursor _ := cursor < stop
  deciding _ entry _ := entry < stop
  waiting e := e.entry < stop

/-- The current token, and what may be gone back to, stay among the tokens that were fed. -/
theorem lasts_before (P : Program) (past : List τ) : (Places.before past.length).Lasts P past fun _ => True where
  entered ht _ := (List.getElem?_eq_some_iff.1 ht).1
  matched _ _ ht _ _ := (List.getElem?_eq_some_iff.1 ht).1
  began _ ht _ := (List.getElem?_eq_some_iff.1 ht).1
  followed _ _ _ h := h
  decided h := h
  attempted _ h := h
  returned h := h
  resumed _ h := h

/-- When a token is fed, everything that the cursor may go back to is before it. -/
theorem invariant_before (P : Program) (H : Host σ τ) :
    Invariant P H (fun _ s => s.Retains) fun _ s => (Places.before s.window.stop).Holds s where
  new := (invariant_retains P H).new.1
  start symbol buildTree := ((invariant_retains P H).start symbol buildTree).1
  receive := by
    intro past s t _ hr
    have hstop : (s.receive t).window.stop = s.window.stop + 1 := TokenWindow.stop_push _ _
    rw [hstop]
    exact Places.Holds.imp hr ⟨rfl, rfl, rfl, rfl⟩ (fun h => Nat.lt_succ_of_le (Nat.le_trans h.2.1 h.2.2))
      (fun h => Nat.lt_succ_of_le (Nat.le_trans h.2.1 h.2.2)) fun h => Nat.lt_succ_of_le (Nat.le_trans h.2.1 h.2.2)
  step := by
    intro past s h hv hp hs
    have he := effect_of_verdict hp
    rw [he.frame.1]
    rw [hv.shows.stop] at hs ⊢
    exact (lasts_before P past).step he hv.balanced hv.shows (fun _ _ => trivial) hs
  settle hv _ _ :=
    (((effect_step P H _ _).retains hv.balanced hv.shows ((invariant_retains P H).within_of_visits hv)).settle _).1
  takeTree hr := hr.congr ⟨rfl, rfl, rfl, rfl⟩

end PredictiveParser.Machine
