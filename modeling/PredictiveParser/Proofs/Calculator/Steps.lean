import PredictiveParser.Proofs.Calculator.Operations
import PredictiveParser.Proofs.Calculator.Tables
import PredictiveParser.Proofs.Machine.Callbacks
import PredictiveParser.Proofs.Machine.Fuel

/-!
# Steps of the calculator

What a machine does next depends on its stack and on the tokens to come, and between two steps all that matters of its state is a
`Place`. Before a part of a rule it makes a fixed number of steps: it enters a category with the rule that the next lexeme
predicts, matches a lexeme, captures one in a slot, or carries out an operation. These steps depend on the terminals of the tokens
alone, so a place may show of its tokens whatever keeps the terminals (`View`). Where no rule is predicted, another lexeme comes or
an operation fails, the parse stops with an error, and where no token is there, it waits for one (`Breaks`).
-/

namespace PredictiveParser.Calculator

open Machine

/-- The frame of a part. -/
def frame (T : Tables) (p : Part) : Frame :=
  .node (node T p)

/-- What matters of a machine between two steps: its stack, the tokens to come, what the slots hold, the last token and the number
of those that were matched. -/
structure Place where
  stack : List Frame
  tokens : List Token
  slots : Slot → Option Token
  last : Option Token
  count : Nat

/-- What is seen of a token: at least its terminal. -/
structure View where
  see : Token → Token
  id_see : ∀ t, (see t).id = t.id

/-- All of a token is seen. -/
def View.whole : View :=
  ⟨id, fun _ => rfl⟩

theorem View.map_whole (t? : Option Token) : t?.map View.whole.see = t? :=
  congrFun Option.map_id t?

/-- The machine is at the place, whose tokens are seen in the view, and no slot waits for a token. -/
structure Placed (view : View) (s : State Token) (p : Place) : Prop where
  episodes : s.episodes = []
  armed : s.armed = none
  stack : s.stack = p.stack
  tokens : ∀ i, (s.window.get? (s.position + i)).map view.see = p.tokens[i]?
  slots : ∀ slot, (s.locator? slot.index).map view.see = p.slots slot
  last : s.last.map view.see = p.last
  count : s.stats.matched = p.count

/-- The run stops with the error, or without one for want of a token, with the variables `V` and after `m` matched tokens. -/
structure Breaks (stop : Stop Evaluation Token) (e? : Option Error) (V : Variables) (m : Nat) : Prop where
  answer : match e? with
    | some e => ∃ error, stop.answer = .error error ∧ Engine.errorOf error stop.host = e
    | none => stop.answer = .ok .more
  «variables» : stop.host.variables = V
  count : stop.state.stats.matched = m

/-- The error that a token is none of the expected terminals. -/
def unexpected (T : Tables) (expected : List Nat) (t : Token) : Error :=
  .parse (.unexpectedToken (T.program.tokenName t.id) (expected.map T.program.tokenName) t.span)

variable {T : Tables} {view : View} {s s' : State Token} {stack rest : List Frame} {t : Token} {ts : List Token}
  {slots : Slot → Option Token} {last : Option Token} {m : Nat} {h h' : Evaluation}

/-! ## Places -/

namespace Placed

theorem replaced {p : Place} (hs : Placed view s p) (stack : List Frame) (hepisodes : s'.episodes = s.episodes)
    (harmed : s'.armed = s.armed) (hstack : s'.stack = stack) (hwindow : s'.window = s.window)
    (hposition : s'.position = s.position) (hlocators : s'.locators = s.locators) (hlast : s'.last = s.last)
    (hcount : s'.stats.matched = s.stats.matched) : Placed view s' { p with stack } where
  episodes := hepisodes.trans hs.episodes
  armed := harmed.trans hs.armed
  stack := hstack
  tokens := by rw [hwindow, hposition]; exact hs.tokens
  slots := by unfold State.locator?; rw [hlocators]; exact hs.slots
  last := by rw [hlast]; exact hs.last
  count := hcount.trans hs.count

theorem withStack {p : Place} (hs : Placed view s p) (stack : List Frame) : Placed view (s.withStack stack) { p with stack } :=
  hs.replaced stack rfl rfl rfl rfl rfl rfl rfl rfl

theorem next (hs : Placed view s ⟨stack, t :: ts, slots, last, m⟩) : ∃ x, s.next? = some x ∧ view.see x = t :=
  Option.map_eq_some_iff.1 (hs.tokens 0)

theorem next_nil (hs : Placed view s ⟨stack, [], slots, last, m⟩) : s.next? = none :=
  Option.map_eq_none_iff.1 (hs.tokens 0)

theorem currentId (hs : Placed view s ⟨stack, t :: ts, slots, last, m⟩) : s.advance.currentId? = some t.id := by
  obtain ⟨x, hx, rfl⟩ := hs.next
  rw [currentId_advance, hx, view.id_see]
  rfl

/-- The tokens behind the next one. -/
theorem behind (hs : Placed view s ⟨stack, t :: ts, slots, last, m⟩) (i : Nat) :
    (s.window.get? (s.position + 1 + i)).map view.see = ts[i]? := by
  rw [Nat.add_assoc, Nat.add_comm 1 i, hs.tokens, List.getElem?_cons_succ]

/-- What is seen as a whole is seen in any view. -/
theorem seen {p : Place} (hs : Placed .whole s p) (view : View) : Placed view s
    ⟨p.stack, p.tokens.map view.see, fun slot => (p.slots slot).map view.see, p.last.map view.see, p.count⟩ where
  episodes := hs.episodes
  armed := hs.armed
  stack := hs.stack
  tokens i := by rw [List.getElem?_map, ← hs.tokens, View.map_whole]
  slots slot := congrArg (Option.map view.see) ((View.map_whole _).symm.trans (hs.slots slot))
  last := congrArg (Option.map view.see) ((View.map_whole _).symm.trans hs.last)
  count := hs.count

theorem next_eq (hs : Placed .whole s ⟨stack, t :: ts, slots, last, m⟩) : s.next? = some t :=
  (View.map_whole _).symm.trans (hs.tokens 0)

theorem slot_eq {p : Place} (hs : Placed .whole s p) (slot : Slot) : s.locator? slot.index = p.slots slot :=
  (View.map_whole _).symm.trans (hs.slots slot)

theorem last_eq {p : Place} (hs : Placed .whole s p) : s.last = p.last :=
  (View.map_whole _).symm.trans hs.last

end Placed

/-- The host only acts on actions. -/
theorem callAll_eq {events : List Event} (hevents : ∀ a, Event.action a ∉ events) (s : State Token) (h : Evaluation) :
    host.callAll s events h = ⟨h, none, []⟩ := by
  induction events with
  | nil => rfl
  | cons e events ih =>
    have hcall : host.call e s h = { host := h } := by
      cases e with
      | action a => exact absurd List.mem_cons_self (hevents a)
      | argument | enter | leave => rfl
    rw [Host.callAll, hcall]
    dsimp only
    rw [ih fun a ha => hevents a (List.mem_cons_of_mem _ ha)]
    rfl

theorem action_notMem_entryEvents (P : Program) (symbol a : Nat) (stack : List Frame) :
    Event.action a ∉ entryEvents P symbol stack := by
  intro h
  rcases List.mem_append.1 h with h | h
  · obtain ⟨b, -, e⟩ := List.mem_map.1 h
    cases e
  · split at h
    · cases List.mem_singleton.1 h
    · cases h

/-! ## Matching -/

/-- A rule is unfolded into its parts. -/
theorem Placed.unfolded {n : Nat} {parts : List Part} (hn : T.program.instruction n = body T parts)
    (hs : Placed view s ⟨.node n :: rest, ts, slots, last, m⟩) :
    ∃ s', Gets T.program host 1 s h s' h ∧ Placed view s' ⟨parts.map (frame T) ++ rest, ts, slots, last, m⟩ := by
  refine ⟨s.withStack (parts.map (frame T) ++ rest), ?_, hs.withStack _⟩
  apply Gets.of_step
  rw [step_node hs.stack, stepNode, hn]
  cases parts with
  | nil => rfl
  | cons p ps =>
    show (⟨.proceed, s.withStack (((p :: ps).map (node T)).map Frame.node ++ rest), h, []⟩ : Turn Evaluation Token) = _
    rw [List.map_map]
    rfl

/-- A category is entered with what the tables predict. -/
theorem Placed.predicted (hT : Conforms T) {c : Category} {n : Nat}
    (hs : Placed view s ⟨frame T c :: rest, t :: ts, slots, last, m⟩) (hn : T.program.lookup c.index t.id = some n) :
    ∃ s', Gets T.program host 1 s h s' h ∧
      Placed view s' ⟨.node n :: .entered c.index false :: rest, t :: ts, slots, last, m⟩ := by
  have hstep : step T.program host s h =
      ⟨.proceed, (s.advance.withStack rest).enterSymbol c.index n, h, [.entered c.index n]⟩ := by
    rw [step_symbol hs.stack (hT.instruction c), stepSymbol_of_episodes hs.episodes _ _ _ hs.currentId, hn]
    dsimp only
    rw [callAll_eq fun a => action_notMem_entryEvents _ _ a _]
    rfl
  have hadvance : (s.advance.withStack rest).episodes = [] := (episodes_advance s).trans hs.episodes
  obtain ⟨hepisodes, hposition, hstack, -⟩ := enterSymbol_of_episodes hadvance c.index n
  refine ⟨_, .of_step hstep, hs.replaced _ (hepisodes.trans hs.episodes.symm) ?_ hstack (window_advance s)
    (hposition.trans (position_advance s)) ?_ ?_ ?_⟩ <;> rw [advance_eq] <;> rfl

/-- A category is entered with the rule that the next lexeme predicts. -/
theorem Placed.entered (hT : Conforms T) {c : Category} {next : Option Lexeme} {parts : List Part}
    (hparts : parts ∈ c.rule? next) (hs : Placed view s ⟨frame T c :: rest, t :: ts, slots, last, m⟩) (ht : t.id = terminal next) :
    ∃ s', Gets T.program host 2 s h s' h ∧
      Placed view s' ⟨parts.map (frame T) ++ .entered c.index false :: rest, t :: ts, slots, last, m⟩ := by
  obtain ⟨n, hn, hbody⟩ := Option.map_eq_some_iff.1 (hT.rule c next parts hparts)
  obtain ⟨s₁, hgo₁, hs₁⟩ := hs.predicted (h := h) hT (ht ▸ hn)
  obtain ⟨s₂, hgo₂, hs₂⟩ := hs₁.unfolded (h := h) hbody
  exact ⟨s₂, hgo₁.trans hgo₂, hs₂⟩

/-- A category is left. -/
theorem Placed.left {a : Nat} (hs : Placed view s ⟨.entered a false :: rest, ts, slots, last, m⟩) :
    ∃ s', Gets T.program host 1 s h s' h ∧ Placed view s' ⟨rest, ts, slots, last, m⟩ := by
  have hleave : ∀ b, Event.action b ∉ if (T.program.callbacks a).leave then [Event.leave a] else [] := by
    intro b
    split <;> simp
  have hstep : step T.program host s h = ⟨.proceed, { s with
      stack := rest, symbols := s.symbols.tail, tree := s.tree.map (·.close) }, h, []⟩ := by
    rw [step, hs.stack]
    dsimp only [stepEntered]
    rw [if_neg Bool.false_ne_true, callAll_eq hleave]
    rfl
  exact ⟨_, .of_step hstep, hs.replaced rest rfl rfl rfl rfl rfl rfl rfl rfl⟩

/-- Categories are left one after another. -/
theorem Placed.leftAll (marks : List Nat) (hs : Placed view s ⟨marks.map (.entered · false) ++ rest, ts, slots, last, m⟩) :
    ∃ s', Gets T.program host marks.length s h s' h ∧ Placed view s' ⟨rest, ts, slots, last, m⟩ := by
  induction marks generalizing s with
  | nil => exact ⟨s, .refl s h, hs⟩
  | cons a marks ih =>
    obtain ⟨s₁, hgo₁, hs₁⟩ := hs.left (h := h)
    obtain ⟨s₂, hgo₂, hs₂⟩ := ih hs₁
    refine ⟨s₂, ?_, hs₂⟩
    rw [List.length_cons, Nat.add_comm]
    exact hgo₁.trans hgo₂

theorem Lexeme.accepts_iff {l : Lexeme} {id : Nat} : accepts l.terminal id = true ↔ id = l.terminal := by
  have hany : l.terminal ≠ anyToken := by cases l <;> decide
  rw [accepts, if_neg hany, beq_iff_eq]

/-- The step for a lexeme looks at the next token. -/
theorem step_lexeme (hT : Conforms T) {l : Lexeme} (hepisodes : s.episodes = []) (hstack : s.stack = frame T l :: rest)
    (hnext : s.next? = some t) : step T.program host s h =
      if t.id = l.terminal then { verdict := .proceed, state := s.advance.consume t rest, host := h }
      else ⟨.reject (s.advance.unexpected T.program [l.terminal]), s.advance, h, []⟩ := by
  have hcurrent : s.advance.current? = some t := (current_advance s).trans hnext
  rw [step_token hstack (hT.instruction l), stepToken_of_episodes hepisodes _ _ _ hcurrent]
  exact if_congr Lexeme.accepts_iff rfl rfl

/-- A lexeme is matched. -/
theorem Placed.matched (hT : Conforms T) {l : Lexeme} (hs : Placed view s ⟨frame T l :: rest, t :: ts, slots, last, m⟩)
    (ht : t.id = l.terminal) :
    ∃ s', Gets T.program host 1 s h s' h ∧ Placed view s' ⟨rest, ts, slots, some t, m + 1⟩ := by
  obtain ⟨x, hx, rfl⟩ := hs.next
  have hstep := (step_lexeme (h := h) hT hs.episodes hs.stack hx).trans (if_pos ((view.id_see x).symm.trans ht))
  refine ⟨_, .of_step hstep, ?_⟩
  rw [consume_of_episodes ((episodes_advance s).trans hs.episodes), advance_eq]
  exact ⟨hs.episodes, rfl, rfl, hs.behind, by dsimp only; rw [hs.armed]; exact hs.slots, rfl, congrArg (· + 1) hs.count⟩

theorem Slot.index_injective {a b : Slot} (h : a.index = b.index) : a = b := by
  cases a <;> cases b <;> first | rfl | cases h

/-- A slot waits for the next token. -/
theorem step_slot (hT : Conforms T) {slot : Slot} (hepisodes : s.episodes = []) (hstack : s.stack = frame T slot :: rest) :
    step T.program host s h =
      { verdict := .proceed, state := { s.withStack rest with armed := some slot.index }, host := h } := by
  have hspec : (s.withStack rest).isSpeculating = false := isSpeculating_eq_false hepisodes
  rw [step_node hstack, stepNode, hT.instruction]
  dsimp only [Part.instruction]
  rw [hspec]
  rfl

/-- A lexeme is captured in a slot. -/
theorem Placed.captured (hT : Conforms T) {slot : Slot} {l : Lexeme}
    (hs : Placed view s ⟨frame T slot :: frame T l :: rest, t :: ts, slots, last, m⟩) (ht : t.id = l.terminal) :
    ∃ s', Gets T.program host 2 s h s' h ∧
      Placed view s' ⟨rest, ts, Function.update slots slot (some t), some t, m + 1⟩ := by
  let s₁ : State Token := { s.withStack (frame T l :: rest) with armed := some slot.index }
  obtain ⟨x, hx, rfl⟩ := hs.next
  have hstep₂ := (step_lexeme (s := s₁) (h := h) hT hs.episodes rfl hx).trans (if_pos ((view.id_see x).symm.trans ht))
  refine ⟨_, (Gets.of_step (step_slot hT hs.episodes hs.stack)).trans (.of_step hstep₂), ?_⟩
  rw [consume_of_episodes ((episodes_advance s₁).trans hs.episodes), advance_eq]
  refine ⟨hs.episodes, rfl, rfl, hs.behind, fun other => ?_, rfl, congrArg (· + 1) hs.count⟩
  show (((slot.index, x) :: s.locators.filter (·.1 != slot.index)).lookup other.index).map view.see = _
  rw [lookup_bind]
  dsimp only
  by_cases hother : other = slot
  · rw [if_pos (congrArg Slot.index hother), hother, Function.update_self]
    rfl
  · rw [if_neg fun e => hother (Slot.index_injective e), Function.update_of_ne hother]
    exact hs.slots other

/-! ## Decisions -/

/-- For a statement that begins with a name, the decision goes to the token behind it, and can go back. -/
theorem Placed.deciding {d d' : Nat} (hn : (T.program.lookup Category.stat.index Lexeme.ident.terminal).map
      T.program.instruction = some (.decision d)) (hd : T.program.dfa d = .switch none)
    (hdd' : T.program.transition d Lexeme.ident.terminal = some d') (hT : Conforms T)
    (hs : Placed view s ⟨frame T Category.stat :: rest, t :: ts, slots, last, m⟩) (ht : t.id = Lexeme.ident.terminal) :
    ∃ entry s', Gets T.program host 3 s h s' h ∧
      Placed view s' ⟨.lookahead d' entry :: .entered Category.stat.index false :: rest, ts, slots, last, m⟩ ∧
      ∀ i, (s'.window.get? (entry + i)).map view.see = (t :: ts)[i]? := by
  obtain ⟨n, hlookup, hn⟩ := Option.map_eq_some_iff.1 hn
  obtain ⟨s₁, hgo₁, hs₁⟩ := hs.predicted (h := h) hT (ht ▸ hlookup)
  let below : List Frame := .entered Category.stat.index false :: rest
  let s₂ := s₁.beginDecision d below
  let s₃ := s₂.advance.goto (s₂.position + 1) (.lookahead d' s₁.position :: below)
  have hs₂ : s₂ = { s₁ with
      cursor := s₁.position, matched := false, stack := .lookahead d s₁.position :: below
      stats.lookaheads := s₁.stats.lookaheads + 1 } := by
    show s₁.beginDecision d below = _
    rw [State.beginDecision, advance_eq]
  have hs₃ : s₃ = { s₂ with cursor := s₁.position + 1, stack := .lookahead d' s₁.position :: below } := by
    show s₂.advance.goto _ _ = _
    rw [advance_eq, hs₂]
    rfl
  obtain ⟨x, hx, rfl⟩ := hs₁.next
  have hid : Terminal.id x = _ := (view.id_see x).symm.trans ht
  have hgo₂ : Gets T.program host 1 s₁ h s₂ h := .of_step (step_decision hs₁.stack hn hx h)
  have hgo₃ : Gets T.program host 1 s₂ h s₃ h := by
    apply Gets.of_step
    rw [step_switch (t := x) (by rw [hs₂]) (by rw [hs₂]; exact hx) h hd, hid, hdd']
  refine ⟨s₁.position, s₃, hgo₁.trans (hgo₂.trans hgo₃), ?_, by rw [hs₃, hs₂]; exact hs₁.tokens⟩
  rw [hs₃, hs₂]
  exact ⟨hs₁.episodes, hs₁.armed, rfl, hs₁.behind, hs₁.slots, hs₁.last, hs₁.count⟩

/-- A statement that begins with a name is entered with the rule that the second lexeme predicts. -/
theorem Placed.decided (hT : Conforms T) {l : Lexeme} {u : Token} {parts : List Part} (hparts : parts ∈ l.statement?)
    (hs : Placed view s ⟨frame T Category.stat :: rest, t :: u :: ts, slots, last, m⟩) (ht : t.id = Lexeme.ident.terminal)
    (hu : u.id = l.terminal) : ∃ s', Gets T.program host 6 s h s' h ∧
      Placed view s' ⟨parts.map (frame T) ++ .entered Category.stat.index false :: rest, t :: u :: ts, slots, last, m⟩ := by
  obtain ⟨d, d', hn, hd, hdd', hd', hleaf⟩ := hT.statement
  obtain ⟨d'', n, hd'd'', hd'', hn'⟩ := hleaf l parts hparts
  obtain ⟨entry, s₁, hgo₁, hs₁, hback⟩ := hs.deciding (h := h) hn hd hdd' hT ht
  let below : List Frame := .entered Category.stat.index false :: rest
  let s₂ := s₁.advance.goto (s₁.position + 1) (.lookahead d'' entry :: below)
  obtain ⟨x, hx, rfl⟩ := hs₁.next
  have hid : Terminal.id x = _ := (view.id_see x).symm.trans hu
  have hgo₂ : Gets T.program host 1 s₁ h s₂ h := by
    apply Gets.of_step
    rw [step_switch hs₁.stack hx h hd', hid, hd'd'']
  have hgo₃ : Gets T.program host 1 s₂ h (s₂.goto entry (.node n :: below)) h := .of_step (step_leaf rfl hd'' h)
  have hs₃ : Placed view (s₂.goto entry (.node n :: below)) ⟨.node n :: below, t :: view.see x :: ts, slots, last, m⟩ := by
    show Placed view ((s₁.advance.goto _ _).goto entry _) _
    rw [advance_eq]
    exact ⟨hs₁.episodes, hs₁.armed, rfl, hback, hs₁.slots, hs₁.last, hs₁.count⟩
  obtain ⟨s₄, hgo₄, hs₄⟩ := hs₃.unfolded (h := h) hn'
  exact ⟨s₄, hgo₁.trans (hgo₂.trans (hgo₃.trans hgo₄)), hs₄⟩

/-! ## Operations -/

theorem ofIndex?_index (o : Op) : Op.ofIndex? o.index = some o := by
  cases o <;> rfl

/-- An operation is carried out. -/
theorem Placed.acted (hT : Conforms T) {o : Op} {notes : List Note} (hs : Placed view s ⟨frame T o :: rest, ts, slots, last, m⟩)
    (hrun : (Eval.apply (s.withStack rest) o).run h = (.ok notes, h')) :
    ∃ s', Gets T.program host 1 s h s' h' ∧ Placed view s' ⟨rest, ts, slots, last, m⟩ := by
  have hcall : host.call (.action o.index) (s.withStack rest) h = { host := h', notes } := by
    simp only [host, ofIndex?_index, hrun]
  have hstep : step T.program host s h = ⟨.proceed, s.withStack rest, h', notes.map .said⟩ := by
    rw [step_action hs.stack (hT.instruction o), stepAction, hcall]
  exact ⟨_, .of_step hstep, hs.withStack rest⟩

/-- An operation without a value ends the parse. -/
theorem Placed.failed (hT : Conforms T) {o : Op} {error : Error} (hs : Placed view s ⟨frame T o :: rest, ts, slots, last, m⟩)
    (hrun : (Eval.apply (s.withStack rest) o).run h = (.error error, h')) : ∃ span,
    run T.program host 1 s h =
      some ⟨.error (.semantic error.message span), s.withStack rest, { h' with failure := some error }⟩ := by
  have hcall : host.call (.action o.index) (s.withStack rest) h =
      { host := { h' with failure := some error }, failure := some error.message } := by
    simp only [host, ofIndex?_index, hrun]
  have hstep : step T.program host s h = ⟨.reject ((s.withStack rest).semantic error.message), s.withStack rest,
      { h' with failure := some error }, []⟩ := by
    rw [step_action hs.stack (hT.instruction o), stepAction, hcall]
    dsimp only
    exact miss_of_episodes (s := s.withStack rest) hs.episodes _ _ _
  refine ⟨(s.withStack rest).currentSpan?, ?_⟩
  rw [run, hstep]
  rfl

/-! ## Stops -/

/-- The end of the input is accepted. -/
theorem Placed.accepted (hs : Placed view s ⟨[.finish], t :: ts, slots, last, m⟩) (ht : t.id = endToken) (h : Evaluation) :
    ∃ s', run T.program host 1 s h = some ⟨.ok .done, s', h⟩ := by
  obtain ⟨x, hx, rfl⟩ := hs.next
  have hstep : step T.program host s h = ⟨.accept, s.advance.withStack [], h, [.accepted]⟩ :=
    (step_finish hs.stack hx h).trans (if_pos ((view.id_see x).symm.trans ht))
  refine ⟨s.advance.withStack [], ?_⟩
  rw [run, hstep]

/-- A failed operation is an error, with the variables that the evaluator leaves. -/
theorem Placed.breaks_failed (hT : Conforms T) {o : Op} {error : Error} (hs : Placed view s ⟨frame T o :: rest, ts, slots, last, m⟩)
    (hrun : (Eval.apply (s.withStack rest) o).run h = (.error error, h')) :
    ∃ stop, run T.program host 1 s h = some stop ∧ Breaks stop (some error) h'.variables m := by
  obtain ⟨span, hr⟩ := hs.failed hT hrun
  exact ⟨_, hr, ⟨_, rfl, rfl⟩, rfl, hs.count⟩

/-- A step that rejects the next token ends the parse. -/
theorem Placed.rejected {expected : List Nat} (hs : Placed .whole s ⟨stack, t :: ts, slots, last, m⟩)
    (hstep : step T.program host s h = ⟨.reject (s.advance.unexpected T.program expected), s.advance, h, []⟩) :
    ∃ stop, run T.program host 1 s h = some stop ∧ Breaks stop (some (unexpected T expected t)) h.variables m := by
  have hcurrent : s.advance.current? = some t := (current_advance s).trans hs.next_eq
  have herror : s.advance.unexpected T.program expected =
      .unexpectedToken (T.program.tokenName t.id) (expected.map T.program.tokenName) t.span := by
    rw [State.unexpected, State.found, State.currentId?, State.currentSpan?, hcurrent]
    rfl
  refine ⟨⟨.error (s.advance.unexpected T.program expected), s.advance, h⟩, by rw [run, hstep], ⟨_, rfl, ?_⟩, rfl, ?_⟩
  · rw [herror]
    rfl
  · rw [advance_eq]
    exact hs.count

/-- A step that needs a token waits for it. -/
theorem Placed.awaited (hs : Placed view s ⟨stack, ts, slots, last, m⟩)
    (hstep : step T.program host s h = ⟨.await, s.advance, h, []⟩) :
    ∃ stop, run T.program host 1 s h = some stop ∧ Breaks stop none h.variables m := by
  refine ⟨⟨.ok .more, s.advance, h⟩, by rw [run, hstep], rfl, rfl, ?_⟩
  rw [advance_eq]
  exact hs.count

/-- A lexeme comes that is not expected. -/
theorem Placed.mismatched (hT : Conforms T) {l : Lexeme} (hs : Placed .whole s ⟨frame T l :: rest, t :: ts, slots, last, m⟩)
    (ht : t.id ≠ l.terminal) : ∃ stop, run T.program host 1 s h = some stop ∧
      Breaks stop (some (unexpected T [l.terminal] t)) h.variables m :=
  hs.rejected ((step_lexeme hT hs.episodes hs.stack hs.next_eq).trans (if_neg ht))

/-- A category cannot begin with the next token. -/
theorem Placed.refused (hT : Conforms T) {c : Category} (hs : Placed .whole s ⟨frame T c :: rest, t :: ts, slots, last, m⟩)
    (ht : T.program.lookup c.index t.id = none) : ∃ stop, run T.program host 1 s h = some stop ∧
      Breaks stop (some (unexpected T (T.program.expected c.index) t)) h.variables m := by
  refine hs.rejected ?_
  rw [step_symbol hs.stack (hT.instruction c), stepSymbol_of_episodes hs.episodes _ _ _ hs.currentId, ht]

/-- No token is there for a lexeme or a category. -/
theorem Placed.starved (hT : Conforms T) {p : Part} (hp : ∀ o, p ≠ .op o) (hp' : ∀ slot, p ≠ .slot slot)
    (hs : Placed view s ⟨frame T p :: rest, [], slots, last, m⟩) :
    ∃ stop, run T.program host 1 s h = some stop ∧ Breaks stop none h.variables m := by
  have hlooks : (frame T p).Looks T.program := by
    cases p with
    | category c => exact .inr (.inl ⟨_, hT.instruction c⟩)
    | lexeme l => exact .inl ⟨_, hT.instruction l⟩
    | op o => exact absurd rfl (hp o)
    | slot slot => exact absurd rfl (hp' slot)
  exact hs.awaited (step_of_looks hs.stack hlooks hs.next_nil h)

/-- The token behind a name at the start of a statement fits neither rule, or is not there. -/
theorem exists_undecided (hT : Conforms T) (hR : Refuses T) : ∃ expected : List Nat,
    ∀ {s : State Token} {h : Evaluation} {rest : List Frame} {t : Token} {ts : List Token} {slots : Slot → Option Token}
      {last : Option Token} {m : Nat}, Placed .whole s ⟨frame T Category.stat :: rest, t :: ts, slots, last, m⟩ →
      t.id = Lexeme.ident.terminal →
      (∀ u ∈ ts.head?, ∃ next : Option Lexeme, u.id = terminal next ∧ next.bind Lexeme.statement? = none) →
      ∃ stop, run T.program host 4 s h = some stop ∧ Breaks stop (ts.head?.map (unexpected T expected)) h.variables m := by
  obtain ⟨d, d', hn, hd, hdd', hd', -⟩ := hT.statement
  refine ⟨T.program.dfaExpected d', fun {s h rest t ts slots last m} hs ht hts => ?_⟩
  obtain ⟨entry, s₁, hgo₁, hs₁, -⟩ := hs.deciding (h := h) hn hd hdd' hT ht
  cases ts with
  | nil =>
    obtain ⟨stop, hr, hbreaks⟩ := hs₁.awaited (step_of_looks hs₁.stack ⟨_, hd'⟩ hs₁.next_nil h)
    exact ⟨stop, hgo₁ _ _ hr, hbreaks⟩
  | cons u ts =>
    obtain ⟨next, hu, hnext⟩ := hts u rfl
    have hmiss := hR.statement d d' hn hdd' next hnext
    rw [← hu] at hmiss
    have hreject : step T.program host s₁ h =
        ⟨.reject (s₁.advance.unexpected T.program (T.program.dfaExpected d')), s₁.advance, h, []⟩ := by
      rw [step_switch hs₁.stack hs₁.next_eq h hd', (show T.program.transition d' (Terminal.id u) = none from hmiss)]
      exact miss_of_episodes ((episodes_advance s₁).trans hs₁.episodes) _ _ _
    obtain ⟨stop, hr, hbreaks⟩ := hs₁.rejected hreject
    exact ⟨stop, hgo₁ _ _ hr, hbreaks⟩

end PredictiveParser.Calculator
