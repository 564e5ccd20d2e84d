import PredictiveParser.Proofs.Machine.Session

/-!
# Histories

A parser has a history of calls (`Parser.Reachable`); in the course of a call the machine comes to states between its steps
(`Visits`). An invariant of both is proved once for each kind of call and for a single step (`Invariant`), and then holds
after every history (`Invariant.between_of_reachable`, `Invariant.within_of_visits`). What happens from one visited state to
another, over any number of calls that feed a token, is recorded by `Moves`: the tokens, the states on the way and the
callbacks.
-/

namespace PredictiveParser.Machine

variable {σ τ : Type} [Terminal τ] {P : Program} {H : Host σ τ}

/-! ## Runs as steps -/

/-- The answer to the caller after a step, unless the machine goes on. -/
def Verdict.answer? : Verdict → Option (Except ParseError Feed)
  | .proceed => none
  | .await => some (.ok .more)
  | .accept => some (.ok .done)
  | .reject error => some (.error error)

omit [Terminal τ] in
theorem Verdict.answer?_eq_none {v : Verdict} (hv : v.answer? = none) : v = .proceed := by
  cases v with
  | proceed => rfl
  | _ => cases hv

omit [Terminal τ] in
theorem Verdict.answer?_eq_more {v : Verdict} (hv : v.answer? = some (.ok .more)) : v = .await := by
  cases v with
  | await => rfl
  | _ => cases hv

theorem Steps.tail {s s' : State τ} {h h' : σ} (hs : Steps P H s h s' h') (hv : (step P H s' h').verdict = .proceed) :
    Steps P H s h (step P H s' h').state (step P H s' h').host :=
  hs.trans (.head hv (.refl _ _))

/-- A run makes steps, and the last one answers. -/
theorem exists_steps_of_run {fuel : Nat} {s : State τ} {h : σ} {stop : Stop σ τ} (hr : run P H fuel s h = some stop) :
    ∃ s' h', Steps P H s h s' h' ∧ (step P H s' h').verdict.answer? = some stop.answer ∧
      stop.state = (step P H s' h').state ∧ stop.host = (step P H s' h').host := by
  induction fuel generalizing s h with
  | zero => cases hr
  | succ fuel ih =>
    rw [run] at hr
    cases hv : (step P H s h).verdict with
    | proceed =>
      simp only [hv] at hr
      obtain ⟨s', h', hs, hrest⟩ := ih hr
      exact ⟨s', h', .head hv hs, hrest⟩
    | _ =>
      simp only [hv] at hr
      cases hr
      exact ⟨s, h, .refl s h, by rw [hv]; rfl, rfl, rfl⟩

/-- A call makes steps, and the last one answers. -/
theorem Parser.exists_steps_of_feed {p q : Parser σ τ} {t : τ} {fuel : Nat} {a : Except ParseError Feed}
    (hs : p.state.status = .running) (hf : p.feed P H fuel t = some (a, q)) :
    ∃ s h, Steps P H (p.state.receive t) p.host s h ∧ (step P H s h).verdict.answer? = some a ∧
      q = ⟨(step P H s h).state.settle a, (step P H s h).host⟩ := by
  obtain ⟨stop, hr, rfl, rfl⟩ := (feed_eq_some_iff hs).1 hf
  obtain ⟨s, h, hsteps, ha, hstate, hhost⟩ := exists_steps_of_run hr
  exact ⟨s, h, hsteps, ha, by rw [hstate, hhost]⟩

/-- A parse that goes on after a call waits for a token. -/
theorem await_of_running {s : State τ} {h : σ} {a : Except ParseError Feed} (ha : (step P H s h).verdict.answer? = some a)
    (hs : ((step P H s h).state.settle a).status = .running) : a = .ok .more ∧ (step P H s h).verdict = .await := by
  rcases a with e | (_ | _)
  · cases hs
  · exact ⟨rfl, Verdict.answer?_eq_more ha⟩
  · cases hs

/-! ## Calls -/

/-- The parsers that come about by calls, with the tokens that were taken in since the start of the parse. Between calls
the state of the host may change in any way. A token that is refused leaves the parser as it is (`feed_refused`). -/
inductive Parser.Reachable (P : Program) (H : Host σ τ) : Parser σ τ → (past : List τ) → Prop
  | new (h : σ) : Reachable P H ⟨{}, h⟩ []
  | start {p : Parser σ τ} {past : List τ} (symbol : Nat) (buildTree : Bool) : Reachable P H p past →
      Reachable P H (p.start P symbol buildTree) []
  | feed {p q : Parser σ τ} {past : List τ} {fuel : Nat} {t : τ} {a : Except ParseError Feed} : Reachable P H p past →
      p.state.status = .running → p.feed P H fuel t = some (a, q) → Reachable P H q (past ++ [t])
  | takeTree {p : Parser σ τ} {past : List τ} : Reachable P H p past → Reachable P H p.takeTree.2 past
  | rehost {p : Parser σ τ} {past : List τ} (h : σ) : Reachable P H p past → Reachable P H { p with host := h } past

/-- Outside of a parse tokens are refused. -/
theorem Parser.feed_refused {p q : Parser σ τ} {fuel : Nat} {t : τ} {a : Except ParseError Feed}
    (hs : p.state.status ≠ .running) (hf : p.feed P H fuel t = some (a, q)) :
    q = p ∧ (a = .error .notStarted ∨ a = .error .finished) := by
  unfold feed at hf
  cases hstatus : p.state.status with
  | running => exact absurd hstatus hs
  | idle => rw [hstatus] at hf; cases hf; exact ⟨rfl, .inl rfl⟩
  | done => rw [hstatus] at hf; cases hf; exact ⟨rfl, .inr rfl⟩
  | failed => rw [hstatus] at hf; cases hf; exact ⟨rfl, .inr rfl⟩

/-- Tokens that are all taken in without an end of the parse. -/
theorem Parser.Reachable.feedAll {p q : Parser σ τ} {past ts : List τ} {fuel : Nat} {as : List (Except ParseError Feed)}
    (hp : p.Reachable P H past) (hs : p.state.status = .running) (hf : p.feedAll P H fuel ts = some (as, q))
    (hmore : ∀ a ∈ as, a = .ok .more) : q.Reachable P H (past ++ ts) ∧ q.state.status = .running := by
  induction ts generalizing p past as with
  | nil =>
    cases hf
    rw [List.append_nil]
    exact ⟨hp, hs⟩
  | cons t ts ih =>
    obtain ⟨a, r, as', ha, has, rfl⟩ := Parser.feedAll_cons_eq_some hf
    obtain ⟨rfl, hlater⟩ := List.forall_mem_cons.1 hmore
    have hr := hp.feed hs ha
    obtain ⟨stop, hrun, hanswer, rfl⟩ := (Parser.feed_eq_some_iff hs).1 ha
    have hstatus : (stop.state.settle stop.answer).status = .running := by
      rw [hanswer]
      exact (run_frame hrun).2.trans hs
    have := ih hr hstatus has hlater
    rwa [List.append_assoc] at this

/-- The state in which a machine that waited goes on. -/
theorem fed_eq {s : State τ} {h : σ} (hw : (step P H s h).verdict = .await) (t : τ) :
    ((step P H s h).state.settle (.ok .more)).receive t = { s with
      window := (s.window.release s.advance.lowWater).push t
      cursor := s.position
      matched := false
      stats.tokens := s.stats.tokens + 1 } := by
  rw [(effect_of_verdict hw).waited.1, State.settle, State.receive, window_advance]
  dsimp only
  rw [advance_eq]
  rfl

/-- The states between the steps of a call, with the tokens that were taken in since the start of the parse. -/
inductive Visits (P : Program) (H : Host σ τ) : State τ → σ → (past : List τ) → Prop
  | intro {p : Parser σ τ} {past : List τ} {t : τ} {s : State τ} {h : σ} : p.Reachable P H past →
      p.state.status = .running → Steps P H (p.state.receive t) p.host s h → Visits P H s h (past ++ [t])

/-- A token that is taken in leads to visited states, the last of which answers. -/
theorem Parser.Reachable.exists_visits {p q : Parser σ τ} {past : List τ} {fuel : Nat} {t : τ}
    {a : Except ParseError Feed} (hp : p.Reachable P H past) (hs : p.state.status = .running)
    (hf : p.feed P H fuel t = some (a, q)) :
    ∃ s h, Visits P H s h (past ++ [t]) ∧ (step P H s h).verdict.answer? = some a ∧
      q = ⟨(step P H s h).state.settle a, (step P H s h).host⟩ := by
  obtain ⟨s, h, hsteps, ha, rfl⟩ := Parser.exists_steps_of_feed hs hf
  exact ⟨s, h, .intro hp hs hsteps, ha, rfl⟩

theorem steps_status {s s' : State τ} {h h' : σ} (hs : Steps P H s h s' h') : s'.status = s.status := by
  induction hs with
  | refl => rfl
  | head _ _ ih => exact ih.trans (step_frame _ _).2

namespace Visits

variable {s : State τ} {h : σ} {past : List τ}

theorem status (hv : Visits P H s h past) : s.status = .running := by
  cases hv with
  | intro _ hs hsteps => exact (steps_status hsteps).trans hs

theorem step (hv : Visits P H s h past) (hp : (Machine.step P H s h).verdict = .proceed) :
    Visits P H (Machine.step P H s h).state (Machine.step P H s h).host past := by
  cases hv with
  | intro hr hs hsteps => exact .intro hr hs (hsteps.tail hp)

theorem feed (hv : Visits P H s h past) (hw : (Machine.step P H s h).verdict = .await) (t : τ) :
    Visits P H (((Machine.step P H s h).state.settle (.ok .more)).receive t) (Machine.step P H s h).host (past ++ [t]) := by
  have hstatus : (Machine.step P H s h).state.status = .running := (step_frame s h).2.trans hv.status
  cases hv with
  | @intro p _ t' _ _ hr hs hsteps =>
    have hrun : run P H 1 s h =
        some ⟨.ok .more, (Machine.step P H s h).state, (Machine.step P H s h).host⟩ := by rw [run, hw]
    obtain ⟨fuel, hrun'⟩ := hsteps.run hrun
    exact .intro (hr.feed hs ((Parser.feed_eq_some_iff hs).2 ⟨_, hrun', rfl, rfl⟩)) hstatus (.refl _ _)

end Visits

/-! ## Invariants -/

/-- What calls and steps keep in the course of a parse: a property of states between calls and one of states within calls. -/
structure Kept (P : Program) (H : Host σ τ) (between within : List τ → State τ → Prop) : Prop where
  receive : ∀ {past s} (t : τ), s.status = .running → between past s → within (past ++ [t]) (s.receive t)
  step : ∀ {past s h}, Visits P H s h past → (Machine.step P H s h).verdict = .proceed → within past s →
    within past (Machine.step P H s h).state
  settle : ∀ {past s h a}, Visits P H s h past → (Machine.step P H s h).verdict.answer? = some a → within past s →
    between past ((Machine.step P H s h).state.settle a)
  takeTree : ∀ {past s}, between past s → between past { s with tree := none }

/-- What holds of states between calls and of states within calls, and is kept by calls and steps. -/
structure Invariant (P : Program) (H : Host σ τ) (between within : List τ → State τ → Prop) : Prop
    extends Kept P H between within where
  new : between [] {}
  start : ∀ symbol buildTree, between [] (.initial (P.symbolNode symbol) buildTree)

section Kept

variable {between within : List τ → State τ → Prop} {p q : Parser σ τ} {past : List τ} {t : τ}

theorem Kept.within_of_steps (hK : Kept P H between within) {s : State τ} {h : σ} (hr : p.Reachable P H past)
    (hs : p.state.status = .running) (hp : between past p.state) (hsteps : Steps P H (p.state.receive t) p.host s h) :
    within (past ++ [t]) s := by
  have hv : Visits P H (p.state.receive t) p.host (past ++ [t]) := .intro hr hs (.refl _ _)
  have hw := hK.receive t hs hp
  generalize p.state.receive t = s₀ at hsteps hv hw
  generalize p.host = h₀ at hsteps hv
  induction hsteps with
  | refl => exact hw
  | head hv' _ ih => exact ih (hK.step hv hv' hw) (hv.step hv')

/-- A call goes through states with the one property, and ends in one with the other. -/
theorem Kept.exists_visits (hK : Kept P H between within) {fuel : Nat} {a : Except ParseError Feed} (hr : p.Reachable P H past)
    (hs : p.state.status = .running) (hp : between past p.state) (hf : p.feed P H fuel t = some (a, q)) :
    between (past ++ [t]) q.state ∧ ∃ s h, Visits P H s h (past ++ [t]) ∧ within (past ++ [t]) s ∧
      (Machine.step P H s h).verdict.answer? = some a := by
  obtain ⟨s, h, hsteps, ha, rfl⟩ := Parser.exists_steps_of_feed hs hf
  have hv : Visits P H s h (past ++ [t]) := .intro hr hs hsteps
  have hw := hK.within_of_steps hr hs hp hsteps
  exact ⟨hK.settle hv ha hw, s, h, hv, hw, ha⟩

end Kept

namespace Invariant

variable {between within : List τ → State τ → Prop}

/-- **An invariant holds between calls.** -/
theorem between_of_reachable (hI : Invariant P H between within) {p : Parser σ τ} {past : List τ}
    (hr : p.Reachable P H past) : between past p.state := by
  induction hr with
  | new => exact hI.new
  | start symbol buildTree => exact hI.start symbol buildTree
  | feed hr hs hf ih => exact (hI.toKept.exists_visits hr hs ih hf).1
  | takeTree _ ih => exact hI.takeTree ih
  | rehost _ _ ih => exact ih

/-- **An invariant holds within calls.** -/
theorem within_of_visits (hI : Invariant P H between within) {s : State τ} {h : σ} {past : List τ}
    (hv : Visits P H s h past) : within past s := by
  cases hv with
  | intro hr hs hsteps => exact hI.toKept.within_of_steps hr hs (hI.between_of_reachable hr) hsteps

end Invariant

/-! ## The course of a parse -/

/-- The parsers in the course of a parse of a symbol, with the tokens that were taken in. Between calls the tree may be
taken and the state of the host may change. -/
inductive Parser.Parses (P : Program) (H : Host σ τ) (symbol : Nat) : Parser σ τ → (past : List τ) → Prop
  | start (p : Parser σ τ) (buildTree : Bool) : Parses P H symbol (p.start P symbol buildTree) []
  | feed {p q : Parser σ τ} {past : List τ} {fuel : Nat} {t : τ} {a : Except ParseError Feed} : Parses P H symbol p past →
      p.state.status = .running → p.feed P H fuel t = some (a, q) → Parses P H symbol q (past ++ [t])
  | takeTree {p : Parser σ τ} {past : List τ} : Parses P H symbol p past → Parses P H symbol p.takeTree.2 past
  | rehost {p : Parser σ τ} {past : List τ} (h : σ) : Parses P H symbol p past →
      Parses P H symbol { p with host := h } past

theorem Parser.Parses.reachable {symbol : Nat} {p : Parser σ τ} {past : List τ} (hp : p.Parses P H symbol past) :
    p.Reachable P H past := by
  induction hp with
  | start p buildTree => exact (Reachable.new p.host).start symbol buildTree
  | feed _ hs hf ih => exact ih.feed hs hf
  | takeTree _ ih => exact ih.takeTree
  | rehost h _ ih => exact ih.rehost h

/-- What is kept from the start of a parse holds between calls. -/
theorem Kept.between_of_parses {between within : List τ → State τ → Prop} (hK : Kept P H between within) {symbol : Nat}
    (hstart : ∀ buildTree, between [] (.initial (P.symbolNode symbol) buildTree)) {p : Parser σ τ} {past : List τ}
    (hp : p.Parses P H symbol past) : between past p.state := by
  induction hp with
  | start p buildTree => exact hstart buildTree
  | feed hp hs hf ih => exact (hK.exists_visits hp.reachable hs ih hf).1
  | takeTree _ ih => exact hK.takeTree ih
  | rehost _ _ ih => exact ih

/-- The window shows the tokens that were taken in. -/
theorem invariant_shows (P : Program) (H : Host σ τ) :
    Invariant P H (fun past s => s.window.Shows past) fun past s => s.window.Shows past where
  new := TokenWindow.shows_empty
  start _ _ := TokenWindow.shows_empty
  receive t _ hs := hs.push t
  step _ _ hs := by rwa [(step_frame _ _).1]
  settle _ _ hs := by
    rw [← (step_frame (P := P) (H := H) _ _).1] at hs
    exact hs.release _
  takeTree hs := hs

theorem Visits.shows {s : State τ} {h : σ} {past : List τ} (hv : Visits P H s h past) : s.window.Shows past :=
  (invariant_shows P H).within_of_visits hv

/-- The token that a step looks at was fed. -/
theorem Visits.getElem?_position {s : State τ} {h : σ} {past : List τ} {t : τ} (hv : Visits P H s h past)
    (ht : s.next? = some t) : past[s.position]? = some t :=
  hv.shows.getElem? ht

/-- So it is with the tokens that are fed later behind it. -/
theorem Visits.getElem?_append {s : State τ} {h : σ} {past : List τ} {t : τ} (hv : Visits P H s h past)
    (ht : s.next? = some t) (ts : List τ) : (past ++ ts)[s.position]? = some t := by
  have hfed := hv.getElem?_position ht
  rw [List.getElem?_append_left (List.getElem?_eq_some_iff.1 hfed).1, hfed]

/-! ## From one state to another -/

/-- The machine gets from one state to another by steps and, whenever it waits, by the next of the tokens `ts`. On the way
it leaves the states `trace`, and the callbacks `cs` are made. -/
inductive Moves (P : Program) (H : Host σ τ) : (s : State τ) → (h : σ) → (ts : List τ) → (trace : List (State τ)) →
    (cs : List (Event × Bool)) → (s' : State τ) → (h' : σ) → Prop
  | refl (s : State τ) (h : σ) : Moves P H s h [] [] [] s h
  | step {s s' : State τ} {h h' : σ} {ts : List τ} {trace : List (State τ)} {cs : List (Event × Bool)} :
      (step P H s h).verdict = .proceed → Moves P H (step P H s h).state (step P H s h).host ts trace cs s' h' →
      Moves P H s h ts (s :: trace) (calls P H s h ++ cs) s' h'
  | feed {s s' : State τ} {h h' : σ} {t : τ} {ts : List τ} {trace : List (State τ)} {cs : List (Event × Bool)} :
      (step P H s h).verdict = .await →
      Moves P H (((step P H s h).state.settle (.ok .more)).receive t) (step P H s h).host ts trace cs s' h' →
      Moves P H s h (t :: ts) (s :: trace) (calls P H s h ++ cs) s' h'

theorem Moves.head_mem {s s' : State τ} {h h' : σ} {ts : List τ} {trace : List (State τ)} {cs : List (Event × Bool)}
    (hm : Moves P H s h ts trace cs s' h') : s ∈ trace ++ [s'] := by
  cases hm <;> simp

/-- With a token to feed the first state is left. -/
theorem Moves.trace_eq {s s' : State τ} {h h' : σ} {ts : List τ} {trace : List (State τ)} {cs : List (Event × Bool)}
    (hm : Moves P H s h ts trace cs s' h') (hts : ts ≠ []) : trace = s :: trace.tail := by
  cases hm with
  | refl => exact absurd rfl hts
  | step => rfl
  | feed => rfl

theorem Visits.moves {s s' : State τ} {h h' : σ} {past ts : List τ} {trace : List (State τ)} {cs : List (Event × Bool)}
    (hv : Visits P H s h past) (hm : Moves P H s h ts trace cs s' h') : Visits P H s' h' (past ++ ts) := by
  induction hm generalizing past with
  | refl => rwa [List.append_nil]
  | step hp _ ih => exact ih (hv.step hp)
  | feed hw _ ih =>
    have := ih (hv.feed hw _)
    rwa [List.append_assoc] at this

/-- Where moves lead to, and what is on the way. -/
structure Walk (σ τ : Type) where
  trace : List (State τ) := []
  calls : List (Event × Bool) := []
  state : State τ
  host : σ

/-- Makes a number of moves, in which all of the tokens are fed. -/
def walk (P : Program) (H : Host σ τ) : (moves : Nat) → State τ → σ → List τ → Option (Walk σ τ)
  | 0, s, h, ts => if ts.isEmpty then some { state := s, host := h } else none
  | n + 1, s, h, ts =>
    let turn := step P H s h
    let rest := match turn.verdict with
      | .proceed => walk P H n turn.state turn.host ts
      | .await => ts.head?.bind fun t => walk P H n ((turn.state.settle (.ok .more)).receive t) turn.host ts.tail
      | _ => none
    rest.map fun w => { w with trace := s :: w.trace, calls := Machine.calls P H s h ++ w.calls }

theorem moves_of_walk {n : Nat} {s : State τ} {h : σ} {ts : List τ} {w : Walk σ τ} (hw : walk P H n s h ts = some w) :
    Moves P H s h ts w.trace w.calls w.state w.host := by
  induction n generalizing s h ts w with
  | zero =>
    cases ts with
    | nil =>
      cases hw
      exact .refl _ _
    | cons => cases hw
  | succ n ih =>
    rw [walk] at hw
    obtain ⟨w', hrest, rfl⟩ := Option.map_eq_some_iff.1 hw
    split at hrest
    · next hv => exact .step hv (ih hrest)
    · next hv =>
      cases ts with
      | nil => cases hrest
      | cons t ts => exact .feed hv (ih hrest)
    · cases hrest

/-- A small program: on the token `2` the resolver `2 3` is tried, and without it one more token is looked at. -/
def probing : Program where
  instruction
    | 0 => .decision 0
    | 1 => .sequence [2, 3]
    | 2 => .token 2
    | 3 => .token 3
    | _ => .epsilon
  symbolNode _ := 0
  lookup _ _ := none
  dfa
    | 0 => .switch none
    | 1 => .resolver 1 1 (some (.dfa 2))
    | _ => .switch (some 2)
  transition d t := if d = 0 ∧ t = 2 then some 1 else none
  emptyProduction _ := none
  callbacks _ := {}
  expected _ := []
  dfaExpected _ := [2]
  symbolName _ := "S"
  tokenName _ := "t"

end PredictiveParser.Machine
