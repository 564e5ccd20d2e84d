import PredictiveParser.Proofs.Machine.Effect
import PredictiveParser.Proofs.TokenWindow

/-!
# Sessions

`Parser.Feeds` is a parse from outside, one call after another, and a host that knows more can follow it
(`Parser.Feeds.lift`). A session is what happens in it from the first token to an accepted end of the input: the machine
makes steps, and whenever it waits it is given the next token. The calls of a session are answered with success
(`Session.feeds`).
-/

namespace PredictiveParser

namespace Machine

variable {σ τ : Type} [Terminal τ] {P : Program} {H : Host σ τ}

/-! ## Runs -/

/-- The machine gets from one state to another without waiting. -/
inductive Steps (P : Program) (H : Host σ τ) : State τ → σ → State τ → σ → Prop
  | refl (s : State τ) (h : σ) : Steps P H s h s h
  | head {s s' : State τ} {h h' : σ} : (step P H s h).verdict = .proceed →
      Steps P H (step P H s h).state (step P H s h).host s' h' → Steps P H s h s' h'

theorem Steps.trans {s s' s'' : State τ} {h h' h'' : σ} (hs : Steps P H s h s' h') (hs' : Steps P H s' h' s'' h'') :
    Steps P H s h s'' h'' := by
  induction hs with
  | refl => exact hs'
  | head hv _ ih => exact .head hv (ih hs')

/-- A run goes on from where steps lead to. -/
theorem Steps.run {s s' : State τ} {h h' : σ} (hs : Steps P H s h s' h') {fuel : Nat} {stop : Stop σ τ}
    (hr : run P H fuel s' h' = some stop) : ∃ fuel', Machine.run P H fuel' s h = some stop := by
  induction hs with
  | refl => exact ⟨fuel, hr⟩
  | head hv _ ih =>
    obtain ⟨fuel', hr'⟩ := ih hr
    exact ⟨fuel' + 1, by rw [Machine.run, hv]; exact hr'⟩

/-! ## Feeding tokens one after another -/

/-- The number of a terminal can be parsed as a token. -/
instance : Terminal Nat where
  id t := t
  span? _ := none

/-- A host without a state that never objects. -/
def Host.silent : Host Unit τ where
  call _ _ h := ⟨h, none, []⟩

/-- Feeding tokens one after another leads to these answers. -/
inductive Parser.Feeds (P : Program) (H : Host σ τ) : Parser σ τ → List τ → List (Except ParseError Feed) →
    Parser σ τ → Prop
  | nil (p : Parser σ τ) : Feeds P H p [] [] p
  | cons {p q r : Parser σ τ} {fuel : Nat} {t : τ} {ts : List τ} {a : Except ParseError Feed}
      {as : List (Except ParseError Feed)} : p.feed P H fuel t = some (a, q) → Feeds P H q ts as r →
      Feeds P H p (t :: ts) (a :: as) r

theorem Parser.Feeds.length {p q : Parser σ τ} {ts : List τ} {as : List (Except ParseError Feed)}
    (h : Feeds P H p ts as q) : as.length = ts.length := by
  induction h with
  | nil => rfl
  | cons _ _ ih => rw [List.length_cons, List.length_cons, ih]

/-- Feeds tokens one after another as long as every run ends within the fuel. -/
def Parser.feedAll (P : Program) (H : Host σ τ) (fuel : Nat) :
    List τ → Parser σ τ → Option (List (Except ParseError Feed) × Parser σ τ)
  | [], p => some ([], p)
  | t :: ts, p => do
    let (a, q) ← p.feed P H fuel t
    let (as, r) ← q.feedAll P H fuel ts
    return (a :: as, r)

theorem Parser.feedAll_cons_eq_some {fuel : Nat} {p q : Parser σ τ} {t : τ} {ts : List τ} {as : List (Except ParseError Feed)}
    (h : p.feedAll P H fuel (t :: ts) = some (as, q)) :
    ∃ a r as', p.feed P H fuel t = some (a, r) ∧ r.feedAll P H fuel ts = some (as', q) ∧ as = a :: as' := by
  rw [Parser.feedAll] at h
  obtain ⟨⟨a, r⟩, hf, h⟩ := Option.bind_eq_some_iff.1 h
  obtain ⟨⟨as', q'⟩, hr, h⟩ := Option.bind_eq_some_iff.1 h
  cases h
  exact ⟨a, r, as', hf, hr, rfl⟩

theorem Parser.feeds_of_feedAll {fuel : Nat} {p q : Parser σ τ} {ts : List τ} {as : List (Except ParseError Feed)}
    (h : p.feedAll P H fuel ts = some (as, q)) : p.Feeds P H ts as q := by
  induction ts generalizing p as with
  | nil =>
    cases h
    exact .nil _
  | cons t ts ih =>
    obtain ⟨a, r, as', hf, hr, rfl⟩ := feedAll_cons_eq_some h
    exact .cons hf (ih hr)

/-- In the course of a parse a call takes the token in and runs the machine. -/
theorem Parser.feed_eq_some_iff {p q : Parser σ τ} {t : τ} {fuel : Nat} {a : Except ParseError Feed}
    (hs : p.state.status = .running) : p.feed P H fuel t = some (a, q) ↔
      ∃ stop, run P H fuel (p.state.receive t) p.host = some stop ∧ stop.answer = a ∧
        ⟨stop.state.settle stop.answer, stop.host⟩ = q := by
  rw [feed, hs]
  simp only [Option.map_eq_some_iff, Prod.mk.injEq]

/-- Answers do not depend on how much fuel there is. -/
theorem Parser.feed_unique {p q q' : Parser σ τ} {t : τ} {fuel fuel' : Nat} {a a' : Except ParseError Feed}
    (h : p.feed P H fuel t = some (a, q)) (h' : p.feed P H fuel' t = some (a', q')) : a = a' ∧ q = q' := by
  have hrun : ∀ {s : State τ} {host : σ} {stop stop' : Stop σ τ}, run P H fuel s host = some stop →
      run P H fuel' s host = some stop' → stop = stop' := by
    intro s host stop stop' hr hr'
    have e := (run_le (Nat.le_max_left fuel fuel') hr).symm.trans (run_le (Nat.le_max_right fuel fuel') hr')
    exact Option.some.inj e
  cases hs : p.state.status with
  | running =>
    obtain ⟨stop, hr, rfl, rfl⟩ := (feed_eq_some_iff hs).1 h
    obtain ⟨stop', hr', rfl, rfl⟩ := (feed_eq_some_iff hs).1 h'
    obtain rfl := hrun hr hr'
    exact ⟨rfl, rfl⟩
  | idle | done | failed =>
    rw [feed, hs] at h h'
    cases h
    cases h'
    exact ⟨rfl, rfl⟩

theorem Parser.Feeds.unique {p q q' : Parser σ τ} {ts : List τ} {as as' : List (Except ParseError Feed)}
    (h : Feeds P H p ts as q) (h' : Feeds P H p ts as' q') : as = as' ∧ q = q' := by
  induction h generalizing as' with
  | nil =>
    cases h'
    exact ⟨rfl, rfl⟩
  | cons hf _ ih =>
    cases h' with
    | cons hf' h' =>
      obtain ⟨rfl, rfl⟩ := feed_unique hf hf'
      obtain ⟨rfl, rfl⟩ := ih h'
      exact ⟨rfl, rfl⟩

/-- A parse that has ended refuses all tokens. -/
theorem Parser.feeds_finished {p : Parser σ τ} (hs : p.state.status = .done ∨ p.state.status = .failed) (ts : List τ) :
    p.Feeds P H ts (ts.map fun _ => .error .finished) p := by
  induction ts with
  | nil => exact .nil p
  | cons t ts ih =>
    have hf : p.feed P H 0 t = some (.error .finished, p) := by
      unfold feed
      rcases hs with hs | hs <;> rw [hs]
    exact .cons hf ih

theorem Parser.Feeds.finished {p q : Parser σ τ} {ts : List τ} {as : List (Except ParseError Feed)}
    (h : Feeds P H p ts as q) (hs : p.state.status = .done ∨ p.state.status = .failed) :
    ∀ a ∈ as, a = .error .finished := by
  rw [(h.unique (feeds_finished hs ts)).1]
  intro a ha
  obtain ⟨_, -, rfl⟩ := List.mem_map.1 ha
  rfl

/-- **Whatever is fed with one host is fed with a host that knows more.** -/
theorem Parser.Feeds.lift (hK : K.Projects H f) {p : Parser ρ τ} {q : Parser σ τ} {ts : List τ}
    {as : List (Except ParseError Feed)} (h : (p.map f).Feeds P H ts as q) :
    ∃ r : Parser ρ τ, p.Feeds P K ts as r ∧ r.map f = q := by
  generalize hp : p.map f = p' at h
  induction h generalizing p with
  | nil => exact ⟨p, .nil p, hp⟩
  | cons hf _ ih =>
    rw [← hp, ← feed_map hK] at hf
    obtain ⟨⟨a, q⟩, hfeed, e⟩ := Option.map_eq_some_iff.1 hf
    obtain ⟨rfl, rfl⟩ := Prod.mk.inj e
    obtain ⟨r, hr, rfl⟩ := ih rfl
    exact ⟨r, .cons hfeed hr, rfl⟩

/-- The machine is given the tokens one after another, whenever it waits, and accepts with the last. -/
inductive Session (P : Program) (H : Host σ τ) : State τ → σ → List τ → State τ → Prop
  | accept {s : State τ} {h : σ} : (step P H s h).verdict = .accept → Session P H s h [] (step P H s h).state
  | proceed {s fin : State τ} {h : σ} {ts : List τ} : (step P H s h).verdict = .proceed →
      Session P H (step P H s h).state (step P H s h).host ts fin → Session P H s h ts fin
  | await {s fin : State τ} {h : σ} {t : τ} {ts : List τ} : (step P H s h).verdict = .await →
      Session P H (((step P H s h).state.settle (.ok .more)).receive t) (step P H s h).host ts fin →
      Session P H s h (t :: ts) fin

/-- Runs change neither the window nor the status. -/
theorem run_frame {fuel : Nat} {s : State τ} {h : σ} {stop : Stop σ τ} (hr : run P H fuel s h = some stop) :
    stop.state.window = s.window ∧ stop.state.status = s.status := by
  induction fuel generalizing s h with
  | zero => cases hr
  | succ fuel ih =>
    rw [run] at hr
    obtain ⟨hw, hs⟩ := step_frame (P := P) (H := H) s h
    cases hv : (step P H s h).verdict with
    | proceed =>
      simp only [hv] at hr
      exact ⟨(ih hr).1.trans hw, (ih hr).2.trans hs⟩
    | _ =>
      simp only [hv] at hr
      cases hr
      exact ⟨hw, hs⟩

/-- The run stops with success after all tokens, or the tokens that are left are answered with success. -/
def Stop.Continues (P : Program) (H : Host σ τ) (stop : Stop σ τ) (fin : State τ) : List τ → Prop
  | [] => stop.answer = .ok .done ∧ stop.state = fin
  | t :: ts => stop.answer = .ok .more ∧ ∃ q : Parser σ τ,
    Parser.Feeds P H ⟨stop.state.settle (.ok .more), stop.host⟩ (t :: ts) (ts.map (fun _ => .ok .more) ++ [.ok .done]) q ∧
      q.state = fin.settle (.ok .done)

theorem Stop.Continues.feeds {stop : Stop σ τ} {fin : State τ} {ts : List τ} (h : stop.Continues P H fin ts)
    {p : Parser σ τ} {t : τ} {fuel : Nat} (hp : p.state.status = .running)
    (hr : run P H fuel (p.state.receive t) p.host = some stop) :
    ∃ q, p.Feeds P H (t :: ts) (ts.map (fun _ => .ok .more) ++ [.ok .done]) q ∧ q.state = fin.settle (.ok .done) := by
  have hfeed : p.feed P H fuel t = some (stop.answer, ⟨stop.state.settle stop.answer, stop.host⟩) :=
    (Parser.feed_eq_some_iff hp).2 ⟨stop, hr, rfl, rfl⟩
  cases ts with
  | nil =>
    obtain ⟨ha, rfl⟩ := h
    rw [ha] at hfeed
    exact ⟨_, .cons hfeed (.nil _), rfl⟩
  | cons t' ts =>
    obtain ⟨ha, q, hq, hfin⟩ := h
    rw [ha] at hfeed
    exact ⟨q, .cons hfeed hq, hfin⟩

/-- A session begins with a run. -/
theorem Session.exists_run {s fin : State τ} {h : σ} {ts : List τ} (hs : Session P H s h ts fin)
    (hrun : s.status = .running) : ∃ fuel stop, run P H fuel s h = some stop ∧ stop.Continues P H fin ts := by
  induction hs with
  | @accept s h hv => exact ⟨1, ⟨.ok .done, (step P H s h).state, (step P H s h).host⟩, by rw [run, hv], rfl, rfl⟩
  | @proceed s fin h ts hv _ ih =>
    obtain ⟨fuel, stop, hr, hstop⟩ := ih ((step_frame s h).2.trans hrun)
    exact ⟨fuel + 1, stop, by rw [run, hv]; exact hr, hstop⟩
  | @await s fin h t ts hv _ ih =>
    have hrun' : (step P H s h).state.status = .running := (step_frame s h).2.trans hrun
    obtain ⟨fuel, stop, hr, hstop⟩ := ih hrun'
    refine ⟨1, ⟨.ok .more, (step P H s h).state, (step P H s h).host⟩, by rw [run, hv], rfl, ?_⟩
    exact hstop.feeds (p := ⟨(step P H s h).state.settle (.ok .more), (step P H s h).host⟩) hrun' hr

/-- **A session is answered with success.** -/
theorem Session.feeds {p : Parser σ τ} {t : τ} {ts : List τ} {fin : State τ} (hp : p.state.status = .running)
    (hs : Session P H (p.state.receive t) p.host ts fin) :
    ∃ q, p.Feeds P H (t :: ts) (ts.map (fun _ => .ok .more) ++ [.ok .done]) q ∧ q.state = fin.settle (.ok .done) := by
  obtain ⟨fuel, stop, hr, hstop⟩ := hs.exists_run hp
  exact hstop.feeds hp hr

end Machine

end PredictiveParser
