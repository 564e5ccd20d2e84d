import PredictiveParser.Machine.Run

/-!
# Hosts that know more

A host can know more than another one and answer alike (`Host.Projects`). The machine does the same with both (`step_map`,
`Parser.feed_map`), so what one of them knows in addition says something of every parse with the other. Hosts that keep a
record of their callbacks are of this kind (`Host.keeping`): a step adds to the record, no matter what is in it, and does
nothing else that it would not do without (`step_keeping`).
-/

namespace PredictiveParser.Machine

variable {σ ρ τ : Type}

/-- The reply for another host. -/
def Reply.map (f : ρ → σ) (reply : Reply ρ) : Reply σ :=
  ⟨f reply.host, reply.failure, reply.notes⟩

/-- The turn for another host. -/
def Turn.map (f : ρ → σ) (turn : Turn ρ τ) : Turn σ τ :=
  ⟨turn.verdict, turn.state, f turn.host, turn.remarks⟩

/-- The stop for another host. -/
def Stop.map (f : ρ → σ) (stop : Stop ρ τ) : Stop σ τ :=
  ⟨stop.answer, stop.state, f stop.host⟩

/-- The parser for another host. -/
def Parser.map (f : ρ → σ) (p : Parser ρ τ) : Parser σ τ :=
  ⟨p.state, f p.host⟩

/-- The host `K` answers as the host `H` does with the part `f` of what it knows. -/
def Host.Projects (K : Host ρ τ) (H : Host σ τ) (f : ρ → σ) : Prop :=
  ∀ event s h, (K.call event s h).map f = H.call event s (f h)

variable {K : Host ρ τ} {H : Host σ τ} {f : ρ → σ}

theorem Host.Projects.callAll (hK : K.Projects H f) (s : State τ) (events : List Event) (h : ρ) :
    (K.callAll s events h).map f = H.callAll s events (f h) := by
  induction events generalizing h with
  | nil => rfl
  | cons event events ih =>
    rw [Host.callAll, Host.callAll, ← hK]
    rcases K.call event s h with ⟨h', failure, notes⟩
    cases failure with
    | some message => rfl
    | none =>
      dsimp only [Reply.map]
      rw [← ih]
      rfl

variable [Terminal τ] {P : Program}

theorem miss_map (error : ParseError) (s : State τ) (h : ρ) (remarks : List Remark) :
    (miss P error s h remarks).map f = miss P error s (f h) remarks := by
  unfold miss
  split
  · split <;> rfl
  · rfl

theorem stepEntered_map (hK : K.Projects H f) (s : State τ) (a : Nat) (speculative : Bool) (rest : List Frame) (h : ρ) :
    (stepEntered P K s a speculative rest h).map f = stepEntered P H s a speculative rest (f h) := by
  unfold stepEntered
  dsimp only
  split
  · rfl
  · rw [← hK.callAll]
    dsimp only [Reply.map]
    split <;> rfl

theorem stepLookahead_map (s : State τ) (d entry : Nat) (rest : List Frame) (h : ρ) :
    (stepLookahead P s d entry rest h).map f = stepLookahead P s d entry rest (f h) := by
  unfold stepLookahead
  split
  · rfl
  · rfl
  · dsimp only
    split
    · rfl
    · split
      · rfl
      · rfl
      · exact miss_map _ _ _ _

theorem stepToken_map (s : State τ) (expected : Nat) (rest : List Frame) (h : ρ) :
    (stepToken P s expected rest h).map f = stepToken P s expected rest (f h) := by
  unfold stepToken
  dsimp only
  split
  · rfl
  · split
    · rfl
    · exact miss_map _ _ _ _

theorem stepSymbol_map (hK : K.Projects H f) (s : State τ) (a : Nat) (rest : List Frame) (h : ρ) :
    (stepSymbol P K s a rest h).map f = stepSymbol P H s a rest (f h) := by
  unfold stepSymbol
  dsimp only
  split
  · rfl
  · split
    · exact miss_map _ _ _ _
    · rw [← hK.callAll]
      dsimp only [Reply.map]
      split <;> rfl

theorem stepAction_map (hK : K.Projects H f) (s : State τ) (a : Nat) (rest : List Frame) (h : ρ) :
    (stepAction P K s a rest h).map f = stepAction P H s a rest (f h) := by
  unfold stepAction
  dsimp only
  rw [← hK]
  dsimp only [Reply.map]
  split
  · exact miss_map _ _ _ _
  · rfl

theorem stepNode_map (hK : K.Projects H f) (s : State τ) (n : Nat) (rest : List Frame) (h : ρ) :
    (stepNode P K s n rest h).map f = stepNode P H s n rest (f h) := by
  unfold stepNode
  split
  · exact stepToken_map s _ rest h
  · exact stepSymbol_map hK s _ rest h
  · rfl
  · exact stepAction_map hK s _ rest h
  · rfl
  · rfl
  · rfl
  · unfold stepDecision
    dsimp only
    split <;> rfl

/-- **The machine makes the same steps with a host that knows more.** -/
theorem step_map (hK : K.Projects H f) (s : State τ) (h : ρ) : (step P K s h).map f = step P H s (f h) := by
  unfold step
  split
  · rfl
  · unfold stepFinish
    dsimp only
    split
    · rfl
    · split <;> rfl
  · exact stepEntered_map hK s _ _ _ h
  · unfold stepResolving
    split <;> rfl
  · exact stepLookahead_map s _ _ _ h
  · exact stepNode_map hK s _ _ h

theorem run_map (hK : K.Projects H f) (fuel : Nat) (s : State τ) (h : ρ) :
    (run P K fuel s h).map (Stop.map f) = run P H fuel s (f h) := by
  induction fuel generalizing s h with
  | zero => rfl
  | succ fuel ih =>
    rw [run, run, ← step_map hK]
    rcases step P K s h with ⟨v, s', h', remarks⟩
    cases v with
    | proceed => exact ih s' h'
    | _ => rfl

theorem Parser.feed_map (hK : K.Projects H f) (fuel : Nat) (t : τ) (p : Parser ρ τ) :
    (p.feed P K fuel t).map (fun x => (x.1, x.2.map f)) = (p.map f).feed P H fuel t := by
  unfold feed
  cases hs : p.state.status with
  | running =>
    have hs' : (p.map f).state.status = .running := hs
    rw [hs']
    dsimp only
    rw [Option.map_map]
    show _ = (run P H fuel (p.state.receive t) (f p.host)).map _
    rw [← run_map hK, Option.map_map]
    rfl
  | idle | done | failed =>
    have hs' : (p.map f).state.status = _ := hs
    rw [hs']
    rfl

/-! ## Records -/

/-- The host, keeping a record: `note` says what is written down of a callback, with the state that the host sees and its
message if it objects. -/
def Host.keeping (H : Host σ τ) (note : Event → State τ → Option String → List ρ) : Host (σ × List ρ) τ where
  call event s h :=
    let reply := H.call event s h.1
    ⟨(reply.host, h.2 ++ note event s reply.failure), reply.failure, reply.notes⟩

section Keeping

variable (note : Event → State τ → Option String → List ρ)

omit [Terminal τ] in
theorem Host.projects_keeping (H : Host σ τ) : (H.keeping note).Projects H Prod.fst :=
  fun _ _ _ => rfl

omit [Terminal τ] in
/-- It makes no difference what is in the record already. -/
theorem Host.projects_keeping_append (H : Host σ τ) (record : List ρ) :
    (H.keeping note).Projects (H.keeping note) fun h => (h.1, record ++ h.2) := by
  intro event s h
  simp only [Reply.map, keeping, List.append_assoc]

variable {note}

/-- **Keeping a record changes nothing else,** and a step adds the same to every record. -/
theorem step_keeping (P : Program) (H : Host σ τ) (s : State τ) (h : σ) (record : List ρ) :
    step P (H.keeping note) s (h, record) =
      (step P H s h).map (·, record ++ (step P (H.keeping note) s (h, [])).host.2) := by
  have hadded := step_map (P := P) (H.projects_keeping_append note record) s (h, [])
  have hsame := step_map (P := P) (H.projects_keeping note) s (h, [])
  rw [List.append_nil] at hadded
  rw [← hadded, ← hsame]
  rfl

end Keeping

end PredictiveParser.Machine
