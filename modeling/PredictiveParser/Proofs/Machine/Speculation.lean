import PredictiveParser.Proofs.Machine.Alignment

/-!
# Speculation

While resolvers are evaluated the machine works above the frame of the decision that opened the outermost episode
(`Above`). Whatever it does there, it leaves the frames below alone and records no tree; and it only gets back to them at
the place where the decision began, with the production of the resolver, or with the else branch of the episode
(`Effect.speculates`).
-/

namespace PredictiveParser.Machine

variable {σ τ : Type}

/-- What the machine puts on the stack while it speculates. -/
def Frame.isSpeculative : Frame → Bool
  | finish | resolving | entered _ false => false
  | node _ | entered _ true | lookahead _ _ => true

/-- The frames `stack` stand above `below`, where the outermost episode is `e`; the open episodes belong to the waiting
frames one by one. -/
inductive Above (below : List Frame) (e : Episode) : (stack : List Frame) → (episodes : List Episode) → Prop
  | outermost : e.depth = below.length → Above below e (.resolving :: below) [e]
  | frame {f : Frame} {stack : List Frame} {es : List Episode} : f.isSpeculative = true → Above below e stack es →
      Above below e (f :: stack) es
  | nested {e' : Episode} {stack : List Frame} {es : List Episode} : e'.depth = stack.length →
      Above below e stack es → Above below e (.resolving :: stack) (e' :: es)

namespace Above

variable {below : List Frame} {e : Episode}

theorem isSpeculating {s : State τ} (h : Above below e s.stack s.episodes) : s.isSpeculating = true := by
  suffices ∀ stack es, Above below e stack es → es.isEmpty = false by
    rw [State.isSpeculating, this _ _ h]
    rfl
  intro stack es h
  induction h with
  | outermost => rfl
  | frame _ _ ih => exact ih
  | nested => rfl

theorem nodes {stack : List Frame} {es : List Episode} (h : Above below e stack es) (ns : List Nat) :
    Above below e (ns.map .node ++ stack) es := by
  induction ns with
  | nil => exact h
  | cons n ns ih => exact .frame rfl ih

/-- The waiting frame of the innermost episode, and what is below it. -/
theorem exists_resolving {stack : List Frame} {e' : Episode} {es : List Episode} (h : Above below e stack (e' :: es)) :
    ∃ above rest, stack = above ++ .resolving :: rest ∧ e'.depth = rest.length ∧
      (es = [] ∧ e' = e ∧ rest = below ∨ Above below e rest es) := by
  generalize hes : e' :: es = episodes at h
  induction h with
  | outermost hd =>
    cases hes
    exact ⟨[], below, rfl, hd, .inl ⟨rfl, rfl, rfl⟩⟩
  | @frame f _ _ _ _ ih =>
    obtain ⟨above, rest, rfl, hd, hrest⟩ := ih hes
    exact ⟨f :: above, rest, rfl, hd, hrest⟩
  | nested hd h _ =>
    cases hes
    exact ⟨[], _, rfl, hd, .inr h⟩

/-- What is above the waiting frames was put there while the machine speculated. -/
theorem of_frame {f : Frame} {stack : List Frame} {es : List Episode} (h : Above below e (f :: stack) es)
    (hf : f ≠ .resolving) : f.isSpeculative = true ∧ Above below e stack es := by
  cases h with
  | outermost | nested => exact absurd rfl hf
  | frame hspec h => exact ⟨hspec, h⟩

end Above

/-- The machine is back at the frames `below` after the episode `e`. -/
inductive Returned (below : List Frame) (e : Episode) (s : State τ) : Prop
  /-- The resolver matched. -/
  | accepted : s.stack = .node e.accept :: below → s.position = e.entry → Returned below e s
  /-- The resolver did not match, and another production is taken. -/
  | refused {p : Nat} : e.otherwise = some (.node p) → s.stack = .node p :: below → s.position = e.entry →
      Returned below e s
  /-- The resolver did not match, and the decision goes on. -/
  | onward {d : Nat} : e.otherwise = some (.dfa d) → s.stack = .lookahead d e.entry :: below → Returned below e s

/-- The machine speculates, or it is back after it. -/
def Speculates (below : List Frame) (e : Episode) (s : State τ) : Prop :=
  Above below e s.stack s.episodes ∨ s.episodes = [] ∧ Returned below e s

variable [Terminal τ] {P : Program} {H : Host σ τ} {below : List Frame} {e : Episode} {s : State τ}

/-- Going back ends in an episode, or after the outermost one. -/
theorem speculates_unwind {es : List Episode} {symbol? : Option Nat} {s s' : State τ}
    (h : Above below e s.stack es ∨ es = []) (hu : unwind P es symbol? s = (none, s')) :
    Speculates below e s' ∧ s'.tree = s.tree := by
  induction es generalizing s symbol? with
  | nil => cases hu
  | cons e' es ih =>
    obtain ⟨above, rest, hs, hd, hrest⟩ := (h.resolve_right (List.cons_ne_nil _ _)).exists_resolving
    have htail : (s.undo e' es).stack.tail = rest := by rw [undo_eq es hs hd, List.tail_cons]
    rw [unwind, htail] at hu
    cases ho : e'.otherwise with
    | none =>
      rw [ho] at hu
      dsimp only at hu
      exact ih (s := (s.undo e' es).goto e'.entry rest) (hrest.symm.imp id And.left) hu
    | some target =>
      cases target with
      | dfa d =>
        rw [ho] at hu
        cases hu
        refine ⟨?_, rfl⟩
        rcases hrest with ⟨rfl, rfl, rfl⟩ | h
        · exact .inr ⟨rfl, .onward ho rfl⟩
        · exact .inl (.frame rfl h)
      | node p =>
        rw [ho] at hu
        cases hu
        refine ⟨?_, rfl⟩
        rcases hrest with ⟨rfl, rfl, rfl⟩ | h
        · exact .inr ⟨rfl, .refused ho rfl rfl⟩
        · exact .inl (.frame rfl h)

/-- Where an error is noticed the machine still speculates. -/
theorem Misses.above {b : State τ} {h h' : σ} {error : ParseError} (hm : Misses P H s h b h' error)
    (ha : Above below e s.stack s.episodes) : Above below e b.stack s.episodes := by
  cases hm with
  | action hs => exact ((hs ▸ ha).of_frame nofun).2
  | _ => exact stack_advance s ▸ ha

/-- **What a step does while the machine speculates.** The machine still speculates, or it is back after it, and the tree is
as it was. -/
theorem Effect.speculates {s' : State τ} {h h' : σ} (he : Effect P H s h .proceed s' h')
    (ha : Above below e s.stack s.episodes) : Speculates below e s' ∧ s'.tree = s.tree := by
  have hrest : ∀ {f rest}, s.stack = f :: rest → f ≠ .resolving → Above below e rest s.episodes :=
    fun hs hf => ((hs ▸ ha).of_frame hf).2
  have hspec := ha.isSpeculating
  cases he with
  | passed hs => exact ⟨.inl (hrest hs nofun), rfl⟩
  | left hs => cases ((hs ▸ ha).of_frame nofun).1
  | committed hs hes =>
    rw [hs, hes] at ha
    refine ⟨?_, rfl⟩
    cases ha with
    | outermost => exact .inr ⟨rfl, .accepted rfl rfl⟩
    | frame hf => cases hf
    | nested _ ha => exact .inl (.frame rfl ha)
  | resolved hs => exact ⟨.inl (.frame rfl (hrest hs nofun)), rfl⟩
  | attempted hs => exact ⟨.inl (.frame rfl (.nested rfl (hrest hs nofun))), rfl⟩
  | followed hs | defaulted hs =>
    rw [advance_eq]
    exact ⟨.inl (.frame rfl (hrest hs nofun)), rfl⟩
  | matched hs =>
    rw [consume_speculating ((isSpeculating_advance s).trans hspec), advance_eq]
    exact ⟨.inl (hrest hs nofun), rfl⟩
  | entered hs =>
    unfold State.enterSymbol
    rw [isSpeculating_withStack, isSpeculating_advance, hspec, advance_eq]
    exact ⟨.inl (.frame rfl (.frame rfl (hrest hs nofun))), rfl⟩
  | unfolded hs => exact ⟨.inl ((hrest hs nofun).nodes _), rfl⟩
  | acted hs | armed hs | skipped hs => exact ⟨.inl (hrest hs nofun), rfl⟩
  | began hs =>
    unfold State.beginDecision
    rw [advance_eq]
    exact ⟨.inl (.frame rfl (hrest hs nofun)), rfl⟩
  | rolledBack hm _ hu =>
    obtain ⟨hs', htree⟩ := speculates_unwind (.inl (hm.above ha)) hu
    rw [hm.state_eq] at htree
    exact ⟨hs', htree⟩

/-- While the machine speculates it does not accept the input. -/
theorem Above.not_accept (h : Above below e s.stack s.episodes) (host : σ) :
    (Machine.step P H s host).verdict ≠ .accept := by
  intro hv
  generalize s.episodes = es at h
  rcases (stops_step s host).2 hv with hs | ⟨rest, hs, -⟩
  · rw [hs] at h
    cases h
  · rw [hs] at h
    cases h with
    | frame hf => cases hf

end PredictiveParser.Machine
