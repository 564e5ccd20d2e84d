import PredictiveParser.Proofs.Machine.Alignment
import PredictiveParser.Proofs.Machine.Soundness

/-!
# Coherence

After every history of calls, and between the steps of every call, the stacks of a parser fit together (`State.Coherent`)
unless the parse failed (`coherent_of_calls`). So a decision never waits without an episode, a parse only ends with success
when an end of the input is the current token, and nothing is left open then. It need not be the token that was fed last: a
decision may have looked past it (`delimited_done_late`).
-/

namespace PredictiveParser.Machine

variable {σ τ : Type}

/-! ## Coherent states -/

/-- The frames, the entered symbols, the open episodes and the open nodes of the tree fit together. -/
structure State.Coherent (s : State τ) : Prop where
  /-- The end of the input is expected at the bottom of the stack and nowhere else. -/
  finish : s.stack = [] ∨ ∃ frames, s.stack = frames ++ [.finish] ∧ .finish ∉ frames
  /-- A decision is on top of the stack only. -/
  lookahead : ∀ d entry, .lookahead d entry ∉ s.stack.tail
  /-- From the bottom, the waiting frames are at the depths of the episodes. -/
  resolving : s.stack.reverse.idxsOf .resolving = (s.episodes.map (·.depth)).reverse
  symbols : s.symbols = s.stack.filterMap Frame.symbol?
  /-- A symbol was entered speculatively if its mark is above a waiting frame. -/
  speculative : ∀ above below a speculative, s.stack = above ++ .entered a speculative :: below →
    (speculative = true ↔ .resolving ∈ below)
  tree : ∀ T ∈ s.tree, T.depth = s.stack.countP Frame.isCommitted

theorem State.Closed.coherent {s : State τ} (h : s.Closed) : s.Coherent where
  finish := .inl h.stack
  lookahead := by simp [h.stack]
  resolving := by simp [h.stack, h.episodes]
  symbols := by rw [h.stack, h.symbols]; rfl
  speculative := by simp [h.stack]
  tree := by rw [h.stack]; exact h.tree

theorem Aligned.coherent {s : State τ} {k : Nat} (h : Aligned s.stack s.symbols s.episodes k)
    (htree : ∀ T ∈ s.tree, T.depth = k) : s.Coherent where
  finish := .inr h.finish_bottom
  lookahead d entry hmem := h.not_lookahead d entry (List.mem_of_mem_tail hmem)
  resolving := h.idxsOf_resolving
  symbols := h.symbols_eq
  speculative _ _ _ _ hs := (hs ▸ h).speculative_iff
  tree := h.committed_eq ▸ htree

/-- A decision on top is nothing but one more frame. -/
theorem State.Coherent.deciding {s : State τ} {d entry : Nat} {rest : List Frame} (hs : s.stack = .lookahead d entry :: rest)
    (hrest : (s.withStack rest).Coherent) (hd : ∀ d entry, .lookahead d entry ∉ rest) (hne : rest ≠ []) : s.Coherent where
  finish := by
    obtain ⟨frames, hframes, hmem⟩ := hrest.finish.resolve_left hne
    refine .inr ⟨.lookahead d entry :: frames, by rw [hs, List.cons_append, ← hframes]; rfl, ?_⟩
    simpa using hmem
  lookahead := by rw [hs]; exact hd
  resolving := by
    rw [← show rest.reverse.idxsOf .resolving = (s.episodes.map (·.depth)).reverse from hrest.resolving, hs]
    simp [List.idxsOf_append]
  symbols := by rw [hs]; exact hrest.symbols
  speculative above below a speculative h := by
    rw [hs] at h
    cases above with
    | nil => cases h
    | cons f above => exact hrest.speculative above below a speculative (List.cons.inj h).2
  tree := by
    rw [hs, List.countP_cons_of_neg Bool.false_ne_true]
    exact hrest.tree

theorem State.Balanced.coherent {s : State τ} (h : s.Balanced) : s.Coherent := by
  obtain ⟨k, ht, htree⟩ := h
  generalize hs : s.stack = stack at ht
  cases ht with
  | settled ha => exact (hs ▸ ha).coherent htree
  | @deciding d entry _ rest _ _ ha =>
    refine .deciding hs (Aligned.coherent (s := s.withStack rest) ha htree) ha.not_lookahead ?_
    obtain ⟨frames, rfl, -⟩ := ha.finish_bottom
    simp

/-! ## The answers -/

section Answers

variable [Terminal τ] {P : Program} {H : Host σ τ} {s : State τ} {h : σ}

theorem Effect.coherent {v : Verdict} {s' : State τ} {h' : σ} (he : Effect P H s h v s' h') (hb : s.Balanced)
    (hv : ∀ error, v ≠ .reject error) : s'.Coherent := by
  cases v with
  | proceed => exact (he.balanced hb).coherent
  | await =>
    rw [he.waited.1]
    exact hb.advance.coherent
  | accept => exact (he.closed hb).1.coherent
  | reject error => exact absurd rfl (hv error)

omit [Terminal τ] in
theorem Host.failure_of_callAll {events : List Event} {message : String}
    (hf : (H.callAll s events h).failure = some message) : ∃ event h, (H.call event s h).failure = some message := by
  induction events generalizing h with
  | nil => cases hf
  | cons event events ih =>
    rw [Host.callAll] at hf
    split at hf
    · next h' message' _ hcall =>
      cases hf
      exact ⟨event, h, by rw [hcall]⟩
    · exact ih hf

/-- Going back ends the parse with an error of its own. -/
theorem error_of_unwind {es : List Episode} {symbol? : Option Nat} {s s' : State τ} {error : ParseError}
    (hu : unwind P es symbol? s = (some error, s')) : ∃ symbol found span, error = .noViableAlternative symbol found span := by
  induction es generalizing symbol? s with
  | nil =>
    cases hu
    exact ⟨_, _, _, rfl⟩
  | cons e es ih =>
    rw [unwind] at hu
    split at hu
    · cases hu
    · cases hu
    · exact ih hu

/-- A semantic error is a message of the host. -/
theorem Effect.message_of_semantic {s' : State τ} {h' : σ} {message : String} {span : Option Span}
    (he : Effect P H s h (.reject (.semantic message span)) s' h') (hb : s.Balanced) :
    ∃ event u g, (H.call event u g).failure = some message := by
  generalize herror : ParseError.semantic message span = error at he
  cases he with
  | exhausted _ _ hu =>
    obtain ⟨_, _, _, rfl⟩ := error_of_unwind hu
    cases herror
  | missed hm =>
    cases hm with
    | action _ _ hf =>
      cases herror
      exact ⟨_, _, _, hf⟩
    | _ => cases herror
  | unfinished => cases herror
  | leaveRefused _ hf =>
    cases herror
    obtain ⟨event, g, hf⟩ := Host.failure_of_callAll hf
    exact ⟨event, _, g, hf⟩
  | enterRefused _ _ hf =>
    cases herror
    obtain ⟨event, g, hf⟩ := Host.failure_of_callAll hf
    exact ⟨event, _, g, hf⟩
  | underflow hs hes => exact absurd hes (hb.episodes_ne_nil hs)

/-- **The stacks fit together, between calls and between steps, unless the parse failed.** So a decision never waits without
an episode; a parse that ends with success has an end of the input at the cursor and leaves nothing open; and a semantic
error is always a message of the host. -/
theorem coherent_of_calls (P : Program) (H : Host σ τ) :
    (∀ {p : Parser σ τ} {past : List τ}, p.Reachable P H past → p.state.status ≠ .failed → p.state.Coherent) ∧
    (∀ {s : State τ} {h : σ} {past : List τ}, Visits P H s h past →
      s.Coherent ∧ ((∀ error, (step P H s h).verdict ≠ .reject error) → (step P H s h).state.Coherent) ∧
        ∀ rest, s.stack = .resolving :: rest → s.episodes ≠ []) ∧
    ∀ {p q : Parser σ τ} {past : List τ} {fuel : Nat} {t : τ} {a : Except ParseError Feed}, p.Reachable P H past →
      p.feed P H fuel t = some (a, q) →
      (a = .ok .done → q.state.Closed ∧ ∃ u, (past ++ [t])[q.state.cursor]? = some u ∧ Terminal.id u = endToken) ∧
        ∀ message span, a = .error (.semantic message span) → ∃ event s h, (H.call event s h).failure = some message := by
  refine ⟨fun {p past} hp hs => ?_, fun {s h past} hv => ?_, fun {p q past fuel t a} hp hf => ?_⟩
  · have hrests := hp.rests
    unfold State.Rests at hrests
    cases hstatus : p.state.status with
    | idle | done =>
      rw [hstatus] at hrests
      exact hrests.coherent
    | running =>
      rw [hstatus] at hrests
      exact hrests.coherent
    | failed => exact absurd hstatus hs
  · exact ⟨hv.balanced.coherent, (effect_step P H s h).coherent hv.balanced, fun _ => hv.balanced.episodes_ne_nil⟩
  · by_cases hs : p.state.status = .running
    · obtain ⟨s, h, hv, ha, rfl⟩ := hp.exists_visits hs hf
      have he := effect_step P H s h
      generalize (step P H s h).verdict = v at ha he
      cases v with
      | proceed => cases ha
      | await =>
        cases ha
        exact ⟨nofun, nofun⟩
      | accept =>
        cases ha
        obtain ⟨hclosed, hcursor, u, hnext, hend⟩ := he.closed hv.balanced
        refine ⟨fun _ => ⟨⟨hclosed.stack, hclosed.symbols, hclosed.episodes, hclosed.tree⟩, u, ?_, hend⟩, nofun⟩
        rw [← hv.getElem?_position hnext, ← hcursor]
        rfl
      | reject error =>
        cases ha
        refine ⟨nofun, fun message span e => ?_⟩
        cases e
        exact he.message_of_semantic hv.balanced
    · rcases (Parser.feed_refused hs hf).2 with rfl | rfl
      · exact ⟨nofun, nofun⟩
      · exact ⟨nofun, nofun⟩

end Answers

/-! ## An end of the input that was looked past -/

/-- Of the tokens `a $end` both are still undecided, and `a` decides. -/
theorem delimited.reachable : ∃ T p q, delimited.build = .ok T ∧ Parser.Reachable T.program Host.silent p [2, 0] ∧
    p.feed T.program Host.silent 20 2 = some (.ok .done, q) := by
  have h : delimited.build.toOption.any fun T =>
      ((Parser.start T.program 0 true ⟨{}, ()⟩).feedAll T.program Host.silent 20 [2, 0]).any fun r =>
        r.1 = [.ok .more, .ok .more] ∧ (r.2.feed T.program Host.silent 20 2).any fun r' => r'.1 = .ok .done := by
    decide +kernel
  obtain ⟨T, hT, h⟩ := exists_of_any_toOption h
  obtain ⟨⟨as, p⟩, hp, h⟩ := Option.any_eq_true _ _ |>.1 h
  obtain ⟨rfl, h⟩ := of_decide_eq_true h
  obtain ⟨⟨a, q⟩, hq, h⟩ := Option.any_eq_true _ _ |>.1 h
  obtain rfl := of_decide_eq_true h
  exact ⟨T, p, q, hT, (((Parser.Reachable.new ()).start 0 true).feedAll rfl hp (by decide)).1, hq⟩

/-- The parse ends with success on a token that is not an end of the input, since the decision has looked past one. -/
theorem delimited_done_late : ∃ T p q, delimited.build = .ok T ∧ Parser.Reachable T.program Host.silent p [2, 0] ∧
    p.feed T.program Host.silent 20 2 = some (.ok .done, q) ∧ Terminal.id 2 ≠ endToken := by
  obtain ⟨T, p, q, hT, hp, hq⟩ := delimited.reachable
  exact ⟨T, p, q, hT, hp, hq, by decide⟩

/-- Nothing is left open then. -/
theorem delimited_closed : ∃ T, ∃ p q : Parser Unit Nat, delimited.build = .ok T ∧
    p.feed T.program Host.silent 20 2 = some (.ok .done, q) ∧ q.state.Closed ∧
      ∃ u, ([2, 0, 2] : List Nat)[q.state.cursor]? = some u ∧ Terminal.id u = endToken := by
  obtain ⟨T, p, q, hT, hp, hq⟩ := delimited.reachable
  exact ⟨T, p, q, hT, hq, ((coherent_of_calls T.program Host.silent).2.2 hp hq).1 rfl⟩

end PredictiveParser.Machine
