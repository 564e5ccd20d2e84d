import Mathlib.Data.List.Infix
import PredictiveParser.Proofs.Machine.Alignment

/-!
# Episodes leave no trace

Inside of an episode the machine works above the waiting frame of the episode, and on nothing that outlasts it (`Inside`). A
step stays inside, or it ends the episode (`Inside.step`): then all is as it was when the resolver was reached, except that
the decision has fallen or has moved on (`Ends`). So it is after any number of steps and fed tokens, whatever episodes are
nested inside, and of the callbacks only actions are made (`restored_of_episode`).
-/

namespace PredictiveParser.Machine

variable {σ τ : Type}

/-! ## What lasts -/

/-- What a parse has recorded is the same in both states. -/
structure State.Agrees (s s' : State τ) : Prop where
  locators : s'.locators = s.locators
  armed : s'.armed = s.armed
  last : s'.last = s.last
  tree : s'.tree = s.tree
  status : s'.status = s.status

namespace State.Agrees

variable {s s' s'' : State τ}

theorem trans (h : s.Agrees s') (h' : s'.Agrees s'') : s.Agrees s'' :=
  ⟨h'.locators.trans h.locators, h'.armed.trans h.armed, h'.last.trans h.last, h'.tree.trans h.tree,
    h'.status.trans h.status⟩

end State.Agrees

/-- The state `s'` is the state `s` at another position and with another stack, apart from fed tokens and counts. -/
def State.Restored (s s' : State τ) (cursor : Nat) (stack : List Frame) : Prop :=
  s' = { s with window := s'.window, stats := s'.stats, cursor, matched := false, stack }

theorem State.Agrees.restored {s s' : State τ} (h : s.Agrees s') (hsymbols : s'.symbols = s.symbols)
    (hepisodes : s'.episodes = s.episodes) (hmatched : s'.matched = false) : s.Restored s' s'.cursor s'.stack := by
  obtain ⟨hlocators, harmed, hlast, htree, hstatus⟩ := h
  cases s'
  cases hlocators
  cases harmed
  cases hlast
  cases htree
  cases hstatus
  cases hsymbols
  cases hepisodes
  cases hmatched
  rfl

/-- Two suffixes of a list are the same, or one is below the head of the other. -/
theorem suffix_cons_cases {α : Type} {a b : α} {as bs cs : List α} (ha : a :: as <:+ cs) (hb : b :: bs <:+ cs) :
    a = b ∧ as = bs ∨ a :: as <:+ bs ∨ b :: bs <:+ as := by
  rcases List.suffix_or_suffix_of_suffix ha hb with h | h
  · rcases List.suffix_cons_iff.1 h with h | h
    · exact .inl (List.cons.inj h)
    · exact .inr (.inl h)
  · rcases List.suffix_cons_iff.1 h with h | h
    · exact .inl ⟨(List.cons.inj h).1.symm, (List.cons.inj h).2.symm⟩
    · exact .inr (.inr h)

/-- The longer of two suffixes of a list has the shorter one below its head. -/
theorem suffix_of_length_lt {α : Type} {a b : α} {as bs cs : List α} (hlt : as.length < bs.length) (ha : a :: as <:+ cs)
    (hb : b :: bs <:+ cs) : a :: as <:+ bs :=
  List.suffix_of_suffix_length_le ha ((List.suffix_cons _ _).trans hb) hlt

section Steps

variable [Terminal τ] {P : Program} {H : Host σ τ} {s : State τ} {h : σ}

/-- While an episode is open a step records nothing. -/
theorem Effect.agrees {s' : State τ} {h' : σ} (he : Effect P H s h .proceed s' h') (hb : s.Balanced)
    (hes : s.episodes ≠ []) : s.Agrees s' := by
  have hspec : s.isSpeculating = true := isSpeculating_iff.2 hes
  cases he with
  | left hs => exact absurd (hb.episodes_eq_nil hs) hes
  | followed | defaulted =>
    rw [advance_eq]
    exact ⟨rfl, rfl, rfl, rfl, rfl⟩
  | matched =>
    rw [consume_speculating ((isSpeculating_advance s).trans hspec), advance_eq]
    exact ⟨rfl, rfl, rfl, rfl, rfl⟩
  | entered =>
    unfold State.enterSymbol
    rw [isSpeculating_withStack, isSpeculating_advance, hspec, advance_eq]
    exact ⟨rfl, rfl, rfl, rfl, rfl⟩
  | armed =>
    rw [hspec]
    exact ⟨rfl, rfl, rfl, rfl, rfl⟩
  | began =>
    unfold State.beginDecision
    rw [advance_eq]
    exact ⟨rfl, rfl, rfl, rfl, rfl⟩
  | rolledBack hm _ hu =>
    obtain ⟨k, ht, -⟩ := hb
    obtain ⟨inner, e, outer, target, below, -, hback⟩ := hm.exists_goesBack ht hu
    rw [hback.state]
    exact ⟨rfl, rfl, rfl, rfl, rfl⟩
  | _ => exact ⟨rfl, rfl, rfl, rfl, rfl⟩

/-- While an episode is open the host is called for actions only. -/
theorem Effect.record_speculating {v : Verdict} {s' : State τ} {r : σ × List (Event × Bool)}
    (he : Effect P H.recording s (h, []) v s' r) (hb : s.Balanced) (hes : s.episodes ≠ []) :
    ∀ c ∈ r.2, ∃ a ok, c = (.action a, ok) := by
  have hspec : s.isSpeculating = true := isSpeculating_iff.2 hes
  have haction : ∀ a rest, ∀ c ∈ (actionReply H.recording s a rest (h, [])).host.2, ∃ a ok, c = (.action a, ok) :=
    fun a rest c hc => ⟨a, _, List.mem_singleton.1 (record_actionReply H s a rest h ▸ hc)⟩
  have hmisses : ∀ {b r error}, Misses P H.recording s (h, []) b r error → ∀ c ∈ r.2, ∃ a ok, c = (.action a, ok) := by
    intro b r error hm
    cases hm with
    | action => exact haction _ _
    | _ => exact nofun
  cases he with
  | left hs => exact absurd (hb.episodes_eq_nil hs) hes
  | leaveRefused hs => exact absurd (hb.episodes_eq_nil hs) hes
  | entered | enterRefused =>
    rw [enterReply_of_speculating _ hspec]
    exact nofun
  | acted => exact haction _ _
  | rolledBack hm | exhausted hm | missed hm => exact hmisses hm
  | _ => exact nofun

theorem calls_speculating (hb : s.Balanced) (hes : s.episodes ≠ []) :
    ∀ c ∈ calls P H s h, ∃ a ok, c = (.action a, ok) :=
  (effect_recording P H s h).record_speculating hb hes

/-- An error is not noticed while a decision waits on top. -/
theorem Misses.not_resolving {b : State τ} {h' : σ} {error : ParseError} (hm : Misses P H s h b h' error)
    (below : List Frame) : s.stack ≠ .resolving :: below := by
  cases hm with
  | _ hs =>
    rw [hs]
    exact nofun

/-! ## Inside of an episode -/

omit [Terminal τ] in
/-- The machine is in the state `v` inside of the episode `e`, which was opened in the state `s` above the frames `rest`. -/
structure Inside (s : State τ) (e : Episode) (rest : List Frame) (v : State τ) : Prop where
  depth : e.depth = rest.length
  symbols : s.symbols = rest.filterMap Frame.symbol?
  stack : .resolving :: rest <:+ v.stack
  episodes : e :: s.episodes <:+ v.episodes
  agrees : s.Agrees v

omit [Terminal τ] in
/-- How a step from the state `u` to the state `s'` ends the episode `e`, which was opened in the state `s` above the frames
`rest`. -/
inductive Ends (s : State τ) (e : Episode) (rest : List Frame) (u s' : State τ) : Prop
  /-- The resolver is matched. -/
  | matched : u.stack = .resolving :: rest → s.Restored s' e.entry (.node e.accept :: rest) → Ends s e rest u s'
  /-- The resolver fails, and another production is taken. -/
  | refused {p : Nat} : (∀ below, u.stack ≠ .resolving :: below) → e.otherwise = some (.node p) →
      s.Restored s' e.entry (.node p :: rest) → Ends s e rest u s'
  /-- The resolver fails, and the decision goes on. -/
  | onward {d : Nat} : (∀ below, u.stack ≠ .resolving :: below) → e.otherwise = some (.dfa d) →
      s.Restored s' e.resume (.lookahead d e.entry :: rest) → Ends s e rest u s'
  /-- The resolver fails without an else branch, and an episode around it ends with it. -/
  | abandoned : (∀ below, u.stack ≠ .resolving :: below) → e.otherwise = none →
      s'.episodes.length < s.episodes.length → Ends s e rest u s'

namespace Inside

variable {e : Episode} {rest : List Frame} {v v' : State τ} {g g' : σ}

omit [Terminal τ] in
theorem episodes_ne_nil (hi : Inside s e rest v) : v.episodes ≠ [] := by
  rintro h
  have := hi.episodes.length_le
  rw [h] at this
  simp at this

omit [Terminal τ] in
/-- Work above the waiting frame stays inside. -/
theorem working (hi : Inside s e rest v) (frames : List Frame) {f : Frame} {rest' : List Frame} (hs : v.stack = f :: rest')
    (hf : f ≠ .resolving) (hs' : v'.stack = frames ++ rest') (hes : v.episodes <:+ v'.episodes) (ha : v.Agrees v') :
    Inside s e rest v' := by
  refine ⟨hi.depth, hi.symbols, ?_, hi.episodes.trans hes, hi.agrees.trans ha⟩
  have hsuffix := hi.stack
  rw [hs, List.suffix_cons_iff] at hsuffix
  rw [hs']
  rcases hsuffix with h | h
  · exact absurd (List.cons.inj h).1.symm hf
  · exact h.trans (List.suffix_append _ _)

omit [Terminal τ] in
/-- The same for an episode that is not the innermost one. -/
theorem episodes_cons {e' : Episode} {outer : List Episode} (hi : Inside s e rest v) (hes : v.episodes = e' :: outer) :
    e = e' ∧ s.episodes = outer ∨ e :: s.episodes <:+ outer := by
  have hsuffix := hi.episodes
  rw [hes, List.suffix_cons_iff] at hsuffix
  exact hsuffix.imp_left List.cons.inj

omit [Terminal τ] in
/-- Back at the frames below the episode everything is as it was. -/
theorem restored (hi : Inside s e rest v) (ha : v.Agrees v') (hb' : v'.Balanced) {f : Frame} {cursor : Nat}
    (hf : f.symbol? = none) (hepisodes : v'.episodes = s.episodes) (hmatched : v'.matched = false)
    (hcursor : v'.cursor = cursor) (hs' : v'.stack = f :: rest) : s.Restored v' cursor (f :: rest) := by
  have hsymbols : v'.symbols = s.symbols := by
    rw [hb'.symbols_eq, hs', List.filterMap_cons, hf, hi.symbols]
  have := (hi.agrees.trans ha).restored hsymbols hepisodes hmatched
  rwa [hcursor, hs'] at this

omit [Terminal τ] in
/-- Going back stays inside of the episode if it ends at one that was opened in it, and ends it otherwise. -/
theorem goesBack {inner outer : List Episode} {e' : Episode} {target : Target} {below : List Frame} {k : Nat}
    (hi : Inside s e rest v) (ha : v.Agrees v') (hb' : v'.Balanced) (hnot : ∀ below, v.stack ≠ .resolving :: below)
    (hes : v.episodes = inner ++ e' :: outer) (hback : GoesBack v v.stack k v' inner e' outer target below) :
    Inside s e rest v' ∨ Ends s e rest v v' := by
  have hstack : v'.stack = e'.resumed target :: below := congrArg (·.stack) hback.state
  have hepisodes : v'.episodes = outer := congrArg (·.episodes) hback.state
  have hmatched : v'.matched = false := congrArg (·.matched) hback.state
  have hcursor : v'.cursor = e'.position target := congrArg (·.cursor) hback.state
  have hinner : e' :: outer <:+ v.episodes := ⟨inner, hes.symm⟩
  rcases suffix_cons_cases hi.episodes hinner with ⟨rfl, houter⟩ | houter | houter
  · -- the episode itself is left for its else branch
    have hlen : rest.length = below.length := by rw [← hi.depth, hback.depth]
    have hsuffix := List.suffix_of_suffix_length_le hi.stack hback.frames (by simp [hlen])
    obtain rfl := (List.cons.inj (hsuffix.eq_of_length (by simp [hlen]))).2
    have hrestored : ∀ f, f.symbol? = none → e.resumed target = f → s.Restored v' (e.position target) (f :: rest) :=
      fun f hf hresumed => hi.restored ha hb' hf (hepisodes.trans houter.symm) hmatched hcursor (hresumed ▸ hstack)
    cases target with
    | node p => exact .inr (.refused hnot hback.otherwise (hrestored _ rfl rfl))
    | dfa d => exact .inr (.onward hnot hback.otherwise (hrestored _ rfl rfl))
  · -- an episode inside is left for its else branch
    have hmem : e ∈ outer := houter.subset List.mem_cons_self
    have hlt : rest.length < below.length := hi.depth ▸ hback.aligned.length_le e hmem
    refine .inl ⟨hi.depth, hi.symbols, ?_, hepisodes ▸ houter, hi.agrees.trans ha⟩
    rw [hstack]
    exact (suffix_of_length_lt hlt hi.stack hback.frames).trans (List.suffix_cons _ _)
  · -- an episode around is left for its else branch, so this one has none
    obtain ⟨front, hfront⟩ := hi.episodes
    obtain ⟨middle, hmiddle⟩ := houter
    have hmem : e ∈ inner := by
      rw [hes, ← hmiddle, ← List.cons_append, ← List.append_assoc] at hfront
      rw [← List.append_cancel_right hfront]
      simp
    refine .inr (.abandoned hnot (hback.inner e hmem) ?_)
    rw [hepisodes, ← hmiddle, List.length_append, List.length_cons]
    omega

/-- A step inside of an episode stays there, or ends it. -/
theorem step (hi : Inside s e rest v) (hb : v.Balanced) (he : Effect P H v g .proceed v' g') :
    Inside s e rest v' ∨ Ends s e rest v v' := by
  have ha := he.agrees hb hi.episodes_ne_nil
  have hb' := he.balanced hb
  obtain ⟨k, ht, -⟩ := hb
  cases he with
  | passed hs | left hs | acted hs | armed hs | skipped hs => exact .inl (hi.working [] hs nofun rfl List.suffix_rfl ha)
  | @committed e' outer below hs hes =>
    rw [hs, hes] at ht
    obtain ⟨hd, haligned⟩ := ht.of_resolving
    have hsuffix := hi.stack
    rw [hs] at hsuffix
    rcases hi.episodes_cons hes with ⟨rfl, houter⟩ | houter
    · have hlen : (Frame.resolving :: rest).length = (Frame.resolving :: below).length := by
        rw [List.length_cons, List.length_cons, ← hi.depth, hd]
      obtain rfl := (List.cons.inj (hsuffix.eq_of_length hlen)).2
      exact .inr (.matched hs (hi.restored ha hb' rfl houter.symm rfl rfl rfl))
    · have hlt : rest.length < below.length := hi.depth ▸ haligned.length_le e (houter.subset List.mem_cons_self)
      exact .inl ⟨hi.depth, hi.symbols, (suffix_of_length_lt hlt hsuffix List.suffix_rfl).trans (List.suffix_cons _ _), houter,
        hi.agrees.trans ha⟩
  | @resolved _ _ p _ hs => exact .inl (hi.working [.node p] hs nofun rfl List.suffix_rfl ha)
  | @attempted _ _ n _ _ _ hs => exact .inl (hi.working [.node n, .resolving] hs nofun rfl (List.suffix_cons _ _) ha)
  | @followed _ entry d' _ _ _ hs =>
    rw [advance_eq] at ha ⊢
    exact .inl (hi.working [.lookahead d' entry] hs nofun rfl List.suffix_rfl ha)
  | @defaulted _ _ p _ _ hs =>
    rw [advance_eq] at ha ⊢
    exact .inl (hi.working [.node p] hs nofun rfl List.suffix_rfl ha)
  | matched hs =>
    rw [consume_eq, advance_eq] at ha ⊢
    exact .inl (hi.working [] hs nofun rfl List.suffix_rfl ha)
  | @entered _ a p _ _ hs =>
    rw [advance_eq] at ha ⊢
    exact .inl (hi.working [.node p, .entered a _] hs nofun rfl List.suffix_rfl ha)
  | @unfolded _ parts _ hs => exact .inl (hi.working (parts.map .node) hs nofun rfl List.suffix_rfl ha)
  | @began _ d _ _ hs =>
    unfold State.beginDecision at ha ⊢
    rw [advance_eq] at ha ⊢
    exact .inl (hi.working [.lookahead d v.position] hs nofun rfl List.suffix_rfl ha)
  | rolledBack hm _ hu =>
    obtain ⟨inner, e', outer, target, below, hes, hback⟩ := hm.exists_goesBack ht hu
    exact hi.goesBack ha hb' hm.not_resolving hes hback

/-- Waiting for a token changes nothing. -/
theorem fed (hi : Inside s e rest v) (hw : (Machine.step P H v g).verdict = .await) (t : τ) :
    Inside s e rest (((Machine.step P H v g).state.settle (.ok .more)).receive t) := by
  rw [fed_eq hw]
  exact ⟨hi.depth, hi.symbols, hi.stack, hi.episodes, hi.agrees.trans ⟨rfl, rfl, rfl, rfl, rfl⟩⟩

end Inside

omit [Terminal τ] in
/-- A step that ends an episode leaves fewer episodes open. -/
theorem Ends.length_le {e : Episode} {rest : List Frame} {u s' : State τ} (h : Ends s e rest u s') :
    s'.episodes.length ≤ s.episodes.length := by
  have hrestored : ∀ {cursor stack}, s.Restored s' cursor stack → s'.episodes.length ≤ s.episodes.length := fun h => by
    rw [h]
  cases h with
  | matched _ h => exact hrestored h
  | refused _ _ h => exact hrestored h
  | onward _ _ h => exact hrestored h
  | abandoned _ _ h => exact Nat.le_of_lt h

/-- As long as the episode is open the machine is inside of it. -/
theorem Inside.moves {e : Episode} {rest : List Frame} {v u : State τ} {g g' : σ} {past ts : List τ}
    {trace : List (State τ)} {cs : List (Event × Bool)} (hi : Inside s e rest v) (hv : Visits P H v g past)
    (hm : Moves P H v g ts trace cs u g') (hopen : ∀ w ∈ trace ++ [u], s.episodes.length < w.episodes.length) :
    Inside s e rest u ∧ ∀ c ∈ cs, ∃ a ok, c = (.action a, ok) := by
  induction hm generalizing past with
  | refl => exact ⟨hi, nofun⟩
  | @step v u g g' ts trace cs hp hm ih =>
    have hlater : ∀ w ∈ trace ++ [u], s.episodes.length < w.episodes.length :=
      fun w hw => hopen w (List.mem_cons_of_mem _ hw)
    have hinside : Inside s e rest (Machine.step P H v g).state := by
      rcases hi.step hv.balanced (effect_of_verdict hp) with h | h
      · exact h
      · exact absurd h.length_le (Nat.not_le_of_lt (hlater _ hm.head_mem))
    obtain ⟨hu, hcs⟩ := ih hinside (hv.step hp) hlater
    refine ⟨hu, fun c hc => ?_⟩
    rcases List.mem_append.1 hc with hc | hc
    · exact calls_speculating hv.balanced hi.episodes_ne_nil c hc
    · exact hcs c hc
  | @feed v u g g' t ts trace cs hw hm ih =>
    obtain ⟨hu, hcs⟩ := ih (hi.fed hw t) (hv.feed hw t) fun w hw => hopen w (List.mem_cons_of_mem _ hw)
    refine ⟨hu, fun c hc => ?_⟩
    rcases List.mem_append.1 hc with hc | hc
    · exact calls_speculating hv.balanced hi.episodes_ne_nil c hc
    · exact hcs c hc

omit [Terminal τ] in
/-- An episode that is opened. -/
theorem inside_openEpisode {v : State τ} {d entry : Nat} {rest : List Frame} (hv : v.Balanced)
    (hs : v.stack = .lookahead d entry :: rest) (n p : Nat) (otherwise : Option Target) :
    Inside v ⟨rest.length, entry, v.cursor, p, otherwise⟩ rest (v.openEpisode entry n p otherwise rest) := by
  refine ⟨rfl, ?_, List.suffix_cons _ _, List.suffix_rfl, ⟨rfl, rfl, rfl, rfl, rfl⟩⟩
  rw [hv.symbols_eq, hs]
  rfl

theorem Visits.of_resolver {s : State τ} {h : σ} {past : List τ} {d entry n accept : Nat} {otherwise : Option Target}
    {rest : List Frame} (hv : Visits P H s h past) (hs : s.stack = .lookahead d entry :: rest)
    (hd : P.dfa d = .resolver n accept otherwise) :
    Visits P H (s.openEpisode entry n accept otherwise rest) h past := by
  have hstep := step_resolver (H := H) hs hd h
  have hnext := hv.step (by rw [hstep])
  rwa [hstep] at hnext

/-- Opening an episode makes no callback. -/
theorem Moves.of_resolver {s u : State τ} {h h' : σ} {ts : List τ} {trace : List (State τ)} {cs : List (Event × Bool)}
    {d entry n accept : Nat} {otherwise : Option Target} {rest : List Frame} (hm : Moves P H s h ts (s :: trace) cs u h')
    (hs : s.stack = .lookahead d entry :: rest) (hd : P.dfa d = .resolver n accept otherwise) :
    Moves P H (s.openEpisode entry n accept otherwise rest) h ts trace cs u h' := by
  have hstep := step_resolver (H := H) hs hd h
  cases hm with
  | feed hw =>
    rw [hstep] at hw
    cases hw
  | step _ hm =>
    have hsilent : calls P H s h = [] := by rw [calls, step_resolver hs hd]
    rw [hstep] at hm
    rwa [hsilent, List.nil_append]

/-- **An episode leaves no trace.** In the state `s` a decision that began at `entry` reaches a resolver; the machine goes on,
over any number of steps and fed tokens, to the state `u`, and with the next step the episode is not open any more. Then
only actions were called, the tokens are those that were fed, and the rest is as it was, except that the decision has
fallen on the production of the resolver, or the episode was left for its else branch, or one around it was. -/
theorem restored_of_episode {s u : State τ} {h g : σ} {past ts : List τ} {trace : List (State τ)}
    {cs : List (Event × Bool)} {d entry n accept : Nat} {otherwise : Option Target} {rest : List Frame}
    (hv : Visits P H s h past) (hs : s.stack = .lookahead d entry :: rest) (hd : P.dfa d = .resolver n accept otherwise)
    (hm : Moves P H s h ts (s :: trace) cs u g)
    (hopen : ∀ w ∈ trace ++ [u], s.episodes.length < w.episodes.length) (hp : (step P H u g).verdict = .proceed)
    (hclosed : (step P H u g).state.episodes.length ≤ s.episodes.length) :
    (∀ c ∈ cs ++ calls P H u g, ∃ a ok, c = (.action a, ok)) ∧ (step P H u g).state.window.Shows (past ++ ts) ∧
      Ends s ⟨rest.length, entry, s.cursor, accept, otherwise⟩ rest u (step P H u g).state := by
  have hu := hv.moves hm
  obtain ⟨hi, hcs⟩ :=
    (inside_openEpisode hv.balanced hs n accept otherwise).moves (hv.of_resolver hs hd) (hm.of_resolver hs hd) hopen
  refine ⟨fun c hc => ?_, (hu.step hp).shows, ?_⟩
  · rcases List.mem_append.1 hc with hc | hc
    · exact hcs c hc
    · exact calls_speculating hu.balanced hi.episodes_ne_nil c hc
  · rcases hi.step hu.balanced (effect_of_verdict hp) with h | h
    · exact absurd h.episodes.length_le (Nat.not_le_of_lt (Nat.lt_succ_of_le hclosed))
    · exact h

/-- On the tokens `2 4` the resolver fails at the second one, and the decision goes on from there. -/
theorem probing_restored : ∃ s s' : State Nat, s.stack = [.lookahead 1 0, .finish] ∧ s.cursor = 1 ∧
    s'.window.Shows [2, 4] ∧ s.Restored s' 1 [.lookahead 2 0, .finish] := by
  have hp : (Parser.start probing 0 false ⟨{}, ()⟩ : Parser Unit Nat).Reachable probing Host.silent [] :=
    (Parser.Reachable.new ()).start 0 false
  have hfirst := Visits.intro hp rfl (.refl ((Parser.start probing 0 false ⟨{}, ()⟩ : Parser Unit Nat).state.receive 2) ())
  have h : (walk probing Host.silent 2 ((Parser.start probing 0 false ⟨{}, ()⟩ : Parser Unit Nat).state.receive 2) ()
      []).any fun w => (walk probing Host.silent 4 w.state () [4]).any fun w' =>
        w.state.stack = [.lookahead 1 0, .finish] ∧ w.state.cursor = 1 ∧ w'.state.stack.head? = some (.node 3) ∧
          (∀ v ∈ w'.trace.tail ++ [w'.state], w.state.episodes.length < v.episodes.length) ∧
          (step probing Host.silent w'.state ()).verdict.answer? = none ∧
          (step probing Host.silent w'.state ()).state.episodes.length ≤ w.state.episodes.length := by decide
  obtain ⟨w, hw, h⟩ := Option.any_eq_true _ _ |>.1 h
  obtain ⟨w', hw', h⟩ := Option.any_eq_true _ _ |>.1 h
  obtain ⟨hstack, hcursor, htop, hopen, hanswer, hclosed⟩ := of_decide_eq_true h
  have hm := moves_of_walk hw'
  rw [hm.trace_eq (List.cons_ne_nil _ _)] at hm
  obtain ⟨-, hshows, hends⟩ := restored_of_episode (hfirst.moves (moves_of_walk hw)) hstack rfl hm hopen
    (Verdict.answer?_eq_none hanswer) hclosed
  refine ⟨w.state, _, hstack, hcursor, hshows, ?_⟩
  rw [hcursor] at hends
  cases hends with
  | matched hs =>
    rw [hs] at htop
    cases htop
  | refused _ ho => cases ho
  | onward _ ho hrestored =>
    cases ho
    exact hrestored
  | abandoned _ ho => cases ho

end Steps

end PredictiveParser.Machine
