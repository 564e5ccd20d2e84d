import PredictiveParser.Proofs.Machine.Alignment

/-!
# Where the cursor goes

A step leaves the cursor where it is, or moves it on, or it goes back: to where the decision on top of the stack or an open
episode began, or to where the resolver of an episode was reached if the decision goes on from there. What is said of these
places alone (`Places.Holds`) is kept by every step that goes on, if it goes from one place to the next (`Places.Lasts.step`).
-/

namespace PredictiveParser.Machine

variable {σ τ : Type}

/-- No decision is on top of the stack. -/
def State.NoDecision (s : State τ) : Prop :=
  ∀ d entry rest, s.stack ≠ .lookahead d entry :: rest

variable {s : State τ}

/-- Taking a frame off the stack brings no decision to its top. -/
theorem State.Balanced.noDecision {s' : State τ} {f : Frame} {rest : List Frame} (hb : s.Balanced)
    (hs : s.stack = f :: rest) (hs' : s'.stack = rest) : s'.NoDecision := by
  rintro d entry rest' h
  rw [hs'] at h
  exact hb.not_lookahead hs d entry (h ▸ List.mem_cons_self)

theorem State.position_of_not_matched (hm : s.matched = false) : s.position = s.cursor := by
  rw [State.position, hm]
  rfl

/-! ## What is said of places -/

/-- What is said of the places in a state. -/
structure Places where
  /-- Of the cursor and the position behind a matched token, unless a decision is on top. -/
  here : (cursor position : Nat) → Prop
  /-- Of the state of a decision on top, where it began and where it stands. -/
  deciding : (d entry cursor : Nat) → Prop
  /-- Of an open episode. -/
  waiting : Episode → Prop

/-- It is true of the places in the state. A decision does not match tokens. -/
structure Places.Holds (A : Places) (s : State τ) : Prop where
  here : s.NoDecision → A.here s.cursor s.position
  deciding : ∀ {d entry rest}, s.stack = .lookahead d entry :: rest → s.matched = false ∧ A.deciding d entry s.cursor
  waiting : ∀ e ∈ s.episodes, A.waiting e

/-- The states have the same places. -/
structure State.SamePlaces (s s' : State τ) : Prop where
  cursor : s'.cursor = s.cursor
  matched : s'.matched = s.matched
  stack : s'.stack = s.stack
  episodes : s'.episodes = s.episodes

theorem State.noDecision_or (s : State τ) : s.NoDecision ∨ ∃ d entry rest, s.stack = .lookahead d entry :: rest := by
  by_cases h : ∃ d entry rest, s.stack = .lookahead d entry :: rest
  · exact .inr h
  · exact .inl fun d entry rest hs => h ⟨d, entry, rest, hs⟩

namespace Places.Holds

variable {s' : State τ} {A A' : Places}

/-- The cursor gets to another place, where no decision is on top, and no episode is opened. -/
theorem moved (hs : A.Holds s) (hd : s'.NoDecision) (he : s'.episodes ⊆ s.episodes) (h : A.here s'.cursor s'.position) :
    A.Holds s' where
  here _ := h
  deciding hstack := absurd hstack (hd _ _ _)
  waiting e hmem := hs.waiting e (he hmem)

/-- A decision begins, or the one on top gets to another state. -/
theorem decided (hs : A.Holds s) {d entry : Nat} {rest : List Frame} (hstack : s'.stack = .lookahead d entry :: rest)
    (hm : s'.matched = false) (he : s'.episodes ⊆ s.episodes) (h : A.deciding d entry s'.cursor) : A.Holds s' where
  here hd := absurd hstack (hd _ _ _)
  deciding hstack' := by
    cases hstack.symm.trans hstack'
    exact ⟨hm, h⟩
  waiting e hmem := hs.waiting e (he hmem)

/-- Moving past a matched token; a decision on top does not move on. -/
theorem advance (hs : A.Holds s) (h : ∀ {c p}, A.here c p → A.here p p) : A.Holds s.advance := by
  rw [advance_eq]
  refine ⟨fun hd => h (hs.here hd), fun hstack => ?_, hs.waiting⟩
  obtain ⟨hm, hdeciding⟩ := hs.deciding hstack
  exact ⟨rfl, State.position_of_not_matched hm ▸ hdeciding⟩

/-- Something that follows is said of the same places. -/
theorem imp (hs : A.Holds s) (hsame : s.SamePlaces s') (h : ∀ {c p}, A.here c p → A'.here c p)
    (hd : ∀ {d entry c}, A.deciding d entry c → A'.deciding d entry c) (he : ∀ {e}, A.waiting e → A'.waiting e) :
    A'.Holds s' := by
  obtain ⟨hcursor, hmatched, hstack, hepisodes⟩ := hsame
  have hposition : s'.position = s.position := by rw [State.position, State.position, hcursor, hmatched]
  refine ⟨fun hnone => ?_, fun hstack' => ?_, fun e hmem => he (hs.waiting e (hepisodes ▸ hmem))⟩
  · rw [hcursor, hposition]
    exact h (hs.here fun d entry rest hs => hnone d entry rest (hstack.trans hs))
  · rw [hcursor, hmatched]
    obtain ⟨hm, hdeciding⟩ := hs.deciding (hstack.symm.trans hstack')
    exact ⟨hm, hd hdeciding⟩

theorem congr (hs : A.Holds s) (hsame : s.SamePlaces s') : A.Holds s' :=
  hs.imp hsame id id id

end Places.Holds

/-! ## Steps -/

variable [Terminal τ] {P : Program} {H : Host σ τ} {h : σ}

/-- What is said of the places goes from one to the next, as the steps over the tokens `past` get there. Only nodes with the
property `node` are matched. -/
structure Places.Lasts (A : Places) (P : Program) (past : List τ) (node : Nat → Prop) : Prop where
  entered : ∀ {c p t}, past[p]? = some t → A.here c p → A.here p p
  matched : ∀ {n expected c p t}, node n → P.instruction n = .token expected → past[p]? = some t →
    accepts expected (Terminal.id t) = true → A.here c p → A.here p (p + 1)
  began : ∀ {n d c p t}, P.instruction n = .decision d → past[p]? = some t → A.here c p → A.deciding d p p
  followed : ∀ {d d' entry c default? t}, P.dfa d = .switch default? → past[c]? = some t →
    P.transition d (Terminal.id t) = some d' → A.deciding d entry c → A.deciding d' entry (c + 1)
  decided : ∀ {d entry c}, A.deciding d entry c → A.here entry entry
  attempted : ∀ {d n p depth entry c otherwise}, P.dfa d = .resolver n p otherwise → A.deciding d entry c →
    A.waiting ⟨depth, entry, c, p, otherwise⟩
  returned : ∀ {e}, A.waiting e → A.here e.entry e.entry
  resumed : ∀ {e d}, e.otherwise = some (.dfa d) → A.waiting e → A.deciding d e.entry e.resume

/-- **What goes from one place to the next is kept by a step that goes on.** -/
theorem Places.Lasts.step {A : Places} {s' : State τ} {h' : σ} {past : List τ} {node : Nat → Prop} (hl : A.Lasts P past node)
    (he : Effect P H s h .proceed s' h') (hb : s.Balanced) (hw : s.window.Shows past)
    (hnodes : ∀ n, .node n ∈ s.stack → node n) (hp : A.Holds s) : A.Holds s' := by
  have hsame : s.episodes ⊆ s.episodes := List.Subset.refl _
  have hbefore : ∀ {f rest}, s.stack = f :: rest → (∀ d entry, f ≠ .lookahead d entry) → A.here s.cursor s.position :=
    fun hs hf => hp.here fun d entry rest' h => hf d entry (List.cons.inj (hs.symm.trans h)).1
  obtain ⟨k, ht, -⟩ := id hb
  cases he with
  | passed hs | left hs | acted hs | armed hs | skipped hs =>
    exact hp.moved (hb.noDecision hs rfl) hsame (hbefore hs nofun)
  | @unfolded m parts rest hs =>
    refine hp.moved ?_ hsame (hbefore hs nofun)
    cases parts with
    | nil => exact hb.noDecision hs rfl
    | cons => nofun
  | entered hs _ hnext =>
    rw [advance_eq]
    exact hp.moved nofun hsame (hl.entered (hw.getElem? hnext) (hbefore hs nofun))
  | matched hs hn hnext hacc =>
    rw [consume_eq, advance_eq]
    refine hp.moved (hb.noDecision hs rfl) hsame ?_
    exact hl.matched (hnodes _ (hs ▸ List.mem_cons_self)) hn (hw.getElem? hnext) hacc (hbefore hs nofun)
  | began hs hn hnext =>
    unfold State.beginDecision
    rw [advance_eq]
    exact hp.decided rfl rfl hsame (hl.began hn (hw.getElem? hnext) (hbefore hs nofun))
  | followed hs hd hnext htransition =>
    obtain ⟨hm, h⟩ := hp.deciding hs
    rw [← State.position_of_not_matched hm] at h
    rw [advance_eq]
    exact hp.decided rfl rfl hsame (hl.followed hd (hw.getElem? hnext) htransition h)
  | resolved hs => exact hp.moved nofun hsame (hl.decided (hp.deciding hs).2)
  | defaulted hs =>
    rw [advance_eq]
    exact hp.moved nofun hsame (hl.decided (hp.deciding hs).2)
  | attempted hs hd =>
    have h := (hp.deciding hs).2
    exact ⟨fun _ => hl.decided h, nofun, List.forall_mem_cons.2 ⟨hl.attempted hd h, hp.waiting⟩⟩
  | committed hs hes =>
    have h := hp.waiting _ (hes ▸ List.mem_cons_self)
    exact hp.moved nofun (hes ▸ List.subset_cons_self _ _) (hl.returned h)
  | rolledBack hm _ hu =>
    obtain ⟨inner, e, outer, target, below, hes, hback⟩ := hm.exists_goesBack ht hu
    have h : A.waiting e := hp.waiting e (hes ▸ List.mem_append_right _ List.mem_cons_self)
    have houter : outer ⊆ s.episodes := fun i hi => hes ▸ List.mem_append_right _ (List.mem_cons_of_mem _ hi)
    rw [hback.state]
    cases target with
    | dfa d => exact hp.decided rfl rfl houter (hl.resumed hback.otherwise h)
    | node p => exact hp.moved nofun houter (hl.returned h)

end PredictiveParser.Machine
