import PredictiveParser.Proofs.Machine.Matching
import PredictiveParser.Proofs.Prediction

/-!
# Parsers without conflicts are exact

Without conflicts every cell leaves at most one alternative possible, and the analysis says of it either how it begins with
the token or how it matches nothing in front of the token. Along these two derivations the machine is led to the token
(`goes_first`, `goes_erased`), so that a token never keeps it busy forever, and whatever can be derived with that token in
front stays derivable (`goes`): matching a token takes the derivative of the language that the stack expects. The answers
therefore say at once whether the tokens so far begin a sentence (`exact_of_conflicts_nil`).
-/

namespace PredictiveParser.Machine

variable {σ τ : Type} {g : Grammar} {limits : Limits} {T : Tables} {P : Program} {H : Host σ τ} {k : Nat}

/-- Tables of a grammar without conflicts, none of whose alternatives mentions the end of the input. -/
structure Exact (g : Grammar) (limits : Limits) (T : Tables) : Prop where
  wellFormed : g.WellFormed
  unmentioned : ¬ g.Mentions endToken
  conflicts : (PredictionTable.fill g g.analyze).conflicts = []
  build : g.build limits = .ok T

/-- Items that can be left of a parse. -/
structure Pending (g : Grammar) (is : List Item) : Prop where
  chained : g.analyze.Chained g is
  proper : ∀ i ∈ is, g.HasItem i ∧ i ≠ .token endToken

namespace Pending

variable {i : Item} {is : List Item} {s : Nat} {p : Node}

theorem hasItem (h : Pending g is) : ∀ i ∈ is, g.HasItem i :=
  fun i hi => (h.proper i hi).1

theorem tail (h : Pending g (i :: is)) : Pending g is :=
  ⟨h.chained.2, (List.forall_mem_cons.1 h.proper).2⟩

theorem expand (hT : Exact g limits T) (h : Pending g (.symbol s :: is)) (hp : p ∈ (g.symbol s).alts) :
    Pending g (g.items p ++ is) := by
  refine ⟨h.chained.expand hT.wellFormed.closed hT.wellFormed hp, ?_⟩
  exact List.forall_mem_append.2 ⟨hT.wellFormed.proper_alt hT.unmentioned hp, h.tail.proper⟩

end Pending

/-- A candidate is what the tables predict, and there is no other. -/
theorem Exact.lookup (hT : Exact g limits T) {s a : Nat} {p : Node} (ha : a < g.tokenCount)
    (hp : p ∈ (g.symbol s).alts) (hsel : (g.selection g.analyze s p).mem a = true) :
    T.program.lookup s a = some (g.number p) ∧
      ∀ q ∈ (g.symbol s).alts, (g.selection g.analyze s q).mem a = true → q = p := by
  have hpred := Tables.predicts_of_build hT.build (Grammar.symbol_lt_of_mem_alts hp) ha
  have hcand : ∀ q, q ∈ ((PredictionTable.fill g g.analyze).cell s a).candidates ↔
      q ∈ (g.symbol s).alts ∧ (g.selection g.analyze s q).mem a = true := fun q => PredictionTable.mem_candidates ha
  rcases Cell.production_or_conflict ((hcand p).2 ⟨hp, hsel⟩) with hcell | ⟨c, hcell⟩
  · rw [hcell] at hpred
    refine ⟨hpred, fun q hq hsel' => ?_⟩
    have hqc := (hcand q).2 ⟨hq, hsel'⟩
    rw [hcell] at hqc
    exact List.mem_singleton.1 hqc
  · exact absurd (PredictionTable.mem_conflicts hcell) (by rw [hT.conflicts]; exact List.not_mem_nil)

/-- What is not predicted is no alternative of anything that the token can begin. -/
theorem Exact.candidate_of_lookup (hT : Exact g limits T) {s a n : Nat} (h : T.program.lookup s a = some n) :
    ∃ p ∈ (g.symbol s).alts, (g.selection g.analyze s p).mem a = true := by
  obtain ⟨hs, ha⟩ := Tables.lt_of_lookup hT.build h
  have hpred := Tables.predicts_of_build hT.build hs ha
  change T.entry s a = some n at h
  cases hcell : (PredictionTable.fill g g.analyze).cell s a with
  | empty =>
    rw [hcell, Tables.Predicts, h] at hpred
    cases hpred
  | conflict c => exact absurd (PredictionTable.mem_conflicts hcell) (by rw [hT.conflicts]; exact List.not_mem_nil)
  | production p =>
    have hp : p ∈ ((PredictionTable.fill g g.analyze).cell s a).candidates := by
      rw [hcell]
      exact List.mem_singleton_self p
    obtain ⟨hp, hsel⟩ := (PredictionTable.mem_candidates ha).1 hp
    exact ⟨p, hp, hsel⟩

/-- The alternative of a derivation competes for its first token, or for the end of the input if it derives nothing. -/
theorem Pending.selection (hT : Exact g limits T) {s : Nat} {p : Node} {is : List Item} {w : List Nat}
    (h : Pending g (.symbol s :: is)) (hp : p ∈ (g.symbol s).alts) (hd : g.Derives (g.items p ++ is) w)
    (hlt : w.headD endToken < g.tokenCount) (hany : w.headD endToken ≠ anyToken) :
    (g.selection g.analyze s p).mem (w.headD endToken) = true := by
  obtain ⟨u, v, rfl, hu, hv⟩ := Grammar.exists_derives_append hd
  exact h.chained.competes hT.wellFormed.closed hT.wellFormed h.tail.hasItem hp hu hv rfl hlt hany

/-- Expanding a symbol with the only candidate for a token loses nothing that the token begins. -/
theorem Pending.derives_iff (hT : Exact g limits T) {s a : Nat} {p : Node} {is : List Item}
    (h : Pending g (.symbol s :: is)) (ha : a < g.tokenCount) (hany : a ≠ anyToken) (hp : p ∈ (g.symbol s).alts)
    (hsel : (g.selection g.analyze s p).mem a = true) {w : List Nat} (hw : w.headD endToken = a) :
    g.Derives (.symbol s :: is) w ↔ g.Derives (g.items p ++ is) w := by
  constructor
  · intro hd
    obtain ⟨q, hq, hd⟩ := Grammar.derives_symbol_iff.1 hd
    have hsel' := h.selection hT hq hd (by rw [hw]; exact ha) (by rw [hw]; exact hany)
    rw [hw] at hsel'
    obtain rfl := (hT.lookup ha hp hsel).2 q hq hsel'
    exact hd
  · exact .symbol hp

/-! ## What a token comes to -/

variable [Terminal τ]

/-- What becomes of the items when the machine goes on with the token `a` at the position `k`. -/
inductive Outcome (g : Grammar) (P : Program) (H : Host σ τ) (k a : Nat) : List Item → State τ → σ → Prop
  /-- The token is matched, and what it can be followed by is left. -/
  | matched {s : State τ} {h : σ} {stack : List Frame} {is js : List Item} : Stands s (k + 1) stack → Expects g stack js →
      Pending g js → a ≠ endToken → (∀ v, g.Derives is (a :: v) ↔ g.Derives js v) → Outcome g P H k a is s h
  /-- The token is an error, because nothing can begin with it. -/
  | refused {s : State τ} {h : σ} {is : List Item} {error : ParseError} : (step P H s h).verdict = .reject error →
      (∀ w, g.Derives is w → w.headD endToken ≠ a) → Outcome g P H k a is s h
  /-- The token is the end of the input, and nothing has to be matched before it. -/
  | ended {s : State τ} {h : σ} {is : List Item} : (step P H s h).verdict = .accept → a = endToken → g.Derives is [] →
      Outcome g P H k a is s h
  | step {s : State τ} {h : σ} {is : List Item} : (step P H s h).verdict = .proceed →
      Outcome g P H k a is (step P H s h).state (step P H s h).host → Outcome g P H k a is s h

theorem Outcome.congr {a : Nat} {is js : List Item} {s : State τ} {h : σ} (ho : Outcome g P H k a is s h)
    (hiff : ∀ w, w.headD endToken = a → (g.Derives js w ↔ g.Derives is w)) : Outcome g P H k a js s h := by
  induction ho with
  | matched hs he hp hne hd => exact .matched hs he hp hne fun v => (hiff (a :: v) rfl).trans (hd v)
  | refused hv hd => exact .refused hv fun w hw e => hd w ((hiff w e).1 hw) e
  | ended hv ha hd => exact .ended hv ha ((hiff [] ha.symm).2 hd)
  | step hv _ ih => exact .step hv (ih hiff)

/-- With the stack the machine comes to one of the outcomes on the token `t`. -/
def Goes (g : Grammar) (P : Program) (H : Host σ τ) (k : Nat) (t : τ) (is : List Item) (stack : List Frame) : Prop :=
  ∀ s h, Stands s k stack → s.window.get? k = some t → Outcome g P H k (Terminal.id t) is s h

theorem Goes.congr {t : τ} {is js : List Item} {stack : List Frame} (hgo : Goes g P H k t is stack)
    (hiff : ∀ w, w.headD endToken = Terminal.id t → (g.Derives js w ↔ g.Derives is w)) : Goes g P H k t js stack :=
  fun s h hs hx => (hgo s h hs hx).congr hiff

/-- If the machine makes a step from one stack to another, it comes to the outcome of the other. -/
theorem Goes.of_step {t : τ} {is : List Item} {stack stack' : List Frame} (hgo : Goes g P H k t is stack')
    (hstep : ∀ s h, Stands s k stack → s.window.get? k = some t → (step P H s h).Stands k stack') :
    Goes g P H k t is stack := by
  intro s h hs hx
  obtain ⟨hv, hs'⟩ := hstep s h hs hx
  exact .step hv (hgo _ _ hs' (by rw [(step_frame s h).1]; exact hx))

section Goes

variable (hT : Exact g limits T) (hH : H.Obliging) {t : τ} {is : List Item} {rest : List Frame}

include hT

include hH in
/-- Going on with a stack means going on with its first item on top. -/
theorem goes_peel {stack : List Frame} {js : List Item} (h : Expects g stack is)
    (hfinish : is = [] → Goes g T.program H k t js [.finish])
    (hitem : ∀ i ks rest, is = i :: ks → g.HasItem i → Expects g rest ks →
      Goes g T.program H k t js (.node (g.itemNumber i) :: rest)) : Goes g T.program H k t js stack :=
  h.peel (fun _ _ hgo => hgo.of_step fun _ h hs _ => hs.entered hH h)
    (fun _ hgo => hgo.of_step fun _ h hs _ => hs.epsilon hT.build h)
    (fun _ _ hq hgo => hgo.of_step fun _ h hs _ => hs.sequence hT.build hq h) hT.wellFormed hfinish hitem

theorem goes_token {e : Nat} (hrest : Expects g rest is) (hpending : Pending g (.token e :: is)) :
    Goes g T.program H k t (.token e :: is) (.node (g.itemNumber (.token e)) :: rest) := by
  intro s h hs hx
  obtain ⟨he, hne⟩ := hpending.proper _ List.mem_cons_self
  cases hacc : accepts e (Terminal.id t) with
  | true =>
    obtain ⟨hv, hs'⟩ := hs.token hT.build he hx hacc h
    have hid : Terminal.id t ≠ endToken := by
      rintro hid
      rw [hid, accepts] at hacc
      split at hacc
      · cases hacc
      · exact hne (congrArg _ (beq_iff_eq.1 hacc).symm)
    refine .step hv (.matched hs' hrest hpending.tail hid fun v => ?_)
    rw [Grammar.derives_token_iff]
    constructor
    · rintro ⟨x, v', e, -, hd⟩
      cases e
      exact hd
    · exact fun hd => ⟨_, _, rfl, hacc, hd⟩
  | false =>
    obtain ⟨error, hv⟩ := hs.token_refused hT.build he hx hacc h
    refine .refused hv fun w hd hw => ?_
    obtain ⟨x, v, rfl, hacc', -⟩ := Grammar.derives_token_iff.1 hd
    obtain rfl : x = Terminal.id t := hw
    rw [hacc] at hacc'
    cases hacc'

include hH in
theorem goes_silent {i : Item} (hi : g.HasItem i) (hsilent : i.isTransparent = true)
    (hgo : Goes g T.program H k t is rest) : Goes g T.program H k t (i :: is) (.node (g.itemNumber i) :: rest) :=
  (hgo.of_step fun _ h hs _ => hs.silent hT.build hH hi hsilent h).congr fun _ _ => Grammar.derives_silent_iff hsilent

variable (ht : Terminal.id t < g.tokenCount) (hany : Terminal.id t ≠ anyToken)

include hH ht hany in
theorem goes_symbol {s : Nat} {p : Node} (hpending : Pending g (.symbol s :: is)) (hp : p ∈ (g.symbol s).alts)
    (hsel : (g.selection g.analyze s p).mem (Terminal.id t) = true)
    (hgo : Goes g T.program H k t (g.items p ++ is) (.node (g.number p) :: .entered s false :: rest)) :
    Goes g T.program H k t (.symbol s :: is) (.node (g.itemNumber (.symbol s)) :: rest) := by
  refine (hgo.of_step fun s' h hs hx => ?_).congr fun w hw => hpending.derives_iff hT ht hany hp hsel hw
  exact hs.symbol hT.build hH (Grammar.symbol_lt_of_mem_alts hp) hx (hT.lookup ht hp hsel).1 h

include hH ht hany in
/-- Along a derivation that begins with the token the machine is led to it. -/
theorem goes_first {js : List Item} {e : Nat} (hl : g.Leads is [] (.token e :: js))
    (hacc : accepts e (Terminal.id t) = true) (hpending : Pending g is) {stack : List Frame} (h : Expects g stack is) :
    Goes g T.program H k t is stack := by
  generalize hu : ([] : List Nat) = u at hl
  generalize hks : Item.token e :: js = ks at hl
  induction hl generalizing stack with
  | refl is =>
    subst hks
    refine goes_peel hT hH h (fun e => nomatch e) fun i ks rest e hi hrest => ?_
    cases e
    exact goes_token hT hrest hpending
  | @silent i is _ _ hi _ ih =>
    refine goes_peel hT hH h (fun e => nomatch e) fun i' ks rest e hi' hrest => ?_
    cases e
    exact goes_silent hT hH hi' hi (ih hpending.tail hrest hu hks)
  | token => cases hu
  | @symbol s p is _ _ hp hl ih =>
    subst hu hks
    refine goes_peel hT hH h (fun e => nomatch e) fun i ks rest e hi hrest => ?_
    cases e
    have hsel := hpending.chained.competes_of_leads hT.wellFormed.closed hT.wellFormed hpending.tail.hasItem hp hl hacc
      ht hany
    exact goes_symbol hT hH ht hany hpending hp hsel
      (ih (hpending.expand hT hp) (.node (hT.wellFormed.hasNode_alt hp) (.entered hrest)) rfl rfl)

include hH ht hany in
/-- Items that derive nothing and can be followed by the token are left behind. -/
theorem goes_erased {es : List Item} (hl : g.Leads es [] [])
    (hfollow : ∀ i ∈ es, g.analyze.MayFollow g (.item i) (Terminal.id t)) (hpending : Pending g (es ++ is))
    (hgo : ∀ stack, Expects g stack is → Goes g T.program H k t is stack) {stack : List Frame}
    (h : Expects g stack (es ++ is)) : Goes g T.program H k t (es ++ is) stack := by
  generalize hu : ([] : List Nat) = u at hl
  generalize hjs : ([] : List Item) = js at hl
  induction hl generalizing stack with
  | refl es =>
    subst hjs
    exact hgo stack h
  | @silent i es _ _ hi _ ih =>
    rw [List.forall_mem_cons] at hfollow
    refine goes_peel hT hH h (fun e => nomatch e) fun i' ks rest e hi' hrest => ?_
    cases e
    exact goes_silent hT hH hi' hi (ih hfollow.2 hpending.tail hrest hu hjs)
  | token => cases hu
  | @symbol s p es _ _ hp hl ih =>
    subst hu hjs
    rw [List.forall_mem_cons] at hfollow
    rw [List.cons_append] at hpending h ⊢
    refine goes_peel hT hH h (fun e => nomatch e) fun i ks rest e hi hrest => ?_
    cases e
    have hpd := (Grammar.derives_append_nil.1 hl).1
    have hpi : ∀ i ∈ g.items p, g.HasItem i := fun i => hT.wellFormed.hasItem_alt hp
    have hnull : (g.analyze.of g p).nullable = true :=
      hT.wellFormed.closed.nullable p (hT.wellFormed.hasNode_alt hp)
        (hT.wellFormed.closed.nullable_firstOf hT.wellFormed hpi hpd)
    refine goes_symbol hT hH ht hany hpending hp ((Facts.mem_selection_iff ht hany).2 (.inr ⟨hnull, hfollow.1⟩)) ?_
    rw [← List.append_assoc]
    refine ih ?_ ?_ ?_ rfl rfl
    · intro i hi
      rcases List.mem_append.1 hi with hi | hi
      · exact hfollow.1.items hT.wellFormed.closed hT.wellFormed hp hpd i hi
      · exact hfollow.2 i hi
    · rw [List.append_assoc]
      exact hpending.expand hT hp
    · rw [List.append_assoc]
      exact .node (hT.wellFormed.hasNode_alt hp) (.entered hrest)

include hH ht hany in
/-- **On every token the machine comes to an outcome.** -/
theorem goes (hpending : Pending g is) {stack : List Frame} (h : Expects g stack is) :
    Goes g T.program H k t is stack := by
  induction is generalizing stack with
  | nil =>
    refine goes_peel hT hH h (fun _ s h hs hx => ?_) (fun _ _ _ e => nomatch e)
    by_cases hid : Terminal.id t = endToken
    · exact .ended ((hs.finish hx h).1 hid) hid (.refl [])
    · obtain ⟨error, hv⟩ := (hs.finish hx h).2 hid
      refine .refused hv fun w hd hw => ?_
      rw [Grammar.derives_nil_iff.1 hd] at hw
      exact hid hw.symm
  | cons i is ih =>
    refine goes_peel hT hH h (fun e => nomatch e) fun i' ks rest e hi hrest => ?_
    cases e
    have hrec : ∀ stack, Expects g stack is → Goes g T.program H k t is stack := fun _ h => ih hpending.tail h
    cases i with
    | token e => exact goes_token hT hrest hpending
    | action a => exact goes_silent hT hH hi rfl (hrec _ hrest)
    | argument a => exact goes_silent hT hH hi rfl (hrec _ hrest)
    | beacon b => exact goes_silent hT hH hi rfl (hrec _ hrest)
    | symbol s =>
      cases hl : T.program.lookup s (Terminal.id t) with
      | none =>
        intro s' h hs hx
        obtain ⟨error, hv⟩ := hs.symbol_refused hT.build hi hx hl h
        refine .refused hv fun w hd hw => ?_
        obtain ⟨p, hp, hd⟩ := Grammar.derives_symbol_iff.1 hd
        have hsel := hpending.selection hT hp hd (by rw [hw]; exact ht) (by rw [hw]; exact hany)
        rw [hw] at hsel
        rw [(hT.lookup ht hp hsel).1] at hl
        cases hl
      | some n =>
        obtain ⟨p, hp, hsel⟩ := hT.candidate_of_lookup hl
        have hn := hT.wellFormed.hasNode_alt hp
        refine goes_symbol hT hH ht hany hpending hp hsel ?_
        rcases (Facts.mem_selection_iff ht hany).1 hsel with ⟨e, he, hacc⟩ | ⟨hnull, hfollow⟩
        · obtain ⟨js, hl⟩ := hT.wellFormed.sound.first p hn e he
          exact goes_first hT hH ht hany (hl.append is) hacc (hpending.expand hT hp) (.node hn (.entered hrest))
        · have hd := hT.wellFormed.sound.nullable p hn hnull
          have hitems := hfollow.items hT.wellFormed.closed hT.wellFormed hp hd
          exact goes_erased hT hH ht hany hd hitems (hpending.expand hT hp) hrec (.node hn (.entered hrest))

end Goes

/-! ## Answers -/

/-- The state has matched `k` tokens, and the items are left. -/
def Rests (g : Grammar) (k : Nat) (is : List Item) (s : State τ) : Prop :=
  ∃ stack, Stands s k stack ∧ Expects g stack is ∧ Pending g is

/-- Without a further token the machine comes to wait, and what is left is only written differently. -/
theorem exists_await (hT : Exact g limits T) (hH : H.Obliging) {is : List Item} {stack : List Frame}
    (hpending : Pending g is) (h : Expects g stack is) {s : State τ} {host : σ} (hs : Stands s k stack)
    (hx : s.window.get? k = none) : ∃ fuel stop js, run T.program H fuel s host = some stop ∧ stop.answer = .ok .more ∧
      Rests g k js stop.state ∧ ∀ v, g.Derives is v ↔ g.Derives js v := by
  let G (stack : List Frame) : Prop := ∀ (s : State τ) (host : σ), Stands s k stack → s.window.get? k = none →
    ∃ fuel stop js, run T.program H fuel s host = some stop ∧ stop.answer = .ok .more ∧ Rests g k js stop.state ∧
      ∀ v, g.Derives is v ↔ g.Derives js v
  have hstep : ∀ {stack stack'}, G stack' → (∀ s host, Stands s k stack → (step T.program H s host).Stands k stack') →
      G stack := by
    intro stack stack' hG hstep s host hs hx
    obtain ⟨hv, hs'⟩ := hstep s host hs
    obtain ⟨fuel, stop, js, hr, hstop⟩ := hG _ (step T.program H s host).host hs' (by rw [(step_frame s host).1]; exact hx)
    exact ⟨fuel + 1, stop, js, by rw [run, hv]; exact hr, hstop⟩
  have hwait : ∀ {stack js}, Expects g stack js → Pending g js → (∀ v, g.Derives is v ↔ g.Derives js v) →
      (∀ s host, Stands s k stack → s.window.get? k = none → (step T.program H s host).verdict = .await) → G stack := by
    intro stack js he hp hd hawait s host hs hx
    have hv := hawait s host hs hx
    refine ⟨1, _, js, by rw [run, hv], rfl, ⟨stack, ?_, he, hp⟩, hd⟩
    rw [(stops_step s host).1 hv]
    exact hs.advance
  suffices ∀ js, Pending g js → (∀ v, g.Derives is v ↔ g.Derives js v) → ∀ stack, Expects g stack js → G stack from
    this is hpending (fun _ => Iff.rfl) stack h s host hs hx
  intro js
  induction js with
  | nil =>
    intro hp hd stack h
    refine h.peel (fun _ _ hG => hstep hG fun _ host hs => hs.entered hH host)
      (fun _ hG => hstep hG fun _ host hs => hs.epsilon hT.build host)
      (fun _ _ hq hG => hstep hG fun _ host hs => hs.sequence hT.build hq host) hT.wellFormed (fun _ => ?_)
      fun _ _ _ e => absurd e (List.cons_ne_nil _ _).symm
    exact hwait .base hp hd fun _ host hs hx => hs.await trivial hx host
  | cons i js ih =>
    intro hp hd stack h
    refine h.peel (fun _ _ hG => hstep hG fun _ host hs => hs.entered hH host)
      (fun _ hG => hstep hG fun _ host hs => hs.epsilon hT.build host)
      (fun _ _ hq hG => hstep hG fun _ host hs => hs.sequence hT.build hq host) hT.wellFormed
      (fun e => absurd e (List.cons_ne_nil _ _))
      fun i' ks rest e hi hrest => ?_
    cases e
    have hsilent : i.isTransparent = true → G (.node (g.itemNumber i) :: rest) := fun hi' =>
      hstep (ih hp.tail (fun v => (hd v).trans (Grammar.derives_silent_iff hi')) rest hrest)
        fun _ host hs => hs.silent hT.build hH hi hi' host
    cases i with
    | token e => exact hwait (.node (n := Item.token e) hi hrest) hp hd fun _ host hs hx => hs.await_token hT.build hi hx host
    | symbol a =>
      exact hwait (.node (n := Item.symbol a) hi hrest) hp hd fun _ host hs hx => hs.await_symbol hT.build hi hx host
    | action a => exact hsilent rfl
    | argument a => exact hsilent rfl
    | beacon b => exact hsilent rfl

/-- Where a run on the token `a` stops. -/
inductive Answered (g : Grammar) (k a : Nat) (is : List Item) (stop : Stop σ τ) : Prop
  | more {js : List Item} : stop.answer = .ok .more → a ≠ endToken → Rests g (k + 1) js stop.state →
      (∀ v, g.Derives is (a :: v) ↔ g.Derives js v) → Answered g k a is stop
  | error {error : ParseError} : stop.answer = .error error → (∀ w, g.Derives is w → w.headD endToken ≠ a) →
      Answered g k a is stop
  | done : stop.answer = .ok .done → a = endToken → g.Derives is [] → Answered g k a is stop

/-- Whatever the machine comes to on a token, it stops there. -/
theorem Outcome.exists_run (hT : Exact g limits T) (hH : H.Obliging) {a : Nat} {is : List Item} {s : State τ} {h : σ}
    (ho : Outcome g T.program H k a is s h) (hx : s.window.get? (k + 1) = none) :
    ∃ fuel stop, run T.program H fuel s h = some stop ∧ Answered g k a is stop := by
  induction ho with
  | matched hs he hp hne hd =>
    obtain ⟨fuel, stop, ks, hr, hmore, hrests, hd'⟩ := exists_await hT hH hp he hs hx
    exact ⟨fuel, stop, hr, .more hmore hne hrests fun v => (hd v).trans (hd' v)⟩
  | refused hv hd => exact ⟨1, _, by rw [run, hv], .error rfl hd⟩
  | ended hv ha hd => exact ⟨1, _, by rw [run, hv], .done rfl ha hd⟩
  | @step s h is hv _ ih =>
    obtain ⟨fuel, stop, hr, hstop⟩ := ih (by rw [(step_frame s h).1]; exact hx)
    exact ⟨fuel + 1, stop, by rw [run, hv]; exact hr, hstop⟩

/-- The parser waits for the token after the tokens `past`, and the items are left. -/
structure Waits (g : Grammar) (p : Parser σ τ) (past : List τ) (is : List Item) : Prop where
  status : p.state.status = .running
  shows : p.state.window.Shows past
  rests : Rests g past.length is p.state

/-- **The answer to a token.** Either more tokens are needed, and what is left is what can follow the token; or nothing
that is left begins with the token; or it is the end of the input, and nothing has to be left. -/
theorem Waits.exists_feed (hT : Exact g limits T) (hH : H.Obliging) {p : Parser σ τ} {past : List τ} {is : List Item}
    (hp : Waits g p past is) {t : τ} (ht : Terminal.id t < g.tokenCount) (hany : Terminal.id t ≠ anyToken) :
    ∃ fuel a q, p.feed T.program H fuel t = some (a, q) ∧
      (a = .ok .more ∧ Terminal.id t ≠ endToken ∧ (∃ js, Waits g q (past ++ [t]) js ∧
          ∀ v, g.Derives is (Terminal.id t :: v) ↔ g.Derives js v) ∨
        (∃ error, a = .error error) ∧ q.state.status = .failed ∧
          (∀ w, g.Derives is w → w.headD endToken ≠ Terminal.id t) ∨
        a = .ok .done ∧ q.state.status = .done ∧ Terminal.id t = endToken ∧ g.Derives is []) := by
  obtain ⟨stack, hs, he, hpending⟩ := hp.rests
  have hshows : (p.state.receive t).window.Shows (past ++ [t]) := hp.shows.push t
  have hs' : Stands (p.state.receive t) past.length stack := ⟨hs.episodes, hs.position, hs.stack⟩
  have hx : (p.state.receive t).window.get? past.length = some t := by
    show (p.state.window.push t).get? past.length = some t
    rw [TokenWindow.get?_push, if_pos hp.shows.stop.symm]
  have hx' : (p.state.receive t).window.get? (past.length + 1) = none := by
    cases hget : (p.state.receive t).window.get? (past.length + 1) with
    | none => rfl
    | some x =>
      have := (List.getElem?_eq_some_iff.1 (hshows.getElem? hget)).1
      rw [List.length_append, List.length_singleton] at this
      omega
  obtain ⟨fuel, stop, hr, hstop⟩ := (goes hT hH ht hany hpending he _ p.host hs' hx).exists_run hT hH hx'
  refine ⟨fuel, stop.answer, ⟨stop.state.settle stop.answer, stop.host⟩, ?_, ?_⟩
  · exact (Parser.feed_eq_some_iff hp.status).2 ⟨stop, hr, rfl, rfl⟩
  · have hstatus : stop.state.status = .running := (run_frame hr).2.trans hp.status
    cases hstop with
    | @more js ha hne hrests hd =>
      refine .inl ⟨ha, hne, js, ⟨?_, ?_, ?_⟩, hd⟩
      · rw [ha]
        exact hstatus
      · show (stop.state.window.release _).Shows _
        rw [(run_frame hr).1]
        exact hshows.release _
      · obtain ⟨stack', hs'', he', hp'⟩ := hrests
        rw [List.length_append, List.length_singleton]
        exact ⟨stack', ⟨hs''.episodes, hs''.position, hs''.stack⟩, he', hp'⟩
    | error ha hd =>
      refine .inr (.inl ⟨⟨_, ha⟩, ?_, hd⟩)
      rw [ha]
      rfl
    | done ha hid hd =>
      refine .inr (.inr ⟨ha, ?_, hid, hd⟩)
      rw [ha]
      rfl

/-- The answers to concrete tokens, one after another. -/
theorem Waits.exists_feeds (hT : Exact g limits T) (hH : H.Obliging) {p : Parser σ τ} {past ts : List τ}
    {is : List Item} (hp : Waits g p past is) (hts : ∀ t ∈ ts, g.IsConcrete (Terminal.id t)) :
    ∃ as q, p.Feeds T.program H ts as q ∧
      ((∀ a ∈ as, a = .ok .more) ∧ (∃ js, Waits g q (past ++ ts) js ∧
          ∀ v, g.Derives is (ts.map Terminal.id ++ v) ↔ g.Derives js v) ∨
        (∃ a ∈ as, a ≠ .ok .more) ∧ q.state.status = .failed ∧ ∀ v, ¬ g.Derives is (ts.map Terminal.id ++ v)) := by
  induction ts generalizing p past is with
  | nil => exact ⟨[], p, .nil p, .inl ⟨nofun, is, by rw [List.append_nil]; exact hp, fun v => Iff.rfl⟩⟩
  | cons t ts ih =>
    rw [List.forall_mem_cons] at hts
    obtain ⟨hconcrete, ht⟩ := hts.1
    have hany : Terminal.id t ≠ anyToken := by
      simp only [firstConcrete, anyToken] at *
      omega
    obtain ⟨fuel, a, q, hf, h⟩ := hp.exists_feed hT hH ht hany
    rcases h with ⟨rfl, -, js, hq, hd⟩ | ⟨⟨error, rfl⟩, hstatus, hd⟩ | ⟨-, -, hend, -⟩
    · obtain ⟨as, r, hfs, hr⟩ := ih hq hts.2
      refine ⟨_, r, .cons hf hfs, ?_⟩
      rcases hr with ⟨hmore, ks, hks, hd'⟩ | ⟨⟨a, ha, hne⟩, hstatus, hd'⟩
      · refine .inl ⟨List.forall_mem_cons.2 ⟨rfl, hmore⟩, ks, ?_, fun v => (hd _).trans (hd' v)⟩
        rw [List.append_assoc] at hks
        exact hks
      · exact .inr ⟨⟨a, List.mem_cons_of_mem _ ha, hne⟩, hstatus, fun v hv => hd' v ((hd _).1 hv)⟩
    · refine ⟨_, q, .cons hf (Parser.feeds_finished (.inr hstatus) ts), ?_⟩
      exact .inr ⟨⟨_, List.mem_cons_self, nofun⟩, hstatus, fun v hv => hd _ hv rfl⟩
    · simp only [firstConcrete, endToken] at *
      omega

/-- Items that are left derive some concrete terminals, if all symbols and every terminal of the grammar do. -/
theorem Pending.exists_derives {is : List Item} (hpending : Pending g is)
    (hsymbols : ∀ s < g.symbolCount, ∃ z, (∀ x ∈ z, g.IsConcrete x) ∧ g.Derives [.symbol s] z) {x : Nat}
    (hx : g.IsConcrete x) : ∃ z, (∀ x ∈ z, g.IsConcrete x) ∧ g.Derives is z := by
  induction is with
  | nil => exact ⟨[], nofun, .refl []⟩
  | cons i is ih =>
    obtain ⟨z, hz, hd⟩ := ih hpending.tail
    obtain ⟨hi, hne⟩ := hpending.proper _ List.mem_cons_self
    cases i with
    | token e =>
      obtain ⟨y, hy, hacc⟩ : ∃ y, g.IsConcrete y ∧ accepts e y = true := by
        by_cases he : e = anyToken
        · refine ⟨x, hx, ?_⟩
          have := hx.1
          rw [accepts, if_pos he, bne_iff_ne]
          simp only [firstConcrete, endToken] at *
          omega
        · refine ⟨e, ⟨?_, hi⟩, accepts_self e⟩
          have : e ≠ endToken := fun h => hne (congrArg _ h)
          simp only [firstConcrete, endToken, anyToken] at *
          omega
      exact ⟨y :: z, List.forall_mem_cons.2 ⟨hy, hz⟩, .token hacc hd⟩
    | symbol s =>
      obtain ⟨z', hz', hd'⟩ := hsymbols s hi
      refine ⟨z' ++ z, fun y hy => ?_, Grammar.Leads.derives_append hd' hd⟩
      rcases List.mem_append.1 hy with hy | hy
      · exact hz' y hy
      · exact hz y hy
    | action a => exact ⟨z, hz, .silent rfl hd⟩
    | argument a => exact ⟨z, hz, .silent rfl hd⟩
    | beacon b => exact ⟨z, hz, .silent rfl hd⟩

/-- **Parsers without conflicts are exact.** If all symbols of a grammar derive some concrete terminals, no alternative
mentions the end of the input, no cell of the prediction table is a conflict, and tables are built, then they have no
automata, and every parse of the start symbol with a host that never objects ends each call: concrete tokens are all
answered with the wish for more if and only if they begin a sentence, and the end of the input after them is answered with
success if and only if they are one. -/
theorem exact_of_conflicts_nil (hg : g.WellFormed) (hend : ¬ g.Mentions endToken)
    (hsymbols : ∀ s < g.symbolCount, ∃ z, (∀ x ∈ z, g.IsConcrete x) ∧ g.Derives [.symbol s] z)
    (hconflicts : (PredictionTable.fill g g.analyze).conflicts = []) (hb : g.build limits = .ok T) (hH : H.Obliging) :
    T.dfas = #[] ∧ (∀ d, Instruction.decision d ∉ T.nodes) ∧
      ∀ (p : Parser σ τ) (tree : Bool) (ts : List τ), (∀ t ∈ ts, g.IsConcrete (Terminal.id t)) →
        ∃ as q, (p.start T.program g.start tree).Feeds T.program H ts as q ∧
          ((∀ a ∈ as, a = .ok .more) ↔
            ∃ z, (∀ x ∈ z, g.IsConcrete x) ∧ g.Derives [.symbol g.start] (ts.map Terminal.id ++ z)) ∧
          ∀ e, Terminal.id e = endToken → ∃ a r, q.Feeds T.program H [e] [a] r ∧
            (a = .ok .done ↔ g.Derives [.symbol g.start] (ts.map Terminal.id)) := by
  obtain ⟨hdfas, hnodes⟩ := Tables.dfas_of_build hb hconflicts
  refine ⟨hdfas, hnodes, fun p tree ts hts => ?_⟩
  have hT : Exact g limits T := ⟨hg, hend, hconflicts, hb⟩
  have hstart : Waits g (p.start T.program g.start tree) [] [.symbol g.start] := by
    refine ⟨rfl, TokenWindow.shows_empty, [.node (g.number (Item.symbol g.start)), .finish], ⟨rfl, rfl, ?_⟩, ?_, ?_⟩
    · show [Frame.node (T.program.symbolNode g.start), .finish] = _
      rw [Tables.symbolNode_of_build hb hg.start]
    · exact .node (n := Item.symbol g.start) hg.start .base
    · refine ⟨hg.closed.chained_start, fun i hi => ?_⟩
      rw [List.mem_singleton.1 hi]
      exact ⟨hg.start, nofun⟩
  obtain ⟨as, q, hfeeds, h⟩ := hstart.exists_feeds hT hH hts
  refine ⟨as, q, hfeeds, ?_, fun e he => ?_⟩
  · rcases h with ⟨hmore, js, hq, hd⟩ | ⟨⟨a, ha, hne⟩, -, hd⟩
    · refine ⟨fun _ => ?_, fun _ => hmore⟩
      cases ts with
      | nil => exact hsymbols g.start hg.start
      | cons t ts =>
        obtain ⟨-, -, -, hpending⟩ := hq.rests
        obtain ⟨z, hz, hdz⟩ := hpending.exists_derives hsymbols (hts t List.mem_cons_self)
        exact ⟨z, hz, (hd z).2 hdz⟩
    · exact ⟨fun hmore => absurd (hmore a ha) hne, fun ⟨z, _, hz⟩ => absurd hz (hd z)⟩
  · rcases h with ⟨-, js, hq, hd⟩ | ⟨-, hstatus, hd⟩
    · have hlt : Terminal.id e < g.tokenCount := by
        have := hg.reserved
        rw [he]
        simp only [firstConcrete, endToken] at *
        omega
      have hiff : g.Derives [.symbol g.start] (ts.map Terminal.id) ↔ g.Derives js [] := by
        have := hd []
        rwa [List.append_nil] at this
      obtain ⟨fuel, a, r, hf, h⟩ := hq.exists_feed hT hH hlt (by rw [he]; decide)
      refine ⟨a, r, .cons hf (.nil r), ?_⟩
      rw [hiff]
      rcases h with ⟨-, hne, -⟩ | ⟨⟨error, rfl⟩, -, hd'⟩ | ⟨rfl, -, -, hd'⟩
      · exact absurd he hne
      · exact ⟨nofun, fun h => absurd he.symm (hd' [] h)⟩
      · exact ⟨fun _ => hd', fun _ => rfl⟩
    · refine ⟨_, q, Parser.feeds_finished (.inr hstatus) [e], nofun, fun h => ?_⟩
      have := hd []
      rw [List.append_nil] at this
      exact absurd h this

/-- As many `b` as `a` before them: `S → a S b | ε`. -/
def nested : Grammar where
  tokens := .letters
  symbols := #[{ name := "S", alts := [.sequence 0, .epsilon] }]
  sequences := #[[.token 2, .symbol 0, .token 3]]
  actions := {}
  arguments := {}
  beacons := {}
  start := 0

/-- Two `a` begin a sentence, and so the parser asks for more. -/
theorem nested_exact : ∃ T as q, nested.build = .ok T ∧
    (Parser.start T.program 0 true ⟨{}, ()⟩).Feeds T.program Host.silent [2, 2] as q ∧ ∀ a ∈ as, a = .ok .more := by
  obtain ⟨T, hT⟩ : ∃ T, nested.build = .ok T := Grammar.exists_build (by decide +kernel)
  have hempty : nested.Derives [.symbol 0] [] := .symbol (p := .epsilon) (by decide) (.refl [])
  have hsymbols : ∀ s < nested.symbolCount, ∃ z, (∀ x ∈ z, nested.IsConcrete x) ∧ nested.Derives [.symbol s] z := by
    intro s hs
    obtain rfl : s = 0 := Nat.lt_one_iff.1 hs
    exact ⟨[], nofun, hempty⟩
  obtain ⟨-, -, h⟩ := exact_of_conflicts_nil (H := (Host.silent : Host Unit Nat)) (by decide) (by decide) hsymbols
    (by decide +kernel) hT Host.obliging_silent
  obtain ⟨as, q, hfeeds, hmore, -⟩ := h ⟨{}, ()⟩ true [2, 2] (by decide)
  refine ⟨T, as, q, hT, hfeeds, hmore.2 ⟨[3, 3], by decide, ?_⟩⟩
  exact .symbol (p := .sequence 0) (by decide) (.token rfl (.symbol (p := .sequence 0) (by decide) (.token rfl
    (.symbol (p := .epsilon) (by decide) (.token rfl (.token rfl (.refl [])))))))

end PredictiveParser.Machine
