import PredictiveParser.Proofs.Decision.Tests
import PredictiveParser.Proofs.Machine.Lookahead
import PredictiveParser.Proofs.Machine.Episode
import PredictiveParser.Proofs.Machine.Matching
import PredictiveParser.Proofs.Machine.Probing

/-!
# Resolvers commit on matches only

What stands above the waiting frame of an episode is a list of items that are still to be matched (`Tries`). Steps are read
backwards: whatever matches the items that a step leaves, matches the items before the step together with what the step has
done (`Probing.step`). It does not matter how inner decisions are made, as long as they fall on what the tables predict, and
what is matched in inner episodes is forgotten with them (`Inside.step`). Back at the waiting frame nothing is left, so the
node of the resolver is matched by the tokens up to there, and the host complied with the actions on the way
(`probes_of_episode`). Every episode was opened on the way from a state without episodes (`Moves.open_or_trial`); so whenever
a resolver commits, its node derives the tokens from the place of the decision on (`derives_of_committed`).
-/

namespace PredictiveParser.Machine

variable {σ τ : Type} [Terminal τ]

/-! ## What is left to be matched -/

/-- The stack was put above the waiting frame of an episode, and the items are to be matched for it. -/
abbrev Tries (g : Grammar) (rest : List Frame) : (stack : List Frame) → (is : List Item) → Prop :=
  StandsFor g true (.resolving :: rest)

/-- The items are those of a production with the property `C`, and the items `is` behind them. -/
def Behind (g : Grammar) (C : Nat → Prop) (is js : List Item) : Prop :=
  ∃ p, g.HasNode p ∧ C (g.number p) ∧ js = g.items p ++ is

/-- A property of nodes of the grammar that all outcomes of a decision have. -/
structure Spans (g : Grammar) (P : Program) (C : Nat → Prop) (d : Nat) : Prop where
  decides : ∀ m, P.Decides d m → C m
  nodes : ∀ m, C m → ∃ n, g.HasNode n ∧ m = g.number n

/-- Inside of an episode, above the frames `rest`, where the open episodes are `es`: what is left to be matched from the
token position `k` on. The lists of items `A` can be, according to what decisions under way will fall on. -/
inductive Probing (g : Grammar) (P : Program) (rest : List Frame) (es : List Episode) (v : State τ) (k : Nat) :
    (A : List Item → Prop) → Prop
  /-- What the frames expect. -/
  | trying {stack : List Frame} {is : List Item} : v.episodes = es → v.position = k → v.stack = stack →
      Tries g rest stack is → Probing g P rest es v k (· = is)
  /-- A decision for an entered symbol is due. -/
  | due {n d a : Nat} {C : Nat → Prop} {stack : List Frame} {is : List Item} : v.episodes = es → v.position = k →
      v.stack = .node n :: .entered a true :: stack → P.instruction n = .decision d →
      Spans g P C d → Tries g rest stack is → Probing g P rest es v k (Behind g C is)
  /-- Such a decision is being made. -/
  | deciding {d a : Nat} {C : Nat → Prop} {stack : List Frame} {is : List Item} : v.episodes = es →
      v.stack = .lookahead d k :: .entered a true :: stack → Spans g P C d → Tries g rest stack is →
      Probing g P rest es v k (Behind g C is)
  /-- Such a decision waits for another resolver. -/
  | waiting {w : State τ} {e : Episode} {d n a : Nat} {C : Nat → Prop} {stack : List Frame} {is : List Item} :
      w.episodes = es → Inside w e (.entered a true :: stack) v → e.entry = k →
      P.dfa d = .resolver n e.accept e.otherwise → Spans g P C d → Tries g rest stack is →
      Probing g P rest es v k (Behind g C is)

/-- A callback for an action with which the host complied. -/
def complied (a : Nat) : Event × Bool :=
  (.action a, true)

/-- In the state `v` something is left that matches, together with the actions among the callbacks `cs`, what was left
before. -/
def Advances (g : Grammar) (P : Program) (rest : List Frame) (es : List Episode) (xs : List τ) (k : Nat)
    (A : List Item → Prop) (v : State τ) (cs : List (Event × Bool)) : Prop :=
  ∃ k' A' as, Probing g P rest es v k' A' ∧ (as.map complied).Sublist cs ∧
    ∀ js bs m, A' js → Probes g P xs k' js bs m → ∃ is, A is ∧ Probes g P xs k is (as ++ bs) m

section Steps

variable {g : Grammar} {limits : Limits} {T : Tables} {P : Program} {H : Host σ τ} {xs : List τ} {rest stack : List Frame}
  {es : List Episode} {v v' : State τ} {h h' : σ} {k a : Nat} {is : List Item} {C : Nat → Prop} {A A' : List Item → Prop}
  {cs : List (Event × Bool)} {r : σ × List (Event × Bool)}

/-- Something else is left, from the same position on. -/
theorem Probing.advances (hv : Probing g P rest es v k A')
    (hA : ∀ js bs m, A' js → Probes g P xs k js bs m → ∃ is, A is ∧ Probes g P xs k is bs m) :
    Advances g P rest es xs k A v cs :=
  ⟨k, A', [], hv, List.nil_sublist _, hA⟩

/-- The same is left. -/
theorem Probing.stays (hv : Probing g P rest es v k A) : Advances g P rest es xs k A v cs :=
  hv.advances fun js _ _ hjs h => ⟨js, hjs, h⟩

/-- A decision falls on a production. -/
theorem advances_of_production {d p : Nat} (hC : Spans g P C d) (hp : C p) (hes : v.episodes = es) (hk : v.position = k)
    (hs : v.stack = .node p :: .entered a true :: stack) (ht : Tries g rest stack is) :
    Advances g P rest es xs k (Behind g C is) v cs := by
  obtain ⟨n, hn, rfl⟩ := hC.nodes p hp
  refine Probing.advances (.trying hes hk hs (.node hn (.entered ht))) ?_
  rintro _ bs m rfl h
  exact ⟨_, ⟨n, hn, hp, rfl⟩, h⟩

/-- An error leads out of the innermost episode. -/
theorem Misses.length_lt {b : State τ} {error : ParseError} (hm : Misses P H v h b h' error) (hb : v.Balanced)
    (hu : unwind P v.episodes none b = (none, v')) : v'.episodes.length < v.episodes.length := by
  obtain ⟨k, ht, -⟩ := hb
  obtain ⟨inner, e, outer, target, below, hes, hback⟩ := hm.exists_goesBack ht hu
  have hepisodes : v'.episodes = outer := congrArg (·.episodes) hback.state
  rw [hepisodes, hes, List.length_append, List.length_cons]
  omega

/-- So does a match of the resolver. -/
theorem Effect.length_lt (he : Effect P H v h .proceed v' h') (hs : v.stack = .resolving :: rest) :
    v'.episodes.length < v.episodes.length := by
  cases he with
  | committed _ hes =>
    rw [hes]
    exact Nat.lt_succ_self _
  | rolledBack hm => exact absurd hs (hm.not_resolving rest)
  | passed hs' | left hs' | resolved hs' | attempted hs' | followed hs' | defaulted hs' | matched hs' | entered hs'
  | unfolded hs' | acted hs' | armed hs' | skipped hs' | began hs' => cases hs.symm.trans hs'

/-- What the tables predict for a symbol. -/
theorem spans_of_lookup {s t n d : Nat} (hg : g.WellFormed) (hl : T.program.lookup s t = some n)
    (hn : T.program.instruction n = .decision d)
    (hd : ∀ m, T.program.Decides d m → ∃ p ∈ (g.symbol s).alts, m = g.number p) :
    Spans g T.program (fun m => ∃ p, T.program.Predicts g s t p ∧ m = g.number p) d where
  decides m hm := by
    obtain ⟨p, hp, rfl⟩ := hd m hm
    exact ⟨p, ⟨hp, n, hl, .inr ⟨d, hn, hm⟩⟩, rfl⟩
  nodes := by
    rintro _ ⟨p, hp, rfl⟩
    exact ⟨p, hg.hasNode_alt hp.1, rfl⟩

/-- Entering a symbol. -/
theorem advances_of_entered {s p : Nat} {x : τ} (hg : g.WellFormed) (hb : g.build limits = .ok T) (hx : xs[k]? = some x)
    (hp : (T.program.lookup s (Terminal.id x) <|> T.program.emptyProduction s) = some p) (hes : v.episodes = es)
    (hk : v.position = k) (hs : v.stack = .node p :: .entered s true :: stack)
    (ht : Tries g rest stack is) : Advances g T.program rest es xs k (· = .symbol s :: is) v cs := by
  have htrying : ∀ q ∈ (g.symbol s).alts, p = g.number q → Probing g T.program rest es v k (· = g.items q ++ is) := by
    rintro q hq rfl
    exact .trying hes hk hs (.node (hg.hasNode_alt hq) (.entered ht))
  have hpredicted : ∀ js bs m q, T.program.Predicts g s (Terminal.id x) q → js = g.items q ++ is →
      Probes g T.program xs k js bs m → ∃ is', is' = .symbol s :: is ∧ Probes g T.program xs k is' bs m := by
    rintro _ _ m q hq rfl h
    obtain ⟨bs, bs', l, rfl, hi, hrest⟩ := h.exists_append
    exact ⟨_, rfl, .symbol hx hq hi hrest⟩
  cases hl : T.program.lookup s (Terminal.id x) with
  | some n =>
    rw [hl] at hp
    cases hp
    rcases Tables.alternative_of_lookup hb hl with ⟨q, hq, rfl⟩ | ⟨d, hd, hdecides⟩
    · exact (htrying q hq rfl).advances fun js bs m => hpredicted js bs m q ⟨hq, _, hl, .inl rfl⟩
    · refine Probing.advances (.due hes hk hs hd (spans_of_lookup hg hl hd hdecides) ht) ?_
      rintro js bs m ⟨q, hq, ⟨q', hpred, e⟩, hjs⟩ h
      obtain rfl := Grammar.number_injective hq (hg.hasNode_alt hpred.1) e
      exact hpredicted js bs m q hpred hjs h
  | none =>
    rw [hl] at hp
    obtain ⟨q, hq, rfl, hd⟩ := Tables.vanishing_of_empty hg hb hp
    refine (htrying q hq rfl).advances ?_
    rintro _ _ m rfl h
    obtain ⟨bs, bs', l, rfl, hi, hrest⟩ := h.exists_append
    obtain rfl := hi.vanishes hg hb hx hl hq hd
    exact ⟨_, rfl, .empty hx hl hq hi hrest⟩

/-- A step on a node of the grammar. -/
theorem advances_of_node {n : Node} (hg : g.WellFormed) (hb : g.build limits = .ok T) (hn : g.HasNode n)
    (hes : v.episodes = es) (hne : es ≠ []) (hk : v.position = k)
    (hs : v.stack = .node (g.number n) :: stack) (ht : Tries g rest stack is) (hv : v.Balanced)
    (hx : ∀ x, v.next? = some x → xs[v.position]? = some x) (he : Effect T.program H.recording v (h, []) .proceed v' r)
    (hlong : es.length ≤ v'.episodes.length) : Advances g T.program rest es xs k (· = g.items n ++ is) v' r.2 := by
  have hinstruction := Tables.instruction_of_build hb hn
  have hspec : v.isSpeculating = true := isSpeculating_iff.2 (hes ▸ hne)
  have hsilent : ∀ {s' : State τ} {r : List (Event × Bool)},
      ((g.instructionOf n = .epsilon ∨ ∃ a, g.instructionOf n = .argument a) ∨ ∃ b, g.instructionOf n = .beacon b) →
      s'.episodes = v.episodes → s'.position = v.position → s'.stack = stack →
      Advances g T.program rest es xs k (· = g.items n ++ is) s' r := by
    intro s' r hn hes' hk' hs'
    refine Probing.advances (.trying (hes'.trans hes) (hk'.trans hk) hs' ht) ?_
    rintro _ bs m rfl h
    exact ⟨_, rfl, h.silent hn⟩
  cases he with
  | passed hs' | left hs' | committed hs' | resolved hs' | attempted hs' | followed hs' | defaulted hs' =>
    cases hs.symm.trans hs'
  | @matched _ t _ x hs' hm hnext hacc =>
    cases hs.symm.trans hs'
    rw [hinstruction] at hm
    obtain rfl := Grammar.eq_item_of_instructionOf (.token _) hm
    rw [consume_speculating ((isSpeculating_advance v).trans hspec), advance_eq]
    refine ⟨k + 1, _, [], .trying hes (congrArg (· + 1) hk) rfl ht, List.nil_sublist _, ?_⟩
    rintro _ bs m rfl h
    exact ⟨_, rfl, .token (hk ▸ hx x hnext) hacc h⟩
  | @entered _ s p _ x hs' hm hnext hp =>
    cases hs.symm.trans hs'
    rw [hinstruction] at hm
    obtain rfl := Grammar.eq_item_of_instructionOf (.symbol _) hm
    unfold State.production? at hp
    rw [if_pos hspec] at hp
    unfold State.enterSymbol
    rw [isSpeculating_withStack, isSpeculating_advance, hspec, advance_eq]
    exact advances_of_entered hg hb (hk ▸ hx x hnext) hp hes hk rfl ht
  | unfolded hs' hm =>
    cases hs.symm.trans hs'
    rw [hinstruction] at hm
    obtain ⟨q, rfl, rfl⟩ := Grammar.eq_sequence_of_instructionOf hm
    have hview : Probing g T.program rest es
        (v.withStack (((g.sequence q).map g.itemNumber).map .node ++ stack)) k (· = g.sequence q ++ is) := by
      refine .trying hes hk ?_ (ht.items fun i => hg.hasItem_sequence (q := q))
      show ((g.sequence q).map g.itemNumber).map Frame.node ++ stack = _
      rw [itemFrames, List.map_map]
      rfl
    exact hview.stays
  | @acted _ a _ hs' hm hok =>
    cases hs.symm.trans hs'
    rw [hinstruction] at hm
    obtain rfl := Grammar.eq_item_of_instructionOf (.action _) hm
    rw [record_actionReply, hok]
    refine ⟨k, _, [a], .trying hes hk rfl ht, List.Sublist.refl _, ?_⟩
    rintro _ bs m rfl h
    exact ⟨_, rfl, .action h⟩
  | armed hs' hm =>
    cases hs.symm.trans hs'
    rw [hspec]
    exact hsilent (.inr ⟨_, hinstruction ▸ hm⟩) rfl rfl rfl
  | skipped hs' hm =>
    cases hs.symm.trans hs'
    exact hsilent (.inl (hinstruction ▸ hm)) rfl rfl rfl
  | began hs' hm =>
    cases hs.symm.trans hs'
    exact absurd (hinstruction.symm.trans hm) (Grammar.instructionOf_ne_decision n _)
  | rolledBack hm _ hu => exact absurd (hes ▸ hm.length_lt hv hu) (Nat.not_lt_of_le hlong)

/-- A step on a decision that is being made. -/
theorem advances_of_lookahead {d : Nat} (hC : Spans g P C d) (hes : v.episodes = es)
    (hs : v.stack = .lookahead d k :: .entered a true :: stack) (ht : Tries g rest stack is)
    (hv : v.Balanced) (he : Effect P H v h .proceed v' h') (hlong : es.length ≤ v'.episodes.length) :
    Advances g P rest es xs k (Behind g C is) v' cs := by
  cases he with
  | passed hs' | left hs' | committed hs' | matched hs' | entered hs' | unfolded hs' | acted hs' | armed hs' | skipped hs'
  | began hs' => cases hs.symm.trans hs'
  | resolved hs' hd =>
    cases hs.symm.trans hs'
    exact advances_of_production hC (hC.decides _ (.leaf hd)) hes rfl rfl ht
  | attempted hs' hd =>
    cases hs.symm.trans hs'
    exact Probing.stays (.waiting hes (inside_openEpisode hv hs _ _ _) rfl hd hC ht)
  | followed hs' hd _ htr =>
    cases hs.symm.trans hs'
    refine Probing.stays (.deciding ((episodes_advance v).trans hes) rfl ⟨fun m hm => ?_, hC.nodes⟩ ht)
    exact hC.decides m (.transition hd htr hm)
  | defaulted hs' hd =>
    cases hs.symm.trans hs'
    exact advances_of_production hC (hC.decides _ (.default hd)) ((episodes_advance v).trans hes) rfl rfl ht
  | rolledBack hm _ hu => exact absurd (hes ▸ hm.length_lt hv hu) (Nat.not_lt_of_le hlong)

/-- A step inside of an inner episode. -/
theorem advances_of_inside {w : State τ} {e : Episode} {d n : Nat} (hC : Spans g P C d) (hw : w.episodes = es)
    (hi : Inside w e (.entered a true :: stack) v) (hk : e.entry = k)
    (hd : P.dfa d = .resolver n e.accept e.otherwise) (ht : Tries g rest stack is) (hv : v.Balanced)
    (he : Effect P H v h .proceed v' h') (hlong : es.length ≤ v'.episodes.length) :
    Advances g P rest es xs k (Behind g C is) v' cs := by
  rcases hi.step hv he with hi | hends
  · exact Probing.stays (.waiting hw hi hk hd hC ht)
  · cases hends with
    | matched _ hr =>
      rw [hr]
      exact advances_of_production hC (hC.decides _ (.accept hd)) hw hk rfl ht
    | refused _ ho hr =>
      rw [ho] at hd
      rw [hr]
      exact advances_of_production hC (hC.decides _ (.node hd)) hw hk rfl ht
    | @onward d' _ ho hr =>
      rw [ho] at hd
      rw [hr, hk]
      exact Probing.stays (.deciding hw rfl ⟨fun m hm => hC.decides m (.otherwise hd hm), hC.nodes⟩ ht)
    | abandoned _ _ hlt => exact absurd (hw ▸ hlt) (Nat.not_lt_of_le hlong)

/-- **What matches the items that a step leaves matches, with the actions of the step, the items before it**, as long as the
episode stays open. -/
theorem Probing.step (hg : g.WellFormed) (hb : g.build limits = .ok T) (hp : Probing g T.program rest es v k A)
    (hne : es ≠ []) (hv : v.Balanced) (hx : ∀ x, v.next? = some x → xs[v.position]? = some x)
    (he : Effect T.program H.recording v (h, []) .proceed v' r) (hlong : es.length ≤ v'.episodes.length) :
    Advances g T.program rest es xs k A v' r.2 := by
  cases hp with
  | @trying stack is hes hk hs ht =>
    cases ht with
    | base => exact absurd (hes ▸ he.length_lt hs) (Nat.not_lt_of_le hlong)
    | node hn ht => exact advances_of_node hg hb hn hes hne hk hs ht hv hx he hlong
    | entered ht =>
      cases he with
      | passed hs' =>
        cases hs.symm.trans hs'
        exact Probing.stays (.trying hes hk rfl ht)
      | rolledBack hm _ hu => exact absurd (hes ▸ hm.length_lt hv hu) (Nat.not_lt_of_le hlong)
      | left hs' | committed hs' | resolved hs' | attempted hs' | followed hs' | defaulted hs' | matched hs' | entered hs'
      | unfolded hs' | acted hs' | armed hs' | skipped hs' | began hs' => cases hs.symm.trans hs'
  | due hes hk hs hd hC ht =>
    rw [he.begun hs hd, State.beginDecision, advance_eq, hk]
    exact Probing.stays (.deciding hes rfl hC ht)
  | deciding hes hs hC ht => exact advances_of_lookahead hC hes hs ht hv he hlong
  | waiting hw hi hk hd hC ht => exact advances_of_inside hC hw hi hk hd ht hv he hlong

omit [Terminal τ] in
/-- Back at the waiting frame nothing is left. -/
theorem Probing.nothing_left (hp : Probing g P rest es v k A) (hs : v.stack = .resolving :: rest) :
    v.position = k ∧ A [] := by
  cases hp with
  | trying _ hk hs' ht =>
    obtain rfl := hs'.symm.trans hs
    cases ht
    exact ⟨hk, rfl⟩
  | due _ _ hs' => cases hs'.symm.trans hs
  | deciding _ hs' => cases hs'.symm.trans hs
  | waiting _ hi _ _ _ ht =>
    have hlen := hi.stack.length_le
    have hbelow := ht.suffix.length_le
    rw [hs] at hlen
    simp only [List.length_cons] at hlen hbelow
    omega

/-- Waiting for a token changes nothing. -/
theorem Probing.fed (hp : Probing g P rest es v k A) (hw : (Machine.step P H v h).verdict = .await) (t : τ) :
    Probing g P rest es (((Machine.step P H v h).state.settle (.ok .more)).receive t) k A := by
  cases hp with
  | waiting hes hi hk hd hC ht => exact .waiting hes (hi.fed hw t) hk hd hC ht
  | trying hes hk hs ht =>
    rw [fed_eq hw]
    exact .trying hes hk hs ht
  | due hes hk hs hd hC ht =>
    rw [fed_eq hw]
    exact .due hes hk hs hd hC ht
  | deciding hes hs hC ht =>
    rw [fed_eq hw]
    exact .deciding hes hs hC ht

/-- As long as the episode is open, up to the waiting frame. -/
theorem Probing.moves {u : State τ} {past ts : List τ} {trace : List (State τ)} (hg : g.WellFormed)
    (hb : g.build limits = .ok T) (hp : Probing g T.program rest es v k A) (hne : es ≠ [])
    (hv : Visits T.program H v h past) (hxs : xs = past ++ ts) (hm : Moves T.program H v h ts trace cs u h')
    (hopen : ∀ w ∈ trace ++ [u], es.length ≤ w.episodes.length) (hu : u.stack = .resolving :: rest) :
    ∃ is as, A is ∧ Probes g T.program xs k is as u.position ∧ (as.map complied).Sublist cs := by
  induction hm generalizing k A past with
  | refl =>
    obtain ⟨rfl, hA⟩ := hp.nothing_left hu
    exact ⟨[], [], hA, .nil, List.nil_sublist _⟩
  | @step v u h h' ts trace cs hproceed hm ih =>
    have hlater : ∀ w ∈ trace ++ [u], es.length ≤ w.episodes.length := fun w hw => hopen w (List.mem_cons_of_mem _ hw)
    have hx : ∀ x, v.next? = some x → xs[v.position]? = some x := fun x hnext => hxs ▸ hv.getElem?_append hnext ts
    have he := effect_recording T.program H v h
    rw [hproceed] at he
    obtain ⟨k', A', as, hp', has, hback⟩ := hp.step hg hb hne hv.balanced hx he (hlater _ hm.head_mem)
    obtain ⟨js, bs, hjs, hprobes, hbs⟩ := ih hp' (hv.step hproceed) hxs hlater hu
    obtain ⟨is, his, hprobes⟩ := hback js bs _ hjs hprobes
    refine ⟨is, as ++ bs, his, hprobes, ?_⟩
    rw [List.map_append]
    exact has.append hbs
  | @feed v u h h' t ts trace cs hw hm ih =>
    have hlater : ∀ w ∈ trace ++ [u], es.length ≤ w.episodes.length := fun w hw => hopen w (List.mem_cons_of_mem _ hw)
    have hxs' : xs = past ++ [t] ++ ts := by rw [hxs, List.append_assoc]; rfl
    obtain ⟨is, as, his, hprobes, has⟩ := ih (hp.fed hw t) (hv.feed hw t) hxs' hlater hu
    exact ⟨is, as, his, hprobes, has.trans (List.sublist_append_right _ _)⟩

/-! ## From the beginning of an episode to its end -/

/-- **A resolver that is matched is matched by the tokens up to there.** In the state `s` a decision that began at `entry`
reaches a resolver with the node `n`; the machine goes on to the state `u` with the episode open all the time, and there it
is back at the waiting frame. -/
theorem probes_of_episode {s u : State τ} {past ts : List τ} {trace : List (State τ)} {d entry accept : Nat} {n : Node}
    {otherwise : Option Target} (hg : g.WellFormed) (hb : g.build limits = .ok T) (hn : g.HasNode n)
    (hv : Visits T.program H s h past) (hs : s.stack = .lookahead d entry :: rest)
    (hd : T.program.dfa d = .resolver (g.number n) accept otherwise) (hm : Moves T.program H s h ts (s :: trace) cs u h')
    (hopen : ∀ w ∈ trace ++ [u], s.episodes.length < w.episodes.length) (hu : u.stack = .resolving :: rest) :
    ∃ as, Probes g T.program (past ++ ts) entry (g.items n) as u.position ∧ (as.map complied).Sublist cs := by
  have hview : Probing g T.program rest (⟨rest.length, entry, s.cursor, accept, otherwise⟩ :: s.episodes)
      (s.openEpisode entry (g.number n) accept otherwise rest) entry (· = g.items n ++ []) :=
    .trying rfl rfl rfl (.node hn .base)
  obtain ⟨is, as, rfl, hprobes, has⟩ :=
    hview.moves hg hb (List.cons_ne_nil _ _) (hv.of_resolver hs hd) rfl (hm.of_resolver hs hd) hopen hu
  rw [List.append_nil] at hprobes
  exact ⟨as, hprobes, has⟩

/-- On the way from the state `s` to the state `u` the innermost episode that is open in `u` was opened, for a decision above
the frames `rest` with a resolver node `n`; since then the callbacks `since` were made. -/
inductive Trial (P : Program) (H : Host σ τ) (s : State τ) (h : σ) (u : State τ) (h' : σ) :
    (ts : List τ) → (cs : List (Event × Bool)) → (e : Episode) → (rest : List Frame) → (n : Nat) →
      (since : List (Event × Bool)) → Prop
  | intro {o : State τ} {h₀ : σ} {ts₁ ts₂ : List τ} {trace₁ trace₂ : List (State τ)} {before since : List (Event × Bool)}
      {d entry n accept : Nat} {otherwise : Option Target} {rest : List Frame} : Moves P H s h ts₁ trace₁ before o h₀ →
      o.stack = .lookahead d entry :: rest → P.dfa d = .resolver n accept otherwise →
      Moves P H o h₀ ts₂ (o :: trace₂) since u h' → (∀ w ∈ trace₂ ++ [u], o.episodes.length < w.episodes.length) →
      u.episodes.length = o.episodes.length + 1 →
      Trial P H s h u h' (ts₁ ++ ts₂) (before ++ since) ⟨rest.length, entry, o.cursor, accept, otherwise⟩ rest n since

/-- A step that leaves more episodes open opens one. -/
theorem Effect.opened (he : Effect P H v h .proceed v' h') (hv : v.Balanced) (hlt : v.episodes.length < v'.episodes.length) :
    ∃ d entry n accept otherwise below, v.stack = .lookahead d entry :: below ∧
      P.dfa d = .resolver n accept otherwise ∧ v'.episodes.length = v.episodes.length + 1 := by
  have hsame : ∀ {s' : State τ}, s'.episodes = v.episodes → ¬ v.episodes.length < s'.episodes.length := fun e => by
    rw [e]
    exact Nat.lt_irrefl _
  cases he with
  | attempted hs hd => exact ⟨_, _, _, _, _, _, hs, hd, rfl⟩
  | committed _ hes =>
    rw [hes] at hlt
    exact absurd hlt (Nat.lt_asymm (Nat.lt_succ_self _))
  | rolledBack hm _ hu => exact absurd hlt (Nat.lt_asymm (hm.length_lt hv hu))
  | passed | left | resolved | unfolded | acted | skipped => exact absurd hlt (hsame rfl)
  | armed =>
    split at hlt <;> exact absurd hlt (hsame rfl)
  | matched =>
    rw [consume_eq, advance_eq] at hlt
    exact absurd hlt (hsame rfl)
  | followed | defaulted | entered | began => exact absurd hlt (hsame (episodes_advance v))

/-- The machine had as many episodes open all the time, or the innermost one was opened on the way. -/
theorem Moves.open_or_trial {s u : State τ} {past ts : List τ} {trace : List (State τ)} (hv : Visits P H s h past)
    (hm : Moves P H s h ts trace cs u h') : (∀ w ∈ trace ++ [u], u.episodes.length ≤ w.episodes.length) ∨
      ∃ e rest n since, Trial P H s h u h' ts cs e rest n since := by
  induction hm generalizing past with
  | refl => exact .inl fun w hw => List.mem_singleton.1 hw ▸ Nat.le_refl _
  | @step s u h h' ts trace cs hproceed hm ih =>
    rcases ih (hv.step hproceed) with hopen | ⟨e, rest, n, since, ht⟩
    · rcases Nat.lt_or_ge s.episodes.length u.episodes.length with hlt | hge
      · -- the step opens the episode, which is open from then on
        have hnext := hopen _ hm.head_mem
        obtain ⟨d, entry, n, accept, otherwise, below, hs, hd, hlen⟩ :=
          (effect_of_verdict hproceed).opened hv.balanced (Nat.lt_of_lt_of_le hlt hnext)
        have hsame : u.episodes.length = s.episodes.length + 1 := by omega
        refine .inr ⟨_, below, n, _, .intro (.refl s h) hs hd (.step hproceed hm) (fun w hw => ?_) hsame⟩
        exact Nat.lt_of_lt_of_le hlt (hopen w hw)
      · exact .inl (List.forall_mem_cons.2 ⟨hge, hopen⟩)
    · cases ht with
      | intro hm₁ hs hd hm₂ hopen hlen =>
        rw [← List.append_assoc]
        exact .inr ⟨_, rest, n, since, .intro (.step hproceed hm₁) hs hd hm₂ hopen hlen⟩
  | @feed s u h h' t ts trace cs hw hm ih =>
    rcases ih (hv.feed hw t) with hopen | ⟨e, rest, n, since, ht⟩
    · refine .inl (List.forall_mem_cons.2 ⟨?_, hopen⟩)
      have hnext := hopen _ hm.head_mem
      rw [fed_eq hw] at hnext
      exact hnext
    · cases ht with
      | intro hm₁ hs hd hm₂ hopen hlen =>
        rw [← List.append_assoc, ← List.cons_append]
        exact .inr ⟨_, rest, n, since, .intro (.feed hw hm₁) hs hd hm₂ hopen hlen⟩

omit [Terminal τ] in
/-- The innermost episode is that of the waiting frame on top. -/
theorem Inside.eq_of_resolving {s u : State τ} {e : Episode} {below : List Frame} (hi : Inside s e below u)
    (hu : u.Balanced) (hs : u.stack = .resolving :: rest) (hlen : u.episodes.length = s.episodes.length + 1) :
    u.episodes = e :: s.episodes ∧ below = rest := by
  have hes : u.episodes = e :: s.episodes := (hi.episodes.eq_of_length hlen.symm).symm
  obtain ⟨k, ht, -⟩ := hu
  rw [hs, hes] at ht
  have hdepth : below.length = rest.length := hi.depth.symm.trans ht.of_resolving.1
  have hsuffix := hi.stack
  rw [hs] at hsuffix
  exact ⟨hes, (List.cons.inj (hsuffix.eq_of_length (congrArg (· + 1) hdepth))).2⟩

/-- **A resolver commits on matches only.** From a state outside of resolvers the machine gets to a state `u` with a waiting
frame on top. Then with the next step the innermost episode is closed and its production is taken at the place where the
decision began. The episode was opened on the way, for the resolver of a symbol. Its node derives the tokens from the place
of the decision up to the position of `u`, which is behind the current token exactly if that is matched: they match it in
the way that the tables prescribe, and the host complied with the actions of this match since the episode was opened. -/
theorem derives_of_committed {s u : State τ} {past ts : List τ} {trace : List (State τ)} (hg : g.WellFormed)
    (hb : g.build limits = .ok T) (hv : Visits T.program H s h past) (hs : s.episodes = [])
    (hm : Moves T.program H s h ts trace cs u h') (hu : u.stack = .resolving :: rest) :
    ∃ e es, u.episodes = e :: es ∧ Machine.step T.program H u h' =
        ⟨.proceed, State.goto { u with episodes := es } e.entry (.node e.accept :: rest), h', [.committed e.accept]⟩ ∧
      ∃ symbol r since as, (g.symbol symbol).resolver = some r ∧
        Trial T.program H s h u h' ts cs e rest (g.number r.node) since ∧ e.entry ≤ u.cursor + u.matched.toNat ∧
        g.Derives (g.items r.node)
          ((((past ++ ts).drop e.entry).take (u.cursor + u.matched.toNat - e.entry)).map Terminal.id) ∧
        Probes g T.program (past ++ ts) e.entry (g.items r.node) as (u.cursor + u.matched.toNat) ∧
        (as.map complied).Sublist since := by
  have hvisited := hv.moves hm
  have hne : u.episodes ≠ [] := hvisited.balanced.episodes_ne_nil hu
  rcases hm.open_or_trial hv with hopen | ⟨e, below, n, since, ht⟩
  · have hle := hopen s hm.head_mem
    rw [hs] at hle
    exact absurd (List.length_eq_zero_iff.1 (Nat.le_zero.1 hle)) hne
  · have htrial := ht
    cases ht with
    | @intro o h₀ ts₁ ts₂ _ _ _ _ d entry n accept otherwise below hm₁ hstack hd hm₂ hopen hlen =>
      have ho := hv.moves hm₁
      obtain ⟨hinside, -⟩ := (inside_openEpisode ho.balanced hstack n accept otherwise).moves (ho.of_resolver hstack hd)
        (hm₂.of_resolver hstack hd) hopen
      obtain ⟨hes, rfl⟩ := hinside.eq_of_resolving hvisited.balanced hu hlen
      obtain ⟨priority, hdfa⟩ := Tables.exists_of_dfa hd
      obtain ⟨⟨symbol, r, hr, rfl⟩, -⟩ := Tables.tests_of_build hb hdfa
      obtain ⟨as, hprobes, has⟩ :=
        probes_of_episode hg hb (hg.hasNode_resolver hr) ho hstack hd hm₂ hopen hu
      rw [List.append_assoc] at hprobes
      refine ⟨_, _, hes, ?_, symbol, r, since, as, hr, htrial, hprobes.le, hprobes.derives, hprobes, has⟩
      rw [Machine.step, hu]
      dsimp only [stepResolving]
      rw [hes]
      rfl

end Steps

/-- On an `a` a resolver is tried whose last symbol has no entry for another `a`: `S → P | Q`, `P → a a`, `Q → a a`,
`U → b | ε`, with the resolver `a U check` of `P`. -/
def checked : Grammar where
  tokens := .letters
  symbols := #[{ name := "S", alts := [Item.symbol 1, Item.symbol 2] },
    { name := "P", alts := [.sequence 0], resolver := some ⟨.sequence 1, 1⟩ }, { name := "Q", alts := [.sequence 0] },
    { name := "U", alts := [Item.token 3, .epsilon] }]
  sequences := #[[.token 2, .token 2], [.token 2, .symbol 3, .action 0]]
  actions := ⟨["check"], by decide⟩
  arguments := {}
  beacons := {}
  start := 0

/-- When the resolver commits it has matched the first `a` of two. -/
theorem checked_derives : ∃ T, checked.build = .ok T ∧ ∃ (s u : State Nat) (trace : List (State Nat))
    (cs : List (Event × Bool)) (as : List Nat), Visits T.program Host.silent s () [2] ∧ s.episodes = [] ∧
      Moves T.program Host.silent s () [2] trace cs u () ∧ u.stack = [.resolving, .entered 0 false, .finish] ∧
      checked.Derives (checked.items (.sequence 1)) [2] ∧
      Probes checked T.program [2, 2] 0 (checked.items (.sequence 1)) as 1 := by
  have h : checked.build.toOption.any fun T => (walk T.program Host.silent 11
      ((Parser.start T.program 0 false ⟨{}, ()⟩ : Parser Unit Nat).state.receive 2) () [2]).any fun w =>
        w.state.stack = [.resolving, .entered 0 false, .finish] ∧ w.state.cursor + w.state.matched.toNat = 1 ∧
          w.state.episodes.map (·.entry) = [0] := by decide +kernel
  obtain ⟨T, hT, h⟩ := exists_of_any_toOption h
  have hp : (Parser.start T.program 0 false ⟨{}, ()⟩ : Parser Unit Nat).Reachable T.program Host.silent [] :=
    (Parser.Reachable.new ()).start 0 false
  have hfirst := Visits.intro hp rfl
    (.refl ((Parser.start T.program 0 false ⟨{}, ()⟩ : Parser Unit Nat).state.receive 2) ())
  obtain ⟨w, hw, h⟩ := Option.any_eq_true _ _ |>.1 h
  obtain ⟨hstack, hposition, hentries⟩ := of_decide_eq_true h
  obtain ⟨e, es, hes, -, symbol, r, since, as, hr, -, -, hd, hprobes, -⟩ :=
    derives_of_committed (by decide) hT hfirst rfl (moves_of_walk hw) hstack
  -- there is only one resolver
  have honly : ∀ s < 4, ∀ r ∈ (checked.symbol s).resolver, r.node = .sequence 1 := by decide
  have hnode : r.node = .sequence 1 := honly symbol (Grammar.symbol_lt_of_resolver hr) r hr
  rw [hes] at hentries
  have hentry : e.entry = 0 := (List.cons.inj hentries).1
  rw [hposition, hentry, hnode] at hd hprobes
  exact ⟨T, hT, _, w.state, w.trace, w.calls, as, hfirst, rfl, moves_of_walk hw, hstack, hd, hprobes⟩

end PredictiveParser.Machine
