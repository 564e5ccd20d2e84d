import PredictiveParser.Proofs.Machine.Matching
import PredictiveParser.Proofs.Decision.Rivals

/-!
# What parsers never refuse

A parser is led along a parse tree as long as its decisions fall on the alternatives of the tree. A decision falls on
another alternative only if that one outlasts the alternative of the tree, so a sentence is accepted if it has a parse tree
in which nowhere a rival does so (`Forest.Unrivalled`), and every sentence is accepted if the automata have no defaults
(`complete_of_build`). The tokens are given one by one; how many of them the machine has been given when it comes to a
stack does not matter (`Accepts`).
-/

namespace PredictiveParser

/-- Nowhere in the forest, with the terminals `v` behind it, an alternative that competes for the same token outlasts the
one that was taken. -/
def Forest.Unrivalled (g : Grammar) : Forest Nat → (v : List Nat) → Prop
  | .nil, _ => True
  | .leaf _ r, v => r.Unrivalled g v
  | .node s p c r, v =>
    (∀ q ∈ ((PredictionTable.fill g g.analyze).cell s ((c.leaves ++ (r.leaves ++ v)).headD endToken)).candidates, q ≠ p →
      ¬ g.Outlasts (c.leaves ++ (r.leaves ++ v) ++ [endToken]) c q) ∧
      c.Unrivalled g (r.leaves ++ v) ∧ r.Unrivalled g v

namespace Machine

variable {σ τ : Type}

/-! ## Tokens given one by one -/

/-- The lowest position that the machine can look at again after matching `k` tokens. -/
def horizon (k : Nat) : List Frame → Nat
  | .lookahead _ entry :: _ => min k entry
  | _ => k

theorem horizon_lookahead {k entry : Nat} (h : entry ≤ k) (d : Nat) (rest : List Frame) :
    horizon k (.lookahead d entry :: rest) = entry :=
  Nat.min_eq_right h

theorem Expects.horizon {g : Grammar} {stack : List Frame} {is : List Item} (h : Expects g stack is) (k : Nat) :
    Machine.horizon k stack = k := by
  cases h <;> rfl

/-- The machine was given the tokens `past`, of which it has matched `k`, and the stack is left. -/
structure Reads (s : State τ) (past : List τ) (k : Nat) (stack : List Frame) : Prop where
  stands : Stands s k stack
  shows : s.window.Shows past
  base : s.window.base ≤ horizon k stack
  le : k ≤ past.length

variable [Terminal τ] {P : Program} {H : Host σ τ} {xs : List τ} {k k' : Nat} {stack stack' : List Frame}

/-- With the stack the machine accepts the tokens `xs`, of which it has matched `k`, however many it was given so far. -/
def Accepts (P : Program) (H : Host σ τ) (xs : List τ) (k : Nat) (stack : List Frame) : Prop :=
  ∀ s h past ts, Reads s past k stack → past ++ ts = xs → ∃ fin, Session P H s h ts fin

omit [Terminal τ] in
theorem horizon_le (k : Nat) (stack : List Frame) : horizon k stack ≤ k := by
  unfold horizon
  split
  · exact Nat.min_le_left _ _
  · exact Nat.le_refl k

omit [Terminal τ] in
theorem Reads.current {s : State τ} {past : List τ} (hs : Reads s past k stack) : s.window.get? k = past[k]? :=
  hs.shows.get? k (Nat.le_trans hs.base (horizon_le k stack))

omit [Terminal τ] in
/-- Waiting for the next token releases nothing that is looked at again. -/
theorem Reads.receive {s : State τ} {past : List τ} (hs : Reads s past k stack) (t : τ) :
    Reads ((s.advance.settle (.ok .more)).receive t) (past ++ [t]) k stack := by
  have hlow : s.advance.lowWater = horizon k stack := by
    unfold State.lowWater
    rw [hs.stands.advance.episodes, hs.stands.advance.stack, cursor_advance, hs.stands.position]
    cases stack with
    | nil => rfl
    | cons f rest => cases f <;> rfl
  have hshows : (s.advance.window.release s.advance.lowWater).Shows past := by
    rw [window_advance]
    exact hs.shows.release _
  refine ⟨⟨hs.stands.advance.episodes, hs.stands.advance.position, hs.stands.advance.stack⟩, hshows.push t, ?_, ?_⟩
  · show (s.advance.window.release s.advance.lowWater).base ≤ _
    rw [TokenWindow.base_release, hlow, window_advance]
    have := hs.base
    omega
  · have := hs.le
    rw [List.length_append]
    omega

/-- If the machine waits where it needs the next token, that token can as well be there already. -/
theorem Accepts.of_current {x : τ} (hx : xs[k]? = some x)
    (hawait : ∀ s h, Stands s k stack → s.window.get? k = none → (step P H s h).verdict = .await)
    (hgo : ∀ s h past ts, Reads s past k stack → past ++ ts = xs → s.window.get? k = some x →
      ∃ fin, Session P H s h ts fin) : Accepts P H xs k stack := by
  intro s h past ts hs e
  have hcurrent := hs.current
  by_cases hlt : k < past.length
  · refine hgo s h past ts hs e ?_
    rw [hcurrent, ← hx, ← e, List.getElem?_append_left hlt]
  · have hk : k = past.length := by
      have := hs.le
      omega
    rw [← e, List.getElem?_append_right (by omega), hk, Nat.sub_self] at hx
    cases ts with
    | nil => cases hx
    | cons t ts =>
      obtain rfl : t = x := Option.some.inj hx
      have hv := hawait s h hs.stands (by rw [hcurrent, List.getElem?_eq_none (by omega)])
      have hs' := hs.receive t
      obtain ⟨fin, hfin⟩ := hgo _ (step P H s h).host (past ++ [t]) ts hs' (by rw [List.append_assoc]; exact e)
        (by rw [hs'.current, hk, List.getElem?_concat_length])
      refine ⟨fin, .await hv ?_⟩
      rw [(stops_step s h).1 hv]
      exact hfin

/-- A step that matches nothing. -/
theorem Accepts.of_silent (hstep : ∀ s h, Stands s k stack → (step P H s h).Stands k' stack')
    (hhorizon : horizon k stack ≤ horizon k' stack') (hk : k' ≤ k) (hacc : Accepts P H xs k' stack') :
    Accepts P H xs k stack := by
  intro s h past ts hs e
  obtain ⟨hv, hs'⟩ := hstep s h hs.stands
  have hw := (step_frame (P := P) (H := H) s h).1
  obtain ⟨fin, hfin⟩ := hacc _ (step P H s h).host past ts
    ⟨hs', by rw [hw]; exact hs.shows, by rw [hw]; exact Nat.le_trans hs.base hhorizon, Nat.le_trans hk hs.le⟩ e
  exact ⟨fin, .proceed hv hfin⟩

/-- A step that looks at the next token. -/
theorem Accepts.of_step {x : τ} (hx : xs[k]? = some x)
    (hawait : ∀ s h, Stands s k stack → s.window.get? k = none → (step P H s h).verdict = .await)
    (hstep : ∀ s h, Stands s k stack → s.window.get? k = some x → (step P H s h).Stands k' stack')
    (hhorizon : horizon k stack ≤ horizon k' stack') (hk : k' ≤ k + 1) (hacc : Accepts P H xs k' stack') :
    Accepts P H xs k stack := by
  refine .of_current hx hawait fun s h past ts hs e hcurrent => ?_
  obtain ⟨hv, hs'⟩ := hstep s h hs.stands hcurrent
  have hw := (step_frame (P := P) (H := H) s h).1
  have hlt : k < past.length := by
    rw [hs.current] at hcurrent
    exact (List.getElem?_eq_some_iff.1 hcurrent).1
  obtain ⟨fin, hfin⟩ := hacc _ (step P H s h).host past ts
    ⟨hs', by rw [hw]; exact hs.shows, by rw [hw]; exact Nat.le_trans hs.base hhorizon, by omega⟩ e
  exact ⟨fin, .proceed hv hfin⟩

/-- The end of the input is accepted where nothing else is expected, if it is the last token. -/
theorem accepts_finish {e : τ} (hx : xs[k]? = some e) (he : Terminal.id e = endToken) (hlen : xs.length = k + 1) :
    Accepts P H xs k [.finish] := by
  refine .of_current hx (fun _ h hs hx => hs.await trivial hx h) ?_
  intro s h past ts hs e' hcurrent
  have hv : (step P H s h).verdict = .accept := (hs.stands.finish hcurrent h).1 he
  have hlast : ts = [] := by
    have hlt := (List.getElem?_eq_some_iff.1 (hs.current.symm.trans hcurrent)).1
    rw [← e', List.length_append] at hlen
    exact List.length_eq_zero_iff.1 (by omega)
  rw [hlast]
  exact ⟨_, .accept hv⟩

/-! ## Decisions -/

section Decisions

variable {d d' entry n : Nat} {rest : List Frame} {s : State τ} {x : τ}

theorem Stands.decision (hd : P.instruction n = .decision d) (hs : Stands s k (.node n :: rest))
    (hx : s.window.get? k = some x) (h : σ) : (step P H s h).Stands k (.lookahead d k :: rest) := by
  rw [step_decision hs.stack hd (hs.next.trans hx)]
  refine ⟨rfl, hs.advance.episodes, hs.advance.position, ?_⟩
  show Frame.lookahead d s.advance.cursor :: rest = _
  rw [cursor_advance, hs.position]

theorem Stands.leaf (hd : P.dfa d = .leaf n) (hs : Stands s k (.lookahead d entry :: rest)) (h : σ) :
    (step P H s h).Stands entry (.node n :: rest) := by
  rw [step_leaf hs.stack hd]
  exact ⟨rfl, hs.episodes, rfl, rfl⟩

theorem Stands.transition {default? : Option Nat} (hd : P.dfa d = .switch default?)
    (ht : P.transition d (Terminal.id x) = some d') (hs : Stands s k (.lookahead d entry :: rest))
    (hx : s.window.get? k = some x) (h : σ) : (step P H s h).Stands (k + 1) (.lookahead d' entry :: rest) := by
  rw [step_switch hs.stack (hs.next.trans hx) h hd, ht]
  exact ⟨rfl, hs.advance.episodes, congrArg (· + 1) hs.position, rfl⟩

theorem Stands.default (hd : P.dfa d = .switch (some n)) (ht : P.transition d (Terminal.id x) = none)
    (hs : Stands s k (.lookahead d entry :: rest)) (hx : s.window.get? k = some x) (h : σ) :
    (step P H s h).Stands entry (.node n :: rest) := by
  rw [step_switch hs.stack (hs.next.trans hx) h hd, ht]
  exact ⟨rfl, hs.advance.episodes, rfl, rfl⟩

omit σ in
/-- The token at a position, from the terminals that are left. -/
theorem exists_getElem?_of_drop {a : Nat} {u : List Nat} (h : (xs.drop k).map Terminal.id = a :: u) :
    ∃ x, xs[k]? = some x ∧ Terminal.id x = a ∧ (xs.drop (k + 1)).map Terminal.id = u := by
  obtain ⟨x, r, hr, rfl, rfl⟩ := List.map_eq_cons_iff.1 h
  exact ⟨x, by rw [← List.head?_drop, hr]; rfl, rfl, by rw [← List.tail_drop, hr]; rfl⟩

omit σ in
/-- In front of the end of the input there is always a next token. -/
theorem exists_getElem?_headD {u : List Nat} (h : (xs.drop k).map Terminal.id = u ++ [endToken]) :
    ∃ x, xs[k]? = some x ∧ Terminal.id x = u.headD endToken := by
  cases u with
  | nil =>
    obtain ⟨x, hx, hid, -⟩ := exists_getElem?_of_drop h
    exact ⟨x, hx, hid⟩
  | cons a u =>
    obtain ⟨x, hx, hid, -⟩ := exists_getElem?_of_drop h
    exact ⟨x, hx, hid⟩

/-- The machine goes on with the production that the decision falls on, at the position where the decision began. -/
theorem accepts_lookahead {u : List Nat} (hpick : P.Picks d u n) (hu : (xs.drop k).map Terminal.id = u) (hk : entry ≤ k)
    (hacc : Accepts P H xs entry (.node n :: rest)) : Accepts P H xs k (.lookahead d entry :: rest) := by
  have hleast : horizon k (.lookahead d entry :: rest) ≤ entry := Nat.min_le_right _ _
  induction hpick generalizing k with
  | leaf hd => exact hacc.of_silent (fun _ h hs => hs.leaf hd h) hleast hk
  | @transition d d' a n u default? hd ht _ ih =>
    obtain ⟨x, hx, rfl, hu'⟩ := exists_getElem?_of_drop hu
    have hk' : entry ≤ k + 1 := Nat.le_succ_of_le hk
    refine (ih hu' hk' hacc (Nat.min_le_right _ _)).of_step hx (fun _ h hs hx => hs.await ⟨_, hd⟩ hx h)
      (fun _ h hs hx => hs.transition hd ht hx h) ?_ (Nat.le_refl _)
    rw [horizon_lookahead hk, horizon_lookahead hk']
  | @default d a n u hd ht =>
    obtain ⟨x, hx, rfl, -⟩ := exists_getElem?_of_drop hu
    exact hacc.of_step hx (fun _ h hs hx => hs.await ⟨_, hd⟩ hx h) (fun _ h hs hx => hs.default hd ht hx h) hleast
      (Nat.le_succ_of_le hk)

end Decisions

/-! ## Parse trees -/

/-- Tables of a grammar without resolvers and wildcard, none of whose alternatives mentions the end of the input. -/
structure Unaided (g : Grammar) (limits : Limits) (T : Tables) : Prop where
  wellFormed : g.WellFormed
  resolvers : ∀ x ∈ g.symbols, x.resolver = none
  wildcard : ¬ g.Mentions anyToken
  unmentioned : ¬ g.Mentions endToken
  build : g.build limits = .ok T

section Trees

variable {g : Grammar} {limits : Limits} {T : Tables} {is rest : List Item}

/-- Going on with a stack means going on with its first item on top. -/
theorem accepts_peel (hT : Unaided g limits T) (hH : H.Obliging) (h : Expects g stack is)
    (hfinish : is = [] → Accepts T.program H xs k [.finish])
    (hitem : ∀ i js rest, is = i :: js → g.HasItem i → Expects g rest js →
      Accepts T.program H xs k (.node (g.itemNumber i) :: rest)) : Accepts T.program H xs k stack := by
  refine (h.peel (G := fun stack => horizon k stack = k ∧ Accepts T.program H xs k stack) ?_ ?_ ?_ hT.wellFormed
    (fun e => ⟨rfl, hfinish e⟩) fun i js rest e hi hrest => ⟨rfl, hitem i js rest e hi hrest⟩).2
  · rintro a rest ⟨hk, hacc⟩
    exact ⟨rfl, hacc.of_silent (fun _ h hs => hs.entered hH h) (Nat.le_of_eq hk.symm) (Nat.le_refl k)⟩
  · rintro rest ⟨hk, hacc⟩
    exact ⟨rfl, hacc.of_silent (fun _ h hs => hs.epsilon hT.build h) (Nat.le_of_eq hk.symm) (Nat.le_refl k)⟩
  · rintro q rest hq ⟨hk, hacc⟩
    exact ⟨rfl, hacc.of_silent (fun _ h hs => hs.sequence hT.build hq h) (Nat.le_of_eq hk.symm) (Nat.le_refl k)⟩

/-- **The machine follows a parse tree** as long as nothing can go wrong with its alternatives. -/
theorem accepts_of_grows (hT : Unaided g limits T) (hH : H.Obliging) {f : Forest Nat} {v : List Nat}
    (hf : g.Grows is f) (hprevails : f.Unrivalled g v ∨ ∀ n ∈ T.dfas, n.default? = none)
    (hxs : (xs.drop k).map Terminal.id = f.leaves ++ v ++ [endToken])
    (hproper : ∀ i ∈ is ++ rest, g.HasItem i ∧ i ≠ .token anyToken) (hch : g.analyze.Chained g (is ++ rest))
    (hv : g.Derives rest v)
    (hnext : ∀ stack, Expects g stack rest → Accepts T.program H xs (k + f.leaves.length) stack) :
    ∀ stack, Expects g stack (is ++ rest) → Accepts T.program H xs k stack := by
  induction hf generalizing rest v k with
  | nil => exact hnext
  | @silent i is f hi _ ih =>
    intro stack h
    rw [List.cons_append, List.forall_mem_cons] at hproper
    refine accepts_peel hT hH h (fun e => absurd e (List.cons_ne_nil _ _)) fun j js rest' e hj hrest => ?_
    cases e
    have hacc := ih hprevails hxs hproper.2 hch.2 hv hnext _ hrest
    exact hacc.of_silent (fun _ h hs => hs.silent hT.build hH hj hi h) (Nat.le_of_eq (hrest.horizon k).symm)
      (Nat.le_refl k)
  | @leaf t a is f hacc _ ih =>
    intro stack h
    rw [List.cons_append, List.forall_mem_cons] at hproper
    obtain ⟨x, hx, rfl, hxs'⟩ := exists_getElem?_of_drop hxs
    refine accepts_peel hT hH h (fun e => absurd e (List.cons_ne_nil _ _)) fun j js rest' e hj hrest => ?_
    cases e
    have haccepts := ih (k := k + 1) hprevails hxs' hproper.2 hch.2 hv
      (fun stack h => by
        have := hnext stack h
        rwa [Forest.leaves, List.length_cons, ← Nat.add_assoc, Nat.add_right_comm] at this) _ hrest
    refine haccepts.of_step hx (fun _ h hs hx => hs.await_token hT.build hj hx h)
      (fun _ h hs hx => hs.token hT.build hj hx hacc h) ?_ (Nat.le_refl _)
    rw [hrest.horizon]
    exact Nat.le_succ k
  | @node s p is c r hp hc hr ihc ihr =>
    intro stack h
    rw [List.cons_append] at hproper hch
    have hrest := (List.forall_mem_cons.1 hproper).2
    have hrv := Grammar.Leads.derives_append hr.leads hv
    rw [Forest.leaves, List.append_assoc c.leaves] at hxs
    have hc' : c.Unrivalled g (r.leaves ++ v) ∨ ∀ n ∈ T.dfas, n.default? = none :=
      hprevails.imp_left fun h => h.2.1
    have hr' : r.Unrivalled g v ∨ ∀ n ∈ T.dfas, n.default? = none := hprevails.imp_left fun h => h.2.2
    refine accepts_peel hT hH h (fun e => absurd e (List.cons_ne_nil _ _)) fun j js rest' e hj hrest' => ?_
    cases e
    obtain ⟨x, hx, hid⟩ := exists_getElem?_headD hxs
    obtain ⟨n, hl, hn⟩ := Tables.picks_of_build hT.wellFormed hT.resolvers hT.wildcard hT.unmentioned hT.build hrest hch
      hp hc hrv rfl (hprevails.imp_left fun h => h.1)
    -- the alternative is followed, and then what stands behind it
    have hfollow : Accepts T.program H xs k (.node (g.number p) :: .entered s false :: rest') := by
      refine ihc hc' hxs (List.forall_mem_append.2 ⟨hT.wellFormed.proper_alt hT.wildcard hp, hrest⟩)
        (hch.expand hT.wellFormed.closed hT.wellFormed hp) hrv (ihr hr' ?_ hrest hch.2 hv fun stack h => ?_) _
        (.node (hT.wellFormed.hasNode_alt hp) (.entered hrest'))
      · rw [← List.drop_drop, List.map_drop, hxs]
        simp
      · have := hnext stack h
        rwa [Forest.leaves, List.length_append, ← Nat.add_assoc] at this
    have hpredicted : Accepts T.program H xs k (.node n :: .entered s false :: rest') := by
      rcases hn with rfl | ⟨d, hd, hpick⟩
      · exact hfollow
      · have hdecided := accepts_lookahead hpick hxs (Nat.le_refl k) hfollow
        refine hdecided.of_step hx (fun _ h hs hx => hs.await (.inr (.inr ⟨_, hd⟩)) hx h)
          (fun _ h hs hx => hs.decision hd hx h) ?_ (Nat.le_succ k)
        rw [horizon_lookahead (Nat.le_refl k)]
        exact Nat.le_refl k
    exact hpredicted.of_step hx (fun _ h hs hx => hs.await_symbol hT.build hj hx h)
      (fun _ h hs hx => hs.symbol hT.build hH hj hx (hid ▸ hl) h) (Nat.le_refl k) (Nat.le_succ k)

end Trees

/-- **Parsers accept what no rival outlasts.** If tables are built for a grammar without resolvers and wildcard, none of
whose alternatives mentions the end of the input, then every parse of the start symbol with a host that never objects
accepts the terminals of a parse tree in which nowhere a rival outlasts the alternative that was taken; and if the automata
have no defaults, it accepts the terminals of every parse tree. -/
theorem complete_of_build {g : Grammar} {limits : Limits} {T : Tables} (hg : g.WellFormed)
    (hres : ∀ x ∈ g.symbols, x.resolver = none) (hany : ¬ g.Mentions anyToken) (hend : ¬ g.Mentions endToken)
    (hb : g.build limits = .ok T) (hH : H.Obliging) {f : Forest Nat} (hf : g.Grows [.symbol g.start] f)
    (hprevails : f.Unrivalled g [] ∨ ∀ n ∈ T.dfas, n.default? = none) (p : Parser σ τ) (tree : Bool) {ts : List τ} {e : τ}
    (hts : ts.map Terminal.id = f.leaves) (he : Terminal.id e = endToken) :
    ∃ q, (p.start T.program g.start tree).Feeds T.program H (ts ++ [e])
      (ts.map (fun _ => .ok .more) ++ [.ok .done]) q := by
  have hT : Unaided g limits T := ⟨hg, hres, hany, hend, hb⟩
  have hstack : Expects g [.node (g.number (Item.symbol g.start)), .finish] ([.symbol g.start] ++ []) :=
    .node (n := Item.symbol g.start) hg.start .base
  have hacc : Accepts T.program H (ts ++ [e]) 0 [.node (g.number (Item.symbol g.start)), .finish] := by
    refine accepts_of_grows hT hH hf hprevails ?_ ?_ hg.closed.chained_start (.refl []) (fun stack h => ?_) _ hstack
    · rw [List.drop_zero, List.map_append, hts, List.append_nil, List.map_singleton, he]
    · rw [List.append_nil, List.forall_mem_cons]
      exact ⟨⟨hg.start, nofun⟩, nofun⟩
    · refine accepts_peel hT hH h (fun _ => accepts_finish ?_ he ?_) nofun
      · rw [Nat.zero_add, ← hts, List.length_map, List.getElem?_concat_length]
      · rw [Nat.zero_add, ← hts, List.length_map, List.length_append, List.length_singleton]
  obtain ⟨t, us, hus⟩ := List.exists_cons_of_ne_nil (List.append_ne_nil_of_right_ne_nil ts (List.cons_ne_nil e []))
  have hreads : Reads ((p.start T.program g.start tree).state.receive t) [t] 0
      [.node (g.number (Item.symbol g.start)), .finish] := by
    refine ⟨⟨rfl, rfl, ?_⟩, TokenWindow.shows_empty.push t, Nat.le_refl 0, Nat.zero_le _⟩
    show [Frame.node (T.program.symbolNode g.start), .finish] = _
    rw [Tables.symbolNode_of_build hb hg.start]
  obtain ⟨fin, hfin⟩ := hacc _ p.host [t] us hreads hus.symm
  obtain ⟨q, hq, -⟩ := hfin.feeds rfl
  refine ⟨q, ?_⟩
  have hlen : ts.length = us.length := by
    have := congrArg List.length hus
    simpa using this
  rw [hus, List.map_const', hlen, ← List.map_const']
  exact hq

/-! ## A sentence that is refused -/

/-- One alternative takes a `b` that is needed behind it: `S → A b`, `A → a | a b`. -/
def greedy : Grammar where
  tokens := .letters
  symbols := #[{ name := "S", alts := [.sequence 0] }, { name := "A", alts := [Item.token 2, .sequence 1] }]
  sequences := #[[.symbol 1, .token 3], [.token 2, .token 3]]
  actions := {}
  arguments := {}
  beacons := {}
  start := 0

/-- Tables are built, but the sentence `a b` is not accepted: the decision prefers the alternative that goes on. -/
theorem greedy_refuses : greedy.WellFormed ∧ (∀ x ∈ greedy.symbols, x.resolver = none) ∧ ¬ greedy.Mentions anyToken ∧
    ¬ greedy.Mentions endToken ∧ greedy.Derives [.symbol greedy.start] [2, 3] ∧ ∃ T q, greedy.build = .ok T ∧
    (Parser.start T.program greedy.start true ⟨{}, ()⟩).Feeds T.program Host.silent [2, 3, 0]
      [.ok .more, .ok .more, .error (.unexpectedToken "$end" ["b"] none)] q := by
  have h : greedy.build.toOption.any fun T =>
      ((Parser.start T.program 0 true ⟨{}, ()⟩).feedAll T.program Host.silent 20 [2, 3, 0]).any fun r =>
        r.1 = [.ok .more, .ok .more, .error (.unexpectedToken "$end" ["b"] none)] := by decide +kernel
  obtain ⟨T, hT, h⟩ := exists_of_any_toOption h
  obtain ⟨⟨as, q⟩, hq, h⟩ := Option.any_eq_true _ _ |>.1 h
  obtain rfl := of_decide_eq_true h
  refine ⟨by decide, by decide, by decide, by decide, ?_, T, q, hT, Parser.feeds_of_feedAll hq⟩
  exact .symbol (p := .sequence 0) (by decide) (.symbol (p := Item.token 2) (by decide)
    (.token rfl (.token rfl (.refl []))))

/-- The parse tree of `a b b`, in which the longer alternative is taken. -/
def greedy.longer : Forest Nat :=
  .node 0 (.sequence 0) (.node 1 (.sequence 1) (.leaf 2 (.leaf 3 .nil)) (.leaf 3 .nil)) .nil

/-- The shorter alternative does not outlast the longer. -/
theorem greedy.unrivalled_longer : greedy.longer.Unrivalled greedy [] := by
  have hroot : ∀ q ∈ ((PredictionTable.fill greedy greedy.analyze).cell 0 2).candidates, q = .sequence 0 := by
    decide +kernel
  have hrivals : ∀ q ∈ ((PredictionTable.fill greedy greedy.analyze).cell 1 2).candidates,
      q = .sequence 1 ∨ q = Item.token 2 := by decide +kernel
  refine ⟨fun q hq hne => absurd (hroot q hq) hne, ⟨fun q hq hne => ?_, trivial, trivial⟩, trivial⟩
  obtain rfl := (hrivals q hq).resolve_left hne
  rintro (⟨js, hl⟩ | ⟨d, hd, -, hlast, -⟩)
  · cases hl with
    | silent hi => cases hi
    | token _ hl => cases hl
  · cases hd with
    | silent hi => cases hi
    | leaf _ hd =>
      cases hd
      cases hlast

/-- So it is accepted. -/
theorem greedy_accepts : ∃ T q, greedy.build = .ok T ∧
    (Parser.start T.program greedy.start true ⟨{}, ()⟩).Feeds T.program Host.silent [2, 3, 3, 0]
      [.ok .more, .ok .more, .ok .more, .ok .done] q := by
  obtain ⟨T, hT⟩ : ∃ T, greedy.build = .ok T := Grammar.exists_build (by decide +kernel)
  have hf : greedy.Grows [.symbol greedy.start] greedy.longer :=
    .node (by decide) (.node (by decide) (.leaf rfl (.leaf rfl .nil)) (.leaf rfl .nil)) .nil
  have hts : ([2, 3, 3] : List Nat).map Terminal.id = greedy.longer.leaves := by decide
  have he : Terminal.id (0 : Nat) = endToken := rfl
  obtain ⟨q, hq⟩ := complete_of_build (H := (Host.silent : Host Unit Nat)) (by decide) (by decide) (by decide) (by decide)
    hT Host.obliging_silent hf (.inl greedy.unrivalled_longer) ⟨{}, ()⟩ true hts he
  exact ⟨T, q, hT, hq⟩

end Machine

end PredictiveParser
