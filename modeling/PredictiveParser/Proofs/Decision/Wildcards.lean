import Mathlib.Data.List.TakeWhile
import PredictiveParser.Proofs.Analysis.Exactness
import PredictiveParser.Proofs.Decision.Reading
import PredictiveParser.Proofs.Decision.Survival

/-!
# The wildcard is a fallback

Where a thread matches a token with the terminal itself, or ends before it, all threads give way that matched it with the
wildcard (`State.Better`, `State.keeps_preferConcrete_iff`). A production all of whose threads gave way has none left, and
gets none below the state (`State.Without`): no leaf and no default of its own decides for it there, only a test or a default
from above (`spares_emit`). A candidate that can begin with the token itself has a thread that does not give way or waits for a
resolver (`Posed.exists_concrete`), so a conflict that its token decides is decided for no other (`wildcard_gives_way`).
-/

namespace PredictiveParser

/-- The node does not decide for the production, unless as the default that it inherits or because a resolver matches. -/
def DfaNode.Spares (p : Nat) (inherited : Option Nat) : DfaNode → Prop
  | .leaf q => q ≠ p
  | .switch _ default? => default? = some p → inherited = some p
  | .resolver _ _ _ otherwise => otherwise ≠ some (.node p)

namespace Decision

variable {Q : Problem} {a : Nat} {first : Bool}

/-! ## What gives way -/

/-- A thread that matched the token with the wildcard. -/
def Settled.ByWildcard (x : Settled) : Prop :=
  ∃ t, x.thread? = some t ∧ t.matched = .wildcard

theorem Settled.production_of_thread? {x : Settled} {t : Thread} (h : x.thread? = some t) : x.production = t.production := by
  cases x <;> cases h <;> rfl

namespace State

variable {s : State} {p : Node} {x : Settled}

/-- A thread that does not wait for a resolver has ended before the last token, or matched it with the terminal itself. -/
def Better (s : State) : Prop :=
  s.exhausted ≠ [] ∨ ∃ t ∈ s.active ++ s.completed, t.matched = .concrete

/-- All threads of the production that do not wait for a resolver matched the last token with the wildcard. -/
def OnlyByWildcard (s : State) (p : Node) : Prop :=
  ∀ t ∈ s.deciding, t.production = p → t.matched = .wildcard

/-- The production has no thread that counts. -/
def Without (s : State) (p : Node) : Prop :=
  ∀ t ∈ s.deciding, t.production ≠ p

/-- The threads that count are those that are kept and do not wait for a resolver. -/
theorem mem_deciding_iff {t : Thread} : t ∈ s.deciding ↔ ∃ x, s.Keeps x ∧ x.thread? = some t := by
  rw [deciding, List.mem_append, List.mem_append]
  constructor
  · rintro ((ht | ht) | ht)
    · exact ⟨.exhausted t, ht, rfl⟩
    · exact ⟨.completed t, ht, rfl⟩
    · exact ⟨.active t, ht, rfl⟩
  · rintro ⟨x, hx, hxt⟩
    cases x <;> cases hxt
    · exact .inr hx
    · exact .inl (.inr hx)
    · exact .inl (.inl hx)

theorem better_iff : s.Better ↔ ¬ (s.exhausted.isEmpty && (s.active ++ s.completed).all (·.matched != .concrete)) = true := by
  rw [Better, Bool.and_eq_true, not_and_or, List.isEmpty_iff, List.all_eq_true]
  simp only [bne_iff_ne, not_forall, not_not, exists_prop, ne_eq]

/-- Without a better thread none gives way. -/
theorem preferConcrete_eq (h : ¬ s.Better) : s.preferConcrete = s := by
  rw [better_iff, not_not] at h
  exact if_pos h

/-- **With a better thread exactly those give way that matched the token with the wildcard.** -/
theorem keeps_preferConcrete_iff (h : s.Better) (hs : ∀ y, s.Keeps y → y.Shaped) :
    s.preferConcrete.Keeps x ↔ s.Keeps x ∧ ¬ x.ByWildcard := by
  refine ⟨fun hx => ⟨keeps_of_preferConcrete hx, ?_⟩, fun ⟨hx, hw⟩ => keeps_preferConcrete hx fun t ht hm => hw ⟨t, ht, hm⟩⟩
  rintro ⟨t, ht, hm⟩
  have hkept := keeps_of_preferConcrete hx
  rw [preferConcrete, if_neg (better_iff.1 h)] at hx
  cases x with
  | active u =>
    cases ht
    exact bne_iff_ne.1 (List.mem_filter.1 hx).2 hm
  | completed u =>
    cases ht
    exact bne_iff_ne.1 (List.mem_filter.1 hx).2 hm
  | redirected r => cases ht
  | exhausted u =>
    -- it has matched nothing
    cases ht
    rw [(hs _ hkept).1] at hm
    cases hm

theorem Without.verdict_ne (h : s.Without p) : s.verdict ≠ .leaf p := by
  intro hv
  obtain ⟨hne, hall⟩ := verdict_eq_leaf_iff.1 hv
  obtain ⟨t, ht⟩ := List.exists_mem_of_ne_nil _ hne
  exact h t ht (hall t ht)

theorem Without.default_ne (h : s.Without p) : s.default? ≠ some p := by
  intro hd
  obtain ⟨t, ht, htp⟩ := Option.map_eq_some_iff.1 hd
  exact h t (List.mem_append_left _ (List.mem_of_mem_head? ht)) htp

/-- **A production without a thread gets none with more tokens.** -/
theorem Without.next (hQ : Q.Faithful) {n : State} (h : s.Without p) (hn : Q.Next s n) : n.Without p := by
  obtain ⟨a, -, hsucc⟩ := hn
  intro u hu
  obtain ⟨x, hx, hxu⟩ := mem_deciding_iff.1 hu
  obtain ⟨t, ht, hset⟩ := exists_settles_of_keeps hsucc hx
  rw [← Settled.production_of_thread? hxu, hset.production_eq hQ]
  exact h t (List.mem_append_right _ ht)

theorem Without.reaches (hQ : Q.Faithful) {n : State} (h : s.Without p) (hn : Relation.ReflTransGen Q.Next s n) :
    n.Without p := by
  induction hn with
  | refl => exact h
  | tail _ hnext ih => exact ih.next hQ hnext

end State

/-! ## The state after one more token -/

section

variable {s m n : State}

theorem shaped_of_settle (h : Q.settle s a = .ok m) : ∀ x, m.Keeps x → x.Shaped := by
  intro x hx
  obtain ⟨t, -, hset⟩ := (keeps_settle h).1 hx
  exact hset.shaped

/-- The next state is what the threads settle to, less those that gave way. -/
theorem eq_of_settle (hm : Q.settle s a = .ok m) (hn : Q.successor s a = .ok (some n)) : n = m.preferConcrete.sortEnded := by
  obtain ⟨m', hm', e⟩ := successor_eq_ok_iff.1 hn
  cases hm.symm.trans hm'
  split at e
  · cases e
  · exact (Option.some.inj e).symm

/-- Without a better thread all are kept. -/
theorem keeps_of_not_better (hm : Q.settle s a = .ok m) (hn : Q.successor s a = .ok (some n)) (h : ¬ m.Better)
    (x : Settled) : n.Keeps x ↔ m.Keeps x := by
  rw [eq_of_settle hm hn, State.keeps_sortEnded, State.preferConcrete_eq h]

/-- With a better thread those are kept that did not match the token with the wildcard. -/
theorem keeps_of_better (hm : Q.settle s a = .ok m) (hn : Q.successor s a = .ok (some n)) (h : m.Better) (x : Settled) :
    n.Keeps x ↔ m.Keeps x ∧ ¬ x.ByWildcard := by
  rw [eq_of_settle hm hn, State.keeps_sortEnded, State.keeps_preferConcrete_iff h (shaped_of_settle hm)]

/-- **So a production that only matched the token with the wildcard has no thread left.** -/
theorem without_of_better (hm : Q.settle s a = .ok m) (hn : Q.successor s a = .ok (some n)) (h : m.Better) {p : Node}
    (hp : m.OnlyByWildcard p) : n.Without p := by
  intro t ht htp
  obtain ⟨x, hx, hxt⟩ := State.mem_deciding_iff.1 ht
  obtain ⟨hx, hw⟩ := (keeps_of_better hm hn h x).1 hx
  exact hw ⟨t, hxt, hp t (State.mem_deciding_iff.2 ⟨x, hx, hxt⟩) htp⟩

end

/-! ## Nodes that do not decide for a production -/

section

variable {p : Nat} {inherited : Option Nat}

/-- The decision neither is the production at once, nor do its nodes decide for it. -/
def Spares (p : Nat) (inherited : Option Nat) (block : Option Target × List DfaNode) : Prop :=
  block.1 ≠ some (.node p) ∧ ∀ n ∈ block.2, n.Spares p inherited

end

section

variable {p : Node} {inherited : Option Node}
  (hp : ∀ q ∈ Q.conflict.candidates, Q.grammar.number q = Q.grammar.number p → q = p)

include hp

/-- A state without threads of the production only hands it on as a default that it inherits itself. -/
theorem State.Without.inherited_eq {s : State} (h : s.Without p) (hs : s.Traced Q)
    (hd : (s.default? <|> inherited).map Q.grammar.number = some (Q.grammar.number p)) :
    inherited.map Q.grammar.number = some (Q.grammar.number p) := by
  cases he : s.default? with
  | none =>
    rw [he] at hd
    exact hd
  | some q =>
    rw [he] at hd
    exact absurd (hp q (hs.mem_default he) (Option.some.inj hd) ▸ he) h.default_ne

theorem emission_spares (hQ : Q.Faithful) : Emission Q
    (fun s inherited' => s.Traced Q ∧ s.Without p ∧ (inherited'.map Q.grammar.number = some (Q.grammar.number p) →
      inherited.map Q.grammar.number = some (Q.grammar.number p)))
    (fun _ => Spares (Q.grammar.number p) (inherited.map Q.grammar.number))
    (fun _ row => ∀ n ∈ row.2, n.Spares (Q.grammar.number p) (inherited.map Q.grammar.number)) where
  next hs hn := by
    obtain ⟨htraced, hwithout, hinherited⟩ := hs
    have hnext := hwithout.next hQ hn
    obtain ⟨a, -, hsucc⟩ := hn
    exact ⟨htraced.successor hQ hsucc, hnext, fun hd => hinherited (hwithout.inherited_eq hp htraced hd)⟩
  nothing _ := ⟨nofun, List.forall_mem_nil _⟩
  leaf {_ _ _ q} hs hv := by
    refine ⟨fun hq => ?_, List.forall_mem_nil _⟩
    have hqp := hp q (hs.1.mem_verdict hv) (Target.node.inj (Option.some.inj hq))
    exact hs.2.1.verdict_ne (hqp ▸ hv)
  switch hs _ hbelow := ⟨by simp, List.forall_mem_cons.2 ⟨fun hd => hs.2.2 (hs.2.1.inherited_eq hp hs.1 hd), hbelow⟩⟩
  test _ _ h := ⟨by simp, List.forall_mem_append.2 ⟨h.2, List.forall_mem_singleton.2 h.1⟩⟩
  nil _ := List.forall_mem_nil _
  edge token _ block h := by
    obtain ⟨_ | (d | q), nodes⟩ := block
    · exact h.2
    · exact h.2
    · refine List.forall_mem_append.2 ⟨h.2, List.forall_mem_singleton.2 ?_⟩
      rintro rfl
      exact h.1 rfl
  append h h' := List.forall_mem_append.2 ⟨h, h'⟩

/-- **The nodes of a state without threads of a production do not decide for it.** -/
theorem spares_emit (hQ : Q.Faithful) (k start : Nat) {s : State} (hs : s.Traced Q) (h : s.Without p) :
    Spares (Q.grammar.number p) (inherited.map Q.grammar.number) (Q.emit k start s inherited) :=
  (emission_spares hp hQ).emit k start ⟨hs, h, id⟩

end

/-! ## Candidates that match the token itself -/

/-- The items come to the token itself. -/
structure Opens (g : Grammar) (a : Nat) (is : List Item) : Prop where
  hasItem : ∀ i ∈ is, g.HasItem i
  linked : g.analyze.Linked g is
  opens : ∃ js, g.Leads is [] (.token a :: js)

namespace Opens

variable {g : Grammar} {i : Item} {is : List Item}

theorem silent (h : Opens g a (i :: is)) (hi : i.isTransparent = true) : Opens g a is := by
  obtain ⟨js, hl⟩ := h.opens
  exact ⟨fun j hj => h.hasItem j (List.mem_cons_of_mem _ hj), h.linked.2, js, hl.of_silent hi⟩

theorem token {x : Nat} (h : Opens g a (.token x :: is)) : x = a := by
  obtain ⟨js, hl⟩ := h.opens
  exact hl.eq_of_token

theorem symbol {s : Nat} (hg : g.WellFormed) (h : Opens g a (.symbol s :: is)) (ha : g.IsInput a) :
    ∃ p ∈ ((PredictionTable.fill g g.analyze).cell s a).candidates, Opens g a (g.items p ++ is) := by
  obtain ⟨js, hl⟩ := h.opens
  have his := (List.forall_mem_cons.1 h.hasItem).2
  obtain ⟨p, hp, hl⟩ := hl.exists_alternative
  refine ⟨p, mem_candidates_of_leads hg ha his h.linked hp hl (accepts_self a), ?_, ?_, js, hl⟩
  · exact List.forall_mem_append.2 ⟨fun i => hg.hasItem_alt hp, his⟩
  · exact h.linked.leads hg.closed hg (.symbol hp (.refl _))

/-- **Threads whose items come to the token itself are led to match it so.** -/
theorem leading (hg : g.WellFormed) (ha : g.IsInput a) : Leading g a (Opens g a) (· = .concrete) where
  nil h := by
    obtain ⟨js, hl⟩ := h.opens
    cases hl
  silent := silent
  token h := ⟨.concrete, by simp [Thread.matchToken, h.token], by simp, rfl⟩
  symbol h := h.symbol hg ha

end Opens

/-- **After the first token a candidate that can begin with it has a thread that waits for a resolver or has matched it
itself.** -/
theorem Posed.exists_concrete (hQ : Posed Q) {n : State} (hn : Q.successor Q.root Q.conflict.token = .ok (some n)) {q : Node}
    (hq : q ∈ Q.conflict.candidates) (hbegin : Q.grammar.CanBegin (Q.grammar.items q) Q.conflict.token) :
    ∃ x, n.Keeps x ∧ x.production = q ∧ ∀ u, x.thread? = some u → u.matched = .concrete := by
  obtain ⟨i, hi⟩ := List.mem_iff_getElem?.1 hq
  have ht := mem_active_root.2 ⟨i, q, hi, rfl⟩
  have hnode : Q.grammar.HasNode q := by
    refine hQ.wellFormed.hasNode_alt (hQ.faithful Q.conflict.symbol Q.conflict.token q ?_)
    rw [hQ.cell]
    exact hq
  have hopens : Opens Q.grammar Q.conflict.token (Q.grammar.items q) := by
    refine ⟨fun i => hQ.wellFormed.hasItem_items hnode, hQ.wellFormed.closed.linked_items hnode, ?_⟩
    exact hQ.wellFormed.sound.first q hnode _ ((Grammar.mem_first_iff_begins hQ.wellFormed hnode).2 hbegin)
  rw [← List.flatMap_singleton Q.grammar.items q] at hopens
  have hleads := Opens.leading hQ.wellFormed hQ.isInput
  obtain ⟨x, hx, hxm⟩ := (expands_of_successor hn _ ht).exists_settles_of_leading hQ.table hleads rfl hopens
  obtain ⟨_, e, hkeep⟩ := exists_keeps_of_settles hn ht hx fun u hu => by rw [hxm u hu]; decide
  cases e
  exact ⟨x, hkeep, hx.production_eq hQ.faithful, hxm⟩

/-- A test for a production stays in a chain to which more tests are added. -/
theorem exists_mem_foldl_addLink {q : Node} (rs : List Redirect) (chain : List Link)
    (h : (∃ l ∈ chain, l.production = q) ∨ ∃ r ∈ rs, r.production = q) :
    ∃ l ∈ rs.foldl addLink chain, l.production = q := by
  induction rs generalizing chain with
  | nil =>
    obtain h | ⟨r, hr, -⟩ := h
    · exact h
    · exact absurd hr List.not_mem_nil
  | cons r rs ih =>
    rw [List.foldl_cons]
    have hkept : ∀ l ∈ chain, l ∈ addLink chain r := by
      intro l hl
      unfold addLink
      dsimp only
      split
      · exact hl
      · exact List.mem_cons_of_mem _ hl
    have hadded : ∃ l ∈ addLink chain r, l.production = r.production := by
      unfold addLink
      dsimp only
      split
      · next hskip =>
        rw [Bool.or_eq_true] at hskip
        rcases hskip with hskip | hskip
        · obtain ⟨l, hl, hlr⟩ := List.any_eq_true.1 hskip
          rw [Bool.and_eq_true, beq_iff_eq, beq_iff_eq] at hlr
          exact ⟨l, hl, hlr.2⟩
        · cases chain with
          | nil => cases hskip
          | cons l chain => exact ⟨l, List.mem_cons_self, beq_iff_eq.1 hskip⟩
      · exact ⟨_, List.mem_cons_self, rfl⟩
    refine ih _ ?_
    obtain ⟨l, hl, hlq⟩ | ⟨r', hr', hrq⟩ := h
    · exact .inl ⟨l, hkept l hl, hlq⟩
    · rcases List.mem_cons.1 hr' with rfl | hr'
      · obtain ⟨l, hl, hlr⟩ := hadded
        exact .inl ⟨l, hl, hlr.trans hrq⟩
      · exact .inr ⟨r', hr', hrq⟩

/-- If a state decides without a test, all threads that wait for a resolver belong to the production that it decides for. -/
theorem State.production_of_reversedChain {s : State} {p : Node} (hv : s.verdict = .leaf p) (hchain : s.reversedChain = []) :
    ∀ r ∈ s.redirected, r.production = p := by
  intro r hr
  obtain ⟨l, hl, hlr⟩ := exists_mem_foldl_addLink (s.redirected.mergeSort Redirect.before) []
    (.inr ⟨r, List.mem_mergeSort.2 hr, rfl⟩)
  unfold reversedChain at hchain
  rw [hv] at hchain
  exact hlr.symm.trans (beq_iff_eq.1 (List.dropWhile_eq_nil_iff.1 hchain l hl))

/-- **A conflict that its token decides is decided for every candidate that can begin with the token itself.** -/
theorem Posed.eq_of_resolve (hQ : Posed Q) {start : Nat} {p q : Node} {asked : List Nat}
    (hr : Q.resolve start = .ok (.production p, asked)) (hq : q ∈ Q.conflict.candidates)
    (hbegin : Q.grammar.CanBegin (Q.grammar.items q) Q.conflict.token) : q = p := by
  obtain ⟨n, hn, hv, hchain⟩ := exists_successor_of_resolve hr
  obtain ⟨x, hx, rfl, -⟩ := hQ.exists_concrete hn hq hbegin
  cases hxt : x.thread? with
  | none =>
    cases x <;> cases hxt
    exact State.production_of_reversedChain hv hchain _ hx
  | some t =>
    rw [Settled.production_of_thread? hxt]
    exact State.production_eq_of_verdict hv (State.mem_deciding_iff.2 ⟨x, hx, hxt⟩)

end Decision

namespace Grammar

open Decision

variable {g : Grammar}

/-- **The wildcard is a fallback,** with every token of a decision. Where no thread does better than to match the token with
the wildcard, all threads are kept. Where one does, those that matched it with the wildcard are not, and a production that is
left without a thread so is neither the verdict nor the default of the state or of one below it; what is emitted for the state
does not decide for it, except after a test or by a default from above. A conflict that its token decides is decided for every
candidate that can begin with the token itself. -/
theorem wildcard_gives_way (hg : g.WellFormed) (limits : Limits) {s t : Nat} {c : Conflict}
    (hcell : (PredictionTable.fill g g.analyze).cell s t = .conflict c) :
    let Q := g.problem limits c
    (∀ s a m n, Q.Reachable s → a ∈ Q.tokensAt s → Q.settle s a = .ok m → Q.successor s a = .ok (some n) →
      (¬ m.Better → ∀ x, n.Keeps x ↔ m.Keeps x) ∧
      (m.Better → (∀ x, n.Keeps x ↔ m.Keeps x ∧ ¬ x.ByWildcard) ∧
        ∀ p ∈ c.candidates, m.OnlyByWildcard p →
          (∀ d, Relation.ReflTransGen Q.Next n d → d.verdict ≠ .leaf p ∧ d.default? ≠ some p) ∧
            ∀ k start inherited, Spares (g.number p) (inherited.map g.number) (Q.emit k start n inherited))) ∧
    ∀ start p asked, Q.resolve start = .ok (.production p, asked) →
      ∀ q ∈ c.candidates, g.CanBegin (g.items q) t → q = p := by
  intro Q
  have hposed : Posed Q := posed_of_cell hg limits hcell
  obtain ⟨-, -, -, ht⟩ := PredictionTable.conflict_fill hcell
  have hnode : ∀ q ∈ c.candidates, g.HasNode q := fun q hq =>
    hg.hasNode_alt ((PredictionTable.mem_conflict hcell).1 hq).1
  refine ⟨fun s a m n hs ha hm hn => ⟨keeps_of_not_better hm hn, fun hbetter => ?_⟩, ?_⟩
  · refine ⟨keeps_of_better hm hn hbetter, fun p hp honly => ?_⟩
    have hwithout := without_of_better hm hn hbetter honly
    refine ⟨fun d hd => ?_, fun k start inherited => ?_⟩
    · have hbelow := hwithout.reaches hposed.faithful hd
      exact ⟨hbelow.verdict_ne, hbelow.default_ne⟩
    · have hreach : Q.Reachable n := hs.tail ⟨a, ha, hn⟩
      refine spares_emit (fun q hq => ?_) hposed.faithful k start (hreach.traced hposed.faithful) hwithout
      exact number_injective (hnode q hq) (hnode p hp)
  · intro start p asked hr q hq hbegin
    exact hposed.eq_of_resolve hr hq (ht ▸ hbegin)

/-- The grammar `S → a $any | a b`, whose first alternative only matches `a b` with the wildcard. -/
def shadowed : Grammar where
  tokens := .letters
  symbols := #[{ name := "S", alts := [.sequence 0, .sequence 1] }]
  sequences := #[[.token 2, .token 1], [.token 2, .token 3]]
  actions := {}
  arguments := {}
  beacons := {}
  start := 0

namespace shadowed

/-- The conflict of its alternatives. -/
def conflict : Conflict :=
  ⟨0, 2, [.sequence 0, .sequence 1]⟩

/-- The state after an `a`. -/
def first : State where
  path := [2]
  active := [⟨.sequence 0, 0, [Item.token 1], .concrete, 0⟩, ⟨.sequence 1, 1, [Item.token 3], .concrete, 0⟩]

/-- What its threads settle to on a `b`. -/
def settled : State where
  path := [3, 2]
  completed := [⟨.sequence 0, 0, [], .wildcard, 0⟩, ⟨.sequence 1, 1, [], .concrete, 0⟩]

/-- The state after `a b`. -/
def second : State where
  path := [3, 2]
  completed := [⟨.sequence 1, 1, [], .concrete, 0⟩]

end shadowed

/-- On `a b` no leaf is left for its first alternative. On an `a` alone, `$any b` gives way to `a a`. -/
theorem shadowed_gives_way : let Q := shadowed.problem {} shadowed.conflict
    (Q.settle shadowed.first 3 = .ok shadowed.settled ∧ shadowed.settled.Better ∧
      shadowed.settled.OnlyByWildcard (.sequence 0) ∧ shadowed.second.verdict ≠ .leaf (.sequence 0) ∧
      ∀ k start, Spares (shadowed.number (.sequence 0)) none (Q.emit k start shadowed.second none)) ∧
    ∀ q ∈ wildcards.conflict.candidates, wildcards.CanBegin (wildcards.items q) 2 → q = .sequence 1 := by
  intro Q
  have hcell : (PredictionTable.fill shadowed shadowed.analyze).cell 0 2 = .conflict shadowed.conflict := by decide +kernel
  have hfirst : Q.successor Q.root 2 = .ok (some shadowed.first) := by decide +kernel
  have hsettled : Q.settle shadowed.first 3 = .ok shadowed.settled := by decide +kernel
  have hsecond : Q.successor shadowed.first 3 = .ok (some shadowed.second) := by decide +kernel
  have hbetter : shadowed.settled.Better := .inr ⟨⟨.sequence 1, 1, [], .concrete, 0⟩, by decide, rfl⟩
  have honly : shadowed.settled.OnlyByWildcard (.sequence 0) := by
    unfold State.OnlyByWildcard
    decide
  obtain ⟨hstates, -⟩ := wildcard_gives_way (by decide) {} hcell
  have hreach : Q.Reachable shadowed.first := .tail .refl ⟨2, by decide, hfirst⟩
  obtain ⟨-, hgiven⟩ := hstates shadowed.first 3 _ _ hreach (by decide +kernel) hsettled hsecond
  obtain ⟨hbelow, hspares⟩ := (hgiven hbetter).2 (.sequence 0) (by decide) honly
  have hcell' : (PredictionTable.fill wildcards wildcards.analyze).cell 0 2 = .conflict wildcards.conflict := by
    decide +kernel
  have hresolve : (wildcards.problem {} wildcards.conflict).resolve 0 = .ok (.production (.sequence 1), []) := by decide +kernel
  obtain ⟨-, hproduction⟩ := wildcard_gives_way (by decide) {} hcell'
  exact ⟨⟨hsettled, hbetter, honly, (hbelow _ .refl).1, fun k start => hspares k start none⟩, hproduction 0 _ [] hresolve⟩

end Grammar

end PredictiveParser
