import PredictiveParser.Proofs.Decision.Faults
import PredictiveParser.Proofs.Decision.LeftRecursion
import PredictiveParser.Proofs.Filling

/-!
# Every candidate survives the first token

A conflict is only ever left unresolved if no thread outlives its token. That never happens: the items of a candidate meet
the token, which means that they come to a terminal that accepts it, or match nothing where the token may follow
(`meets_of_mem_candidates`). A thread whose items meet the token goes on to one whose items do, since the table leaves the
alternative that this takes possible (`Meets.symbol`), until it settles (`Expands.exists_settles_of_leading`). So after the
first step every candidate has a thread (`alive_of_settle`), and no fault of building is a conflict left unresolved
(`resolved_of_build`).
-/

namespace PredictiveParser

namespace Decision

variable {Q : Problem} {g : Grammar} {a : Nat} {first : Bool}

/-! ## Items that meet a token -/

/-- The table leaves an alternative possible with which the items come to a terminal that accepts the token. -/
theorem mem_candidates_of_leads {s x : Nat} {p : Node} {is js : List Item} (hg : g.WellFormed) (ha : g.IsInput a)
    (hitems : ∀ i ∈ is, g.HasItem i) (hlinked : g.analyze.Linked g (.symbol s :: is)) (hp : p ∈ (g.symbol s).alts)
    (hl : g.Leads (g.items p ++ is) [] (.token x :: js)) (hacc : accepts x a = true) :
    p ∈ ((PredictionTable.fill g g.analyze).cell s a).candidates := by
  have hF := hg.closed
  have hn := hg.hasNode_alt hp
  have hall : ∀ i ∈ g.items p ++ is, g.HasItem i := List.forall_mem_append.2 ⟨fun i => hg.hasItem_alt hp, hitems⟩
  rw [PredictionTable.mem_candidates ha.1, Facts.mem_selection_iff ha.1 ha.2]
  refine ⟨hp, ?_⟩
  rcases Facts.mem_firstOf_append.1 (hF.mem_firstOf hg hall hl) with hx | ⟨hnull, hx⟩
  · exact .inl ⟨x, hF.first p hn x hx, hacc⟩
  · exact .inr ⟨hF.nullable p hn hnull, .inl ⟨x, hlinked.1 x hx, hacc⟩⟩

/-- The items meet the token: they come to a terminal that accepts it, or match nothing and it can follow all of them. -/
structure Meets (g : Grammar) (a : Nat) (is : List Item) : Prop where
  hasItem : ∀ i ∈ is, g.HasItem i
  linked : g.analyze.Linked g is
  meets : (∃ x js, accepts x a = true ∧ g.Leads is [] (.token x :: js)) ∨
    g.Derives is [] ∧ ∀ i ∈ is, g.analyze.MayFollow g (.item i) a

namespace Meets

variable {i : Item} {is : List Item}

/-- Dropping an item that matches nothing. -/
theorem silent (h : Meets g a (i :: is)) (hi : i.isTransparent = true) : Meets g a is := by
  refine ⟨fun j hj => h.hasItem j (List.mem_cons_of_mem _ hj), h.linked.2, ?_⟩
  rcases h.meets with ⟨x, js, hacc, hl⟩ | ⟨hd, hfollow⟩
  · exact .inl ⟨x, js, hacc, hl.of_silent hi⟩
  · exact .inr ⟨(Grammar.derives_silent_iff hi).1 hd, (List.forall_mem_cons.1 hfollow).2⟩

/-- A terminal at the front accepts the token. -/
theorem token {x : Nat} (h : Meets g a (.token x :: is)) : accepts x a = true := by
  rcases h.meets with ⟨y, js, hacc, hl⟩ | ⟨hd, -⟩
  · exact hl.eq_of_token ▸ hacc
  · obtain ⟨_, _, h, -⟩ := Grammar.derives_token_iff.1 hd
    cases h

/-- **A symbol at the front has a candidate with which the items meet the token.** -/
theorem symbol {s : Nat} (hg : g.WellFormed) (h : Meets g a (.symbol s :: is)) (ha : g.IsInput a) :
    ∃ p ∈ ((PredictionTable.fill g g.analyze).cell s a).candidates, Meets g a (g.items p ++ is) := by
  have hF := hg.closed
  have his := (List.forall_mem_cons.1 h.hasItem).2
  have expanded : ∀ {p}, p ∈ (g.symbol s).alts → (∀ i ∈ g.items p ++ is, g.HasItem i) ∧
      g.analyze.Linked g (g.items p ++ is) := fun hp =>
    ⟨List.forall_mem_append.2 ⟨fun i => hg.hasItem_alt hp, his⟩, h.linked.leads hF hg (.symbol hp (.refl _))⟩
  rcases h.meets with ⟨x, js, hacc, hl⟩ | ⟨hd, hfollow⟩
  · obtain ⟨p, hp, hl⟩ := hl.exists_alternative
    refine ⟨p, mem_candidates_of_leads hg ha his h.linked hp hl hacc, (expanded hp).1, (expanded hp).2, .inl ?_⟩
    exact ⟨x, js, hacc, hl⟩
  · obtain ⟨p, hp, hd⟩ := Grammar.derives_symbol_iff.1 hd
    have hp' := (Grammar.derives_append_nil.1 hd).1
    have hs := hfollow (.symbol s) List.mem_cons_self
    refine ⟨p, (PredictionTable.mem_candidates ha.1).2 ⟨hp, ?_⟩, (expanded hp).1, (expanded hp).2, .inr ⟨hd, ?_⟩⟩
    · rw [Facts.mem_selection_iff ha.1 ha.2]
      exact .inr ⟨hF.nullable p (hg.hasNode_alt hp) (hF.nullable_firstOf hg (fun i => hg.hasItem_alt hp) hp'), hs⟩
    · exact List.forall_mem_append.2 ⟨hs.items hg.closed hg hp hp', (List.forall_mem_cons.1 hfollow).2⟩

end Meets

/-- **The items of a candidate meet the token.** -/
theorem meets_of_mem_candidates (hg : g.WellFormed) (ha : g.IsInput a) {s : Nat} {p : Node}
    (hp : p ∈ ((PredictionTable.fill g g.analyze).cell s a).candidates) : Meets g a (g.items p) := by
  obtain ⟨halt, hsel⟩ := (PredictionTable.mem_candidates ha.1).1 hp
  have hn := hg.hasNode_alt halt
  refine ⟨fun i => hg.hasItem_alt halt, hg.closed.linked_items hn, ?_⟩
  rcases (Facts.mem_selection_iff ha.1 ha.2).1 hsel with ⟨x, hx, hacc⟩ | ⟨hnull, hs⟩
  · obtain ⟨js, hl⟩ := hg.sound.first p hn x hx
    exact .inl ⟨x, js, hacc, hl⟩
  · have hd := hg.sound.nullable p hn hnull
    exact .inr ⟨hd, hs.items hg.closed hg halt hd⟩

/-! ## Threads that settle -/

/-- A terminal that accepts a token matches it. -/
theorem exists_matchToken {x : Nat} (h : accepts x a = true) : ∃ m, Thread.matchToken x a = some m ∧ m ≠ .pending := by
  unfold Thread.matchToken
  by_cases e : x = a
  · exact ⟨.concrete, if_pos e, by decide⟩
  · have hany : x = anyToken ∧ a ≠ endToken := by
      unfold accepts at h
      split at h
      · next hx => exact ⟨hx, by simpa using h⟩
      · exact absurd (beq_iff_eq.1 h).symm e
    exact ⟨.wildcard, by rw [if_neg e, if_pos hany], by decide⟩

/-- A thread that has matched the token settles, and has still matched it in the same way. -/
theorem Expands.exists_settles_of_ne {t : Thread} (h : Expands Q a first t) (hm : t.matched ≠ .pending) :
    ∃ x, Settles Q a first t x ∧ ∀ u, x.thread? = some u → u.matched = t.matched := by
  induction h with | @intro t _ _ ih
  have here : ∀ {x : Settled}, t.advance Q a first = .settled x →
      ∃ x, Settles Q a first t x ∧ ∀ u, x.thread? = some u → u.matched = t.matched := fun hx =>
    ⟨_, .settled hx, fun u hu => congrArg Thread.matched ((advance_settled hx).2.2 u hu)⟩
  obtain hs | ⟨u, hu, hum, -⟩ | ⟨x, rest, hs⟩ | ⟨s, rest, hs⟩ := advance_items Q a first t
  · have hadv : t.advance Q a first = .settled (.completed t) := by
      rw [Thread.advance, hs]
      exact congrArg _ (if_neg hm)
    exact here hadv
  · obtain ⟨x, hx, hxm⟩ := ih _ hu u List.mem_cons_self (hum ▸ hm)
    exact ⟨x, .threads hu List.mem_cons_self hx, hum ▸ hxm⟩
  · have hadv : t.advance Q a first = .settled (.active t) := by
      rw [Thread.advance, hs]
      exact if_neg hm
    exact here hadv
  · have hadv : t.advance Q a first = .settled (.active t) := by
      rw [Thread.advance, hs]
      exact if_neg hm
    exact here hadv

/-- A thread is led by a property of its items, to a match of the token with `K`: an item that matches nothing can be dropped, a
terminal matches the token so, and the table leaves an alternative of a symbol possible with which the items have the property
again. Without any items the thread ends before the token. -/
structure Leading (g : Grammar) (a : Nat) (M : List Item → Prop) (K : Match → Prop) : Prop where
  nil : M [] → K .pending
  silent : ∀ {i is}, M (i :: is) → i.isTransparent = true → M is
  token : ∀ {x is}, M (.token x :: is) → ∃ m, Thread.matchToken x a = some m ∧ m ≠ .pending ∧ K m
  symbol : ∀ {s is}, M (.symbol s :: is) →
    ∃ p ∈ ((PredictionTable.fill g g.analyze).cell s a).candidates, M (g.items p ++ is)

/-- **A thread that is led so settles,** if it does not wait for a resolver. -/
theorem Expands.exists_settles_of_leading {M : List Item → Prop} {K : Match → Prop} {t : Thread}
    (h : Expands Q a first t) (htable : Q.table = .fill Q.grammar Q.grammar.analyze) (hM : Leading Q.grammar a M K)
    (hm : t.matched = .pending) (hitems : M (t.items Q.grammar)) :
    ∃ x, Settles Q a first t x ∧ ∀ u, x.thread? = some u → K u.matched := by
  induction h with | @intro t hdeep hall ih
  obtain hs | ⟨u, hu, hum, hrest⟩ | ⟨x, rest, hs⟩ | ⟨s, rest, hs⟩ := advance_items Q a first t
  · rw [Thread.items, hs] at hitems
    have hadv : t.advance Q a first = .settled (.exhausted t) := by
      rw [Thread.advance, hs]
      exact congrArg _ (if_pos hm)
    refine ⟨_, .settled hadv, fun u hu => ?_⟩
    cases hu
    rw [hm]
    exact hM.nil hitems
  · have hitems' : M (u.items Q.grammar) := by
      rcases hrest with e | ⟨i, hi, e⟩
      · rwa [e]
      · rw [e] at hitems
        exact hM.silent hitems hi
    obtain ⟨x, hx, hxK⟩ := ih _ hu u List.mem_cons_self (hum.trans hm) hitems'
    exact ⟨x, .threads hu List.mem_cons_self hx, hxK⟩
  · rw [Thread.items, hs, List.flatMap_cons] at hitems
    obtain ⟨m, hmatch, hne, hK⟩ := hM.token hitems
    have hadv : t.advance Q a first = .threads [{ t with stack := rest, matched := m }] := by
      rw [Thread.advance, hs]
      simp [hm, hmatch]
    obtain ⟨y, hy, hym⟩ := (hall _ hadv _ List.mem_cons_self).exists_settles_of_ne hne
    exact ⟨y, .threads hadv List.mem_cons_self hy, fun u hu => (hym u hu).symm ▸ hK⟩
  · have hadv : t.advance Q a first = t.advanceSymbol Q a first s rest := by
      rw [Thread.advance, hs]
      exact if_pos hm
    cases hr : if first then (Q.grammar.symbol s).resolver else none with
    | some r =>
      refine ⟨.redirected ⟨t.production, t.order, s, r⟩, .settled (hadv.trans ?_), fun u hu => ?_⟩
      · rw [Thread.advanceSymbol, hr]
      · cases hu
    | none =>
      rw [Thread.items, hs, List.flatMap_cons] at hitems
      obtain ⟨p, hp, hitems'⟩ := hM.symbol hitems
      rw [hadv] at hdeep
      obtain ⟨us, n, hus, hmem⟩ := mem_advanceSymbol hr (htable ▸ hp) hdeep
      obtain ⟨y, hy, hyK⟩ := ih _ (hadv.trans hus) _ hmem hm hitems'
      exact ⟨y, .threads (hadv.trans hus) hmem hy, hyK⟩

/-- Threads whose items meet the token are led to one match or another. -/
theorem Meets.leading (hg : g.WellFormed) (ha : g.IsInput a) : Leading g a (Meets g a) fun _ => True where
  nil _ := trivial
  silent := Meets.silent
  token h := by
    obtain ⟨m, hmatch, hne⟩ := exists_matchToken h.token
    exact ⟨m, hmatch, hne, trivial⟩
  symbol h := h.symbol hg ha

/-! ## The first step -/

/-- A thread of the candidate is left: it goes on, waits for a resolver, or has ended with the token or before it. -/
def State.Alive (s : State) (p : Node) : Prop :=
  ∃ x, s.Keeps x ∧ x.production = p

/-- The token of a conflict can be one of the input, for nothing competes for the wildcard itself. -/
theorem isInput_of_cell {s t : Nat} {c : Conflict} (h : (PredictionTable.fill g g.analyze).cell s t = .conflict c) :
    g.IsInput t := by
  obtain ⟨hs, hlt, -⟩ := PredictionTable.conflict_fill h
  refine ⟨hlt, fun e => ?_⟩
  rw [PredictionTable.cell_fill hs hlt, Grammar.competing_eq_contenders hlt, e, Grammar.contenders_anyToken] at h
  cases h

/-- The problem is that of a cell of the prediction table. -/
structure Posed (Q : Problem) : Prop where
  wellFormed : Q.grammar.WellFormed
  table : Q.table = .fill Q.grammar Q.grammar.analyze
  cell : Q.table.cell Q.conflict.symbol Q.conflict.token = .conflict Q.conflict

namespace Posed

theorem isInput (hQ : Posed Q) : Q.grammar.IsInput Q.conflict.token := by
  have hcell := hQ.cell
  rw [hQ.table] at hcell
  exact isInput_of_cell hcell

theorem faithful (hQ : Posed Q) : Q.Faithful :=
  Problem.faithful_of_table hQ.table

/-- **After the first step every candidate has a thread**, unless the step led through too many conflicts or cost too
much. -/
theorem alive_of_settle (hQ : Posed Q) :
    (∃ e, Q.settle Q.root Q.conflict.token = .error e ∧ (e = Q.depthExceeded ∨ e = Q.expansionExceeded)) ∨
      ∃ next, Q.settle Q.root Q.conflict.token = .ok next ∧ ∀ p ∈ Q.conflict.candidates, next.Alive p := by
  cases hsettle : Q.settle Q.root Q.conflict.token with
  | error e => exact .inl ⟨e, rfl, settle_eq_error hsettle⟩
  | ok next =>
    refine .inr ⟨next, rfl, fun p hp => ?_⟩
    obtain ⟨i, hi, rfl⟩ := List.getElem_of_mem hp
    -- the thread that starts from the candidate
    obtain ⟨t, ht⟩ : ∃ t : Thread, t = ⟨Q.conflict.candidates[i], i, [Q.conflict.candidates[i]], .pending, 0⟩ := ⟨_, rfl⟩
    have hactive : t ∈ Q.root.active := mem_active_root.2 ⟨i, _, List.getElem?_eq_getElem hi, ht⟩
    have hmeets : Meets Q.grammar Q.conflict.token (t.fresh.items Q.grammar) := by
      have hcell := hQ.cell
      rw [hQ.table] at hcell
      rw [ht, Thread.fresh, Thread.items, List.flatMap_singleton]
      exact meets_of_mem_candidates hQ.wellFormed hQ.isInput (by rw [hcell]; exact hp)
    obtain ⟨x, hx, -⟩ := (expands_of_settle hsettle t hactive).exists_settles_of_leading hQ.table
      (Meets.leading hQ.wellFormed hQ.isInput) rfl hmeets
    refine ⟨x, (keeps_settle hsettle).2 ⟨t, hactive, hx⟩, ?_⟩
    rw [hx.production_eq hQ.faithful, ht]
    rfl

/-- So the first step leads to a state. -/
theorem successor_root (hQ : Posed Q) : Q.successor Q.root Q.conflict.token ≠ .ok none := by
  intro h
  obtain ⟨next, hnext, h⟩ := successor_eq_ok_iff.1 h
  obtain ⟨e, he, -⟩ | ⟨next', hnext', halive⟩ := hQ.alive_of_settle
  · cases hnext.symm.trans he
  · cases hnext.symm.trans hnext'
    have hcell := hQ.cell
    rw [hQ.table] at hcell
    obtain ⟨p, hp, -⟩ := PredictionTable.exists_candidates hcell
    obtain ⟨x, hx, -⟩ := halive p hp
    split at h
    · next hdead => exact State.not_keeps_of_isDead hdead hx
    · cases h

/-- The decision goes through a state. -/
theorem reached_ne_nil (hQ : Posed Q) : Q.reached ≠ .ok [] := by
  intro h
  obtain ⟨k, css, more, -, hcss, -, hstates⟩ := survey_eq_ok_iff.1 h
  obtain ⟨cs, _, hcs, -, rfl⟩ := List.forall₂_cons_left_iff.1 hcss
  obtain ⟨next?, hvisit, hmem⟩ := visit_of_children hcs (t := Q.conflict.token) (by simp [Problem.tokensAt, Problem.root])
  have hcs' : cs = [] := by
    rw [List.flatten_cons, List.append_assoc] at hstates
    exact (List.append_eq_nil_iff.1 hstates).1
  cases next? with
  | none => exact hQ.successor_root (visit_eq_ok_iff.1 hvisit).1
  | some n =>
    have hn := hmem n rfl
    rw [hcs'] at hn
    cases hn

end Posed

/-! ## Faults -/

/-- The fault is a conflict that is left unresolved. -/
def Unresolved {α : Type} (r : Except GrammarError α) : Prop :=
  ∃ symbol token, r = .error (.unresolvedConflict symbol token)

/-- **A conflict of the prediction table is never left unresolved.** -/
theorem Posed.not_unresolved_resolve (hQ : Posed Q) (start : Nat) : ¬ Unresolved (Q.resolve start) := by
  rintro ⟨symbol, token, h⟩
  have hcell := hQ.cell
  rw [hQ.table] at hcell
  obtain hfault | ⟨hnil, -⟩ := resolve_eq_error h (isUndecided_root hcell)
  · cases hfault
  · exact hQ.reached_ne_nil hnil

end Decision

namespace Grammar

open Decision

variable {g : Grammar}

/-- A conflict of a cell of the prediction table poses a problem. -/
theorem posed_of_cell (hg : g.WellFormed) (limits : Limits) {s t : Nat} {c : Conflict}
    (h : (PredictionTable.fill g g.analyze).cell s t = .conflict c) : Posed (g.problem limits c) := by
  obtain ⟨-, -, rfl, rfl⟩ := PredictionTable.conflict_fill h
  exact ⟨hg, rfl, h⟩

/-- **No conflict is left unresolved.** Whatever the limits, building does not fail for a conflict that is left unresolved.
In the first step of every conflict each candidate keeps a thread, before those give way that matched the token with the
wildcard, unless the step leads through too many conflicts or costs too much. -/
theorem resolved_of_build (hg : g.WellFormed) (limits : Limits) :
    (∀ symbol token, g.build limits ≠ .error (.unresolvedConflict symbol token)) ∧
    ∀ s t c, (PredictionTable.fill g g.analyze).cell s t = .conflict c →
      let Q := g.problem limits c
      (∃ e, Q.settle Q.root t = .error e ∧ (e = Q.depthExceeded ∨ e = Q.expansionExceeded)) ∨
        ∃ next, Q.settle Q.root t = .ok next ∧ ∀ p ∈ c.candidates, next.Alive p := by
  refine ⟨fun symbol token hb => ?_, fun s t c hc => ?_⟩
  · obtain h | ⟨s, t, c, start, hc, h⟩ | ⟨D, -, h⟩ := build_eq_error hb
    · obtain ⟨_, _, ⟨_, h⟩ | h⟩ := fault_of_validate h <;> cases h
    · exact (posed_of_cell hg limits hc).not_unresolved_resolve start ⟨symbol, token, h⟩
    · obtain ⟨_, _, h⟩ := fault_of_validateResolvers h
      cases h
  · intro Q
    have hposed := posed_of_cell hg limits hc
    obtain ⟨-, -, -, ht⟩ := PredictionTable.conflict_fill hc
    exact ht ▸ hposed.alive_of_settle

/-- The grammar `S → $any b | a a`, whose alternatives compete for `a`. -/
def wildcards : Grammar where
  tokens := .letters
  symbols := #[{ name := "S", alts := [.sequence 0, .sequence 1] }]
  sequences := #[[.token 1, .token 3], [.token 2, .token 2]]
  actions := {}
  arguments := {}
  beacons := {}
  start := 0

/-- The conflict of its alternatives on an `a`. -/
def wildcards.conflict : Conflict :=
  ⟨0, 2, [.sequence 0, .sequence 1]⟩

/-- Both alternatives have a thread at first, and only the second is left when the wildcard has given way. -/
theorem wildcards_resolved : let Q := wildcards.problem {} wildcards.conflict
    (∃ next, Q.settle Q.root 2 = .ok next ∧ next.Alive (.sequence 0) ∧ next.Alive (.sequence 1) ∧
      next.preferConcrete.verdict = .leaf (.sequence 1)) ∧
    ∀ symbol token, wildcards.build ≠ .error (.unresolvedConflict symbol token) := by
  intro Q
  obtain ⟨hbuild, hstep⟩ := resolved_of_build (g := wildcards) (by decide) {}
  have hcell : (PredictionTable.fill wildcards wildcards.analyze).cell 0 2 = .conflict wildcards.conflict := by
    decide +kernel
  have hleaf : ((Q.settle Q.root 2).toOption.map fun next => next.preferConcrete.verdict) =
      some (.leaf (.sequence 1)) := by decide +kernel
  refine ⟨?_, hbuild⟩
  obtain ⟨e, he, -⟩ | ⟨next, hnext, halive⟩ := hstep 0 2 _ hcell
  · rw [he] at hleaf
    cases hleaf
  · rw [hnext] at hleaf
    exact ⟨next, hnext, halive _ (by decide), halive _ (by decide), Option.some.inj hleaf⟩

end Grammar

end PredictiveParser
