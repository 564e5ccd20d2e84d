import PredictiveParser.Proofs.Decision.Limits
import PredictiveParser.Proofs.Grammar.Reordering

/-!
# The order of candidates

The order of the candidates of a conflict only shows in the order of threads and in the place that a thread remembers.
Threads that are the same without their places advance in the same way (`Thread.bare`, `advance_reordered`), and an
expansion of the same threads in another order costs as much and leaves the same threads (`Expansion.reordered`). So states
that hold the same threads have the same verdict, and the same default where they are not split, and a problem is simulated
by the same problem with its candidates in another order (`Problem.Reordered.simulates`).
-/

namespace PredictiveParser

namespace Decision

variable {Q Q' : Problem} {a : Nat} {first : Bool}

/-! ## Lists in another order -/

section Perm

variable {α β : Type} {f : α → β}

/-- Lists of the same values hold a value at some places each. -/
theorem exists_of_perm_cons {x : α} {xs xs' : List α} (h : (xs'.map f).Perm (f x :: xs.map f)) :
    ∃ l x' r, xs' = l ++ x' :: r ∧ f x' = f x ∧ ((l ++ r).map f).Perm (xs.map f) := by
  obtain ⟨x', hx', e⟩ := List.mem_map.1 (h.mem_iff.2 List.mem_cons_self)
  obtain ⟨l, r, rfl⟩ := List.append_of_mem hx'
  refine ⟨l, x', r, rfl, e, ?_⟩
  rw [List.map_append, List.map_cons, e] at h
  rw [List.map_append]
  exact (List.perm_middle.symm.trans h).cons_inv

theorem isEmpty_of_perm_map {xs xs' : List α} (h : (xs'.map f).Perm (xs.map f)) : xs'.isEmpty = xs.isEmpty := by
  have hlen := h.length_eq
  rw [List.length_map, List.length_map] at hlen
  rw [Bool.eq_iff_iff, List.isEmpty_iff_length_eq_zero, List.isEmpty_iff_length_eq_zero, hlen]

end Perm

/-! ## Threads without their places -/

/-- The thread without its place among the candidates. -/
def Thread.bare (t : Thread) : Thread :=
  { t with order := 0 }

/-- The outcome without the place of its thread. -/
def Settled.bare : Settled → Settled
  | active t => active t.bare
  | redirected r => redirected { r with order := 0 }
  | completed t => completed t.bare
  | exhausted t => exhausted t.bare

/-- The problem `Q'` is the problem `Q` with alternatives and candidates in another order. -/
structure Problem.Reordered (Q Q' : Problem) : Prop where
  grammar : Q.grammar.Reordered Q'.grammar
  resolvers : ∀ s, (Q.grammar.symbol s).resolver = none
  cell : ∀ s t, (Q.table.cell s t).Reordered (Q'.table.cell s t)
  limits : Q'.limits = Q.limits
  symbol : Q'.conflict.symbol = Q.conflict.symbol
  token : Q'.conflict.token = Q.conflict.token
  candidates : Q'.conflict.candidates.Perm Q.conflict.candidates

/-- The advances lead to the same threads in another order. -/
inductive Advance.Reordered : Advance → Advance → Prop
  | settled {s s' : Settled} : s'.bare = s.bare → Reordered (.settled s) (.settled s')
  | threads {us us' : List Thread} : (us'.map Thread.bare).Perm (us.map Thread.bare) →
      Reordered (.threads us) (.threads us')
  | tooDeep : Reordered .tooDeep .tooDeep

theorem Thread.eq_of_bare {t t' : Thread} (h : t'.bare = t.bare) : ∃ i, t' = { t with order := i } := by
  obtain ⟨production, order, stack, matched, forks⟩ := t
  obtain ⟨production', order', stack', matched', forks'⟩ := t'
  cases h
  exact ⟨order', rfl⟩

/-- A symbol is replaced by the same alternatives. -/
theorem advanceSymbol_reordered (h : Q.Reordered Q') (t : Thread) (i s : Nat) (rest : List Node) :
    (t.advanceSymbol Q a first s rest).Reordered (Thread.advanceSymbol Q' a first { t with order := i } s rest) := by
  have hr : (if first then (Q.grammar.symbol s).resolver else none) = none := by
    rw [h.resolvers s, ite_self]
  have hr' : (if first then (Q'.grammar.symbol s).resolver else none) = none := by
    rw [h.grammar.resolver s, h.resolvers s, ite_self]
  have hcell := h.cell s a
  unfold Thread.advanceSymbol
  rw [hr, hr']
  dsimp only
  generalize Q.table.cell s a = c at hcell
  generalize Q'.table.cell s a = c' at hcell
  cases hcell with
  | empty => exact .threads (.refl _)
  | production p => exact .threads (.refl _)
  | conflict s' t' hps =>
    dsimp only
    rw [h.limits]
    split
    · exact .tooDeep
    · refine .threads ?_
      rw [List.map_map, List.map_map]
      exact hps.map _

/-- **Threads that are the same without their places advance in the same way.** -/
theorem advance_reordered (h : Q.Reordered Q') {t t' : Thread} (ht : t'.bare = t.bare) :
    (t.advance Q a first).Reordered (t'.advance Q' a first) := by
  obtain ⟨i, rfl⟩ := Thread.eq_of_bare ht
  obtain ⟨production, order, stack, matched, forks⟩ := t
  match stack with
  | [] =>
    refine .settled ?_
    show Settled.bare (if matched = .pending then _ else _) = Settled.bare (if matched = .pending then _ else _)
    split
    · rfl
    · rfl
  | .epsilon :: rest => exact .threads (.refl _)
  | .sequence q :: rest =>
    refine .threads (.of_eq ?_)
    have e : Q'.grammar.sequence q = Q.grammar.sequence q := h.grammar.items (.sequence q)
    rw [e]
    rfl
  | .item (.token x) :: rest =>
    show Advance.Reordered (if matched = .pending then _ else _) (if matched = .pending then _ else _)
    split
    · refine .threads (.of_eq ?_)
      rw [List.map_map, List.map_map]
      rfl
    · exact .settled rfl
  | .item (.symbol s) :: rest =>
    show Advance.Reordered (if matched = .pending then _ else _) (if matched = .pending then _ else _)
    split
    · exact advanceSymbol_reordered h _ i s rest
    · exact .settled rfl
  | .item (.action b) :: rest => exact .threads (.refl _)
  | .item (.argument b) :: rest => exact .threads (.refl _)
  | .item (.beacon b) :: rest => exact .threads (.refl _)

/-! ## Expansions -/

namespace Expansion

variable {ts us : List Thread} {n m : Nat} {out more : List Settled}

/-- Threads are expanded one after the other. -/
theorem append (h : Expansion Q a first ts n out) (h' : Expansion Q a first us m more) :
    Expansion Q a first (ts ++ us) (n + m) (out ++ more) := by
  induction h with
  | nil =>
    rw [Nat.zero_add]
    exact h'
  | settled ha _ ih =>
    rw [Nat.succ_add]
    exact .settled ha ih
  | threads ha _ ih =>
    rw [Nat.succ_add]
    rw [List.append_assoc] at ih
    exact .threads ha ih

theorem exists_append (h : Expansion Q a first (ts ++ us) n out) :
    ∃ n₁ n₂ out₁ out₂, Expansion Q a first ts n₁ out₁ ∧ Expansion Q a first us n₂ out₂ ∧ n = n₁ + n₂ ∧
      out = out₁ ++ out₂ := by
  generalize hts : ts ++ us = all at h
  induction h generalizing ts with
  | nil =>
    obtain ⟨rfl, rfl⟩ := List.append_eq_nil_iff.1 hts
    exact ⟨0, 0, [], [], .nil, .nil, rfl, rfl⟩
  | @settled t all s n out ha h ih =>
    cases ts with
    | nil =>
      obtain rfl : us = t :: all := hts
      exact ⟨0, n + 1, [], s :: out, .nil, .settled ha h, (Nat.zero_add _).symm, rfl⟩
    | cons t' ts =>
      obtain ⟨rfl, e⟩ := List.cons.inj hts
      obtain ⟨n₁, n₂, out₁, out₂, h₁, h₂, rfl, rfl⟩ := ih e
      exact ⟨n₁ + 1, n₂, s :: out₁, out₂, .settled ha h₁, h₂, by omega, rfl⟩
  | @threads t all vs n out ha h ih =>
    cases ts with
    | nil =>
      obtain rfl : us = t :: all := hts
      exact ⟨0, n + 1, [], out, .nil, .threads ha h, (Nat.zero_add _).symm, rfl⟩
    | cons t' ts =>
      obtain ⟨rfl, e⟩ := List.cons.inj hts
      have e' : vs ++ ts ++ us = vs ++ all := (List.append_assoc _ _ _).trans (congrArg _ e)
      obtain ⟨n₁, n₂, out₁, out₂, h₁, h₂, rfl, rfl⟩ := ih e'
      exact ⟨n₁ + 1, n₂, out₁, out₂, .threads ha h₁, h₂, by omega, rfl⟩

/-- **The same threads in another order take as many nodes and leave the same outcomes.** -/
theorem reordered (h : Q.Reordered Q') (he : Expansion Q a first ts n out) {ts' : List Thread}
    (hts : (ts'.map Thread.bare).Perm (ts.map Thread.bare)) :
    ∃ out', Expansion Q' a first ts' n out' ∧ (out'.map Settled.bare).Perm (out.map Settled.bare) := by
  induction he generalizing ts' with
  | nil =>
    obtain rfl : ts' = [] := List.map_eq_nil_iff.1 hts.eq_nil
    exact ⟨[], .nil, .refl _⟩
  | @settled t ts s n out ha _ ih =>
    obtain ⟨l, t', r, rfl, ht, hrest⟩ := exists_of_perm_cons hts
    obtain ⟨rest, hr, hout⟩ := ih hrest
    obtain ⟨n₁, n₂, out₁, out₂, h₁, h₂, rfl, rfl⟩ := hr.exists_append
    have hstep : (t.advance Q a first).Reordered (t'.advance Q' a first) := advance_reordered h ht
    rw [ha] at hstep
    generalize ha' : t'.advance Q' a first = x at hstep
    cases hstep with
    | @settled _ s' hs =>
      refine ⟨out₁ ++ s' :: out₂, h₁.append (.settled ha' h₂), ?_⟩
      rw [List.map_append] at hout
      rw [List.map_append, List.map_cons, List.map_cons, hs]
      exact List.perm_middle.trans (hout.cons _)
  | @threads t ts us n out ha _ ih =>
    obtain ⟨l, t', r, rfl, ht, hrest⟩ := exists_of_perm_cons hts
    have hstep : (t.advance Q a first).Reordered (t'.advance Q' a first) := advance_reordered h ht
    rw [ha] at hstep
    generalize ha' : t'.advance Q' a first = x at hstep
    cases hstep with
    | @threads _ us' hus =>
      have hall : ((us' ++ (l ++ r)).map Thread.bare).Perm ((us ++ ts).map Thread.bare) := by
        simp only [List.map_append] at hrest ⊢
        exact hus.append hrest
      obtain ⟨rest, hr, hout⟩ := ih hall
      obtain ⟨n₁, n', out₁, out', h₁, h', rfl, rfl⟩ := hr.exists_append
      obtain ⟨n₂, n₃, out₂, out₃, h₂, h₃, rfl, rfl⟩ := h'.exists_append
      refine ⟨out₂ ++ (out₁ ++ out₃), ?_, ?_⟩
      · rw [show n₁ + (n₂ + n₃) + 1 = n₂ + (n₁ + n₃ + 1) by omega]
        exact h₂.append (.threads ha' (h₁.append h₃))
      · refine List.Perm.trans ?_ hout
        simp only [List.map_append, ← List.append_assoc]
        exact List.perm_append_comm.append_right _

end Expansion

/-! ## States -/

/-- The states hold the same threads in another order. -/
structure State.Reordered (s s' : State) : Prop where
  path : s'.path = s.path
  active : (s'.active.map Thread.bare).Perm (s.active.map Thread.bare)
  redirected : s'.redirected.length = s.redirected.length
  completed : (s'.completed.map Thread.bare).Perm (s.completed.map Thread.bare)
  exhausted : (s'.exhausted.map Thread.bare).Perm (s.exhausted.map Thread.bare)

/-- A part of some outcomes that does not depend on places. -/
theorem perm_filterMap {β : Type} {f : Settled → Option β} {b : β → β} (hf : ∀ x, f x.bare = (f x).map b)
    {out out' : List Settled} (h : (out'.map Settled.bare).Perm (out.map Settled.bare)) :
    ((out'.filterMap f).map b).Perm ((out.filterMap f).map b) := by
  have e : ∀ out : List Settled, (out.filterMap f).map b = (out.map Settled.bare).filterMap f := fun out => by
    rw [List.map_filterMap, List.filterMap_map]
    exact congrArg (List.filterMap · out) (funext fun x => (hf x).symm)
  rw [e, e]
  exact h.filterMap f

/-- A test that does not depend on places. -/
theorem perm_filter {f : Thread → Bool} (hf : ∀ t, f t.bare = f t) {ts ts' : List Thread}
    (h : (ts'.map Thread.bare).Perm (ts.map Thread.bare)) :
    ((ts'.filter f).map Thread.bare).Perm ((ts.filter f).map Thread.bare) := by
  have e : ∀ ts : List Thread, (ts.filter f).map Thread.bare = (ts.map Thread.bare).filter f := fun ts => by
    rw [List.filter_map]
    exact congrArg (List.map _) (congrArg (List.filter · ts) (funext fun t => (hf t).symm))
  rw [e, e]
  exact h.filter f

theorem all_of_perm {f : Thread → Bool} (hf : ∀ t, f t.bare = f t) {ts ts' : List Thread}
    (h : (ts'.map Thread.bare).Perm (ts.map Thread.bare)) : ts'.all f = ts.all f := by
  have e : ∀ ts : List Thread, (ts.map Thread.bare).all f = ts.all f := fun ts => by
    rw [List.all_map]
    exact congrArg (List.all ts) (funext hf)
  rw [← e ts, ← e ts']
  exact h.all_eq

namespace State.Reordered

theorem ofSettled {out out' : List Settled} (h : (out'.map Settled.bare).Perm (out.map Settled.bare)) (path : List Nat) :
    (State.ofSettled path out).Reordered (State.ofSettled path out') where
  path := rfl
  active := perm_filterMap (fun x => by cases x <;> rfl) h
  redirected := by
    have hred : ((State.ofSettled path out').redirected.map fun r => { r with order := 0 }).Perm
        ((State.ofSettled path out).redirected.map fun r => { r with order := 0 }) :=
      perm_filterMap (fun x => by cases x <;> rfl) h
    simpa only [List.length_map] using hred.length_eq
  completed := perm_filterMap (fun x => by cases x <;> rfl) h
  exhausted := perm_filterMap (fun x => by cases x <;> rfl) h

variable {s s' : State} (h : s.Reordered s')

include h

theorem isDead : s'.isDead = s.isDead := by
  have hred : s'.redirected.isEmpty = s.redirected.isEmpty := by
    rw [Bool.eq_iff_iff, List.isEmpty_iff_length_eq_zero, List.isEmpty_iff_length_eq_zero, h.redirected]
  rw [State.isDead, State.isDead, isEmpty_of_perm_map h.active, hred, isEmpty_of_perm_map h.completed,
    isEmpty_of_perm_map h.exhausted]

theorem preferConcrete : s.preferConcrete.Reordered s'.preferConcrete := by
  have hall : (s'.active ++ s'.completed).all (·.matched != .concrete) =
      (s.active ++ s.completed).all (·.matched != .concrete) := by
    refine all_of_perm (fun _ => rfl) ?_
    rw [List.map_append, List.map_append]
    exact h.active.append h.completed
  unfold State.preferConcrete
  rw [hall, isEmpty_of_perm_map h.exhausted]
  split
  · exact h
  · exact ⟨h.path, perm_filter (fun _ => rfl) h.active, h.redirected, perm_filter (fun _ => rfl) h.completed, h.exhausted⟩

theorem sortEnded : s.sortEnded.Reordered s'.sortEnded where
  path := h.path
  active := h.active
  redirected := h.redirected
  completed := ((List.mergeSort_perm _ _).map _).trans (h.completed.trans ((List.mergeSort_perm _ _).symm.map _))
  exhausted := ((List.mergeSort_perm _ _).map _).trans (h.exhausted.trans ((List.mergeSort_perm _ _).symm.map _))

end State.Reordered

/-- The same threads in another order settle to the same. -/
theorem settle_reordered (h : Q.Reordered Q') {s s' m : State} (hs : s.Reordered s') (hm : Q.settle s a = .ok m) :
    ∃ m', Q'.settle s' a = .ok m' ∧ m.Reordered m' := by
  obtain ⟨out, he, rfl⟩ := settle_eq_ok_iff.1 hm
  obtain ⟨n, rest, hexp, hle, e⟩ := expand_eq_ok_iff.1 he
  obtain rfl : out = rest := e
  have hfresh : ((s'.active.map Thread.fresh).map Thread.bare).Perm ((s.active.map Thread.fresh).map Thread.bare) := by
    have e : ∀ ts : List Thread, (ts.map Thread.fresh).map Thread.bare = (ts.map Thread.bare).map Thread.fresh :=
      fun ts => by rw [List.map_map, List.map_map]; rfl
    rw [e, e]
    exact hs.active.map _
  obtain ⟨out', hexp', hout⟩ := hexp.reordered h hfresh
  refine ⟨_, settle_eq_ok_iff.2 ⟨out', ?_, rfl⟩, ?_⟩
  · rw [hs.path]
    exact expand_eq_ok_iff.2 ⟨n, out', hexp', hle, rfl⟩
  · rw [hs.path]
    exact State.Reordered.ofSettled hout (a :: s.path)

/-- **The same threads in another order lead to the same states.** -/
theorem successor_reordered (h : Q.Reordered Q') {s s' : State} (hs : s.Reordered s') {next? : Option State}
    (hn : Q.successor s a = .ok next?) :
    ∃ next?', Q'.successor s' a = .ok next?' ∧ Option.Rel State.Reordered next? next?' := by
  obtain ⟨m, hm, rfl⟩ := successor_eq_ok_iff.1 hn
  obtain ⟨m', hm', hreordered⟩ := settle_reordered h hs hm
  refine ⟨_, successor_eq_ok_iff.2 ⟨m', hm', rfl⟩, ?_⟩
  rw [hreordered.isDead]
  split
  · exact .none
  · exact .some hreordered.preferConcrete.sortEnded

/-! ## Verdicts -/

/-- The same threads belong to the same candidates. -/
theorem exists_production_iff {ts ts' : List Thread} (h : (ts'.map Thread.bare).Perm (ts.map Thread.bare)) (p : Node) :
    (∃ t ∈ ts', t.production = p) ↔ ∃ t ∈ ts, t.production = p := by
  have e : ∀ ts : List Thread, (∃ t ∈ ts.map Thread.bare, t.production = p) ↔ ∃ t ∈ ts, t.production = p := fun ts => by
    simp [Thread.bare]
  rw [← e ts, ← e ts']
  exact exists_congr fun t => and_congr_left' h.mem_iff

namespace State.Reordered

variable {s s' : State} (h : s.Reordered s')

include h

theorem verdict : s'.verdict = s.verdict := by
  refine State.verdict_congr (exists_production_iff ?_)
  simp only [State.deciding, List.map_append]
  exact (h.exhausted.append h.completed).append h.active

theorem isSplit : s'.isSplit = s.isSplit := by
  rw [State.isSplit, State.isSplit, State.disagree_congr (exists_production_iff h.completed),
    State.disagree_congr (exists_production_iff h.exhausted)]

theorem isStuck : s'.isStuck = s.isStuck := by
  rw [State.isStuck, State.isStuck, State.isUndecided, State.isUndecided, h.verdict, isEmpty_of_perm_map h.active,
    h.isSplit]

/-- The default is that of any of the threads that ended, if they agree. -/
theorem default (hsplit : s.isSplit = false) : s'.default? = s.default? := by
  rw [State.isSplit, Bool.or_eq_false_iff] at hsplit
  simp only [State.default?, List.head?_append, Option.map_or]
  rw [State.head?_production_congr (exists_production_iff h.exhausted) hsplit.2,
    State.head?_production_congr (exists_production_iff h.completed) hsplit.1]

/-- States without threads that wait for a resolver are alike, unless candidates ended at the same place. -/
theorem alike (hred : s.redirected = []) (hsplit : s.isUndecided = true → s.isSplit = false) : s.Alike s' := by
  have hred' : s'.redirected = [] := List.length_eq_zero_iff.1 (h.redirected.trans (by rw [hred]; rfl))
  refine ⟨h.path, h.verdict, ?_, by rw [hred, hred'], fun hund => h.default (hsplit hund)⟩
  rw [reversedChain_of_redirected hred, reversedChain_of_redirected hred']

end State.Reordered

/-! ## Problems -/

namespace Problem.Reordered

variable (h : Q.Reordered Q')

include h

/-- The order of the candidates does not matter for the number of tokens that the decision may look at. -/
theorem limit : Q'.limit = Q.limit := by
  have hof : ∀ p, Q'.conflict.lookaheadOf Q'.grammar p = Q.conflict.lookaheadOf Q.grammar p := fun p => by
    have hsymbol : ∀ s, (Q'.grammar.symbol s).lookahead = (Q.grammar.symbol s).lookahead := fun s => by
      rw [h.grammar.symbol s]
    rcases p with _ | (_ | _ | _ | _ | _) | _ <;> simp only [Conflict.lookaheadOf, h.symbol, hsymbol]
  have hasked : (Q'.conflict.candidates.filterMap (Q'.conflict.lookaheadOf Q'.grammar)).Perm
      (Q.conflict.candidates.filterMap (Q.conflict.lookaheadOf Q.grammar)) := by
    rw [funext hof]
    exact h.candidates.filterMap _
  have hmax : Q'.conflict.lookahead? Q'.grammar = Q.conflict.lookahead? Q.grammar := by
    refine Option.ext fun k => ?_
    rw [Conflict.lookahead?, Conflict.lookahead?, List.max?_eq_some_iff, List.max?_eq_some_iff, hasked.mem_iff]
    exact and_congr_right fun _ => forall_congr' fun _ => imp_congr_left hasked.mem_iff
  rw [Problem.limit, Problem.limit, Conflict.limit, Conflict.limit, hmax, h.limits]

theorem root : Q.root.Reordered Q'.root := by
  refine ⟨rfl, ?_, rfl, .refl _, .refl _⟩
  have e : ∀ Q : Problem, Q.root.active.map Thread.bare =
      Q.conflict.candidates.map fun p => { production := p, order := 0, stack := [p] } := fun Q => by
    have hfst := List.zipIdx_map_fst 0 Q.conflict.candidates
    conv => rhs; rw [← hfst]
    rw [Problem.root, Problem.candidateThreads, List.map_map, List.map_map]
    rfl
  rw [e, e]
  exact h.candidates.map _

/-- **A problem is simulated by the same problem with its candidates in another order.** -/
theorem simulates : Q.Simulates Q' fun s s' =>
    s.Reordered s' ∧ s.redirected = [] ∧ (s.isUndecided = true → s.isSplit = false) where
  number := h.grammar.number
  tokenCount := h.grammar.tokenCount
  token := h.token
  limit := Nat.le_of_eq h.limit.symm
  root := ⟨h.root, rfl, fun _ => rfl⟩
  alike s s' hs := hs.1.alike hs.2.1 hs.2.2
  visit s s' hs a _ next? hv := by
    obtain ⟨hsucc, hstuck⟩ := visit_eq_ok_iff.1 hv
    obtain ⟨next?', hsucc', hnext⟩ := successor_reordered h hs.1 hsucc
    cases hnext with
    | none => exact ⟨none, visit_eq_ok_iff.2 ⟨hsucc', nofun⟩, .none⟩
    | @some n n' hn =>
      have hstuck := hstuck n rfl
      refine ⟨some n', visit_eq_ok_iff.2 ⟨hsucc', fun m hm => ?_⟩, .some ⟨hn, ?_, fun hund => ?_⟩⟩
      · cases hm
        rw [hn.isStuck, hstuck]
      · exact redirected_of_successor h.resolvers hsucc
      · rw [State.isStuck, hund, Bool.true_and, Bool.or_eq_false_iff] at hstuck
        exact hstuck.2

end Problem.Reordered

end Decision

/-! ## Tables -/

namespace Grammar

variable {g g' : Grammar} {limits : Limits} {T : Tables}

namespace Reordered

variable (h : g.Reordered g')

include h

theorem validate (F : Facts) : g'.validate F = g.validate F := by
  have hsymbol : g'.validateSymbol F = g.validateSymbol F := by
    funext s
    have hposition : g'.position? = g.position? := by rw [h.rest]; rfl
    unfold validateSymbol
    rw [h.of, h.symbol s, hposition]
  rw [Grammar.validate, Grammar.validate, h.symbolCount, hsymbol]

/-- The cells of the tables have the same outcomes. -/
theorem sameOutcome (hg : g.WellFormed) (hres : ∀ x ∈ g.symbols, x.resolver = none) (s t : Nat) :
    Decisions.SameOutcome g g' limits limits (.fill g g.analyze) (.fill g' g'.analyze)
      ((PredictionTable.fill g g.analyze).cell s t) ((PredictionTable.fill g' g'.analyze).cell s t) := by
  have hcell (s t : Nat) : ((PredictionTable.fill g g.analyze).cell s t).Reordered
      ((PredictionTable.fill g' g'.analyze).cell s t) := by
    rw [h.analyze hg]
    exact h.cell g.analyze s t
  have hst := hcell s t
  generalize (PredictionTable.fill g g.analyze).cell s t = c at hst
  generalize (PredictionTable.fill g' g'.analyze).cell s t = c' at hst
  cases hst with
  | empty => exact .empty
  | production p => exact .production p
  | @conflict s t ps ps' hps =>
    refine .conflict fun start r hr => ?_
    have hQ : (g.problem limits ⟨s, t, ps⟩).Reordered (g'.problem limits ⟨s, t, ps'⟩) :=
      ⟨h, resolver_symbol hres, hcell, rfl, rfl, rfl, hps⟩
    exact hQ.simulates.resolve hr

/-- Only what symbols fall back to depends on the order of alternatives. -/
theorem tables (F : Facts) (D : Decisions) :
    g'.tables F D = { g.tables F D with empty := (g'.tables F D).empty } := by
  have hinstruction : g'.instructionOf = g.instructionOf := by
    funext n
    have hitem : g'.itemNumber = g.itemNumber := funext fun i => congrFun h.number (.item i)
    rcases n with _ | (_ | _ | _ | _ | _) | q <;> try rfl
    rw [instructionOf, instructionOf, hitem, show g'.sequence q = g.sequence q from h.items (.sequence q)]
  have hsymbols : ∀ {α : Type} (f : Nonterminal → α), (∀ s, f (g'.symbol s) = f (g.symbol s)) →
      g'.symbols.map f = g.symbols.map f := fun f hf => by
    refine Array.ext (by simpa using h.size) fun s h₁ h₂ => ?_
    have hs₁ : s < g'.symbols.size := by simpa using h₁
    have hs₂ : s < g.symbols.size := by simpa using h₂
    simpa [Grammar.symbol, hs₁, hs₂] using hf s
  have hname : g'.symbols.map (·.name) = g.symbols.map (·.name) := hsymbols _ fun s => by rw [h.symbol s]
  have hcallbacks : (g'.symbols.map fun s => (⟨s.enter, s.leave⟩ : Callbacks)) =
      g.symbols.map fun s => ⟨s.enter, s.leave⟩ := hsymbols _ fun s => by rw [h.symbol s]
  have hof : (fun s => F.of g' (Item.symbol s)) = fun s => F.of g (Item.symbol s) := funext fun s => h.of F _
  have hrows : D.rows g' = D.rows g := by rw [Decisions.rows, Decisions.rows, h.symbolCount, h.tokenCount]
  have hrest := h.rest
  simp only [Grammar.tables, instructions, h.symbolCount, h.tokenCount, h.number, h.nodes, hinstruction, hname, hcallbacks,
    hof, hrows]
  rw [hrest]

end Reordered

/-- **The order of alternatives is no hidden priority**: grammars that differ in nothing else have the same tables but for
the alternatives that symbols fall back to. -/
theorem build_of_reordered (hg : g.WellFormed) (hres : ∀ x ∈ g.symbols, x.resolver = none) (h : g.Reordered g')
    (limits : Limits) :
    (∀ T, g.build limits = .ok T → ∃ empty, g'.build limits = .ok { T with empty }) ∧
      ∀ T', g'.build limits = .ok T' → ∃ empty, g.build limits = .ok { T' with empty } := by
  have step : ∀ {g g' : Grammar}, g.WellFormed → (∀ x ∈ g.symbols, x.resolver = none) → g.Reordered g' →
      ∀ T, g.build limits = .ok T → ∃ empty, g'.build limits = .ok { T with empty } := by
    intro g g' hg hres h T hb
    obtain ⟨hvalid, D, hD, hresolvers, rfl⟩ := build_eq_ok_iff.1 hb
    refine ⟨(g'.tables g.analyze D).empty, build_eq_ok_iff.2 ⟨?_, D, ?_, ?_, ?_⟩⟩
    · rw [h.analyze hg, h.validate, hvalid]
    · refine Decisions.foldlM_addCell_congr h.number h.nodeCount ?_ hD
      rw [PredictionTable.cells_fill, PredictionTable.cells_fill, h.symbolCount, h.tokenCount]
      refine List.rel_flatMap (R := Eq) (List.forall₂_same.2 fun _ _ => rfl) ?_
      rintro s _ rfl
      rw [List.forall₂_map_left_iff, List.forall₂_map_right_iff]
      exact List.forall₂_same.2 fun t _ => h.sameOutcome hg hres s t
    · exact validateResolvers_eq_ok (resolver_symbol (h.resolvers hres)) D
    · rw [h.analyze hg]
      exact (h.tables g.analyze D).symm
  exact ⟨step hg hres h, step (h.wellFormed hg) (h.resolvers hres) h.symm⟩

/-- The alternatives of `forking` in the opposite order. -/
def forking.reversed : Grammar :=
  { forking with symbols := forking.symbols.map fun x => { x with alts := x.alts.reverse } }

/-- The automaton of `forking` stays the same, though its candidates are followed in the opposite order. -/
theorem forking_reordered : forking.WellFormed ∧ (∀ x ∈ forking.symbols, x.resolver = none) ∧
    forking.Reordered forking.reversed ∧ ∃ T, forking.build = .ok T ∧ T.dfas.size = 12 ∧
    ∃ empty, forking.reversed.build = .ok { T with empty } := by
  have h : forking.build.toOption.any (·.dfas.size = 12) := by decide +kernel
  obtain ⟨T, hT, h⟩ := exists_of_any_toOption h
  have hreordered : forking.Reordered forking.reversed := forking.reordered_map List.reverse_perm
  have hall := build_of_reordered (by decide) (by decide) hreordered {}
  exact ⟨by decide, by decide, hreordered, T, hT, of_decide_eq_true h, hall.1 T hT⟩

end Grammar

end PredictiveParser
