import PredictiveParser.Decision.Thread
import PredictiveParser.Proofs.Prediction

/-!
# What threads settle to

An expansion succeeds if its budget covers what it takes (`expand_eq_ok_iff`). It leaves exactly what its threads settle to
(`expand_eq_ok`), so that its order does not matter. A thread only ever does what its items can derive (`Settles.leads`), and
it follows every forest of its items that begins with the token (`Expands.follows`): it has then matched the first leaf of the
forest, and is left with what the forest has behind it (`Forest.behind`).
-/

namespace PredictiveParser

namespace Decision

variable {Q : Problem} {a : Nat} {first : Bool}

/-! ## Expansion -/

/-- Expanding the threads takes a number of nodes and leaves the outcomes in order. -/
inductive Expansion (Q : Problem) (a : Nat) (first : Bool) : List Thread → (cost : Nat) → List Settled → Prop
  | nil : Expansion Q a first [] 0 []
  | settled {t : Thread} {ts : List Thread} {s : Settled} {n : Nat} {out : List Settled} :
      t.advance Q a first = .settled s → Expansion Q a first ts n out → Expansion Q a first (t :: ts) (n + 1) (s :: out)
  | threads {t : Thread} {ts us : List Thread} {n : Nat} {out : List Settled} :
      t.advance Q a first = .threads us → Expansion Q a first (us ++ ts) n out → Expansion Q a first (t :: ts) (n + 1) out

/-- Threads are expanded if the budget covers what it takes. -/
theorem expand_eq_ok_iff {budget : Nat} {ts : List Thread} {settled out : List Settled} :
    expand Q a first budget ts settled = .ok out ↔
      ∃ n rest, Expansion Q a first ts n rest ∧ n ≤ budget ∧ out = settled.reverse ++ rest := by
  constructor
  · intro h
    induction budget generalizing ts settled with
    | zero =>
      cases ts with
      | nil =>
        cases h
        exact ⟨0, [], .nil, Nat.le_refl 0, (List.append_nil _).symm⟩
      | cons t ts => cases h
    | succ budget ih =>
      cases ts with
      | nil =>
        cases h
        exact ⟨0, [], .nil, Nat.zero_le _, (List.append_nil _).symm⟩
      | cons t ts =>
        rw [expand] at h
        cases ha : t.advance Q a first with
        | settled s =>
          rw [ha] at h
          obtain ⟨n, rest, he, hn, rfl⟩ := ih h
          exact ⟨n + 1, s :: rest, .settled ha he, Nat.succ_le_succ hn, by rw [List.reverse_cons, List.append_assoc]; rfl⟩
        | threads us =>
          rw [ha] at h
          obtain ⟨n, rest, he, hn, rfl⟩ := ih h
          exact ⟨n + 1, rest, .threads ha he, Nat.succ_le_succ hn, rfl⟩
        | tooDeep =>
          rw [ha] at h
          cases h
  · rintro ⟨n, rest, he, hn, rfl⟩
    induction he generalizing budget settled with
    | nil =>
      rw [List.append_nil]
      cases budget <;> rfl
    | @settled t ts s n out ha _ ih =>
      obtain ⟨budget, rfl⟩ : ∃ b, budget = b + 1 := ⟨budget - 1, by omega⟩
      rw [expand, ha]
      refine (ih (Nat.le_of_succ_le_succ hn)).trans ?_
      rw [List.reverse_cons, List.append_assoc]
      rfl
    | @threads t ts us n out ha _ ih =>
      obtain ⟨budget, rfl⟩ : ∃ b, budget = b + 1 := ⟨budget - 1, by omega⟩
      rw [expand, ha]
      exact ih (Nat.le_of_succ_le_succ hn)

/-- The thread can settle to the outcome on a token. -/
inductive Settles (Q : Problem) (a : Nat) (first : Bool) : Thread → Settled → Prop
  | settled {t : Thread} {s : Settled} : t.advance Q a first = .settled s → Settles Q a first t s
  | threads {t u : Thread} {us : List Thread} {s : Settled} : t.advance Q a first = .threads us → u ∈ us →
      Settles Q a first u s → Settles Q a first t s

theorem settles_iff_of_settled {t : Thread} {s s' : Settled} (ha : t.advance Q a first = .settled s') :
    Settles Q a first t s ↔ s = s' := by
  constructor
  · intro h
    cases h with
    | settled h' => rw [ha] at h'; cases h'; rfl
    | threads h' => rw [ha] at h'; cases h'
  · rintro rfl
    exact .settled ha

theorem settles_iff_of_threads {t : Thread} {us : List Thread} {s : Settled} (ha : t.advance Q a first = .threads us) :
    Settles Q a first t s ↔ ∃ u ∈ us, Settles Q a first u s := by
  constructor
  · intro h
    cases h with
    | settled h' => rw [ha] at h'; cases h'
    | threads h' hu hs => rw [ha] at h'; cases h'; exact ⟨_, hu, hs⟩
  · rintro ⟨u, hu, hs⟩
    exact .threads ha hu hs

theorem Expansion.mem_iff {ts : List Thread} {n : Nat} {out : List Settled} (h : Expansion Q a first ts n out) (s : Settled) :
    s ∈ out ↔ ∃ t ∈ ts, Settles Q a first t s := by
  induction h with
  | nil => simp
  | settled ha _ ih => rw [List.mem_cons, ih, List.exists_mem_cons_iff, settles_iff_of_settled ha]
  | threads ha _ ih =>
    simp only [ih, List.exists_mem_cons_iff, settles_iff_of_threads ha, List.mem_append, or_and_right, exists_or]

/-- **An expansion leaves what its threads settle to.** -/
theorem expand_eq_ok {budget : Nat} {ts : List Thread} {settled out : List Settled}
    (h : expand Q a first budget ts settled = .ok out) (s : Settled) :
    s ∈ out ↔ s ∈ settled ∨ ∃ t ∈ ts, Settles Q a first t s := by
  obtain ⟨n, rest, he, -, rfl⟩ := expand_eq_ok_iff.1 h
  rw [List.mem_append, List.mem_reverse, he.mem_iff]

/-! ## Threads derive -/

namespace Thread

/-- The items that the thread still has to match. -/
def items (g : Grammar) (t : Thread) : List Item :=
  t.stack.flatMap g.items

/-- The next node of the thread has to be matched. -/
def IsReady (t : Thread) : Prop :=
  ∃ i rest, t.stack = .item i :: rest ∧ i.isTransparent = false

/-- The token, if the thread has yet to match it. -/
def due (a : Nat) (t : Thread) : List Nat :=
  if t.matched = .pending then [a] else []

end Thread

namespace Settled

/-- The candidate of the thread. -/
def production : Settled → Node
  | active t | completed t | exhausted t => t.production
  | redirected r => r.production

/-- The thread, unless it waits for a resolver. -/
def thread? : Settled → Option Thread
  | active t | completed t | exhausted t => some t
  | redirected _ => none

/-- What the thread has left agrees with the outcome. -/
def Shaped : Settled → Prop
  | active t => t.matched ≠ .pending ∧ t.IsReady
  | completed t => t.matched ≠ .pending ∧ t.stack = []
  | exhausted t => t.matched = .pending ∧ t.stack = []
  | redirected _ => True

end Settled

/-- A terminal that matches a token accepts it. -/
theorem accepts_of_matchToken {t : Nat} {m : Match} (h : m ∈ (Thread.matchToken t a).toList) :
    accepts t a = true ∧ m ≠ .pending := by
  unfold Thread.matchToken at h
  split at h
  · next e =>
    simp at h
    exact ⟨e ▸ accepts_self t, by rw [h]; decide⟩
  · split at h
    · next e =>
      simp at h
      exact ⟨by simp [accepts, e.1, e.2], by rw [h]; decide⟩
    · simp at h

/-- The table only predicts alternatives. -/
def Problem.Faithful (Q : Problem) : Prop :=
  ∀ s t p, p ∈ (Q.table.cell s t).candidates → p ∈ (Q.grammar.symbol s).alts

/-- Filled tables do. -/
theorem Problem.faithful_of_table {Q : Problem} (h : Q.table = .fill Q.grammar Q.grammar.analyze) : Q.Faithful := by
  intro s t p hp
  rw [h] at hp
  exact PredictionTable.mem_alts_of_mem_candidates hp

theorem faithful_problem {g : Grammar} {limits : Limits} {conflict : Conflict} :
    (g.problem limits conflict).Faithful :=
  Problem.faithful_of_table rfl

/-- A symbol is replaced by what its cell leaves possible. -/
theorem advanceSymbol_threads {t u : Thread} {us : List Thread} {s : Nat} {rest : List Node}
    (h : t.advanceSymbol Q a first s rest = .threads us) (hu : u ∈ us) :
    ∃ p ∈ (Q.table.cell s a).candidates, ∃ n, u = { t with stack := p :: rest, forks := n } := by
  unfold Thread.advanceSymbol at h
  split at h
  · cases h
  · split at h
    · cases h
      exact absurd hu List.not_mem_nil
    · next p hc =>
      cases h
      rw [hc]
      exact ⟨p, List.mem_singleton_self p, t.forks, List.mem_singleton.1 hu⟩
    · next c hc =>
      split at h
      · cases h
      · cases h
        obtain ⟨p, hp, rfl⟩ := List.mem_map.1 hu
        rw [hc]
        exact ⟨p, hp, _, rfl⟩

/-- Advancing a thread is a step of a derivation. -/
theorem advance_threads (hQ : Q.Faithful) {t u : Thread} {us : List Thread} (h : t.advance Q a first = .threads us)
    (hu : u ∈ us) : u.production = t.production ∧ ∃ w, t.due a = w ++ u.due a ∧
      Q.grammar.Leads (t.items Q.grammar) w (u.items Q.grammar) := by
  obtain ⟨production, order, stack, matched, forks⟩ := t
  cases stack with
  | nil => cases h
  | cons n rest =>
    have hitems : Thread.items Q.grammar ⟨production, order, n :: rest, matched, forks⟩ =
        Q.grammar.items n ++ rest.flatMap Q.grammar.items := List.flatMap_cons
    rw [hitems]
    -- a node that matches nothing is dropped
    have drops : Q.grammar.Derives (Q.grammar.items n) [] → u = ⟨production, order, rest, matched, forks⟩ →
        u.production = production ∧ ∃ w, Thread.due a ⟨production, order, n :: rest, matched, forks⟩ = w ++ u.due a ∧
          Q.grammar.Leads (Q.grammar.items n ++ rest.flatMap Q.grammar.items) w (u.items Q.grammar) := by
      rintro hd rfl
      exact ⟨rfl, [], rfl, hd.append _⟩
    cases n with
    | epsilon =>
      cases h
      exact drops (.refl []) (List.mem_singleton.1 hu)
    | sequence q =>
      cases h
      rw [List.mem_singleton.1 hu]
      refine ⟨rfl, [], rfl, ?_⟩
      have e : ((Q.grammar.sequence q).map Node.item ++ rest).flatMap Q.grammar.items =
          Q.grammar.sequence q ++ rest.flatMap Q.grammar.items := by
        rw [List.flatMap_append, List.flatMap_map]
        congr 1
        exact List.flatMap_singleton' _
      rw [Thread.items, e]
      exact .refl _
    | item i =>
      cases i with
      | token t =>
        simp only [Thread.advance] at h
        split at h
        · next hm =>
          cases h
          obtain ⟨m, hm', rfl⟩ := List.mem_map.1 hu
          obtain ⟨hacc, hne⟩ := accepts_of_matchToken hm'
          exact ⟨rfl, [a], by simp [Thread.due, hm, hne], .token hacc (.refl _)⟩
        · cases h
      | symbol s =>
        simp only [Thread.advance] at h
        split at h
        · obtain ⟨p, hp, n, rfl⟩ := advanceSymbol_threads h hu
          exact ⟨rfl, [], rfl, .symbol (hQ s a p hp) (.refl _)⟩
        · cases h
      | action b =>
        cases h
        exact drops (.silent rfl (.refl [])) (List.mem_singleton.1 hu)
      | argument b =>
        cases h
        exact drops (.silent rfl (.refl [])) (List.mem_singleton.1 hu)
      | beacon b =>
        cases h
        exact drops (.silent rfl (.refl [])) (List.mem_singleton.1 hu)

/-- A thread settles where it stands. -/
theorem advance_settled {t : Thread} {s : Settled} (h : t.advance Q a first = .settled s) :
    s.production = t.production ∧ s.Shaped ∧ ∀ u, s.thread? = some u → u = t := by
  obtain ⟨production, order, stack, matched, forks⟩ := t
  unfold Thread.advance at h
  dsimp only at h
  split at h
  · split at h
    · next hm =>
      cases h
      exact ⟨rfl, ⟨hm, rfl⟩, fun u hu => (Option.some.inj hu).symm⟩
    · next hm =>
      cases h
      exact ⟨rfl, ⟨hm, rfl⟩, fun u hu => (Option.some.inj hu).symm⟩
  all_goals try cases h
  · split at h
    · cases h
    · next hm =>
      cases h
      exact ⟨rfl, ⟨hm, _, _, rfl, rfl⟩, fun u hu => (Option.some.inj hu).symm⟩
  · split at h
    · unfold Thread.advanceSymbol at h
      split at h
      · cases h
        exact ⟨rfl, trivial, fun u hu => nomatch hu⟩
      · split at h
        · cases h
        · cases h
        · split at h <;> cases h
    · next hm =>
      cases h
      exact ⟨rfl, ⟨hm, _, _, rfl, rfl⟩, fun u hu => (Option.some.inj hu).symm⟩

/-- What a thread has settled to belongs to its candidate. -/
theorem Settles.production_eq (hQ : Q.Faithful) {t : Thread} {s : Settled} (h : Settles Q a first t s) :
    s.production = t.production := by
  induction h with
  | settled h => exact (advance_settled h).1
  | threads h hu _ ih => exact ih.trans (advance_threads hQ h hu).1

/-- **A thread does what its items derive.** -/
theorem Settles.leads (hQ : Q.Faithful) {t u : Thread} {s : Settled} (h : Settles Q a first t s)
    (hu : s.thread? = some u) : ∃ w, t.due a = w ++ u.due a ∧
      Q.grammar.Leads (t.items Q.grammar) w (u.items Q.grammar) := by
  induction h with
  | settled h =>
    rw [(advance_settled h).2.2 u hu]
    exact ⟨[], rfl, .refl _⟩
  | threads h hm _ ih =>
    obtain ⟨-, w, hw, hl⟩ := advance_threads hQ h hm
    obtain ⟨w', hw', hl'⟩ := ih hu
    exact ⟨w ++ w', by rw [hw, hw', List.append_assoc], hl.trans hl'⟩

/-- What a thread has left agrees with what it settled to. -/
theorem Settles.shaped {t : Thread} {s : Settled} (h : Settles Q a first t s) : s.Shaped := by
  induction h with
  | settled h => exact (advance_settled h).2.1
  | threads _ _ _ ih => exact ih

/-- A thread only waits for a resolver before the first token, when it stands before the symbol. -/
theorem advance_redirected {t : Thread} {r : Redirect} (h : t.advance Q a first = .settled (.redirected r)) :
    first = true ∧ t.matched = .pending ∧ (Q.grammar.symbol r.symbol).resolver = some r.resolver ∧
      ∃ rest, t.stack = .item (.symbol r.symbol) :: rest := by
  obtain ⟨production, order, stack, matched, forks⟩ := t
  unfold Thread.advance at h
  dsimp only at h
  split at h
  · split at h <;> cases h
  all_goals try cases h
  · split at h <;> cases h
  · next rest =>
    split at h
    · next hm =>
      unfold Thread.advanceSymbol at h
      split at h
      · next hr =>
        cases h
        split at hr
        · next hfirst => exact ⟨hfirst, hm, hr, rest, rfl⟩
        · cases hr
      · split at h
        · cases h
        · cases h
        · split at h <;> cases h
    · cases h

/-- A thread only waits for the resolver of a symbol. -/
theorem Settles.resolver_eq {t : Thread} {r : Redirect} (h : Settles Q a first t (.redirected r)) :
    (Q.grammar.symbol r.symbol).resolver = some r.resolver := by
  generalize hs : Settled.redirected r = s at h
  induction h with
  | threads _ _ _ ih => exact ih hs
  | settled h =>
    subst hs
    exact (advance_redirected h).2.2.1

/-- **A thread waits for a resolver where its items lead to the symbol without a token.** -/
theorem Settles.leads_symbol (hQ : Q.Faithful) {t : Thread} {r : Redirect} (h : Settles Q a first t (.redirected r)) :
    first = true ∧ t.matched = .pending ∧ ∃ is, Q.grammar.Leads (t.items Q.grammar) [] (.symbol r.symbol :: is) := by
  generalize hs : Settled.redirected r = s at h
  induction h with
  | @settled t s h =>
    subst hs
    obtain ⟨hfirst, hm, -, rest, hstack⟩ := advance_redirected h
    refine ⟨hfirst, hm, rest.flatMap Q.grammar.items, ?_⟩
    rw [Thread.items, hstack]
    exact .refl _
  | @threads t u us s h hu _ ih =>
    obtain ⟨hfirst, hm, is, hl⟩ := ih hs
    obtain ⟨-, w, hw, hl'⟩ := advance_threads hQ h hu
    -- what is still due has not been matched on the way
    rw [Thread.due, Thread.due, if_pos hm] at hw
    split at hw
    · next hm' =>
      obtain rfl : w = [] := by simpa using hw
      exact ⟨hfirst, hm', is, hl'.trans hl⟩
    · simp at hw

/-! ## Threads follow forests -/

/-- All ways of expanding the thread come to an end. -/
inductive Expands (Q : Problem) (a : Nat) (first : Bool) : Thread → Prop
  | intro {t : Thread} : t.advance Q a first ≠ .tooDeep →
      (∀ us, t.advance Q a first = .threads us → ∀ u ∈ us, Expands Q a first u) → Expands Q a first t

theorem Expansion.expands {ts : List Thread} {n : Nat} {out : List Settled} (h : Expansion Q a first ts n out) :
    ∀ t ∈ ts, Expands Q a first t := by
  induction h with
  | nil => exact fun _ ht => absurd ht List.not_mem_nil
  | settled ha _ ih =>
    rw [List.forall_mem_cons]
    exact ⟨.intro (by simp [ha]) (by simp [ha]), ih⟩
  | threads ha _ ih =>
    rw [List.forall_mem_cons]
    refine ⟨.intro (by simp [ha]) fun us' e u hu => ?_, fun u hu => ih u (List.mem_append_right _ hu)⟩
    cases ha.symm.trans e
    exact ih u (List.mem_append_left _ hu)

/-- A successful expansion brings all ways to an end. -/
theorem expands_of_expand {budget : Nat} {ts : List Thread} {settled out : List Settled}
    (h : expand Q a first budget ts settled = .ok out) : ∀ t ∈ ts, Expands Q a first t := by
  obtain ⟨n, rest, he, -⟩ := expand_eq_ok_iff.1 h
  exact he.expands

/-- A thread before a node that matches nothing goes on with the items of the node, or behind it. -/
theorem advance_items (Q : Problem) (a : Nat) (first : Bool) (t : Thread) :
    t.stack = [] ∨
      (∃ u : Thread, t.advance Q a first = .threads [u] ∧ u.matched = t.matched ∧
        (u.items Q.grammar = t.items Q.grammar ∨
          ∃ i : Item, i.isTransparent = true ∧ t.items Q.grammar = i :: u.items Q.grammar)) ∨
      (∃ x rest, t.stack = .item (.token x) :: rest) ∨ ∃ s rest, t.stack = .item (.symbol s) :: rest := by
  obtain ⟨production, order, stack, matched, forks⟩ := t
  match stack with
  | [] => exact .inl rfl
  | .epsilon :: rest => exact .inr (.inl ⟨_, rfl, rfl, .inl rfl⟩)
  | .sequence q :: rest =>
    refine .inr (.inl ⟨_, rfl, rfl, .inl ?_⟩)
    show ((Q.grammar.sequence q).map Node.item ++ rest).flatMap Q.grammar.items = _
    rw [List.flatMap_append, List.flatMap_map]
    exact congrArg (· ++ _) (List.flatMap_singleton' _)
  | .item (.token x) :: rest => exact .inr (.inr (.inl ⟨x, rest, rfl⟩))
  | .item (.symbol s) :: rest => exact .inr (.inr (.inr ⟨s, rest, rfl⟩))
  | .item (.action b) :: rest => exact .inr (.inl ⟨_, rfl, rfl, .inr ⟨.action b, rfl, rfl⟩⟩)
  | .item (.argument b) :: rest => exact .inr (.inl ⟨_, rfl, rfl, .inr ⟨.argument b, rfl, rfl⟩⟩)
  | .item (.beacon b) :: rest => exact .inr (.inl ⟨_, rfl, rfl, .inr ⟨.beacon b, rfl, rfl⟩⟩)

/-- A thread that has matched the token, or stands before a node that matches nothing, goes on with the same forests. -/
theorem advance_cases (Q : Problem) (a : Nat) (first : Bool) (t : Thread) :
    t.stack = [] ∨
      (∃ u : Thread, t.advance Q a first = .threads [u] ∧ u.matched = t.matched ∧
        ∀ f, Q.grammar.Grows (t.items Q.grammar) f → Q.grammar.Grows (u.items Q.grammar) f) ∨
      (∃ x rest, t.stack = .item (.token x) :: rest) ∨ ∃ s rest, t.stack = .item (.symbol s) :: rest := by
  obtain hs | ⟨u, hu, hm, hitems⟩ | hrest := advance_items Q a first t
  · exact .inl hs
  · refine .inr (.inl ⟨u, hu, hm, fun f hf => ?_⟩)
    obtain e | ⟨i, hi, e⟩ := hitems
    · rwa [e]
    · rw [e] at hf
      exact hf.of_silent hi
  · exact .inr (.inr hrest)

/-- A thread that has matched the token only drops what matches nothing. -/
theorem Expands.exists_settles_of_matched {t : Thread} (h : Expands Q a first t) (hm : t.matched ≠ .pending)
    {f : Forest Nat} (hf : Q.grammar.Grows (t.items Q.grammar) f) :
    ∃ u : Thread, u.matched = t.matched ∧ Q.grammar.Grows (u.items Q.grammar) f ∧
      (f = .nil ∧ Settles Q a first t (.completed u) ∨ f ≠ .nil ∧ Settles Q a first t (.active u)) := by
  induction h with | @intro t hdeep _ ih
  obtain hs | ⟨u, hu, hum, hgrows⟩ | ⟨x, rest, hs⟩ | ⟨s, rest, hs⟩ := advance_cases Q a first t
  · refine ⟨t, rfl, hf, .inl ⟨?_, .settled ?_⟩⟩
    · rw [Thread.items, hs] at hf
      cases hf
      rfl
    · rw [Thread.advance, hs]
      exact congrArg _ (if_neg hm)
  · obtain ⟨v, hv, hg, h⟩ := ih _ hu u List.mem_cons_self (hum ▸ hm) (hgrows f hf)
    refine ⟨v, hv.trans hum, hg, ?_⟩
    exact h.imp (And.imp_right (.threads hu List.mem_cons_self)) (And.imp_right (.threads hu List.mem_cons_self))
  · refine ⟨t, rfl, hf, .inr ⟨?_, .settled ?_⟩⟩
    · rintro rfl
      rw [Thread.items, hs] at hf
      cases hf with
      | silent hi => cases hi
    · rw [Thread.advance, hs]
      exact if_neg hm
  · refine ⟨t, rfl, hf, .inr ⟨?_, .settled ?_⟩⟩
    · rintro rfl
      rw [Thread.items, hs] at hf
      cases hf with
      | silent hi => cases hi
    · rw [Thread.advance, hs]
      exact if_neg hm

/-- The thread goes along a forest of its items, with the items `rest` behind them, which derive `v`. -/
structure Along (g : Grammar) (F : Facts) (rest : List Item) (v : List Nat) (t : Thread) (f : Forest Nat) : Prop where
  proper : ∀ i ∈ t.items g ++ rest, g.HasItem i ∧ i ≠ .token anyToken
  chained : F.Chained g (t.items g ++ rest)
  grows : g.Grows (t.items g) f
  derives : g.Derives rest v

/-- A derivation of the items of the thread keeps it along. -/
theorem Along.leads {g : Grammar} {F : Facts} {rest : List Item} {v w : List Nat} {t u : Thread} {f f' : Forest Nat}
    (hg : g.WellFormed) (hF : F.Closed g) (hany : ¬ g.Mentions anyToken) (h : Along g F rest v t f)
    (hl : g.Leads (t.items g) w (u.items g)) (hf : g.Grows (u.items g) f') : Along g F rest v u f' where
  proper := (hl.append rest).forall_mem (fun _ _ hp => hg.proper_alt hany hp) h.proper
  chained := h.chained.leads hF hg hl
  grows := hf
  derives := h.derives

/-- The problem is one of a grammar without wildcard and resolvers. -/
structure Plain (Q : Problem) : Prop where
  wellFormed : Q.grammar.WellFormed
  table : Q.table = .fill Q.grammar Q.grammar.analyze
  wildcard : ¬ Q.grammar.Mentions anyToken
  resolvers : ∀ s, (Q.grammar.symbol s).resolver = none

theorem plain_problem {g : Grammar} (hg : g.WellFormed) (limits : Limits) (conflict : Conflict)
    (hany : ¬ g.Mentions anyToken) (hres : ∀ x ∈ g.symbols, x.resolver = none) : Plain (g.problem limits conflict) :=
  ⟨hg, rfl, hany, Grammar.resolver_symbol hres⟩

theorem Plain.faithful (hQ : Plain Q) : Q.Faithful :=
  Problem.faithful_of_table hQ.table

/-- Without resolvers there is none to ask, on the first token or later. -/
theorem asks_none (hres : ∀ s, (Q.grammar.symbol s).resolver = none) (first : Bool) (s : Nat) :
    (if first then (Q.grammar.symbol s).resolver else none) = none := by
  cases first with
  | false => rfl
  | true => exact hres s

/-- A symbol whose resolver is not asked can be replaced by any candidate of its cell. -/
theorem mem_advanceSymbol {t : Thread} {s : Nat} {rest : List Node} {p : Node}
    (hr : (if first then (Q.grammar.symbol s).resolver else none) = none) (hp : p ∈ (Q.table.cell s a).candidates)
    (hdeep : t.advanceSymbol Q a first s rest ≠ .tooDeep) :
    ∃ us n, t.advanceSymbol Q a first s rest = .threads us ∧ { t with stack := p :: rest, forks := n } ∈ us := by
  unfold Thread.advanceSymbol at hdeep ⊢
  rw [hr] at hdeep ⊢
  cases hc : Q.table.cell s a with
  | empty =>
    rw [hc] at hp
    exact absurd hp List.not_mem_nil
  | production p' =>
    rw [hc] at hp
    rw [List.mem_singleton.1 hp]
    exact ⟨_, t.forks, rfl, List.mem_singleton_self _⟩
  | conflict c =>
    rw [hc] at hp
    simp only [hc] at hdeep ⊢
    split at hdeep
    · exact absurd rfl hdeep
    · next h =>
      rw [if_neg h]
      exact ⟨_, t.forks + 1, rfl, List.mem_map.2 ⟨p, hp, rfl⟩⟩

/-- What a thread along a forest settles to on the token that the forest meets. -/
inductive Follows (Q : Problem) (a : Nat) (first : Bool) (t : Thread) (f : Forest Nat) : Prop
  | exhausted {u : Thread} : f.leaves = [] → Settles Q a first t (.exhausted u) → Follows Q a first t f
  | completed {u : Thread} : f.leaves ≠ [] → f.behind = .nil → u.matched = .concrete →
      Settles Q a first t (.completed u) → Follows Q a first t f
  | active {u : Thread} : f.leaves ≠ [] → f.behind ≠ .nil → u.matched = .concrete →
      Q.grammar.Grows (u.items Q.grammar) f.behind → Settles Q a first t (.active u) → Follows Q a first t f

theorem Follows.threads {t u : Thread} {us : List Thread} {f f' : Forest Nat} (h : Follows Q a first u f')
    (ha : t.advance Q a first = .threads us) (hu : u ∈ us) (hl : f'.leaves = f.leaves) (hb : f'.behind = f.behind) :
    Follows Q a first t f := by
  cases h with
  | exhausted h₁ h => exact .exhausted (hl ▸ h₁) (.threads ha hu h)
  | completed h₁ h₂ hm h => exact .completed (hl ▸ h₁) (hb ▸ h₂) hm (.threads ha hu h)
  | active h₁ h₂ hm hg h => exact .active (hl ▸ h₁) (hb ▸ h₂) hm (hb ▸ hg) (.threads ha hu h)

/-- The thread goes along a forest of its items on the token `a`, which is the first leaf of the forest or, if the forest
has none, can follow every item. -/
structure Toward (g : Grammar) (F : Facts) (a : Nat) (t : Thread) (f : Forest Nat) : Prop where
  proper : ∀ i ∈ t.items g, g.HasItem i ∧ i ≠ .token anyToken
  linked : F.Linked g (t.items g)
  grows : g.Grows (t.items g) f
  begins : ∀ x v, f.leaves = x :: v → x = a
  ends : f.leaves = [] → ∀ i ∈ t.items g, F.MayFollow g (.item i) a

namespace Toward

variable {g : Grammar} {F : Facts} {t u : Thread} {f : Forest Nat}

/-- Dropping what matches nothing keeps the thread on its way. -/
theorem silent (h : Toward g F a t f) (hu : u.items g = t.items g ∨
    ∃ i : Item, i.isTransparent = true ∧ t.items g = i :: u.items g) : Toward g F a u f := by
  obtain ⟨hproper, hlinked, hgrows, hbegins, hends⟩ := h
  rcases hu with e | ⟨i, hi, e⟩
  · exact ⟨e ▸ hproper, e ▸ hlinked, e ▸ hgrows, hbegins, e ▸ hends⟩
  · rw [e] at hproper hlinked hgrows hends
    exact ⟨fun j hj => hproper j (List.mem_cons_of_mem _ hj), hlinked.2, hgrows.of_silent hi, hbegins,
      fun hl j hj => hends hl j (List.mem_cons_of_mem _ hj)⟩

/-- Replacing a symbol by the alternative that the forest takes for it keeps the thread on its way. -/
theorem symbol {s : Nat} {p : Node} {is : List Item} {c r : Forest Nat} (hF : F.Closed g) (hg : g.WellFormed)
    (hany : ¬ g.Mentions anyToken) (h : Toward g F a t (.node s p c r)) (ht : t.items g = .symbol s :: is)
    (hp : p ∈ (g.symbol s).alts) (hc : g.Grows (g.items p) c) (hr : g.Grows is r) (hu : u.items g = g.items p ++ is) :
    Toward g F a u (c.append r) := by
  obtain ⟨hproper, hlinked, -, hbegins, hends⟩ := h
  rw [ht] at hproper hlinked hends
  rw [List.forall_mem_cons] at hproper
  have hl : g.Leads (.symbol s :: is) [] (u.items g) := hu ▸ .symbol hp (.refl _)
  refine ⟨?_, hlinked.leads hF hg hl, hu ▸ hc.append hr, by rwa [Forest.leaves_append], fun hleaves i hi => ?_⟩
  · rw [hu]
    exact List.forall_mem_append.2 ⟨hg.proper_alt hany hp, hproper.2⟩
  · rw [Forest.leaves_append] at hleaves
    rw [hu] at hi
    rcases List.mem_append.1 hi with hi | hi
    · -- nothing has to be matched behind an item of an alternative that matches nothing
      have hnil : g.Derives (g.items p) [] := (List.append_eq_nil_iff.1 hleaves).1 ▸ hc.leads
      exact (hends hleaves (.symbol s) List.mem_cons_self).items hF hg hp hnil i hi
    · exact hends hleaves i (List.mem_cons_of_mem _ hi)

/-- The table leaves the alternative that the forest takes for a symbol possible. -/
theorem mem_candidates {s : Nat} {p : Node} {is : List Item} {c r : Forest Nat} (hF : F.Closed g) (hg : g.WellFormed)
    (h : Toward g F a t (.node s p c r)) (ht : t.items g = .symbol s :: is) (hp : p ∈ (g.symbol s).alts)
    (hc : g.Grows (g.items p) c) (hr : g.Grows is r) (hlt : a < g.tokenCount) (hany : a ≠ anyToken) :
    p ∈ ((PredictionTable.fill g F).cell s a).candidates := by
  obtain ⟨hproper, hlinked, -, hbegins, hends⟩ := h
  rw [ht] at hproper hlinked hends
  rw [Forest.leaves] at hbegins hends
  refine (PredictionTable.mem_candidates hlt).2 ⟨hp, hF.competes hg hp hc.leads (fun x v e => ?_) (fun e => ?_) hlt hany⟩
  · exact hbegins x (v ++ r.leaves) (by rw [e, List.cons_append])
  · cases hv : r.leaves with
    | nil => exact hends (by rw [e, hv]; rfl) (.symbol s) List.mem_cons_self
    | cons x v =>
      obtain ⟨t, js, hacc, hl, -⟩ := (hv ▸ hr.leads : g.Derives is (x :: v)).exists_token
      rw [hbegins x v (by rw [e, hv]; rfl)] at hacc
      exact .inl ⟨t, hlinked.1 t (hF.mem_firstOf hg (fun i hi => (hproper i (List.mem_cons_of_mem _ hi)).1) hl), hacc⟩

end Toward

/-- A thread that goes along a forest with items behind it goes along it on the token that it meets. -/
theorem Along.toward {g : Grammar} {F : Facts} {rest : List Item} {v : List Nat} {t : Thread} {f : Forest Nat}
    (hF : F.Closed g) (hg : g.WellFormed) (h : Along g F rest v t f) (ha : (f.leaves ++ v).headD endToken = a) :
    Toward g F a t f where
  proper i hi := h.proper i (List.mem_append_left _ hi)
  linked := h.chained.linked
  grows := h.grows
  begins x w e := by
    rw [e] at ha
    exact ha
  ends e i hi := by
    rw [e, List.nil_append] at ha
    obtain ⟨pre, post, hitems⟩ := List.append_of_mem hi
    have hl : g.Derives (pre ++ i :: post) [] := by
      rw [← hitems, ← e]
      exact h.grows.leads
    obtain ⟨u, w, hw, -, hbehind⟩ := Grammar.exists_derives_append hl
    obtain ⟨u', w', hw', -, hpost⟩ := @Grammar.exists_derives_append _ [i] _ _ hbehind
    obtain rfl : w' = [] := by
      rw [hw'] at hw
      exact (List.append_eq_nil_iff.1 (List.append_eq_nil_iff.1 hw.symm).2).2
    have hch := h.chained
    have hproper := h.proper
    rw [hitems, List.append_assoc] at hch hproper
    have hch : F.Chained g (i :: (post ++ rest)) := hch.of_append
    refine ha ▸ hch.mayFollow hF hg (fun j hj => (hproper j ?_).1) (Grammar.Leads.derives_append hpost h.derives)
    exact List.mem_append_right _ (List.mem_cons_of_mem _ hj)

/-- **A thread follows every forest of its items on the token that it meets.** -/
theorem Expands.follows_of_toward {t : Thread} (h : Expands Q a first t) (hQ : Plain Q) (hm : t.matched = .pending)
    {f : Forest Nat} (hf : Toward Q.grammar Q.grammar.analyze a t f) (hlt : a < Q.grammar.tokenCount)
    (hany : a ≠ anyToken) : Follows Q a first t f := by
  induction h generalizing f with | @intro t hdeep hall ih
  obtain hs | ⟨u, hu, hum, hitems⟩ | ⟨x, st, hs⟩ | ⟨s, st, hs⟩ := advance_items Q a first t
  · -- nothing is left
    have hgrows := hf.grows
    rw [Thread.items, hs] at hgrows
    cases hgrows
    refine .exhausted (u := t) rfl (.settled ?_)
    rw [Thread.advance, hs]
    exact congrArg _ (if_pos hm)
  · exact (ih _ hu u (List.mem_singleton_self u) (hum.trans hm) (hf.silent hitems)).threads hu
      (List.mem_singleton_self u) rfl rfl
  · -- the terminal of the first leaf
    have hgrows := hf.grows
    have hx := (hf.proper (.token x) (by simp [Thread.items, hs, Grammar.items])).2
    rw [Thread.items, hs, List.flatMap_cons] at hgrows
    cases hgrows with
    | silent hi => cases hi
    | @leaf _ y _ r hacc hr =>
      have hy : x = a := by
        have hxa : x ≠ anyToken := fun e => hx (e ▸ rfl)
        rw [accepts, if_neg hxa, beq_iff_eq] at hacc
        exact hacc.symm.trans (hf.begins y r.leaves rfl)
      have hadv : t.advance Q a first = .threads [{ t with stack := st, matched := .concrete }] := by
        rw [Thread.advance, hs]
        simp [hm, Thread.matchToken, hy]
      obtain ⟨u, hum, hug, hu⟩ := (hall _ hadv _ (List.mem_singleton_self _)).exists_settles_of_matched
        (by simp) hr
      rcases hu with ⟨hnil, hu⟩ | ⟨hnil, hu⟩
      · exact .completed (by simp [Forest.leaves]) hnil hum (.threads hadv (List.mem_singleton_self _) hu)
      · exact .active (by simp [Forest.leaves]) hnil hum hug (.threads hadv (List.mem_singleton_self _) hu)
  · -- the symbol of the first tree
    have hgrows := hf.grows
    have hitems : t.items Q.grammar = .symbol s :: st.flatMap Q.grammar.items := by
      rw [Thread.items, hs, List.flatMap_cons]
      rfl
    rw [hitems] at hgrows
    cases hgrows with
    | silent hi => cases hi
    | @node _ p _ c r hp hc hr =>
      have hF := hQ.wellFormed.closed
      have hcell : p ∈ (Q.table.cell s a).candidates := by
        rw [hQ.table]
        exact hf.mem_candidates hF hQ.wellFormed hitems hp hc hr hlt hany
      have hadv : t.advance Q a first = t.advanceSymbol Q a first s st := by
        rw [Thread.advance, hs]
        exact if_pos hm
      rw [hadv] at hdeep
      obtain ⟨us, n, hus, hmem⟩ := mem_advanceSymbol (asks_none hQ.resolvers first s) hcell hdeep
      have hu := hf.symbol (u := { t with stack := p :: st, forks := n }) hF hQ.wellFormed hQ.wildcard hitems hp hc hr rfl
      refine (ih _ (hadv.trans hus) _ hmem hm hu).threads (hadv.trans hus) hmem ?_ ?_
      · exact Forest.leaves_append c r
      · exact Forest.behind_append c r

/-- A thread follows every forest of its items, with the items behind them. -/
theorem Expands.follows {t : Thread} (h : Expands Q a first t) (hQ : Plain Q) (hm : t.matched = .pending)
    {rest : List Item} {v : List Nat} {f : Forest Nat} (hf : Along Q.grammar Q.grammar.analyze rest v t f)
    (ha : (f.leaves ++ v).headD endToken = a) (hlt : a < Q.grammar.tokenCount) (hany : a ≠ anyToken) :
    Follows Q a first t f :=
  h.follows_of_toward hQ hm (hf.toward hQ.wellFormed.closed hQ.wellFormed ha) hlt hany

end Decision

end PredictiveParser
