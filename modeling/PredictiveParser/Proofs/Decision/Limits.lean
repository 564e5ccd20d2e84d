import PredictiveParser.Proofs.Decision.Simulation

/-!
# Raising the limits

The limits only cut the search for a decision short. A thread that may fork under some limits forks in the same way under
higher ones (`Thread.advance_raise`), so that every state has the same successors (`successor_raise`), and a survey that
ends in time ends with the same states. So tables that are built under some limits are built under all higher ones
(`Grammar.build_raise`).
-/

namespace PredictiveParser

/-! ## Budgets -/

/-- Higher limits allow a decision to look at as many tokens, or at more. -/
theorem Conflict.limit_le (g : Grammar) {limits limits' : Limits} (h : limits.lookahead ≤ limits'.lookahead)
    (c : Conflict) : c.limit g limits ≤ c.limit g limits' := by
  unfold limit
  cases c.lookahead? g with
  | none => exact h
  | some k => exact min_le_min_left k h

namespace Decision

variable {Q : Problem} {limits' : Limits} {a : Nat} {first : Bool}

/-- The problem under other limits. -/
def Problem.raise (Q : Problem) (limits' : Limits) : Problem :=
  { Q with limits := limits' }

/-! ## Threads -/

/-- A thread that may advance does so in the same way if it may fork more often. -/
theorem Thread.advanceSymbol_raise (h : Q.limits.conflictDepth ≤ limits'.conflictDepth) {t : Thread} {s : Nat}
    {rest : List Node} (hdeep : t.advanceSymbol Q a first s rest ≠ .tooDeep) :
    t.advanceSymbol (Q.raise limits') a first s rest = t.advanceSymbol Q a first s rest := by
  unfold advanceSymbol at hdeep ⊢
  rw [show (Q.raise limits').grammar = Q.grammar from rfl, show (Q.raise limits').table = Q.table from rfl]
  split
  · rfl
  · next hr =>
    rw [hr] at hdeep
    cases hc : Q.table.cell s a with
    | empty => rfl
    | production p => rfl
    | conflict c =>
      simp only [hc] at hdeep ⊢
      have hlt : ¬ Q.limits.conflictDepth ≤ t.forks := fun hle => hdeep (if_pos hle)
      have hlt' : ¬ (Q.raise limits').limits.conflictDepth ≤ t.forks := fun hle => hlt (Nat.le_trans h hle)
      rw [if_neg hlt, if_neg hlt']

theorem Thread.advance_raise (h : Q.limits.conflictDepth ≤ limits'.conflictDepth) {t : Thread}
    (hdeep : t.advance Q a first ≠ .tooDeep) : t.advance (Q.raise limits') a first = t.advance Q a first := by
  unfold advance at hdeep ⊢
  split
  · rfl
  · rfl
  · rfl
  · rfl
  · next s rest hs =>
    split
    · next hm =>
      simp only [hs, if_pos hm] at hdeep
      exact advanceSymbol_raise h hdeep
    · rfl
  all_goals rfl

theorem Expansion.raise (h : Q.limits.conflictDepth ≤ limits'.conflictDepth) {ts : List Thread} {n : Nat}
    {out : List Settled} (he : Expansion Q a first ts n out) : Expansion (Q.raise limits') a first ts n out := by
  have hstep : ∀ {t : Thread} {x : Advance}, t.advance Q a first = x → x ≠ .tooDeep →
      t.advance (Q.raise limits') a first = x := fun ha hdeep => (Thread.advance_raise h (ha ▸ hdeep)).trans ha
  induction he with
  | nil => exact .nil
  | settled ha _ ih => exact .settled (hstep ha nofun) ih
  | threads ha _ ih => exact .threads (hstep ha nofun) ih

/-- **An expansion that succeeds does so in the same way if threads may fork more often.** -/
theorem expand_raise (h : Q.limits.conflictDepth ≤ limits'.conflictDepth) {budget : Nat} {ts : List Thread}
    {settled out : List Settled} (he : expand Q a first budget ts settled = .ok out) :
    expand (Q.raise limits') a first budget ts settled = .ok out := by
  obtain ⟨n, rest, he, hn, e⟩ := expand_eq_ok_iff.1 he
  exact expand_eq_ok_iff.2 ⟨n, rest, he.raise h, hn, e⟩

/-! ## States -/

theorem settle_raise (h : Q.limits.conflictDepth ≤ limits'.conflictDepth) {s m : State} (hm : Q.settle s a = .ok m) :
    (Q.raise limits').settle s a = .ok m := by
  obtain ⟨out, he, e⟩ := settle_eq_ok_iff.1 hm
  exact settle_eq_ok_iff.2 ⟨out, expand_raise h he, e⟩

theorem successor_raise (h : Q.limits.conflictDepth ≤ limits'.conflictDepth) {s : State} {next? : Option State}
    (hs : Q.successor s a = .ok next?) : (Q.raise limits').successor s a = .ok next? := by
  obtain ⟨m, hm, e⟩ := successor_eq_ok_iff.1 hs
  exact successor_eq_ok_iff.2 ⟨m, settle_raise h hm, e⟩

theorem visit_raise (h : Q.limits.conflictDepth ≤ limits'.conflictDepth) {s : State} {next? : Option State}
    (hs : Q.visit s a = .ok next?) : (Q.raise limits').visit s a = .ok next? := by
  obtain ⟨hsucc, hstuck⟩ := visit_eq_ok_iff.1 hs
  exact visit_eq_ok_iff.2 ⟨successor_raise h hsucc, hstuck⟩

/-- **A problem is simulated by the same problem under higher limits.** -/
theorem simulates_raise (hlookahead : Q.limits.lookahead ≤ limits'.lookahead)
    (hdepth : Q.limits.conflictDepth ≤ limits'.conflictDepth) : Q.Simulates (Q.raise limits') Eq where
  number := rfl
  tokenCount := rfl
  token := rfl
  limit := Q.conflict.limit_le Q.grammar hlookahead
  root := rfl
  alike s s' e := e ▸ .refl s
  visit s s' e a _ next? hv := by
    refine ⟨next?, e ▸ visit_raise hdepth hv, ?_⟩
    cases next? with
    | none => exact .none
    | some n => exact .some rfl

end Decision

/-! ## Tables -/

namespace Grammar

variable {g : Grammar} {limits limits' : Limits} {T : Tables}

/-- The decisions of a table are the same under higher limits. -/
theorem ofTable_raise {D : Decisions} (hlookahead : limits.lookahead ≤ limits'.lookahead)
    (hdepth : limits.conflictDepth ≤ limits'.conflictDepth)
    (hD : Decisions.ofTable g limits (.fill g g.analyze) = .ok D) :
    Decisions.ofTable g limits' (.fill g g.analyze) = .ok D := by
  refine Decisions.foldlM_addCell_congr rfl rfl (List.forall₂_same.2 fun c _ => ?_) hD
  cases c with
  | empty => exact .empty
  | production p => exact .production p
  | conflict c =>
    refine .conflict fun start r hr => ?_
    exact (Decision.simulates_raise (Q := g.problem limits c) hlookahead hdepth).resolve hr

/-- **Raising the limits never changes the tables that are built.** -/
theorem build_raise (hlookahead : limits.lookahead ≤ limits'.lookahead)
    (hdepth : limits.conflictDepth ≤ limits'.conflictDepth) (hb : g.build limits = .ok T) : g.build limits' = .ok T := by
  obtain ⟨hvalid, D, hD, hresolvers, hT⟩ := build_eq_ok_iff.1 hb
  exact build_eq_ok_iff.2 ⟨hvalid, D, ofTable_raise hlookahead hdepth hD, hresolvers, hT⟩

/-- A conflict that leads through another: `S → A b | A a`, `A → a b | a a`. -/
def forking : Grammar where
  tokens := .letters
  symbols := #[{ name := "S", alts := [.sequence 0, .sequence 1] }, { name := "A", alts := [.sequence 2, .sequence 3] }]
  sequences := #[[.symbol 1, .token 3], [.symbol 1, .token 2], [.token 2, .token 3], [.token 2, .token 2]]
  actions := {}
  arguments := {}
  beacons := {}
  start := 0

/-- Three tokens and one fork decide its conflicts, and more leave the tables as they are. -/
theorem forking_raise : ∃ T, forking.build ⟨3, 1⟩ = .ok T ∧ T.dfas.size = 12 ∧ forking.build ⟨5, 8⟩ = .ok T := by
  have h : (forking.build ⟨3, 1⟩).toOption.any (·.dfas.size = 12) := by decide +kernel
  obtain ⟨T, hT, h⟩ := exists_of_any_toOption h
  exact ⟨T, hT, of_decide_eq_true h, build_raise (by decide) (by decide) hT⟩

/-- With fewer tokens, or without a fork, they are not decided. -/
example : (forking.build ⟨2, 1⟩).toBool = false ∧ (forking.build ⟨3, 0⟩).toBool = false := by decide +kernel

end Grammar

end PredictiveParser
