import Mathlib.Order.Bounds.Basic
import PredictiveParser.Proofs.Prediction
import PredictiveParser.Proofs.Tables

/-!
# The lookahead of a conflict

Every candidate of a conflict is entitled to a number of tokens: the bound of the symbol it consists of, else that of the
conflicting symbol, else the global one. The largest of these is what the decision should look at (`Conflict.budget`). It
never looks at more tokens, but sometimes at fewer: as soon as one candidate has a bound, those without one have no say any
more (`Conflict.Shortened`). `limit_of_cell` says what the limit is, and when it falls short of the budget.
-/

namespace PredictiveParser

namespace Conflict

variable (g : Grammar) (limits : Limits) (c : Conflict)

/-- The number of tokens that a candidate is entitled to. -/
def entitlement (candidate : Node) : Nat :=
  let own := (g.symbol c.symbol).lookahead.getD limits.lookahead
  match candidate with
  | .item (.symbol s) => (g.symbol s).lookahead.getD own
  | _ => own

/-- The largest number of tokens that a candidate is entitled to, within the global limit. -/
def budget : Nat :=
  min limits.lookahead ((c.candidates.map (c.entitlement g limits)).max?.getD 0)

/-- The lookaheads that candidates ask for. -/
def asked : Set Nat :=
  {k | ∃ p ∈ c.candidates, c.lookaheadOf g p = some k}

/-- A candidate that asks for no lookahead is left with what others ask for, which is less than the global limit. -/
structure Shortened : Prop where
  unbounded : ∃ p ∈ c.candidates, c.lookaheadOf g p = none
  bounded : (c.asked g).Nonempty
  below : ∀ k ∈ c.asked g, k < limits.lookahead

variable {g limits c}

/-- A candidate is entitled to what it asks for, or to the global limit. -/
theorem entitlement_eq (p : Node) : c.entitlement g limits p = (c.lookaheadOf g p).getD limits.lookahead := by
  cases p with
  | item i =>
    cases i with
    | symbol s =>
      simp only [entitlement, lookaheadOf]
      cases (g.symbol s).lookahead <;> rfl
    | _ => rfl
  | _ => rfl

/-! ## The limit -/

/-- If no candidate asks for a lookahead, the limit is the global one. -/
theorem limit_of_forall (h : ∀ p ∈ c.candidates, c.lookaheadOf g p = none) : c.limit g limits = limits.lookahead := by
  rw [limit, lookahead?, List.filterMap_eq_nil_iff.2 h]
  rfl

/-- Otherwise it is the largest lookahead that one asks for, within the global limit. -/
theorem limit_of_isGreatest {k : Nat} (h : IsGreatest (c.asked g) k) : c.limit g limits = min limits.lookahead k := by
  have hmax : c.lookahead? g = some k := by
    rw [lookahead?, List.max?_eq_some_iff]
    exact ⟨List.mem_filterMap.2 h.1, fun j hj => h.2 (List.mem_filterMap.1 hj)⟩
  rw [limit, hmax]
  exact min_comm k limits.lookahead

theorem exists_isGreatest (h : (c.asked g).Nonempty) : ∃ k, IsGreatest (c.asked g) k := by
  obtain ⟨k, hk⟩ := h
  cases hmax : c.lookahead? g with
  | none =>
    rw [lookahead?, List.max?_eq_none_iff] at hmax
    exact absurd (hmax ▸ List.mem_filterMap.2 hk) List.not_mem_nil
  | some m =>
    obtain ⟨hmem, hle⟩ := List.max?_eq_some_iff.1 hmax
    exact ⟨m, List.mem_filterMap.1 hmem, fun j hj => hle j (List.mem_filterMap.2 hj)⟩

/-! ## The budget -/

/-- The budget is reached by a candidate and covers all others, as far as the global limit allows. -/
theorem budget_eq {k : Nat} (h : IsGreatest {k | ∃ p ∈ c.candidates, c.entitlement g limits p = k} k) :
    c.budget g limits = min limits.lookahead k := by
  have hmax : (c.candidates.map (c.entitlement g limits)).max? = some k := by
    rw [List.max?_eq_some_iff]
    exact ⟨List.mem_map.2 h.1, fun j hj => h.2 (List.mem_map.1 hj)⟩
  rw [budget, hmax]
  rfl

/-- With a candidate that asks for no lookahead the budget is the global limit. -/
theorem budget_of_unbounded (h : ∃ p ∈ c.candidates, c.lookaheadOf g p = none) :
    c.budget g limits = limits.lookahead := by
  obtain ⟨p, hp, hnone⟩ := h
  have hmem : limits.lookahead ∈ c.candidates.map (c.entitlement g limits) :=
    List.mem_map.2 ⟨p, hp, by rw [entitlement_eq, hnone, Option.getD_none]⟩
  exact min_eq_left (List.le_max?_getD_of_mem hmem)

/-- If every candidate asks for a lookahead, the budget is the largest one within the global limit. -/
theorem budget_of_bounded {k : Nat} (hall : ∀ p ∈ c.candidates, c.lookaheadOf g p ≠ none) (h : IsGreatest (c.asked g) k) :
    c.budget g limits = min limits.lookahead k := by
  refine budget_eq ⟨?_, ?_⟩
  · obtain ⟨p, hp, hk⟩ := h.1
    exact ⟨p, hp, by rw [entitlement_eq, hk, Option.getD_some]⟩
  · rintro j ⟨p, hp, rfl⟩
    obtain ⟨i, hi⟩ := Option.ne_none_iff_exists'.1 (hall p hp)
    rw [entitlement_eq, hi, Option.getD_some]
    exact h.2 ⟨p, hp, hi⟩

end Conflict

open Conflict

/-- **The limit of a conflict.** It is the largest lookahead that a candidate asks for, within the global limit, and the
global limit if none asks for one. So it falls short of the budget exactly where a candidate that asks for no lookahead
meets others that ask for less than the global limit. -/
theorem limit_of_cell {g : Grammar} {s t : Nat} {c : Conflict}
    (hcell : (PredictionTable.fill g g.analyze).cell s t = .conflict c) (limits : Limits) :
    ((∀ p ∈ c.candidates, c.lookaheadOf g p = none) ∧ c.limit g limits = limits.lookahead ∨
      ∃ k, IsGreatest (c.asked g) k ∧ c.limit g limits = min limits.lookahead k) ∧
    (c.Shortened g limits ∧ c.limit g limits < c.budget g limits ∨
      ¬ c.Shortened g limits ∧ c.limit g limits = c.budget g limits) := by
  by_cases hnone : ∀ p ∈ c.candidates, c.lookaheadOf g p = none
  · obtain ⟨p, hp, -⟩ := PredictionTable.exists_candidates hcell
    have hlimit : c.limit g limits = limits.lookahead := limit_of_forall hnone
    refine ⟨.inl ⟨hnone, hlimit⟩, .inr ⟨fun h => ?_, ?_⟩⟩
    · obtain ⟨k, q, hq, hk⟩ := h.bounded
      rw [hnone q hq] at hk
      cases hk
    · rw [hlimit, budget_of_unbounded ⟨p, hp, hnone p hp⟩]
  · simp only [not_forall] at hnone
    obtain ⟨p, hp, hsome⟩ := hnone
    obtain ⟨j, hj⟩ := Option.ne_none_iff_exists'.1 hsome
    obtain ⟨k, hk⟩ := exists_isGreatest (c := c) ⟨j, p, hp, hj⟩
    have hlimit : c.limit g limits = min limits.lookahead k := limit_of_isGreatest hk
    refine ⟨.inr ⟨k, hk, hlimit⟩, ?_⟩
    rw [hlimit]
    by_cases hall : ∀ p ∈ c.candidates, c.lookaheadOf g p ≠ none
    · refine .inr ⟨fun h => ?_, (budget_of_bounded hall hk).symm⟩
      obtain ⟨q, hq, hnone⟩ := h.unbounded
      exact hall q hq hnone
    · simp only [not_forall, not_not] at hall
      obtain ⟨q, hq, hnone⟩ := hall
      rw [budget_of_unbounded ⟨q, hq, hnone⟩]
      rcases Nat.lt_or_ge k limits.lookahead with hlt | hge
      · refine .inl ⟨⟨⟨q, hq, hnone⟩, ⟨k, hk.1⟩, fun i hi => (hk.2 hi).trans_lt hlt⟩, ?_⟩
        rwa [min_eq_right hlt.le]
      · exact .inr ⟨fun h => absurd (h.below k hk.1) hge.not_gt, min_eq_left hge⟩

/-! ## A conflict that gets too few tokens -/

namespace Grammar

/-- An alternative with a bound beside one without: `S → A | a a`, `A → a b`. -/
def hasty (lookahead : Option Nat) : Grammar where
  tokens := .letters
  symbols := #[{ name := "S", alts := [Item.symbol 1, .sequence 0] }, { name := "A", alts := [.sequence 1], lookahead }]
  sequences := #[[.token 2, .token 2], [.token 2, .token 3]]
  actions := {}
  arguments := {}
  beacons := {}
  start := 0

/-- The conflict of the two alternatives on an `a`. -/
def hasty.conflict : Conflict :=
  ⟨0, 2, [Item.symbol 1, .sequence 0]⟩

/-- **A bound of one token for `A` is all that the other alternative gets**, which is entitled to four; so two tokens, which
decide the conflict, are too many. -/
theorem hasty_refused :
    (PredictionTable.fill (hasty (some 1)) (hasty (some 1)).analyze).cell 0 2 = .conflict hasty.conflict ∧
      hasty.conflict.limit (hasty (some 1)) {} = 1 ∧ hasty.conflict.budget (hasty (some 1)) {} = 4 ∧
      (hasty (some 1)).build = .error (.ambiguity "S" "a" ["A", "a a"] none) ∧ ∃ T, (hasty none).build = .ok T :=
  ⟨by decide +kernel, by decide, by decide, by decide +kernel, exists_build (by decide +kernel)⟩

/-- Its limit is the bound of `A`. -/
theorem hasty_limit :
    (PredictionTable.fill (hasty (some 1)) (hasty (some 1)).analyze).cell 0 2 = .conflict hasty.conflict ∧
      (hasty.conflict.Shortened (hasty (some 1)) {} ∧ hasty.conflict.limit (hasty (some 1)) {} = min 4 1 ∧
        hasty.conflict.limit (hasty (some 1)) {} < hasty.conflict.budget (hasty (some 1)) {}) := by
  have hcell : (PredictionTable.fill (hasty (some 1)) (hasty (some 1)).analyze).cell 0 2 = .conflict hasty.conflict := by
    decide +kernel
  obtain ⟨-, ⟨hshort, hlt⟩ | ⟨-, heq⟩⟩ := limit_of_cell hcell {}
  · exact ⟨hcell, hshort, by decide, hlt⟩
  · exact absurd heq (by decide)

end Grammar

end PredictiveParser
