import Mathlib.Logic.Relation
import PredictiveParser.Proofs.Decision.State
import PredictiveParser.Proofs.Tables

/-!
# The faults of building

A decision fails for what one of its steps costs, or in an undecided state that it has come to (`Problem.Fault`): so it is
for a step (`visit_eq_error`), for a survey (`survey_eq_error`) and for the whole (`resolve_eq_error`). Building fails in one
of its stages, and where it decides conflicts, for a conflict of the prediction table (`build_eq_error`).
-/

namespace PredictiveParser

namespace Decision

variable {Q : Problem} {a : Nat} {e : GrammarError}

/-! ## The states that a decision comes to -/

/-- The states that a decision can come to. -/
def Problem.Reachable (Q : Problem) (s : State) : Prop :=
  Relation.ReflTransGen Q.Next Q.root s

namespace Problem.Reachable

variable {s : State}

/-- Their threads derive the tokens. -/
theorem traced (h : Q.Reachable s) (hQ : Q.Faithful) : s.Traced Q := by
  induction h with
  | refl => exact State.traced_root Q
  | tail _ hnext ih =>
    obtain ⟨a, -, hs⟩ := hnext
    exact ih.successor hQ hs

/-- The first token is that of the conflict. -/
theorem head (h : Q.Reachable s) : ∀ x ∈ s.path.reverse.head?, x = Q.conflict.token := by
  induction h with
  | refl => exact nofun
  | @tail s n _ hnext ih =>
    obtain ⟨a, ha, hs⟩ := hnext
    rw [path_of_successor hs, List.reverse_cons]
    cases hpath : s.path with
    | nil =>
      simp only [Problem.tokensAt, hpath, List.isEmpty_nil, if_true, List.mem_singleton] at ha
      simpa using ha
    | cons b path =>
      rw [hpath, List.head?_eq_some_head (by simp)] at ih
      rw [List.head?_append_of_ne_nil _ (by simp), List.head?_eq_some_head (by simp)]
      exact ih

end Problem.Reachable

/-! ## The faults of a decision -/

/-- The faults of a decision that looks at no more than `d` tokens. -/
inductive Problem.Fault (Q : Problem) (d : Nat) : GrammarError → Prop
  | conflictDepth : Q.Fault d Q.depthExceeded
  | expansion : Q.Fault d Q.expansionExceeded
  | ambiguous {s : State} : Q.Reachable s → s.path.length ≤ d → s.isUndecided = true → Q.Fault d (Q.ambiguous s)

/-- An expansion only fails for the conflicts that it leads through or for its cost. -/
theorem expand_eq_error {first : Bool} {budget : Nat} {ts : List Thread} {settled : List Settled}
    (h : expand Q a first budget ts settled = .error e) : e = Q.depthExceeded ∨ e = Q.expansionExceeded := by
  induction budget generalizing ts settled with
  | zero =>
    cases ts with
    | nil => cases h
    | cons t ts =>
      cases h
      exact .inr rfl
  | succ budget ih =>
    cases ts with
    | nil => cases h
    | cons t ts =>
      rw [expand] at h
      split at h
      · exact ih h
      · exact ih h
      · cases h
        exact .inl rfl

theorem settle_eq_error {s : State} (h : Q.settle s a = .error e) : e = Q.depthExceeded ∨ e = Q.expansionExceeded := by
  exact expand_eq_error (map_eq_error_iff.1 h)

/-- A step fails for what it costs, or because it leads to a state that is stuck. -/
theorem visit_eq_error {s : State} (h : Q.visit s a = .error e) :
    (e = Q.depthExceeded ∨ e = Q.expansionExceeded) ∨
      ∃ n, Q.successor s a = .ok (some n) ∧ n.isStuck = true ∧ e = Q.ambiguous n := by
  unfold Problem.visit at h
  obtain h | ⟨next?, hs, h⟩ := bind_eq_error h
  · rw [Problem.successor_eq_settle, map_eq_error_iff] at h
    exact .inl (settle_eq_error h)
  · cases next? with
    | none => cases h
    | some n =>
      dsimp only at h
      split at h
      · next hstuck =>
        cases h
        exact .inr ⟨n, hs, hstuck, rfl⟩
      · cases h

/-- **The faults of a survey.** Its states are undecided, and can look at `d` tokens altogether. -/
theorem survey_eq_error {k d : Nat} {level : List State} (h : Q.survey k level = .error e)
    (hl : ∀ s ∈ level, Q.Reachable s ∧ s.path.length + k ≤ d ∧ s.isUndecided = true) : Q.Fault d e := by
  induction k generalizing level with
  | zero =>
    cases level with
    | nil => cases h
    | cons s level =>
      cases h
      obtain ⟨hs, hd, hund⟩ := hl s List.mem_cons_self
      exact .ambiguous hs hd hund
  | succ k ih =>
    cases level with
    | nil => cases h
    | cons s₀ level =>
      unfold Problem.survey at h
      obtain h | ⟨css, hcss, h⟩ := bind_eq_error h
      · obtain ⟨s, hs, h⟩ := mapM_eq_error h
        obtain ⟨hreach, hd, -⟩ := hl s hs
        unfold Problem.children at h
        obtain h | ⟨_, -, h⟩ := bind_eq_error h
        · obtain ⟨a, ha, h⟩ := mapM_eq_error h
          obtain (rfl | rfl) | ⟨n, hsucc, hstuck, rfl⟩ := visit_eq_error h
          · exact .conflictDepth
          · exact .expansion
          · refine .ambiguous (hreach.tail ⟨a, ha, hsucc⟩) ?_ ?_
            · rw [path_of_successor hsucc, List.length_cons]
              omega
            · rw [State.isStuck, Bool.and_eq_true] at hstuck
              exact hstuck.1
        · cases h
      · obtain h | ⟨_, -, h⟩ := bind_eq_error h
        · refine ih h fun n hn => ?_
          obtain ⟨hn, hund⟩ := List.mem_filter.1 hn
          obtain ⟨s, hs, a, ha, hvisit⟩ := exists_visit_of_mem_flatten (mapM_eq_ok_iff.1 hcss) hn
          obtain ⟨hreach, hd, -⟩ := hl s hs
          have hsucc := (visit_eq_ok_iff.1 hvisit).1
          refine ⟨hreach.tail ⟨a, ha, hsucc⟩, ?_, hund⟩
          rw [path_of_successor hsucc, List.length_cons]
          omega
        · cases h

/-- **The faults of deciding a conflict.** -/
theorem resolve_eq_error {start : Nat} (h : Q.resolve start = .error e) (hroot : Q.root.isUndecided = true) :
    Q.Fault Q.limit e ∨
      Q.reached = .ok [] ∧ e = .unresolvedConflict (Q.conflict.symbolName Q.grammar) (Q.conflict.tokenName Q.grammar) := by
  unfold Problem.resolve at h
  obtain h | ⟨states, hstates, h⟩ := bind_eq_error h
  · refine .inl (survey_eq_error h ?_)
    rintro s hs
    rw [List.mem_singleton.1 hs]
    exact ⟨.refl, (Nat.zero_add _).le, hroot⟩
  · obtain h | ⟨_, -, h⟩ := bind_eq_error h
    · cases states with
      | nil =>
        cases h
        exact .inr ⟨hstates, rfl⟩
      | cons s states =>
        rw [Problem.decide] at h
        split at h <;> cases h
    · cases h

end Decision

/-! ## The faults of building -/

namespace Grammar

open Decision

variable {g : Grammar} {e : GrammarError}

/-- The check of the declarations finds a misdeclared symbol. -/
theorem fault_of_validate {F : Facts} (h : g.validate F = .error e) :
    ∃ symbol position?, (∃ nullable, e = .nullabilityMismatch symbol nullable position?) ∨
      e = .syncOnNonNullable symbol position? := by
  obtain ⟨s, -, h⟩ := forM_eq_error h
  unfold validateSymbol at h
  dsimp only at h
  split at h
  · cases h
    exact ⟨_, _, .inl ⟨_, rfl⟩⟩
  · split at h
    · cases h
      exact ⟨_, _, .inr rfl⟩
    · cases h

theorem fault_of_validateResolvers {D : Decisions} (h : g.validateResolvers D = .error e) :
    ∃ symbol position?, e = .unusedResolver symbol position? := by
  obtain ⟨s, -, h⟩ := forM_eq_error h
  split at h
  · cases h
    exact ⟨_, _, rfl⟩
  · cases h

/-- Filling the entries fails for a conflict of the table. -/
theorem ofTable_eq_error {limits : Limits} (h : Decisions.ofTable g limits (.fill g g.analyze) = .error e) :
    ∃ s t c start, (PredictionTable.fill g g.analyze).cell s t = .conflict c ∧
      (g.problem limits c).resolve start = .error e := by
  obtain ⟨cell, hcell, D, h⟩ := foldlM_eq_error h
  obtain ⟨s, t, hst⟩ := PredictionTable.exists_cell hcell
  cases cell with
  | empty => cases h
  | production p => cases h
  | conflict c =>
    refine ⟨s, t, c, D.dfas.size, hst, ?_⟩
    unfold Decisions.addCell at h
    obtain h | ⟨r, -, h⟩ := bind_eq_error h
    · exact h
    · split at h <;> cases h

/-- **The faults of building.** A symbol is misdeclared, deciding a conflict fails, or a resolver is not asked. -/
theorem build_eq_error {limits : Limits} (h : g.build limits = .error e) :
    g.validate g.analyze = .error e ∨
      (∃ s t c start, (PredictionTable.fill g g.analyze).cell s t = .conflict c ∧
        (g.problem limits c).resolve start = .error e) ∨
      ∃ D, Decisions.ofTable g limits (.fill g g.analyze) = .ok D ∧ g.validateResolvers D = .error e := by
  unfold build at h
  obtain h | ⟨_, -, h⟩ := bind_eq_error h
  · exact .inl h
  · obtain h | ⟨D, hD, h⟩ := bind_eq_error h
    · exact .inr (.inl (ofTable_eq_error h))
    · obtain h | ⟨_, -, h⟩ := bind_eq_error h
      · exact .inr (.inr ⟨D, hD, h⟩)
      · cases h

end Grammar

end PredictiveParser
