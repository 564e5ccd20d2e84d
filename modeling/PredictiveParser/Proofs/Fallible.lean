import Mathlib.Data.List.Forall2

/-!
# Computations that may fail

Two computations in a row succeed if both do, and fail if one of them does (`bind_eq_ok_iff`, `bind_eq_error`). So working
through a list succeeds if it does for every element (`mapM_eq_ok_iff`, `forM_eq_ok_iff`), and fails for one of them.
-/

namespace PredictiveParser

variable {α β ε : Type} {x : Except ε α} {as : List α} {e : ε}

/-! ## One after the other -/

theorem map_eq_ok_iff {f : α → β} {b : β} : x.map f = .ok b ↔ ∃ a, x = .ok a ∧ f a = b := by
  cases x <;> simp [Except.map]

theorem map_eq_error_iff {f : α → β} : x.map f = .error e ↔ x = .error e := by
  cases x <;> simp [Except.map]

theorem bind_eq_ok_iff {f : α → Except ε β} {b : β} : x >>= f = .ok b ↔ ∃ a, x = .ok a ∧ f a = .ok b := by
  cases x <;> simp [bind, Except.bind]

theorem bind_eq_error {f : α → Except ε β} (h : x >>= f = .error e) : x = .error e ∨ ∃ a, x = .ok a ∧ f a = .error e := by
  cases x with
  | error e' =>
    cases h
    exact .inl rfl
  | ok a => exact .inr ⟨a, rfl, h⟩

/-- What was tested of a result. -/
theorem exists_of_any_toOption {test : α → Bool} (h : x.toOption.any test = true) : ∃ a, x = .ok a ∧ test a = true := by
  cases x with
  | error e => cases h
  | ok a => exact ⟨a, rfl, h⟩

/-! ## Lists -/

theorem mapM_eq_ok_iff {f : α → Except ε β} {bs : List β} :
    as.mapM f = .ok bs ↔ List.Forall₂ (fun a b => f a = .ok b) as bs := by
  induction as generalizing bs with
  | nil =>
    rw [List.forall₂_nil_left_iff]
    exact ⟨fun h => by cases h; rfl, fun h => h ▸ rfl⟩
  | cons a as ih =>
    rw [List.mapM_cons, bind_eq_ok_iff, List.forall₂_cons_left_iff]
    refine exists_congr fun b => ?_
    rw [bind_eq_ok_iff]
    constructor
    · rintro ⟨ha, bs', hbs, h⟩
      cases h
      exact ⟨bs', ha, ih.1 hbs, rfl⟩
    · rintro ⟨bs', ha, hbs, rfl⟩
      exact ⟨ha, bs', ih.2 hbs, rfl⟩

theorem mapM_eq_error {f : α → Except ε β} (h : as.mapM f = .error e) : ∃ a ∈ as, f a = .error e := by
  induction as with
  | nil => cases h
  | cons a as ih =>
    rw [List.mapM_cons] at h
    obtain h | ⟨b, -, h⟩ := bind_eq_error h
    · exact ⟨a, List.mem_cons_self, h⟩
    · obtain h | ⟨bs, -, h⟩ := bind_eq_error h
      · obtain ⟨a', ha', h⟩ := ih h
        exact ⟨a', List.mem_cons_of_mem _ ha', h⟩
      · cases h

theorem foldlM_eq_error {f : β → α → Except ε β} {b : β} (h : as.foldlM f b = .error e) :
    ∃ a ∈ as, ∃ b, f b a = .error e := by
  induction as generalizing b with
  | nil => cases h
  | cons a as ih =>
    rw [List.foldlM_cons] at h
    obtain h | ⟨b', -, h⟩ := bind_eq_error h
    · exact ⟨a, List.mem_cons_self, b, h⟩
    · obtain ⟨a', ha', h⟩ := ih h
      exact ⟨a', List.mem_cons_of_mem _ ha', h⟩

/-! ### Checks of all elements -/

variable {check : α → Except ε Unit}

theorem forM_eq_ok_iff : as.forM check = .ok () ↔ ∀ a ∈ as, check a = .ok () := by
  induction as with
  | nil => exact ⟨fun _ _ h => absurd h List.not_mem_nil, fun _ => rfl⟩
  | cons a as ih =>
    rw [List.forM, bind_eq_ok_iff, List.forall_mem_cons, ← ih]
    exact ⟨fun ⟨_, ha, h⟩ => ⟨ha, h⟩, fun ⟨ha, h⟩ => ⟨(), ha, h⟩⟩

theorem forM_eq_error (h : as.forM check = .error e) : ∃ a ∈ as, check a = .error e := by
  induction as with
  | nil => cases h
  | cons a as ih =>
    rw [List.forM] at h
    obtain h | ⟨_, -, h⟩ := bind_eq_error h
    · exact ⟨a, List.mem_cons_self, h⟩
    · obtain ⟨a', ha', h⟩ := ih h
      exact ⟨a', List.mem_cons_of_mem _ ha', h⟩

/-- The check fails, with one fault or another, if that of an element fails. -/
theorem exists_forM_eq_error_iff : (∃ e, as.forM check = .error e) ↔ ∃ a ∈ as, ∃ e, check a = .error e := by
  constructor
  · rintro ⟨e, h⟩
    obtain ⟨a, ha, h⟩ := forM_eq_error h
    exact ⟨a, ha, e, h⟩
  · rintro ⟨a, ha, e, h⟩
    cases hall : as.forM check with
    | error e' => exact ⟨e', rfl⟩
    | ok => cases (forM_eq_ok_iff.1 hall a ha).symm.trans h

end PredictiveParser
