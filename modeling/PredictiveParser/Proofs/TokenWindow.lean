import Mathlib.Data.List.DropRight
import PredictiveParser.TokenWindow

/-!
# The window is a view of a log

A log keeps every token that was pushed since it was cleared, so positions are places in it; releasing only moves a base
up. A window stores no more than what stands from the base on, but nobody can tell: after any operations it answers as the
log does, at positions from the base on (`refines_foldl`). That a release drops all tokens at once does not show either
(`release_eq`). The machine relies on a part of this, that the window shows the tokens that were fed (`Shows`).
-/

namespace PredictiveParser.TokenWindow

variable {τ : Type}

/-! ## The window shows the tokens that were pushed -/

/-- The window shows the tokens `past`, which were pushed so far, as far as they are retained. -/
structure Shows (w : TokenWindow τ) (past : List τ) : Prop where
  stop : w.stop = past.length
  get? : ∀ p, w.base ≤ p → w.get? p = past[p]?

theorem shows_empty : Shows ({} : TokenWindow τ) [] :=
  ⟨rfl, fun p _ => by simp [TokenWindow.get?]⟩

theorem Shows.push {w : TokenWindow τ} {past : List τ} (h : w.Shows past) (t : τ) :
    (w.push t).Shows (past ++ [t]) := by
  refine ⟨by rw [stop_push, h.stop, List.length_append, List.length_singleton], fun p hp => ?_⟩
  rw [get?_push, h.stop]
  by_cases hl : p = past.length
  · rw [if_pos hl, hl, List.getElem?_concat_length]
  · rw [if_neg hl, h.get? p hp]
    by_cases hlt : p < past.length
    · rw [List.getElem?_append_left hlt]
    · rw [List.getElem?_eq_none (by omega), List.getElem?_eq_none (by rw [List.length_append, List.length_singleton]; omega)]

theorem Shows.release {w : TokenWindow τ} {past : List τ} (h : w.Shows past) (low : Nat) :
    (w.release low).Shows past := by
  refine ⟨by rw [stop_release, h.stop], fun p hp => ?_⟩
  rw [get?_release, if_neg (by omega)]
  exact h.get? p (Nat.le_trans (by rw [base_release]; omega) hp)

/-- A token that is found was fed. -/
theorem Shows.getElem? {w : TokenWindow τ} {past : List τ} (h : w.Shows past) {p : Nat} {t : τ}
    (ht : w.get? p = some t) : past[p]? = some t := by
  have hp : w.base ≤ p := by
    refine Nat.le_of_not_lt fun hp => ?_
    rw [TokenWindow.get?, if_pos hp] at ht
    cases ht
  rw [← h.get? p hp, ht]

/-! ## Releasing one by one -/

/-- The window without its oldest token. -/
def dropOldest (w : TokenWindow τ) : TokenWindow τ :=
  { base := w.base + 1, tokens := w.tokens.extract 1 }

@[simp] theorem size_dropOldest (w : TokenWindow τ) : w.dropOldest.size = w.size - 1 := by
  simp [size, dropOldest]

/-- **Releasing drops tokens one by one**, the oldest as long as there is one and it stands below `low`. -/
theorem release_eq (w : TokenWindow τ) (low : Nat) :
    w.release low = if w.base < low ∧ 0 < w.size then w.dropOldest.release low else w := by
  split
  · next h =>
    have hcount : min (low - (w.base + 1)) (w.size - 1) = min (low - w.base) w.size - 1 := by omega
    have hpos : 0 < min (low - w.base) w.size := by omega
    unfold release
    rw [size_dropOldest]
    simp only [dropOldest, hcount, if_neg (Nat.ne_of_gt hpos)]
    split
    · next hlast => rw [show min (low - w.base) w.size = 1 by omega]
    · congr 1
      · omega
      · simp only [Array.extract_extract, Array.size_extract]
        congr 1 <;> omega
  · next h =>
    have hcount : min (low - w.base) w.size = 0 := by omega
    simp only [release, hcount, if_true]

/-! ## Operations on windows and logs -/

/-- An operation on a window. -/
inductive Operation (τ : Type)
  | push (t : τ)
  | release (low : Nat)
  | clear

namespace Operation

/-- The token that is pushed. -/
def token? : Operation τ → Option τ
  | push t => some t
  | release _ | clear => none

/-- The operation forgets all tokens. -/
def isClear : Operation τ → Bool
  | clear => true
  | push _ | release _ => false

end Operation

/-- The window after an operation. -/
def apply (w : TokenWindow τ) : Operation τ → TokenWindow τ
  | .push t => (w.add t).2
  | .release low => w.release low
  | .clear => w.clear

/-- The operations since the last clearing. -/
def sinceClear (ops : List (Operation τ)) : List (Operation τ) :=
  ops.rtakeWhile (!·.isClear)

/-- All tokens that were pushed, each at its absolute position; those below the base were released. -/
structure Log (τ : Type) where
  tokens : List τ := []
  base : Nat := 0

namespace Log

/-- The log after an operation. The base moves up to where a release says, but not past the end. -/
def apply (L : Log τ) : Operation τ → Log τ
  | .push t => { L with tokens := L.tokens ++ [t] }
  | .release low => { L with base := max L.base (min low L.tokens.length) }
  | .clear => {}

/-- Without clearing no token is lost and the base never moves back. -/
theorem prefix_apply (L : Log τ) {op : Operation τ} (h : op.isClear = false) :
    L.tokens <+: (L.apply op).tokens ∧ L.base ≤ (L.apply op).base := by
  cases op with
  | push t => exact ⟨List.prefix_append _ _, Nat.le_refl _⟩
  | release low => exact ⟨List.prefix_rfl, Nat.le_max_left _ _⟩
  | clear => cases h

theorem prefix_foldl (L : Log τ) {ops : List (Operation τ)} (h : ∀ op ∈ ops, op.isClear = false) :
    L.tokens <+: (ops.foldl apply L).tokens ∧ L.base ≤ (ops.foldl apply L).base := by
  induction ops generalizing L with
  | nil => exact ⟨List.prefix_rfl, Nat.le_refl _⟩
  | cons op ops ih =>
    obtain ⟨hop, hops⟩ := List.forall_mem_cons.1 h
    obtain ⟨htokens, hbase⟩ := L.prefix_apply hop
    obtain ⟨htokens', hbase'⟩ := ih (L.apply op) hops
    exact ⟨htokens.trans htokens', Nat.le_trans hbase hbase'⟩

/-- The tokens of a log are those that were pushed. -/
theorem tokens_foldl {ops : List (Operation τ)} (h : ∀ op ∈ ops, op.isClear = false) (L : Log τ) :
    (ops.foldl apply L).tokens = L.tokens ++ ops.filterMap Operation.token? := by
  induction ops generalizing L with
  | nil => simp
  | cons op ops ih =>
    obtain ⟨hop, hops⟩ := List.forall_mem_cons.1 h
    rw [List.foldl_cons, ih hops]
    cases op with
    | push t => simp [apply, Operation.token?]
    | release low => simp [apply, Operation.token?, List.filterMap_cons]
    | clear => cases hop

end Log

theorem isClear_of_mem_sinceClear {ops : List (Operation τ)} : ∀ op ∈ sinceClear ops, op.isClear = false := by
  intro op hop
  simpa using List.mem_rtakeWhile_imp hop

/-- What was done before the last clearing does not show in the log. -/
theorem foldl_sinceClear (ops : List (Operation τ)) :
    (sinceClear ops).foldl Log.apply {} = ops.foldl Log.apply {} := by
  induction ops using List.reverseRecOn with
  | nil => rfl
  | append_singleton ops op ih =>
    rw [List.foldl_concat, ← ih, sinceClear, List.rtakeWhile_concat]
    cases op with
    | push t => exact List.foldl_concat ..
    | release low => exact List.foldl_concat ..
    | clear => rfl

/-! ## Refinement -/

/-- The window shows the tokens of the log, from its base on. -/
structure Views (w : TokenWindow τ) (L : Log τ) : Prop where
  shows : w.Shows L.tokens
  base : w.base = L.base

namespace Views

variable {w : TokenWindow τ} {L : Log τ}

/-- **An operation on the window is one on the log.** -/
theorem apply (h : w.Views L) (op : Operation τ) : (w.apply op).Views (L.apply op) := by
  cases op with
  | push t =>
    rw [TokenWindow.apply, add_eq]
    exact ⟨h.shows.push t, h.base⟩
  | release low =>
    refine ⟨h.shows.release low, ?_⟩
    rw [TokenWindow.apply, base_release, h.base, h.shows.stop]
    rfl
  | clear => exact ⟨shows_empty, rfl⟩

theorem foldl (h : w.Views L) (ops : List (Operation τ)) :
    (ops.foldl TokenWindow.apply w).Views (ops.foldl Log.apply L) := by
  induction ops generalizing w L with
  | nil => exact h
  | cons op ops ih => exact ih (h.apply op)

/-- The window finds the tokens of the log that were not released. -/
theorem get?_eq (h : w.Views L) (p : Nat) : w.get? p = if L.base ≤ p then L.tokens[p]? else none := by
  split
  · next hp => exact h.shows.get? p (h.base ▸ hp)
  · next hp => rw [TokenWindow.get?, if_pos (by rw [h.base]; omega)]

end Views

/-- The window answers as the log does, by absolute positions from the base on. -/
structure Refines (w : TokenWindow τ) (L : Log τ) : Prop where
  base : w.base = L.base
  stop : w.stop = L.tokens.length
  size : w.size = L.tokens.length - L.base
  /-- A token that is pushed gets its place in the log. -/
  pushed : ∀ t, (w.add t).1 = L.tokens.length ∧ (w.add t).2.get? L.tokens.length = some t
  /-- What is found are the tokens between the base and the end. -/
  found : ∀ p t, w.get? p = some t ↔ L.base ≤ p ∧ L.tokens[p]? = some t
  missing : ∀ p, w.get? p = none ↔ p < L.base ∨ L.tokens.length ≤ p
  /-- Releasing moves the base neither back nor past the end, and keeps the end. -/
  released : ∀ low, L.base ≤ (w.release low).base ∧ (w.release low).base ≤ L.tokens.length ∧
    (w.release low).stop = L.tokens.length
  /-- Until the next clearing the base never moves back, and what is above it stays in place. -/
  stays : ∀ later : List (Operation τ), (∀ op ∈ later, op.isClear = false) →
    L.base ≤ (later.foldl apply w).base ∧
      ∀ p, (later.foldl apply w).base ≤ p → p < L.tokens.length → (later.foldl apply w).get? p = w.get? p

theorem Views.refines {w : TokenWindow τ} {L : Log τ} (h : w.Views L) : w.Refines L where
  base := h.base
  stop := h.shows.stop
  size := by
    rw [← h.base, ← h.shows.stop]
    exact (Nat.add_sub_cancel_left ..).symm
  pushed := by
    intro t
    rw [add_eq, get?_push, h.shows.stop]
    exact ⟨rfl, if_pos rfl⟩
  found := by
    intro p t
    rw [h.get?_eq]
    split
    · next hp => exact (and_iff_right hp).symm
    · next hp => exact iff_of_false nofun fun hfound => hp hfound.1
  missing := by
    intro p
    rw [h.get?_eq]
    split
    · next hp => rw [List.getElem?_eq_none_iff]; omega
    · next hp => simp only [true_iff]; omega
  released := by
    intro low
    have hle : w.base ≤ w.stop := Nat.le_add_right ..
    rw [stop_release, base_release, ← h.base, ← h.shows.stop]
    omega
  stays := by
    intro later hlater
    have hviews := h.foldl later
    obtain ⟨⟨added, hadded⟩, hbase⟩ := L.prefix_foldl hlater
    rw [hviews.base]
    refine ⟨hbase, fun p hp hlt => ?_⟩
    rw [hviews.get?_eq, h.get?_eq, if_pos hp, if_pos (Nat.le_trans hbase hp), ← hadded, List.getElem?_append_left hlt]

/-- **A window refines the log of what was done since it was last cleared.** The tokens of the log are those that were
pushed since then, in their order, and its base is what the releases since then have come to. -/
theorem refines_foldl (ops : List (Operation τ)) :
    (ops.foldl apply {}).Refines ((sinceClear ops).foldl Log.apply {}) ∧
      ((sinceClear ops).foldl Log.apply {}).tokens = (sinceClear ops).filterMap Operation.token? := by
  constructor
  · rw [foldl_sinceClear]
    have hviews : Views ({} : TokenWindow τ) {} := ⟨shows_empty, rfl⟩
    exact (hviews.foldl ops).refines
  · exact Log.tokens_foldl isClear_of_mem_sinceClear {}

/-- A release far beyond the end gives up all tokens, and the next token gets the position after them. -/
example : let w := [Operation.push 'a', .push 'b', .release 9, .push 'c', .release 1].foldl apply {}
    w.base = 2 ∧ w.get? 1 = none ∧ w.get? 2 = some 'c' ∧ (w.add 'd').1 = 3 := by
  decide

end PredictiveParser.TokenWindow
