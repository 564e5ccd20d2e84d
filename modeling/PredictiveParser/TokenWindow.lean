/-!
# The window of retained tokens

Tokens have absolute positions: the first token ever pushed is at position 0. A window keeps the tokens from `base` on;
older ones were released. Releasing moves the base forward, never past the end and never back (`base_release`), and a
retained token stays where it was (`get?_push`, `get?_release`).
-/

namespace PredictiveParser

/-- The tokens from position `base` on. -/
structure TokenWindow (τ : Type) where
  base : Nat := 0
  tokens : Array τ := #[]

namespace TokenWindow

variable {τ : Type}

instance : Inhabited (TokenWindow τ) := ⟨{}⟩

/-- The number of retained tokens. -/
def size (w : TokenWindow τ) : Nat :=
  w.tokens.size

/-- No token is retained. -/
def isEmpty (w : TokenWindow τ) : Bool :=
  w.tokens.isEmpty

/-- The position after the newest token. -/
def stop (w : TokenWindow τ) : Nat :=
  w.base + w.size

/-- Appends a token, which gets the position `w.stop`. -/
def push (w : TokenWindow τ) (t : τ) : TokenWindow τ :=
  { w with tokens := w.tokens.push t }

/-- Appends a token. The position that it gets comes with the window. -/
def add (w : TokenWindow τ) (t : τ) : Nat × TokenWindow τ :=
  let w := w.push t
  (w.stop - 1, w)

/-- The token at an absolute position, if it is retained. -/
def get? (w : TokenWindow τ) (p : Nat) : Option τ :=
  if p < w.base then none else w.tokens[p - w.base]?

/-- Drops the tokens below the position `low`. -/
def release (w : TokenWindow τ) (low : Nat) : TokenWindow τ :=
  let k := min (low - w.base) w.size
  if k = 0 then w else { base := w.base + k, tokens := w.tokens.extract k }

/-- Forgets all tokens, so positions start at zero again. -/
def clear (w : TokenWindow τ) : TokenWindow τ :=
  { w with base := 0, tokens := #[] }

/-! ## Positions survive -/

@[simp] theorem base_push (w : TokenWindow τ) (t : τ) : (w.push t).base = w.base := rfl

@[simp] theorem stop_push (w : TokenWindow τ) (t : τ) : (w.push t).stop = w.stop + 1 := by
  simp [stop, size, push, Nat.add_assoc]

/-- A token gets the position that was the end before it. -/
theorem add_eq (w : TokenWindow τ) (t : τ) : w.add t = (w.stop, w.push t) := by
  rw [add, stop_push, Nat.add_sub_cancel]

/-- The base moves up to `low`, but not past the end. -/
theorem base_release (w : TokenWindow τ) (low : Nat) : (w.release low).base = max w.base (min low w.stop) := by
  simp only [release, stop]
  split
  · omega
  · show w.base + min (low - w.base) w.size = _
    omega

/-- Releasing keeps the position after the newest token. -/
@[simp] theorem stop_release (w : TokenWindow τ) (low : Nat) : (w.release low).stop = w.stop := by
  unfold release
  by_cases h : min (low - w.base) w.size = 0
  · rw [if_pos h]
  · rw [if_neg h]
    simp only [stop, size, Array.size_extract] at h ⊢
    omega

theorem get?_push (w : TokenWindow τ) (t : τ) (p : Nat) :
    (w.push t).get? p = if p = w.stop then some t else w.get? p := by
  simp only [get?, push, stop, size]
  by_cases h : p < w.base
  · simp only [h, if_true]
    split
    · omega
    · rfl
  · simp only [h, if_false, Array.getElem?_push]
    by_cases hp : p = w.base + w.tokens.size
    · have : p - w.base = w.tokens.size := by omega
      simp [hp]
    · have : p - w.base ≠ w.tokens.size := by omega
      simp [hp, this]

/-- Releasing hides exactly the tokens below the new base. -/
theorem get?_release (w : TokenWindow τ) (low p : Nat) :
    (w.release low).get? p = if p < (w.release low).base then none else w.get? p := by
  by_cases hb : p < (w.release low).base
  · simp [get?, hb]
  · rw [if_neg hb]
    simp only [release] at hb ⊢
    split
    · rfl
    · next h =>
      simp only [h, if_false] at hb
      have hs : w.size = w.tokens.size := rfl
      have hlt : ¬ p < w.base := by omega
      simp only [get?, hb, hlt, if_false, Array.getElem?_extract]
      by_cases hp : p - w.base < w.tokens.size
      · rw [if_pos (by omega)]
        congr 1
        omega
      · rw [if_neg (by omega), Array.getElem?_eq_none (by omega)]

end TokenWindow

end PredictiveParser
