/-!
# Values of the calculator

The calculator works with signed integers of 64 bits. An operation is carried out on integers, and its result has to fit
(`toInt_of_fit?`); division drops the fraction. Literals are read digit by digit, so of a digit out of place and a number
out of range the one that comes first is reported.
-/

namespace PredictiveParser.Calculator

/-- A number of the calculator. -/
abbrev Value := Int64

namespace Value

/-- The integer is in the range of values. -/
def InRange (n : Int) : Prop :=
  Int64.minValue.toInt ≤ n ∧ n ≤ Int64.maxValue.toInt

instance (n : Int) : Decidable (InRange n) :=
  inferInstanceAs (Decidable (_ ∧ _))

/-- The value of an integer that fits. -/
def fit? (n : Int) : Option Value :=
  if InRange n then some (Int64.ofInt n) else none

/-- The sum, if it fits. -/
def add? (a b : Value) : Option Value :=
  fit? (a.toInt + b.toInt)

/-- The difference, if it fits. -/
def sub? (a b : Value) : Option Value :=
  fit? (a.toInt - b.toInt)

/-- The product, if it fits. -/
def mul? (a b : Value) : Option Value :=
  fit? (a.toInt * b.toInt)

/-- The quotient without its fraction, if there is one and it fits. -/
def div? (a b : Value) : Option Value :=
  if b = 0 then none else fit? (a.toInt.tdiv b.toInt)

/-- The opposite, if it fits. -/
def neg? (a : Value) : Option Value :=
  fit? (-a.toInt)

theorem toInt_of_fit? {n : Int} {v : Value} (h : fit? n = some v) : v.toInt = n := by
  unfold fit? at h
  split at h
  · next hn =>
    rw [← Option.some.inj h]
    have hmin : Int64.minValue.toInt = -2 ^ 63 := by decide
    have hmax : Int64.maxValue.toInt = 2 ^ 63 - 1 := by decide
    obtain ⟨h₁, h₂⟩ := hn
    exact Int64.toInt_ofInt_of_le (by omega) (by omega)
  · exact nomatch h

/-! ## Reading -/

/-- Why a text is no value. -/
inductive ReadError
  | empty
  | invalidDigit
  | tooLarge
  | tooSmall
  deriving DecidableEq, Inhabited

/-- The wording of a reading error. -/
def ReadError.message : ReadError → String
  | empty => "cannot parse integer from empty string"
  | invalidDigit => "invalid digit found in string"
  | tooLarge => "number too large to fit in target type"
  | tooSmall => "number too small to fit in target type"

/-- The number of a decimal digit. -/
def digit? (c : Char) : Option Nat :=
  if c.isDigit then some (c.toNat - '0'.toNat) else none

/-- Reads the remaining digits of a number whose first digits make `n`. -/
def readDigits (negative : Bool) : (n : Int) → List Char → Except ReadError Value
  | n, [] => .ok (Int64.ofInt n)
  | n, c :: cs =>
    match digit? c with
    | none => .error .invalidDigit
    | some d =>
      let n := if negative then n * 10 - d else n * 10 + d
      if InRange n then readDigits negative n cs else .error (if negative then .tooSmall else .tooLarge)

/-- Reads a decimal number, which may have a sign. -/
def read (text : String) : Except ReadError Value :=
  match text.toList with
  | [] => .error .empty
  | ['+'] | ['-'] => .error .invalidDigit
  | '+' :: cs => readDigits false 0 cs
  | '-' :: cs => readDigits true 0 cs
  | cs => readDigits false 0 cs

/-- The decimal text of a value. -/
def display (v : Value) : String :=
  toString v.toInt

end Value

end PredictiveParser.Calculator
