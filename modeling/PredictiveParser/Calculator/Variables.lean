import PredictiveParser.Calculator.Value

/-!
# Variables of the calculator

A variable comes into being with its first assignment and keeps its place from then on. Assigning sets the value of one
name and no other (`get?_set`).
-/

namespace PredictiveParser.Calculator

/-- The variables with their values, in the order of their first assignments. -/
structure Variables where
  entries : List (String × Value) := []
  deriving DecidableEq, Inhabited

namespace Variables

/-- Assigns a value in a list of entries. -/
def setIn (name : String) (value : Value) : List (String × Value) → List (String × Value)
  | [] => [(name, value)]
  | (n, v) :: rest => if n = name then (n, value) :: rest else (n, v) :: setIn name value rest

/-- Assigns a value. -/
def set (V : Variables) (name : String) (value : Value) : Variables :=
  ⟨setIn name value V.entries⟩

/-- The value of a variable. -/
def get? (V : Variables) (name : String) : Option Value :=
  V.entries.lookup name

/-- The place of a variable. -/
def index? (V : Variables) (name : String) : Option Nat :=
  V.entries.findIdx? (·.1 == name)

/-- The number of variables. -/
def size (V : Variables) : Nat :=
  V.entries.length

theorem lookup_setIn (name other : String) (value : Value) (entries : List (String × Value)) :
    (setIn name value entries).lookup other = if other = name then some value else entries.lookup other := by
  induction entries with
  | nil =>
    by_cases h : other = name
    · simp [setIn, h]
    · have : (other == name) = false := by simpa using h
      simp [setIn, List.lookup_cons, this, h]
  | cons e rest ih =>
    obtain ⟨n, v⟩ := e
    simp only [setIn]
    by_cases hn : n = name
    · subst hn
      by_cases h : other = n
      · simp [h]
      · have : (other == n) = false := by simpa using h
        simp [List.lookup_cons, this, h]
    · by_cases ho : other = n
      · subst ho
        simp [hn]
      · have : (other == n) = false := by simpa using ho
        simp [hn, List.lookup_cons, this, ih]

/-- Assigning sets the value of one name and no other. -/
theorem get?_set (V : Variables) (name other : String) (value : Value) :
    (V.set name value).get? other = if other = name then some value else V.get? other :=
  lookup_setIn name other value V.entries

end Variables

end PredictiveParser.Calculator
