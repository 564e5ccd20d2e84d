/-!
# Terminals and sets of terminals

A terminal is a number. Two of them are reserved: `endToken` stands for the end of the input, and `anyToken`, the
wildcard, for every other terminal. A set of terminals is a number whose binary digit at place `t` says whether `t`
belongs to it, so equal sets are equal values and union is one operation on numbers (`mem_union`).
-/

namespace PredictiveParser

/-- The terminal that marks the end of the input. -/
abbrev endToken : Nat := 0

/-- The wildcard, which stands for every terminal but the end of the input. -/
abbrev anyToken : Nat := 1

/-- The least terminal that is neither the end of the input nor the wildcard. -/
abbrev firstConcrete : Nat := 2

/-- Whether the terminal `expected` of a production accepts the token `t`. -/
def accepts (expected t : Nat) : Bool :=
  if expected = anyToken then t != endToken else t == expected

/-- A finite set of terminals. -/
structure TokenSet where
  mask : Nat := 0
  deriving DecidableEq, Inhabited

namespace TokenSet

/-- Membership. -/
def mem (S : TokenSet) (t : Nat) : Bool :=
  S.mask.testBit t

/-- The set without terminals. -/
def empty : TokenSet :=
  {}

/-- The set of one terminal. -/
def single (t : Nat) : TokenSet :=
  ⟨1 <<< t⟩

/-- The union of two sets. -/
def union (S T : TokenSet) : TokenSet :=
  ⟨S.mask ||| T.mask⟩

/-- The set of the terminals of a list. -/
def ofList (ts : List Nat) : TokenSet :=
  ts.foldl (fun S t => S.union (single t)) empty

/-- The members below `n`, in increasing order. -/
def toList (S : TokenSet) (n : Nat) : List Nat :=
  (List.range n).filter S.mem

/-- The terminals a set stands for among `n`: with the wildcard in it these are all terminals but the wildcard
itself, and the end of the input only if it is a member too. -/
def concrete (S : TokenSet) (n : Nat) : TokenSet :=
  if S.mem anyToken then
    ofList ((List.range n).filter fun t => firstConcrete ≤ t || (t == endToken && S.mem endToken))
  else S

/-! ## Membership -/

@[simp] theorem mem_empty (t : Nat) : empty.mem t = false := by
  simp [empty, mem]

@[simp] theorem mem_single (t u : Nat) : (single t).mem u = decide (t = u) := by
  simp [single, mem, Nat.one_shiftLeft, Nat.testBit_two_pow]

@[simp] theorem mem_union (S T : TokenSet) (t : Nat) : (S.union T).mem t = (S.mem t || T.mem t) := by
  simp [union, mem, Nat.testBit_or]

/-- Sets with the same members are equal. -/
theorem ext_mem {S T : TokenSet} (h : ∀ t, S.mem t = T.mem t) : S = T := by
  cases S; cases T
  simp only [mem] at h
  exact congrArg TokenSet.mk (Nat.eq_of_testBit_eq h)

theorem mem_foldl_union (ts : List Nat) (S : TokenSet) (t : Nat) :
    (ts.foldl (fun S t => S.union (single t)) S).mem t = (S.mem t || ts.contains t) := by
  induction ts generalizing S with
  | nil => simp
  | cons a ts ih =>
    rw [List.foldl_cons, ih, mem_union, mem_single, List.contains_cons, Bool.or_assoc]
    congr 2
    simp [eq_comm, Bool.beq_eq_decide_eq]

@[simp] theorem mem_ofList (ts : List Nat) (t : Nat) : (ofList ts).mem t = ts.contains t := by
  simp [ofList, mem_foldl_union]

theorem mem_toList {S : TokenSet} {n t : Nat} : t ∈ S.toList n ↔ t < n ∧ S.mem t = true := by
  simp [toList]

theorem mem_toList_of_lt {S : TokenSet} {n t : Nat} (h : ∀ t, S.mem t = true → t < n) :
    t ∈ S.toList n ↔ S.mem t = true :=
  mem_toList.trans (and_iff_right_of_imp (h t))

/-- The members are listed in strictly increasing order. -/
theorem pairwise_toList (S : TokenSet) (n : Nat) : (S.toList n).Pairwise (· < ·) :=
  List.pairwise_lt_range.filter _

end TokenSet

end PredictiveParser
