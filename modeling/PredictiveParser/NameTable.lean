/-!
# Interned names

A name table numbers names in the order in which they were first added. Adding a known name changes nothing, so the
names of a table are distinct; the number of a name and the name of a number are inverse to each other
(`name?_eq_some_iff`), and adding never renumbers (`name?_add_of_name?`).
-/

namespace PredictiveParser

/-- Distinct names, numbered from zero in the order in which they were added. -/
structure NameTable where
  names : List String := []
  nodup : names.Nodup := by exact List.nodup_nil
  deriving DecidableEq

namespace NameTable

instance : Inhabited NameTable := ⟨{}⟩

/-- The number of names. -/
def size (T : NameTable) : Nat :=
  T.names.length

/-- The number of a name. -/
def index? (T : NameTable) (name : String) : Option Nat :=
  T.names.idxOf? name

/-- The name with a number. -/
def name? (T : NameTable) (i : Nat) : Option String :=
  T.names[i]?

/-- The name with a number, or a question mark. -/
def label (T : NameTable) (i : Nat) : String :=
  (T.name? i).getD "?"

theorem not_mem_of_index? {T : NameTable} {name : String} (h : T.index? name = none) : name ∉ T.names := by
  simpa [index?, List.idxOf?_eq_none_iff] using h

/-- The number of a name and the table that holds it, at the end if it is new. -/
def add (T : NameTable) (name : String) : Nat × NameTable :=
  match h : T.index? name with
  | some i => (i, T)
  | none =>
    (T.size, {
      names := T.names ++ [name]
      nodup := by
        have hn := not_mem_of_index? h
        exact List.nodup_append.2 ⟨T.nodup, by simp, by
          intro a ha b hb
          rw [List.mem_singleton.1 hb]
          exact fun e => hn (e ▸ ha)⟩ })

/-- The table of a list of names, in its order. -/
def ofList (names : List String) : NameTable :=
  names.foldl (fun T name => (T.add name).2) {}

/-! ## Numbers and names -/

theorem index?_eq_some_iff {T : NameTable} {name : String} {i : Nat} :
    T.index? name = some i ↔ T.names[i]? = some name := by
  have hd := T.nodup
  simp only [index?]
  generalize T.names = l at hd
  induction l generalizing i with
  | nil => simp
  | cons a l ih =>
    rw [List.nodup_cons] at hd
    rw [List.idxOf?_cons]
    by_cases ha : a = name
    · subst ha
      cases i with
      | zero => simp
      | succ i =>
        simp only [beq_self_eq_true, if_true, Option.some.injEq, List.getElem?_cons_succ]
        constructor
        · intro h; omega
        · intro h; exact absurd (List.mem_of_getElem? h) hd.1
    · have hb : (a == name) = false := by simpa using ha
      cases i with
      | zero => simp [hb, ha]
      | succ i => simp [hb, ih hd.2]

/-- The name of a number and the number of a name are inverse to each other. -/
theorem name?_eq_some_iff {T : NameTable} {name : String} {i : Nat} :
    T.name? i = some name ↔ T.index? name = some i :=
  index?_eq_some_iff.symm

/-- A name that was added has the returned number. -/
theorem name?_add (T : NameTable) (name : String) : (T.add name).2.name? (T.add name).1 = some name := by
  unfold add
  split
  · next i h => exact name?_eq_some_iff.2 h
  · next h => simp [name?, size]

/-- Adding keeps the numbers of the old names. -/
theorem name?_add_of_name? {T : NameTable} {name old : String} {i : Nat} (h : T.name? i = some old) :
    (T.add name).2.name? i = some old := by
  unfold add
  split
  · exact h
  · have hi : i < T.names.length := by
      rcases Nat.lt_or_ge i T.names.length with hi | hi
      · exact hi
      · simp [name?, List.getElem?_eq_none hi] at h
    simpa [name?, List.getElem?_append_left hi] using h

end NameTable

end PredictiveParser
