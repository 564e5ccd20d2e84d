import PredictiveParser.Proofs.Distinct
import PredictiveParser.Proofs.Prediction

/-!
# Filling the prediction table

A table can be filled by inserting the alternatives of all symbols one after the other, each for all terminals that select
it (`Filling.insert`). Slots then go through three states: they are empty, hold one production, or refer to a conflict by
number, and conflicts are numbered in the order in which they show. At any time the slots reflect what was inserted up to
then (`Filling.Reflects`), for every insertion keeps it so (`Reflects.insert`). In the end they reflect the alternatives that
compete (`filled_exact`), and the table is the prediction table.
-/

namespace PredictiveParser

/-! ## Tables while they are filled -/

/-- What a place of the table holds while it is filled. -/
inductive Slot
  | empty
  | production (p : Node)
  /-- The conflict with a number. -/
  | conflict (i : Nat)
  deriving DecidableEq, Inhabited

/-- A table while it is filled: its slots, by symbol and then by terminal, and the conflicts that have shown. -/
structure Filling where
  slots : Array Slot
  conflicts : Array Conflict

namespace Filling

variable (g : Grammar)

/-- The slot of a symbol and a terminal. -/
def slot (T : Filling) (s t : Nat) : Slot :=
  T.slots[s * g.tokenCount + t]?.getD .empty

/-- The table with another slot for a symbol and a terminal. -/
def put (T : Filling) (s t : Nat) (c : Slot) : Filling :=
  { T with slots := T.slots.setIfInBounds (s * g.tokenCount + t) c }

/-- Inserts an alternative: a second one makes a conflict, and later ones join it. -/
def insert (T : Filling) (s t : Nat) (p : Node) : Filling :=
  match T.slot g s t with
  | .empty => T.put g s t (.production p)
  | .production q =>
    if q = p then T
    else { T.put g s t (.conflict T.conflicts.size) with conflicts := T.conflicts.push ⟨s, t, [q, p]⟩ }
  | .conflict i => { T with conflicts := T.conflicts.modify i fun c => { c with candidates := insertLast c.candidates p } }

/-- The table without any alternatives. -/
def blank : Filling :=
  ⟨.replicate (g.symbolCount * g.tokenCount) .empty, #[]⟩

/-- The alternatives of a symbol, each with the terminals that select it in increasing order. -/
def insertionsOf (F : Facts) (s : Nat) : List (Nat × Nat × Node) :=
  (g.symbol s).alts.flatMap fun p => ((g.selection F s p).toList g.tokenCount).map fun t => (s, t, p)

/-- What is inserted, in order. -/
def insertions (F : Facts) : List (Nat × Nat × Node) :=
  (List.range g.symbolCount).flatMap (insertionsOf g F)

/-- The filled table. -/
def filled (F : Facts) : Filling :=
  (insertions g F).foldl (fun T i => T.insert g i.1 i.2.1 i.2.2) (blank g)

/-- The cell that a slot of the table stands for. -/
def cell (T : Filling) (s t : Nat) : Cell :=
  match T.slot g s t with
  | .empty => .empty
  | .production p => .production p
  | .conflict i => T.conflicts[i]?.elim .empty .conflict

variable {g} {T : Filling} {s t : Nat}

/-! ## Slots -/

/-- Places of different symbols or terminals are different. -/
theorem place_injective {n s t s' t' : Nat} (ht : t < n) (ht' : t' < n) (h : s * n + t = s' * n + t') : s = s' ∧ t = t' := by
  have hn : 0 < n := by omega
  have hs := congrArg (· / n) h
  simp only [Nat.mul_comm _ n, Nat.mul_add_div hn, Nat.div_eq_of_lt ht, Nat.div_eq_of_lt ht', Nat.add_zero] at hs
  exact ⟨hs, by rw [hs] at h; omega⟩

theorem place_lt {m n s t : Nat} (hs : s < m) (ht : t < n) : s * n + t < m * n := by
  calc s * n + t < s * n + n := by omega
    _ = (s + 1) * n := (Nat.succ_mul s n).symm
    _ ≤ m * n := Nat.mul_le_mul_right n hs

theorem slot_put (hsize : T.slots.size = g.symbolCount * g.tokenCount) (hs : s < g.symbolCount) (ht : t < g.tokenCount)
    {s' t' : Nat} (ht' : t' < g.tokenCount) {c : Slot} :
    (T.put g s t c).slot g s' t' = if s' = s ∧ t' = t then c else T.slot g s' t' := by
  unfold put slot
  rw [Array.getElem?_setIfInBounds]
  split
  · next e =>
    obtain ⟨rfl, rfl⟩ := place_injective ht ht' e
    rw [if_pos (hsize ▸ place_lt hs ht), if_pos ⟨rfl, rfl⟩]
    rfl
  · next e => rw [if_neg fun h => e (by rw [h.1, h.2])]

theorem slot_blank : (blank g).slot g s t = .empty := by
  unfold blank slot
  rw [Array.getElem?_replicate]
  split <;> rfl

theorem insert_of_empty {p : Node} (e : T.slot g s t = .empty) : T.insert g s t p = T.put g s t (.production p) := by
  unfold insert
  rw [e]

theorem insert_of_same {p : Node} (e : T.slot g s t = .production p) : T.insert g s t p = T := by
  unfold insert
  rw [e]
  exact if_pos rfl

theorem insert_of_other {p q : Node} (e : T.slot g s t = .production q) (hne : q ≠ p) : T.insert g s t p =
    { T.put g s t (.conflict T.conflicts.size) with conflicts := T.conflicts.push ⟨s, t, [q, p]⟩ } := by
  unfold insert
  rw [e]
  exact if_neg hne

theorem insert_of_conflict {p : Node} {i : Nat} (e : T.slot g s t = .conflict i) : T.insert g s t p =
    { T with conflicts := T.conflicts.modify i fun c => { c with candidates := insertLast c.candidates p } } := by
  unfold insert
  rw [e]

/-! ## What the slots reflect -/

variable (T) in
/-- What a slot says of the alternatives that appeared for its symbol and its terminal. -/
def Holds (s t : Nat) (candidates : List Node) : Slot → Prop
  | .empty => candidates = []
  | .production p => candidates = [p]
  | .conflict i => 2 ≤ candidates.length ∧ T.conflicts[i]? = some ⟨s, t, candidates⟩

variable (g T) in
/-- The slots hold the alternatives that appeared for their symbols and terminals, and every conflict is that of a slot. -/
structure Reflects (appeared : Nat → Nat → List Node) : Prop where
  size : T.slots.size = g.symbolCount * g.tokenCount
  holds : ∀ s < g.symbolCount, ∀ t < g.tokenCount, T.Holds s t (appeared s t) (T.slot g s t)
  conflict : ∀ i < T.conflicts.size, ∃ s < g.symbolCount, ∃ t < g.tokenCount, T.slot g s t = .conflict i

/-- What has appeared when one more alternative is inserted. -/
def extend (appeared : Nat → Nat → List Node) (s t : Nat) (p : Node) (s' t' : Nat) : List Node :=
  if s' = s ∧ t' = t then insertLast (appeared s t) p else appeared s' t'

theorem reflects_blank : (blank g).Reflects g fun _ _ => [] :=
  ⟨by simp [blank], fun s _ t _ => by rw [slot_blank]; rfl, fun i hi => absurd hi (Nat.not_lt_zero i)⟩

/-- If one slot changes, the others keep what they hold. -/
theorem Reflects.update {appeared : Nat → Nat → List Node} (h : T.Reflects g appeared) (hs : s < g.symbolCount)
    (ht : t < g.tokenCount) {T' : Filling} {c : Slot} {p : Node} (hsize : T'.slots.size = T.slots.size)
    (hslot : ∀ s', ∀ t' < g.tokenCount, T'.slot g s' t' = if s' = s ∧ t' = t then c else T.slot g s' t')
    (hnew : T'.Holds s t (insertLast (appeared s t) p) c)
    (hold : ∀ s' t', ¬ (s' = s ∧ t' = t) → ∀ (i : Nat) ps, T.conflicts[i]? = some ⟨s', t', ps⟩ →
      T'.conflicts[i]? = some ⟨s', t', ps⟩)
    (hconflict : ∀ i < T'.conflicts.size, c = .conflict i ∨ i < T.conflicts.size ∧ T.slot g s t ≠ .conflict i) :
    T'.Reflects g (extend appeared s t p) := by
  refine ⟨hsize.trans h.size, fun s' hs' t' ht' => ?_, fun i hi => ?_⟩
  · rw [hslot s' t' ht', extend]
    by_cases e : s' = s ∧ t' = t
    · rw [if_pos e, if_pos e, e.1, e.2]
      exact hnew
    · rw [if_neg e, if_neg e]
      have hholds := h.holds s' hs' t' ht'
      revert hholds
      cases T.slot g s' t' with
      | empty => exact id
      | production q => exact id
      | conflict i => exact fun ⟨hlen, hi⟩ => ⟨hlen, hold s' t' e i _ hi⟩
  · rcases hconflict i hi with hc | ⟨hi, hne⟩
    · exact ⟨s, hs, t, ht, by rw [hslot s t ht, if_pos ⟨rfl, rfl⟩, hc]⟩
    · obtain ⟨s', hs', t', ht', hi⟩ := h.conflict i hi
      refine ⟨s', hs', t', ht', ?_⟩
      rw [hslot s' t' ht', if_neg fun e => hne (by rw [← e.1, ← e.2, hi]), hi]

/-- **An insertion keeps a table that reflects what has appeared.** -/
theorem Reflects.insert {appeared : Nat → Nat → List Node} (h : T.Reflects g appeared) (hs : s < g.symbolCount)
    (ht : t < g.tokenCount) (p : Node) : (T.insert g s t p).Reflects g (extend appeared s t p) := by
  have hholds := h.holds s hs t ht
  have hput : ∀ {c : Slot} (s' : Nat), ∀ t' < g.tokenCount, (T.put g s t c).slot g s' t' =
      if s' = s ∧ t' = t then c else T.slot g s' t' := fun s' t' ht' => slot_put h.size hs ht ht'
  have hsize : ∀ {c : Slot}, (T.put g s t c).slots.size = T.slots.size := by simp [put]
  cases e : T.slot g s t with
  | empty =>
    rw [e] at hholds
    rw [insert_of_empty e]
    refine h.update hs ht hsize hput ?_ (fun _ _ _ _ _ hi => hi) fun i hi => .inr ⟨hi, by rw [e]; nofun⟩
    rw [show appeared s t = [] from hholds]
    rfl
  | production q =>
    rw [e] at hholds
    have hq : appeared s t = [q] := hholds
    by_cases hqp : q = p
    · -- the alternative has appeared before
      subst hqp
      rw [insert_of_same e]
      refine h.update hs ht (c := .production q) rfl (fun s' t' _ => ?_) ?_ (fun _ _ _ _ _ hi => hi)
        fun i hi => .inr ⟨hi, by rw [e]; nofun⟩
      · split
        · next he => rw [he.1, he.2, e]
        · rfl
      · rw [hq, insertLast_of_mem (List.mem_singleton_self q)]
        rfl
    · rw [insert_of_other e hqp]
      refine h.update hs ht hsize hput ?_ (fun s' t' _ i ps hi => ?_) fun i hi => ?_
      · rw [hq, insertLast_of_not_mem fun hm => hqp (List.mem_singleton.1 hm).symm]
        exact ⟨Nat.le_refl 2, Array.getElem?_push_size⟩
      · obtain ⟨hlt, -⟩ := Array.getElem?_eq_some_iff.1 hi
        dsimp only
        rw [Array.getElem?_push, if_neg (Nat.ne_of_lt hlt), hi]
      · rw [Array.size_push] at hi
        rcases Nat.lt_succ_iff_lt_or_eq.1 hi with hi | rfl
        · exact .inr ⟨hi, by rw [e]; nofun⟩
        · exact .inl rfl
  | conflict i =>
    rw [e] at hholds
    obtain ⟨hlen, hi⟩ := hholds
    rw [insert_of_conflict e]
    refine h.update hs ht (c := .conflict i) rfl (fun s' t' _ => ?_) ⟨?_, ?_⟩ (fun s' t' hne j ps hj => ?_) fun j hj => ?_
    · split
      · next he => rw [he.1, he.2, ← e]; rfl
      · rfl
    · exact hlen.trans (prefix_insertLast _ p).length_le
    · dsimp only
      rw [Array.getElem?_modify, if_pos rfl, hi]
      rfl
    · -- the other conflict is that of another symbol or another terminal
      have hij : i ≠ j := by
        rintro rfl
        rw [hi] at hj
        cases hj
        exact hne ⟨rfl, rfl⟩
      dsimp only
      rw [Array.getElem?_modify, if_neg hij, hj]
    · rw [Array.size_modify] at hj
      by_cases hij : i = j
      · exact .inl (by rw [hij])
      · exact .inr ⟨hj, by rw [e]; exact fun h => hij (Slot.conflict.inj h)⟩

/-! ## What has appeared -/

/-- The alternatives that a list of insertions has for a symbol and a terminal, in the order in which they appear first. -/
def appeared (is : List (Nat × Nat × Node)) (s t : Nat) : List Node :=
  ((is.filter fun i => i.1 = s ∧ i.2.1 = t).map (·.2.2)).eraseDups

theorem appeared_concat (is : List (Nat × Nat × Node)) (i : Nat × Nat × Node) :
    appeared (is ++ [i]) = extend (appeared is) i.1 i.2.1 i.2.2 := by
  funext s t
  unfold appeared extend
  rw [List.filter_append, List.map_append]
  by_cases e : s = i.1 ∧ t = i.2.1
  · obtain ⟨rfl, rfl⟩ := e
    rw [List.filter_cons_of_pos (by simp), if_pos ⟨rfl, rfl⟩]
    exact eraseDups_concat _ _
  · have e' : ¬ (i.1 = s ∧ i.2.1 = t) := fun h => e ⟨h.1.symm, h.2.symm⟩
    rw [List.filter_cons_of_neg (by simpa using e'), if_neg e]
    simp

/-- **After any insertions the table reflects what has appeared.** -/
theorem reflects_foldl {is : List (Nat × Nat × Node)} (h : ∀ i ∈ is, i.1 < g.symbolCount ∧ i.2.1 < g.tokenCount) :
    (is.foldl (fun T i => T.insert g i.1 i.2.1 i.2.2) (blank g)).Reflects g (appeared is) := by
  induction is using List.reverseRecOn with
  | nil => exact reflects_blank
  | append_singleton is i ih =>
    rw [List.foldl_append, appeared_concat]
    obtain ⟨hs, ht⟩ := h i (by simp)
    exact (ih fun j hj => h j (List.mem_append_left _ hj)).insert hs ht i.2.2

theorem mem_insertions {F : Facts} {i : Nat × Nat × Node} (h : i ∈ insertions g F) :
    i.1 < g.symbolCount ∧ i.2.1 < g.tokenCount := by
  simp only [insertions, insertionsOf, List.mem_flatMap, List.mem_range, List.mem_map, TokenSet.mem_toList] at h
  obtain ⟨s, hs, p, -, t, ⟨ht, -⟩, rfl⟩ := h
  exact ⟨hs, ht⟩

/-- Of lists for numbers, all but one of which are empty, that one is left. -/
theorem flatMap_range_single {α : Type} {f : Nat → List α} {n s : Nat} (hs : s < n) (h : ∀ s', s' ≠ s → f s' = []) :
    (List.range n).flatMap f = f s := by
  induction n with
  | zero => exact absurd hs (Nat.not_lt_zero s)
  | succ n ih =>
    rw [List.range_succ, List.flatMap_append, List.flatMap_singleton]
    rcases Nat.lt_succ_iff_lt_or_eq.1 hs with hs | rfl
    · rw [ih hs, h n (Nat.ne_of_gt hs), List.append_nil]
    · rw [List.flatMap_eq_nil_iff.2 fun s' hs' => h s' (Nat.ne_of_lt (List.mem_range.1 hs')), List.nil_append]

/-- What is inserted for a symbol and a terminal: the alternatives that the terminal selects. -/
theorem filter_insertions {F : Facts} (hs : s < g.symbolCount) (ht : t < g.tokenCount) :
    ((insertions g F).filter fun i => i.1 = s ∧ i.2.1 = t).map (·.2.2) =
      (g.symbol s).alts.filter fun p => (g.selection F s p).mem t := by
  have hother : ∀ s', s' ≠ s → ((insertionsOf g F s').filter fun i => i.1 = s ∧ i.2.1 = t) = [] := by
    intro s' hne
    rw [List.filter_eq_nil_iff]
    intro i hi
    simp only [insertionsOf, List.mem_flatMap, List.mem_map] at hi
    obtain ⟨p, -, t', -, rfl⟩ := hi
    simp [hne]
  rw [insertions, List.filter_flatMap, flatMap_range_single hs hother, insertionsOf, List.filter_flatMap]
  induction (g.symbol s).alts with
  | nil => rfl
  | cons p ps ih =>
    rw [List.flatMap_cons, List.map_append, ih, List.filter_cons, List.filter_map, List.map_map]
    have hone : ((g.selection F s p).toList g.tokenCount).filter (fun t' => decide (t' = t)) =
        if (g.selection F s p).mem t = true then [t] else [] := by
      have hnodup : ((g.selection F s p).toList g.tokenCount).Nodup := (TokenSet.pairwise_toList _ _).imp Nat.ne_of_lt
      rw [List.filter_eq, hnodup.count]
      by_cases hm : (g.selection F s p).mem t = true
      · rw [if_pos hm, if_pos (TokenSet.mem_toList.2 ⟨ht, hm⟩)]
        rfl
      · rw [if_neg hm, if_neg fun h => hm (TokenSet.mem_toList.1 h).2]
        rfl
    have hcomp : ((fun i : Nat × Nat × Node => decide (i.1 = s ∧ i.2.1 = t)) ∘ fun t' => (s, t', p)) =
        fun t' => decide (t' = t) := by
      funext t'
      simp
    rw [hcomp, hone]
    by_cases hm : (g.selection F s p).mem t = true
    · rw [if_pos hm, if_pos hm]
      rfl
    · rw [if_neg hm, if_neg hm]
      rfl

theorem appeared_insertions {F : Facts} (hs : s < g.symbolCount) (ht : t < g.tokenCount) :
    appeared (insertions g F) s t = competing (g.selections F s) t := by
  rw [appeared, filter_insertions hs ht, competing, Grammar.selections, List.filter_map, List.map_map]
  congr 1
  exact (List.map_id _).symm

/-- The filled table reflects what competes. -/
theorem reflects_filled (g : Grammar) (F : Facts) : (filled g F).Reflects g (appeared (insertions g F)) :=
  reflects_foldl fun _ => mem_insertions

end Filling

/-! ## What a cell holds -/

/-- The terminal is one of those that the set stands for: instead of the wildcard these are all concrete terminals. -/
def TokenSet.StandsFor (S : TokenSet) (t : Nat) : Prop :=
  t ≠ anyToken ∧ (S.mem t = true ∨ S.mem anyToken = true ∧ firstConcrete ≤ t)

instance (S : TokenSet) (t : Nat) : Decidable (S.StandsFor t) :=
  inferInstanceAs (Decidable (_ ∧ _))

namespace Grammar

variable (g : Grammar) (F : Facts)

/-- The terminal selects an alternative of a symbol: it can begin the alternative or, if that is nullable, follow the symbol
or be the end of the input after it. -/
def Selects (s : Nat) (p : Node) (t : Nat) : Prop :=
  (F.of g p).first.StandsFor t ∨ (F.of g p).nullable = true ∧
    ((F.of g (Item.symbol s)).follow.StandsFor t ∨ (F.of g (Item.symbol s)).final = true ∧ t = endToken)

instance (s : Nat) (p : Node) (t : Nat) : Decidable (g.Selects F s p t) :=
  inferInstanceAs (Decidable (_ ∨ _))

/-- The distinct alternatives of a symbol that a terminal selects, in the order in which they appear first. -/
def contenders (s t : Nat) : List Node :=
  ((g.symbol s).alts.filter fun p => g.Selects F s p t).eraseDups

variable {g F}

theorem mem_concrete_iff_standsFor {S : TokenSet} {n t : Nat} (ht : t < n) :
    (S.concrete n).mem t = true ↔ S.StandsFor t := by
  unfold TokenSet.concrete TokenSet.StandsFor
  by_cases hS : S.mem anyToken = true
  · rw [if_pos hS, TokenSet.mem_ofList, List.contains_iff_mem, List.mem_filter, List.mem_range]
    simp only [Bool.or_eq_true, Bool.and_eq_true, decide_eq_true_eq, beq_iff_eq, hS, true_and, ht]
    constructor
    · rintro (h | ⟨rfl, h⟩)
      · exact ⟨by simp only [anyToken, firstConcrete] at *; omega, .inr h⟩
      · exact ⟨by decide, .inl h⟩
    · rintro ⟨hne, h | h⟩
      · by_cases h2 : firstConcrete ≤ t
        · exact .inl h2
        · have h0 : t = endToken := by simp only [anyToken, endToken, firstConcrete] at *; omega
          exact .inr ⟨h0, h0 ▸ h⟩
      · exact .inl h
  · rw [if_neg hS]
    constructor
    · exact fun h => ⟨fun e => hS (e ▸ h), .inl h⟩
    · rintro ⟨-, h | ⟨h, -⟩⟩
      · exact h
      · exact absurd h hS

theorem mem_selection_iff_selects {s t : Nat} {p : Node} (ht : t < g.tokenCount) :
    (g.selection F s p).mem t = true ↔ g.Selects F s p t := by
  rw [mem_selection, mem_concrete_iff_standsFor ht, mem_concrete_iff_standsFor ht]
  rfl

/-- No alternative competes for the wildcard itself. -/
theorem contenders_anyToken (s : Nat) : g.contenders F s anyToken = [] := by
  have hnone : ((g.symbol s).alts.filter fun p => g.Selects F s p anyToken) = [] := by
    rw [List.filter_eq_nil_iff]
    rintro p - h
    rcases of_decide_eq_true h with h | ⟨-, h | ⟨-, h⟩⟩
    · exact h.1 rfl
    · exact h.1 rfl
    · cases h
  rw [contenders, hnone]
  rfl

theorem competing_eq_contenders {s t : Nat} (ht : t < g.tokenCount) :
    competing (g.selections F s) t = g.contenders F s t := by
  rw [competing, selections, List.filter_map, List.map_map, contenders]
  congr 1
  rw [show ((·.1) ∘ fun p => (p, g.selection F s p) : Node → Node) = id from rfl, List.map_id]
  refine List.filter_congr fun p _ => ?_
  rw [Bool.eq_iff_iff, decide_eq_true_iff]
  exact mem_selection_iff_selects ht

end Grammar

namespace Filling

variable {g : Grammar} {F : Facts} {T : Filling} {s t : Nat} {ps : List Node}

namespace Holds

/-- A slot is empty if nothing has appeared. -/
theorem empty_iff {c : Slot} (h : T.Holds s t ps c) : c = .empty ↔ ps = [] := by
  cases c with
  | empty => exact ⟨fun _ => h, fun _ => rfl⟩
  | production p =>
    subst h
    simp
  | conflict i => exact ⟨nofun, fun e => by rw [e] at h; exact absurd h.1 (by decide)⟩

/-- A slot holds a production if that is all that has appeared. -/
theorem production_iff {c : Slot} (h : T.Holds s t ps c) (p : Node) : c = .production p ↔ ps = [p] := by
  cases c with
  | empty =>
    subst h
    simp
  | production q =>
    subst h
    simp
  | conflict i => exact ⟨nofun, fun e => by rw [e] at h; exact absurd h.1 (by simp)⟩

/-- A slot refers to a conflict if several alternatives have appeared. -/
theorem conflict_iff {c : Slot} (h : T.Holds s t ps c) : (∃ i, c = .conflict i) ↔ 2 ≤ ps.length := by
  cases c with
  | empty =>
    subst h
    simp
  | production q =>
    subst h
    simp
  | conflict i => exact ⟨fun _ => h.1, fun _ => ⟨i, rfl⟩⟩

/-- The conflict is that of the symbol, the terminal and the alternatives that have appeared. -/
theorem conflict {i : Nat} (h : T.Holds s t ps (.conflict i)) : T.conflicts[i]? = some ⟨s, t, ps⟩ :=
  h.2

/-- The slot stands for the cell of the alternatives that have appeared. -/
theorem cell_eq (h : T.Holds s t ps (T.slot g s t)) : T.cell g s t = Cell.ofCandidates s t ps := by
  unfold cell
  revert h
  cases T.slot g s t with
  | empty => rintro ⟨⟩; rfl
  | production p => rintro ⟨⟩; rfl
  | conflict i =>
    rintro ⟨hlen, hi⟩
    dsimp only
    rw [hi]
    match ps, hlen with
    | _ :: _ :: _, _ => rfl

end Holds

theorem holds_filled (hs : s < g.symbolCount) (ht : t < g.tokenCount) :
    (filled g F).Holds s t (g.contenders F s t) ((filled g F).slot g s t) := by
  rw [← Grammar.competing_eq_contenders ht, ← appeared_insertions hs ht]
  exact (reflects_filled g F).holds s hs t ht

/-- **The filled table is exact.** A slot is empty, holds a production or refers to a conflict according to the number of
distinct alternatives that its terminal selects for its symbol, and the conflict carries these alternatives in the order in
which they appear first. Every conflict is referred to by exactly one slot, and no slot of the wildcard holds anything. The
cells are those of the prediction table. -/
theorem filled_exact (g : Grammar) (F : Facts) :
    (∀ s < g.symbolCount, ∀ t < g.tokenCount,
      ((filled g F).slot g s t = .empty ↔ g.contenders F s t = []) ∧
      (∀ p, (filled g F).slot g s t = .production p ↔ g.contenders F s t = [p]) ∧
      ((∃ i, (filled g F).slot g s t = .conflict i) ↔ 2 ≤ (g.contenders F s t).length) ∧
      (∀ i, (filled g F).slot g s t = .conflict i → (filled g F).conflicts[i]? = some ⟨s, t, g.contenders F s t⟩) ∧
      (t = anyToken → (filled g F).slot g s t = .empty) ∧
      (PredictionTable.fill g F).cell s t = (filled g F).cell g s t) ∧
    ∀ i < (filled g F).conflicts.size, ∃! c : Nat × Nat, c.1 < g.symbolCount ∧ c.2 < g.tokenCount ∧
      (filled g F).slot g c.1 c.2 = .conflict i := by
  refine ⟨fun s hs t ht => ?_, fun i hi => ?_⟩
  · have h := holds_filled (F := F) hs ht
    refine ⟨h.empty_iff, h.production_iff, h.conflict_iff, fun i e => ?_, ?_, ?_⟩
    · rw [e] at h
      exact h.conflict
    · rintro rfl
      exact h.empty_iff.2 (Grammar.contenders_anyToken s)
    · rw [h.cell_eq, PredictionTable.cell_fill hs ht, Grammar.competing_eq_contenders ht]
  · obtain ⟨s, hs, t, ht, e⟩ := (reflects_filled g F).conflict i hi
    refine ⟨(s, t), ⟨hs, ht, e⟩, ?_⟩
    rintro ⟨s', t'⟩ ⟨hs', ht', e'⟩
    -- both slots refer to the conflict, which is that of one symbol and one terminal
    have h := holds_filled (F := F) hs ht
    have h' := holds_filled (F := F) hs' ht'
    rw [e] at h
    rw [e'] at h'
    cases h.conflict.symm.trans h'.conflict
    rfl

end Filling

end PredictiveParser
