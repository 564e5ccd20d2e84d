import PredictiveParser.Prediction
import PredictiveParser.Proofs.Analysis.Closure
import PredictiveParser.Proofs.Distinct

/-!
# What competes for a token

An alternative competes for the first token of whatever it derives together with the items behind its symbol
(`Chained.competes`), so that the cell of the prediction table never misses the alternative of a parse tree. The items
that are still to be matched are `Chained` along a parse: every one of them is followed by what stands behind it.
-/

namespace PredictiveParser

/-! ## Sets of concrete terminals -/

@[simp] theorem accepts_self (t : Nat) : accepts t t = true := by
  unfold accepts
  split <;> simp_all

/-- A set with the wildcard stands for whatever its members accept. -/
theorem TokenSet.mem_concrete {S : TokenSet} {n a : Nat} (hn : a < n) (ha : a ≠ anyToken) :
    (S.concrete n).mem a = true ↔ ∃ t, S.mem t = true ∧ accepts t a = true := by
  unfold concrete
  by_cases hS : S.mem anyToken = true
  · rw [if_pos hS, mem_ofList, List.contains_iff_mem, List.mem_filter, List.mem_range]
    constructor
    · rintro ⟨-, h⟩
      rcases Bool.or_eq_true_iff.1 h with h | h
      · refine ⟨anyToken, hS, ?_⟩
        have : a ≠ endToken := by rintro rfl; simp at h
        simpa [accepts] using this
      · rw [Bool.and_eq_true, beq_iff_eq] at h
        exact ⟨endToken, h.2, by rw [h.1]; rfl⟩
    · rintro ⟨t, ht, hacc⟩
      refine ⟨hn, ?_⟩
      by_cases he : a = endToken
      · subst he
        have : t = endToken := by
          unfold accepts at hacc
          split at hacc
          · simp at hacc
          · exact (beq_iff_eq.1 hacc).symm
        subst this
        simp [ht]
      · have : firstConcrete ≤ a := by
          simp only [anyToken, endToken, firstConcrete] at *
          omega
        simp [this]
  · rw [if_neg hS]
    constructor
    · exact fun h => ⟨a, h, accepts_self a⟩
    · rintro ⟨t, ht, hacc⟩
      have hne : t ≠ anyToken := fun e => hS (e ▸ ht)
      rw [accepts, if_neg hne, beq_iff_eq] at hacc
      rwa [hacc]

namespace Grammar

variable {g : Grammar} {F : Facts}

/-- When an alternative competes for a token. -/
theorem mem_selection {s : Nat} {p : Node} {a : Nat} : (g.selection F s p).mem a = true ↔
    ((F.of g p).first.concrete g.tokenCount).mem a = true ∨
      (F.of g p).nullable = true ∧
        (((F.of g (Item.symbol s)).follow.concrete g.tokenCount).mem a = true ∨
          (F.of g (Item.symbol s)).final = true ∧ a = endToken) := by
  unfold selection
  by_cases hn : (F.of g p).nullable = true
  · by_cases hf : (F.of g (Item.symbol s)).final = true
    · simp [hn, hf, or_assoc, eq_comm (a := a)]
    · simp [hn, hf]
  · simp [hn]

theorem mem_competing {s t : Nat} {p : Node} :
    p ∈ competing (g.selections F s) t ↔ p ∈ (g.symbol s).alts ∧ (g.selection F s p).mem t = true := by
  simp only [competing, selections, List.mem_eraseDups, List.mem_map, List.mem_filter]
  constructor
  · rintro ⟨_, ⟨⟨q, hq, rfl⟩, hm⟩, rfl⟩
    exact ⟨hq, hm⟩
  · rintro ⟨hp, hm⟩
    exact ⟨_, ⟨⟨p, hp, rfl⟩, hm⟩, rfl⟩

end Grammar

/-! ## Cells -/

/-- The alternatives that a cell leaves possible. -/
def Cell.candidates : Cell → List Node
  | .empty => []
  | .production p => [p]
  | .conflict c => c.candidates

@[simp] theorem Cell.candidates_ofCandidates (s t : Nat) (ps : List Node) : (Cell.ofCandidates s t ps).candidates = ps := by
  unfold ofCandidates
  split <;> rfl

/-- A conflict of a cell is that of its symbol and its token. -/
theorem Cell.eq_of_ofCandidates {s t : Nat} {ps : List Node} {c : Conflict} (h : Cell.ofCandidates s t ps = .conflict c) :
    c.symbol = s ∧ c.token = t ∧ c.candidates = ps := by
  unfold ofCandidates at h
  split at h
  · cases h
  · cases h
  · cases h
    exact ⟨rfl, rfl, rfl⟩

/-- A cell with a candidate holds it alone, or it holds a conflict. -/
theorem Cell.production_or_conflict {c : Cell} {p : Node} (h : p ∈ c.candidates) :
    c = .production p ∨ ∃ conflict, c = .conflict conflict := by
  cases c with
  | empty => exact absurd h List.not_mem_nil
  | production q =>
    rw [List.mem_singleton.1 h]
    exact .inl rfl
  | conflict conflict => exact .inr ⟨conflict, rfl⟩

namespace PredictionTable

variable {g : Grammar} {F : Facts}

/-- The cell of a symbol and a terminal of the grammar holds what competes. -/
theorem cell_fill {s t : Nat} (hs : s < g.symbolCount) (ht : t < g.tokenCount) :
    (fill g F).cell s t = Cell.ofCandidates s t (competing (g.selections F s) t) := by
  simp [cell, fill, row, hs, ht]

/-- The cell of a symbol and a terminal leaves exactly the competing alternatives possible. -/
theorem mem_candidates {s t : Nat} (ht : t < g.tokenCount) {p : Node} :
    p ∈ ((fill g F).cell s t).candidates ↔ p ∈ (g.symbol s).alts ∧ (g.selection F s p).mem t = true := by
  by_cases hs : s < g.symbolCount
  · rw [cell_fill hs ht, Cell.candidates_ofCandidates, Grammar.mem_competing]
  · have h₁ : (fill g F).cell s t = .empty := by simp [cell, fill, hs]
    rw [h₁]
    constructor
    · exact fun h => absurd h List.not_mem_nil
    · exact fun h => absurd (Grammar.symbol_lt_of_mem_alts h.1) hs

/-- A cell only leaves alternatives of its symbol possible. -/
theorem mem_alts_of_mem_candidates {s t : Nat} {p : Node} (h : p ∈ ((fill g F).cell s t).candidates) :
    p ∈ (g.symbol s).alts := by
  by_cases ht : t < g.tokenCount
  · exact ((mem_candidates ht).1 h).1
  · have e : (fill g F).cell s t = .empty := by
      by_cases hs : s < g.symbolCount
      · simp [cell, fill, row, hs, ht]
      · simp [cell, fill, hs]
    rw [e] at h
    exact absurd h List.not_mem_nil

theorem conflict_fill {s t : Nat} {c : Conflict} (h : (fill g F).cell s t = .conflict c) :
    s < g.symbolCount ∧ t < g.tokenCount ∧ c.symbol = s ∧ c.token = t := by
  by_cases hs : s < g.symbolCount
  · by_cases ht : t < g.tokenCount
    · rw [cell_fill hs ht] at h
      obtain ⟨h₁, h₂, -⟩ := Cell.eq_of_ofCandidates h
      exact ⟨hs, ht, h₁, h₂⟩
    · simp [cell, fill, row, hs, ht] at h
  · simp [cell, fill, hs] at h

/-- The candidates of a conflict are the alternatives that compete for its token. -/
theorem mem_conflict {s t : Nat} {c : Conflict} (h : (fill g F).cell s t = .conflict c) {p : Node} :
    p ∈ c.candidates ↔ p ∈ (g.symbol s).alts ∧ (g.selection F s p).mem t = true := by
  rw [← mem_candidates (conflict_fill h).2.1, h]
  rfl

end PredictionTable

/-- A conflict has two candidates. -/
theorem PredictionTable.exists_candidates {g : Grammar} {F : Facts} {s t : Nat} {c : Conflict}
    (h : (fill g F).cell s t = .conflict c) : ∃ p ∈ c.candidates, ∃ q ∈ c.candidates, p ≠ q := by
  obtain ⟨hs, ht, -, -⟩ := conflict_fill h
  rw [cell_fill hs ht] at h
  obtain ⟨-, -, hc⟩ := Cell.eq_of_ofCandidates h
  rw [hc]
  have hnodup : (competing (g.selections F s) t).Nodup := nodup_eraseDups _
  match competing (g.selections F s) t, h, hnodup with
  | p :: q :: _, _, hnodup =>
    refine ⟨p, List.mem_cons_self, q, List.mem_cons_of_mem _ List.mem_cons_self, ?_⟩
    rintro rfl
    exact (List.nodup_cons.1 hnodup).1 List.mem_cons_self

/-- A conflict of a cell is one of the table. -/
theorem PredictionTable.mem_conflicts {T : PredictionTable} {s t : Nat} {c : Conflict} (h : T.cell s t = .conflict c) :
    c ∈ T.conflicts := by
  unfold cell at h
  cases hr : T.rows[s]? with
  | none => rw [hr] at h; cases h
  | some row =>
    rw [hr, Option.bind_some] at h
    cases hc : row[t]? with
    | none => rw [hc] at h; cases h
    | some cell =>
      rw [hc, Option.getD_some] at h
      subst h
      exact List.mem_flatMap.2 ⟨row, Array.mem_toList_iff.2 (Array.mem_of_getElem? hr),
        List.mem_filterMap.2 ⟨_, Array.mem_toList_iff.2 (Array.mem_of_getElem? hc), rfl⟩⟩

/-! ## Tokens that follow -/

namespace Facts

variable {g : Grammar} {F : Facts}

/-- The token can follow the node, or the input can end there and the token is its end. -/
def MayFollow (g : Grammar) (F : Facts) (n : Node) (a : Nat) : Prop :=
  (∃ t, (F.of g n).follow.mem t = true ∧ accepts t a = true) ∨ (F.of g n).final = true ∧ a = endToken

/-- An alternative competes for what it can begin with, and if it can match nothing, for what follows its symbol. -/
theorem mem_selection_iff {s : Nat} {p : Node} {a : Nat} (hlt : a < g.tokenCount) (hany : a ≠ anyToken) :
    (g.selection F s p).mem a = true ↔ (∃ t, (F.of g p).first.mem t = true ∧ accepts t a = true) ∨
      (F.of g p).nullable = true ∧ F.MayFollow g (Item.symbol s) a := by
  rw [Grammar.mem_selection, TokenSet.mem_concrete hlt hany, TokenSet.mem_concrete hlt hany]
  rfl

/-- What follows a symbol follows every item of an alternative behind which nothing is derived. -/
theorem MayFollow.item {s : Nat} {p : Node} {a : Nat} (hF : F.Closed g) (hg : g.WellFormed)
    (h : F.MayFollow g (Item.symbol s) a) (hp : p ∈ (g.symbol s).alts) {pre post : List Item} {i : Item}
    (e : g.items p = pre ++ i :: post) (hnil : g.Derives post []) : F.MayFollow g (.item i) a := by
  have hpost := hF.nullable_firstOf hg (hg.hasItem_behind (hg.hasNode_alt hp) e).2 hnil
  obtain ⟨-, -, hfollow, hfinal⟩ := hF.alternative s p hp
  obtain ⟨hfollow', hfinal'⟩ := (hF.behind p (hg.hasNode_alt hp) pre i post e).2 hpost
  rcases h with ⟨t, ht, hacc⟩ | ⟨hf, ha⟩
  · exact .inl ⟨t, hfollow' t (hfollow t ht), hacc⟩
  · exact .inr ⟨hfinal' (hfinal hf), ha⟩

/-- What follows a symbol follows all items of an alternative that derives nothing. -/
theorem MayFollow.items {s : Nat} {p : Node} {a : Nat} (hF : F.Closed g) (hg : g.WellFormed)
    (h : F.MayFollow g (Item.symbol s) a) (hp : p ∈ (g.symbol s).alts) (hnil : g.Derives (g.items p) []) :
    ∀ i ∈ g.items p, F.MayFollow g (.item i) a := by
  intro i hi
  obtain ⟨pre, post, e⟩ := List.append_of_mem hi
  rw [e, List.append_cons] at hnil
  exact h.item hF hg hp e (Grammar.derives_append_nil.1 hnil).2

/-! ## Items along a parse -/

/-- Every item is followed by what stands behind it, with the end of the input behind the last. -/
def Chained (g : Grammar) (F : Facts) : List Item → Prop
  | [] => True
  | i :: is =>
    ((∀ t, (F.firstOf g is).1.mem t = true → (F.of g i).follow.mem t = true) ∧
      ((F.firstOf g is).2 = true → (F.of g i).final = true)) ∧ Chained g F is

/-- The start symbol alone. -/
theorem Closed.chained_start (hF : F.Closed g) : F.Chained g [.symbol g.start] :=
  ⟨⟨fun t ht => by simp at ht, fun _ => hF.start⟩, trivial⟩

/-- **Expanding a symbol keeps items chained.** -/
theorem Chained.expand {is : List Item} {s : Nat} {p : Node} (hF : F.Closed g) (hg : g.WellFormed)
    (h : F.Chained g (.symbol s :: is)) (hp : p ∈ (g.symbol s).alts) : F.Chained g (g.items p ++ is) := by
  obtain ⟨⟨hfollow, hfinal⟩, his⟩ := h
  obtain ⟨-, -, hfollow', hfinal'⟩ := hF.alternative s p hp
  have step : ∀ pre post, g.items p = pre ++ post → F.Chained g (post ++ is) := by
    intro pre post e
    induction post generalizing pre with
    | nil => exact his
    | cons i post ih =>
      obtain ⟨h₁, h₂⟩ := hF.behind p (hg.hasNode_alt hp) pre i post e
      refine ⟨⟨fun t ht => ?_, fun hn => ?_⟩, ih (pre ++ [i]) (by rw [e, List.append_assoc]; rfl)⟩
      · rcases mem_firstOf_append.1 ht with ht | ⟨hn, ht⟩
        · exact h₁ t ht
        · exact (h₂ hn).1 t (hfollow' t (hfollow t ht))
      · obtain ⟨hn₁, hn₂⟩ := nullable_firstOf_append.1 hn
        exact (h₂ hn₁).2 (hfinal' (hfinal hn₂))
  exact step [] (g.items p) rfl

/-- A derivation keeps items chained. -/
theorem Chained.leads {is js rest : List Item} {u : List Nat} (hF : F.Closed g) (hg : g.WellFormed)
    (h : F.Chained g (is ++ rest)) (hl : g.Leads is u js) : F.Chained g (js ++ rest) := by
  induction hl with
  | refl is => exact h
  | silent _ _ ih => exact ih h.2
  | token _ _ ih => exact ih h.2
  | symbol hp _ ih => exact ih (by rw [List.append_assoc]; exact h.expand hF hg hp)

/-- An alternative competes for the first token that it derives or, where it derives nothing, for what follows its symbol. -/
theorem Closed.competes {s : Nat} {p : Node} {u : List Nat} {a : Nat} (hF : F.Closed g) (hg : g.WellFormed)
    (hp : p ∈ (g.symbol s).alts) (hu : g.Derives (g.items p) u) (ha : ∀ x v, u = x :: v → x = a)
    (hfollow : u = [] → F.MayFollow g (Item.symbol s) a) (hlt : a < g.tokenCount) (hany : a ≠ anyToken) :
    (g.selection F s p).mem a = true := by
  have hp' := hg.hasNode_alt hp
  have hpi : ∀ i ∈ g.items p, g.HasItem i := fun i => hg.hasItem_alt hp
  rw [mem_selection_iff hlt hany]
  cases u with
  | cons x u =>
    obtain ⟨t, js, hacc, hl, -⟩ := hu.exists_token
    exact .inl ⟨t, hF.first p hp' t (hF.mem_firstOf hg hpi hl), ha x u rfl ▸ hacc⟩
  | nil => exact .inr ⟨hF.nullable p hp' (hF.nullable_firstOf hg hpi hu), hfollow rfl⟩

/-- What stands behind an item of a chain can follow it, or the end of the input does. -/
theorem Chained.mayFollow {i : Item} {is : List Item} {v : List Nat} (hF : F.Closed g) (hg : g.WellFormed)
    (h : F.Chained g (i :: is)) (hi : ∀ i ∈ is, g.HasItem i) (hv : g.Derives is v) :
    F.MayFollow g (.item i) (v.headD endToken) := by
  cases v with
  | cons x v =>
    obtain ⟨t, js, hacc, hl, -⟩ := hv.exists_token
    exact .inl ⟨t, h.1.1 t (hF.mem_firstOf hg hi hl), hacc⟩
  | nil => exact .inr ⟨h.1.2 (hF.nullable_firstOf hg hi hv), rfl⟩

/-- **The alternative of a parse tree competes for the token that the tree meets.** -/
theorem Chained.competes {is : List Item} {s : Nat} {p : Node} {u v : List Nat} (hF : F.Closed g) (hg : g.WellFormed)
    (h : F.Chained g (.symbol s :: is)) (hi : ∀ i ∈ is, g.HasItem i) (hp : p ∈ (g.symbol s).alts)
    (hu : g.Derives (g.items p) u) (hv : g.Derives is v) {a : Nat} (ha : (u ++ v).headD endToken = a)
    (hlt : a < g.tokenCount) (hany : a ≠ anyToken) : (g.selection F s p).mem a = true := by
  refine hF.competes hg hp hu (fun x v' e => ?_) (fun e => ?_) hlt hany
  · rw [e] at ha
    exact ha
  · rw [e, List.nil_append] at ha
    exact ha ▸ h.mayFollow hF hg hi hv

/-- So the cell leaves the alternative of a parse tree possible. -/
theorem Chained.mem_candidates {is : List Item} {s : Nat} {p : Node} {u v : List Nat} (hF : F.Closed g)
    (hg : g.WellFormed) (h : F.Chained g (.symbol s :: is)) (hi : ∀ i ∈ is, g.HasItem i) (hp : p ∈ (g.symbol s).alts)
    (hu : g.Derives (g.items p) u) (hv : g.Derives is v) {a : Nat} (ha : (u ++ v).headD endToken = a)
    (hlt : a < g.tokenCount) (hany : a ≠ anyToken) : p ∈ ((PredictionTable.fill g F).cell s a).candidates :=
  (PredictionTable.mem_candidates hlt).2 ⟨hp, h.competes hF hg hi hp hu hv ha hlt hany⟩

/-- An alternative competes for the token that it, or what stands behind the symbol after it matched nothing, can begin
with. -/
theorem Chained.competes_of_leads {is js : List Item} {s t a : Nat} {p : Node} (hF : F.Closed g) (hg : g.WellFormed)
    (h : F.Chained g (.symbol s :: is)) (hi : ∀ i ∈ is, g.HasItem i) (hp : p ∈ (g.symbol s).alts)
    (hl : g.Leads (g.items p ++ is) [] (.token t :: js)) (hacc : accepts t a = true) (hlt : a < g.tokenCount)
    (hany : a ≠ anyToken) : (g.selection F s p).mem a = true := by
  have hp' := hg.hasNode_alt hp
  rw [mem_selection_iff hlt hany]
  have hpi : ∀ i ∈ g.items p ++ is, g.HasItem i := fun i hmem => by
    rcases List.mem_append.1 hmem with hmem | hmem
    · exact hg.hasItem_alt hp hmem
    · exact hi i hmem
  rcases mem_firstOf_append.1 (hF.mem_firstOf hg hpi hl) with ht | ⟨hn, ht⟩
  · exact .inl ⟨t, hF.first p hp' t ht, hacc⟩
  · exact .inr ⟨hF.nullable p hp' hn, .inl ⟨t, h.1.1 t ht, hacc⟩⟩

/-! ## Items inside a match -/

/-- Every item is followed by what stands behind it, wherever the input may end. -/
def Linked (g : Grammar) (F : Facts) : List Item → Prop
  | [] => True
  | i :: is => (∀ t, (F.firstOf g is).1.mem t = true → (F.of g i).follow.mem t = true) ∧ Linked g F is

theorem Chained.of_append {is js : List Item} (h : F.Chained g (is ++ js)) : F.Chained g js := by
  induction is with
  | nil => exact h
  | cons i is ih => exact ih h.2

/-- Items that are chained with whatever stands behind them are linked. -/
theorem Chained.linked {is rest : List Item} (h : F.Chained g (is ++ rest)) : F.Linked g is := by
  induction is with
  | nil => trivial
  | cons i is ih => exact ⟨fun t ht => h.1.1 t (mem_firstOf_append.2 (.inl ht)), ih h.2⟩

/-- The items of a node are linked with items whose beginnings can follow the node. -/
theorem Linked.append {n : Node} {is : List Item} (hF : F.Closed g) (hn : g.HasNode n) (h : F.Linked g is)
    (hbehind : ∀ t, (F.firstOf g is).1.mem t = true → (F.of g n).follow.mem t = true) :
    F.Linked g (g.items n ++ is) := by
  have step : ∀ pre post, g.items n = pre ++ post → F.Linked g (post ++ is) := by
    intro pre post e
    induction post generalizing pre with
    | nil => exact h
    | cons i post ih =>
      obtain ⟨h₁, h₂⟩ := hF.behind n hn pre i post e
      refine ⟨fun t ht => ?_, ih (pre ++ [i]) (by rw [e, List.append_assoc]; rfl)⟩
      rcases mem_firstOf_append.1 ht with ht | ⟨hnull, ht⟩
      · exact h₁ t ht
      · exact (h₂ hnull).1 t (hbehind t ht)
  exact step [] (g.items n) rfl

/-- The items of a node are linked. -/
theorem Closed.linked_items {n : Node} (hF : F.Closed g) (hn : g.HasNode n) : F.Linked g (g.items n) := by
  have h := @Linked.append g F n [] hF hn trivial fun t ht => by simp at ht
  rwa [List.append_nil] at h

/-- **A derivation keeps items linked.** -/
theorem Linked.leads {is js : List Item} {u : List Nat} (hF : F.Closed g) (hg : g.WellFormed) (h : F.Linked g is)
    (hl : g.Leads is u js) : F.Linked g js := by
  induction hl with
  | refl is => exact h
  | silent _ _ ih => exact ih h.2
  | token _ _ ih => exact ih h.2
  | symbol hp _ ih =>
    exact ih (.append hF (hg.hasNode_alt hp) h.2 fun t ht => (hF.alternative _ _ hp).2.2.1 t (h.1 t ht))

end Facts

end PredictiveParser
