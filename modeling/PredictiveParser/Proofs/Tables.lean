import PredictiveParser.Tables.Build
import PredictiveParser.Proofs.Fallible
import PredictiveParser.Proofs.Prediction

/-!
# What built tables hold

Decisions are made cell by cell, and later ones leave earlier ones alone (`Decisions.Extends`). So the tables hold a
decision for every cell of the prediction table (`predicts_of_build`): its production, or an automaton that was emitted for
its conflict. Without conflicts there are no automata (`dfas_of_build`).
-/

namespace PredictiveParser

/-- The nodes of an automaton stand among the nodes of all automata, from a place on. -/
def StandAt (dfas : Array DfaNode) (start : Nat) (nodes : List DfaNode) : Prop :=
  ∀ (i : Nat) (n : DfaNode), nodes[i]? = some n → dfas[start + i]? = some n

theorem StandAt.getElem? {dfas : Array DfaNode} {start : Nat} {nodes : List DfaNode} (hat : StandAt dfas start nodes) {d : Nat}
    (hd : start ≤ d ∧ d < start + nodes.length) : dfas[d]? = nodes[d - start]? := by
  have hlt : d - start < nodes.length := by omega
  have h := hat (d - start) nodes[d - start] (List.getElem?_eq_getElem hlt)
  rwa [Nat.add_sub_cancel' hd.1, ← List.getElem?_eq_getElem hlt] at h

/-! ## Decisions -/

namespace Decisions

/-- Whatever the decisions `D` hold is held by the decisions `D'`. -/
structure Extends (D D' : Decisions) : Prop where
  entries : ∀ {k : Nat} {e : Option Nat}, D.entries[k]? = some e → D'.entries[k]? = some e
  roots : ∀ {k r : Nat}, D.roots[k]? = some r → D'.roots[k]? = some r
  dfas : ∀ {k : Nat} {n : DfaNode}, D.dfas[k]? = some n → D'.dfas[k]? = some n

theorem Extends.refl (D : Decisions) : D.Extends D :=
  ⟨id, id, id⟩

theorem Extends.trans {D D' D'' : Decisions} (h : D.Extends D') (h' : D'.Extends D'') : D.Extends D'' :=
  ⟨fun e => h'.entries (h.entries e), fun e => h'.roots (h.roots e), fun e => h'.dfas (h.dfas e)⟩

variable {g : Grammar} {limits : Limits} {table : PredictionTable}

/-- The decisions hold the outcome of a conflict in the entry `k`. -/
def HoldsResolution (g : Grammar) (D : Decisions) (k start : Nat) : Decision.Resolution → Prop
  | .production p => D.entries[k]? = some (some (g.number p))
  | .automaton nodes =>
    ∃ r, D.entries[k]? = some (some (g.nodeCount + r)) ∧ D.roots[r]? = some start ∧ StandAt D.dfas start nodes

/-- The decisions hold the outcome of a cell in the entry `k`. -/
def Holds (g : Grammar) (limits : Limits) (table : PredictionTable) (D : Decisions) (k : Nat) : Cell → Prop
  | .empty => D.entries[k]? = some none
  | .production p => D.entries[k]? = some (some (g.number p))
  | .conflict conflict => ∃ start resolution asked,
    Decision.Problem.resolve { grammar := g, table, limits, conflict } start = .ok (resolution, asked) ∧
      D.HoldsResolution g k start resolution

theorem Extends.holds {D D' : Decisions} (h : D.Extends D') {k : Nat} {cell : Cell}
    (hc : D.Holds g limits table k cell) : D'.Holds g limits table k cell := by
  cases cell with
  | empty => exact h.entries hc
  | production p => exact h.entries hc
  | conflict c =>
    obtain ⟨start, resolution, asked, hr, hh⟩ := hc
    refine ⟨start, resolution, asked, hr, ?_⟩
    cases resolution with
    | production p => exact h.entries hh
    | automaton nodes =>
      obtain ⟨r, he, hroot, hnodes⟩ := hh
      exact ⟨r, h.entries he, h.roots hroot, fun i n hn => h.dfas (hnodes i n hn)⟩

theorem getElem?_push_of_some {α : Type} {xs : Array α} {x y : α} {k : Nat} (h : xs[k]? = some x) :
    (xs.push y)[k]? = some x := by
  obtain ⟨hk, -⟩ := Array.getElem?_eq_some_iff.1 h
  rw [Array.getElem?_push_lt hk, ← h, Array.getElem?_eq_getElem hk]

theorem getElem?_append_of_some {α : Type} {xs ys : Array α} {x : α} {k : Nat} (h : xs[k]? = some x) :
    (xs ++ ys)[k]? = some x := by
  obtain ⟨hk, -⟩ := Array.getElem?_eq_some_iff.1 h
  rw [Array.getElem?_append_left hk, h]

/-- What a cell adds to the decisions. -/
theorem addCell_cases {D D' : Decisions} {cell : Cell} (h : addCell g limits table D cell = .ok D') :
    (cell = .empty ∧ D' = { D with entries := D.entries.push none }) ∨
    (∃ p, cell = .production p ∧ D' = { D with entries := D.entries.push (some (g.number p)) }) ∨
    (∃ c p asked, cell = .conflict c ∧
      Decision.Problem.resolve { grammar := g, table, limits, conflict := c } D.dfas.size = .ok (.production p, asked) ∧
      D' = { D with entries := D.entries.push (some (g.number p)), asked := asked ++ D.asked }) ∨
    ∃ c nodes asked, cell = .conflict c ∧
      Decision.Problem.resolve { grammar := g, table, limits, conflict := c } D.dfas.size = .ok (.automaton nodes, asked) ∧
      D' = {
        entries := D.entries.push (some (g.nodeCount + D.roots.size))
        roots := D.roots.push D.dfas.size
        dfas := D.dfas ++ nodes.toArray
        asked := asked ++ D.asked } := by
  cases cell with
  | empty =>
    cases h
    exact .inl ⟨rfl, rfl⟩
  | production p =>
    cases h
    exact .inr (.inl ⟨p, rfl, rfl⟩)
  | conflict c =>
    rw [addCell, bind_eq_ok_iff] at h
    obtain ⟨⟨p | nodes, asked⟩, hr, h⟩ := h
    · cases h
      exact .inr (.inr (.inl ⟨c, p, asked, rfl, hr, rfl⟩))
    · cases h
      exact .inr (.inr (.inr ⟨c, nodes, asked, rfl, hr, rfl⟩))

/-- The nodes of an automaton that is added stand behind those that were there. -/
theorem standAt_append (dfas : Array DfaNode) (nodes : List DfaNode) :
    StandAt (dfas ++ nodes.toArray) dfas.size nodes := by
  intro i n hn
  rw [Array.getElem?_append_right (Nat.le_add_right _ _), Nat.add_sub_cancel_left, List.getElem?_toArray]
  exact hn

/-- What adding a cell does. -/
theorem addCell_eq_ok {D D' : Decisions} {cell : Cell} (h : addCell g limits table D cell = .ok D') :
    D.Extends D' ∧ D'.entries.size = D.entries.size + 1 ∧ D'.Holds g limits table D.entries.size cell := by
  rcases addCell_cases h with ⟨rfl, rfl⟩ | ⟨p, rfl, rfl⟩ | ⟨c, p, asked, rfl, hr, rfl⟩ | ⟨c, nodes, asked, rfl, hr, rfl⟩
  · exact ⟨⟨getElem?_push_of_some, id, id⟩, Array.size_push .., Array.getElem?_push_size⟩
  · exact ⟨⟨getElem?_push_of_some, id, id⟩, Array.size_push .., Array.getElem?_push_size⟩
  · exact ⟨⟨getElem?_push_of_some, id, id⟩, Array.size_push .., _, _, _, hr, Array.getElem?_push_size⟩
  · exact ⟨⟨getElem?_push_of_some, getElem?_push_of_some, getElem?_append_of_some⟩, Array.size_push .., _, _, _, hr,
      D.roots.size, Array.getElem?_push_size, Array.getElem?_push_size, standAt_append D.dfas nodes⟩

/-- **Every cell that was added is held afterwards.** -/
theorem foldlM_addCell {cells : List Cell} {D D' : Decisions} (h : cells.foldlM (addCell g limits table) D = .ok D') :
    D.Extends D' ∧ ∀ k cell, cells[k]? = some cell → D'.Holds g limits table (D.entries.size + k) cell := by
  induction cells generalizing D with
  | nil =>
    cases h
    exact ⟨.refl _, fun k cell hk => by simp at hk⟩
  | cons cell cells ih =>
    rw [List.foldlM_cons, bind_eq_ok_iff] at h
    obtain ⟨D₁, hc, h⟩ := h
    obtain ⟨he, hsize, hh⟩ := addCell_eq_ok hc
    obtain ⟨he', hh'⟩ := ih h
    refine ⟨he.trans he', fun k cell' hk => ?_⟩
    cases k with
    | zero =>
      cases hk
      exact he'.holds hh
    | succ k =>
      have h' := hh' k cell' hk
      rwa [hsize, Nat.add_assoc, Nat.add_comm 1 k] at h'

/-- Without conflicts no automata are added. -/
theorem foldlM_addCell_of_forall {cells : List Cell} {D D' : Decisions} (hc : ∀ c, Cell.conflict c ∉ cells)
    (h : cells.foldlM (addCell g limits table) D = .ok D') : D'.roots = D.roots ∧ D'.dfas = D.dfas := by
  induction cells generalizing D with
  | nil =>
    cases h
    exact ⟨rfl, rfl⟩
  | cons cell cells ih =>
    rw [List.foldlM_cons] at h
    have hc' : ∀ c, Cell.conflict c ∉ cells := fun c hm => hc c (List.mem_cons_of_mem _ hm)
    cases cell with
    | empty => exact @ih { D with entries := D.entries.push none } hc' h
    | production p => exact @ih { D with entries := D.entries.push (some (g.number p)) } hc' h
    | conflict c => exact absurd List.mem_cons_self (hc c)

/-- Every node of the automata that are added belongs to the automaton of a conflict. -/
theorem foldlM_addCell_automaton {cells : List Cell} {D D' : Decisions} (h : cells.foldlM (addCell g limits table) D = .ok D')
    {d : Nat} (hd : d < D'.dfas.size) : d < D.dfas.size ∨ ∃ conflict start nodes asked, Cell.conflict conflict ∈ cells ∧
      Decision.Problem.resolve { grammar := g, table, limits, conflict } start = .ok (.automaton nodes, asked) ∧
      StandAt D'.dfas start nodes ∧ start ≤ d ∧ d < start + nodes.length := by
  induction cells generalizing D with
  | nil =>
    cases h
    exact .inl hd
  | cons cell cells ih =>
    rw [List.foldlM_cons, bind_eq_ok_iff] at h
    obtain ⟨D₁, hc, h⟩ := h
    have hlater := (foldlM_addCell h).1
    rcases ih h with hd₁ | ⟨conflict, start, nodes, asked, hmem, hrest⟩
    · rcases addCell_cases hc with ⟨-, rfl⟩ | ⟨p, -, rfl⟩ | ⟨c, p, asked, -, -, rfl⟩ | ⟨c, nodes, asked, rfl, hr, rfl⟩
      · exact .inl hd₁
      · exact .inl hd₁
      · exact .inl hd₁
      · rw [Array.size_append, List.size_toArray] at hd₁
        exact (Nat.lt_or_ge d D.dfas.size).imp id fun hle => ⟨c, _, nodes, asked, List.mem_cons_self, hr,
          fun i n hn => hlater.dfas (standAt_append D.dfas nodes i n hn), hle, hd₁⟩
    · exact .inr ⟨conflict, start, nodes, asked, List.mem_cons_of_mem _ hmem, hrest⟩

/-! ### The order of the automata -/

/-- The automaton of a conflict is the one with the number `r`, and the entry `k` predicts it. -/
def HoldsAutomaton (g : Grammar) (limits : Limits) (table : PredictionTable) (D : Decisions) (k r : Nat) (c : Conflict) :
    Prop :=
  ∃ d nodes asked, D.entries[k]? = some (some (g.nodeCount + r)) ∧ D.roots[r]? = some d ∧
    Decision.Problem.resolve { grammar := g, table, limits, conflict := c } d = .ok (.automaton nodes, asked) ∧
    StandAt D.dfas d nodes

theorem Extends.holdsAutomaton {D D' : Decisions} (h : D.Extends D') {k r : Nat} {c : Conflict}
    (hc : D.HoldsAutomaton g limits table k r c) : D'.HoldsAutomaton g limits table k r c := by
  obtain ⟨d, nodes, asked, hentry, hroot, hr, hat⟩ := hc
  exact ⟨d, nodes, asked, h.entries hentry, h.roots hroot, hr, fun i n hn => h.dfas (hat i n hn)⟩

/-- Tests settle the conflict, so it needs no automaton. -/
def Settled (g : Grammar) (limits : Limits) (table : PredictionTable) (c : Conflict) : Prop :=
  ∃ start p asked,
    Decision.Problem.resolve { grammar := g, table, limits, conflict := c } start = .ok (.production p, asked)

/-- A cell adds the automaton of its conflict, if it needs one. -/
theorem addCell_roots {D D' : Decisions} {cell : Cell} (h : addCell g limits table D cell = .ok D') :
    (D'.roots.size = D.roots.size ∧ ∀ c, cell = .conflict c → Settled g limits table c) ∨
    ∃ c, cell = .conflict c ∧ D'.roots.size = D.roots.size + 1 ∧
      D'.HoldsAutomaton g limits table D.entries.size D.roots.size c := by
  rcases addCell_cases h with ⟨rfl, rfl⟩ | ⟨p, rfl, rfl⟩ | ⟨c, p, asked, rfl, hr, rfl⟩ | ⟨c, nodes, asked, rfl, hr, rfl⟩
  · exact .inl ⟨rfl, nofun⟩
  · exact .inl ⟨rfl, nofun⟩
  · refine .inl ⟨rfl, fun c' e => ?_⟩
    cases e
    exact ⟨_, p, asked, hr⟩
  · exact .inr ⟨c, rfl, Array.size_push .., _, nodes, asked, Array.getElem?_push_size, Array.getElem?_push_size, hr,
      standAt_append D.dfas nodes⟩

/-- The automata that the cells add to the decisions `D` are those of the conflicts `added`, each of which comes with the place
of its cell. -/
structure Adds (g : Grammar) (limits : Limits) (table : PredictionTable) (cells : List Cell) (added : List (Nat × Conflict))
    (D D' : Decisions) : Prop where
  size : D'.roots.size = D.roots.size + added.length
  ordered : added.Pairwise (·.1 < ·.1)
  holds : ∀ i k c, added[i]? = some (k, c) → cells[k]? = some (.conflict c) ∧
    D'.HoldsAutomaton g limits table (D.entries.size + k) (D.roots.size + i) c
  /-- No other conflict needs an automaton. -/
  settled : ∀ k c, cells[k]? = some (.conflict c) → (k, c) ∈ added ∨ Settled g limits table c

namespace Adds

variable {D D₁ D' : Decisions} {cell : Cell} {cells : List Cell} {added : List (Nat × Conflict)}

/-- Behind one more cell every place is one further. -/
def behind (p : Nat × Conflict) : Nat × Conflict :=
  (p.1 + 1, p.2)

theorem ordered_behind (h : Adds g limits table cells added D₁ D') : (added.map behind).Pairwise (·.1 < ·.1) :=
  List.pairwise_map.2 (h.ordered.imp Nat.succ_lt_succ)

theorem holds_behind (h : Adds g limits table cells added D₁ D') (hentries : D₁.entries.size = D.entries.size + 1)
    (cell : Cell) (i k : Nat) (c : Conflict) (hi : (added.map behind)[i]? = some (k, c)) :
    (cell :: cells)[k]? = some (.conflict c) ∧
      D'.HoldsAutomaton g limits table (D.entries.size + k) (D₁.roots.size + i) c := by
  rw [List.getElem?_map, Option.map_eq_some_iff] at hi
  obtain ⟨⟨k, c⟩, hi, e⟩ := hi
  cases e
  have hholds := h.holds i k c hi
  rwa [hentries, Nat.add_assoc, Nat.add_comm 1 k] at hholds

theorem settled_behind (h : Adds g limits table cells added D₁ D') (k : Nat) (c : Conflict)
    (hk : cells[k]? = some (.conflict c)) : (k + 1, c) ∈ added.map behind ∨ Settled g limits table c :=
  (h.settled k c hk).imp_left fun hmem => List.mem_map.2 ⟨_, hmem, rfl⟩

/-- The first cell needs no automaton. -/
theorem skip (h : Adds g limits table cells added D₁ D') (hentries : D₁.entries.size = D.entries.size + 1)
    (hroots : D₁.roots.size = D.roots.size) (hcell : ∀ c, cell = .conflict c → Settled g limits table c) :
    Adds g limits table (cell :: cells) (added.map behind) D D' where
  size := by rw [h.size, hroots, List.length_map]
  ordered := h.ordered_behind
  holds := hroots ▸ h.holds_behind hentries cell
  settled := by
    intro k c hk
    cases k with
    | zero => exact .inr (hcell c (Option.some.inj hk))
    | succ k => exact h.settled_behind k c hk

/-- The first cell adds the automaton of its conflict. -/
theorem cons {c : Conflict} (h : Adds g limits table cells added D₁ D') (hentries : D₁.entries.size = D.entries.size + 1)
    (hroots : D₁.roots.size = D.roots.size + 1)
    (hcell : D'.HoldsAutomaton g limits table D.entries.size D.roots.size c) :
    Adds g limits table (.conflict c :: cells) ((0, c) :: added.map behind) D D' where
  size := by
    rw [h.size, hroots, List.length_cons, List.length_map]
    omega
  ordered := by
    refine List.pairwise_cons.2 ⟨fun p hp => ?_, h.ordered_behind⟩
    obtain ⟨p, -, rfl⟩ := List.mem_map.1 hp
    exact Nat.succ_pos _
  holds := by
    intro i k c' hi
    cases i with
    | zero =>
      cases hi
      exact ⟨rfl, hcell⟩
    | succ i =>
      have hholds := h.holds_behind hentries (.conflict c) i k c' hi
      rwa [hroots, Nat.add_assoc, Nat.add_comm 1 i] at hholds
  settled := by
    intro k c' hk
    cases k with
    | zero =>
      cases hk
      exact .inl List.mem_cons_self
    | succ k => exact (h.settled_behind k c' hk).imp_left (List.mem_cons_of_mem _)

/-- Where there were none before, there are as many automata as were added. -/
theorem size_eq (h : Adds g limits table cells added {} D) : D.roots.size = added.length :=
  h.size.trans (Nat.zero_add _)

theorem holds_of_empty (h : Adds g limits table cells added {} D) {i k : Nat} {c : Conflict} (hi : added[i]? = some (k, c)) :
    cells[k]? = some (.conflict c) ∧ D.HoldsAutomaton g limits table k i c := by
  have hholds := h.holds i k c hi
  rwa [Array.size_empty, Array.size_empty, Nat.zero_add, Nat.zero_add] at hholds

end Adds

/-- **The automata that are added are those of the conflicts that need one, in the order of their cells.** -/
theorem foldlM_addCell_roots {cells : List Cell} {D D' : Decisions} (h : cells.foldlM (addCell g limits table) D = .ok D') :
    ∃ added, Adds g limits table cells added D D' := by
  induction cells generalizing D with
  | nil =>
    cases h
    exact ⟨[], rfl, .nil, by simp, by simp⟩
  | cons cell cells ih =>
    rw [List.foldlM_cons, bind_eq_ok_iff] at h
    obtain ⟨D₁, hc, h⟩ := h
    have hlater := (foldlM_addCell h).1
    obtain ⟨-, hentries, -⟩ := addCell_eq_ok hc
    obtain ⟨added, hadded⟩ := ih h
    rcases addCell_roots hc with ⟨hroots, hsettled⟩ | ⟨c, rfl, hroots, hholds⟩
    · exact ⟨_, hadded.skip hentries hroots hsettled⟩
    · exact ⟨_, hadded.cons hentries hroots (hlater.holdsAutomaton hholds)⟩

/-- The automata of a table are those of the conflicts that need one, in the order of their cells. -/
theorem roots_of_ofTable {D : Decisions} (h : ofTable g limits table = .ok D) :
    ∃ added, Adds g limits table (table.rows.toList.flatMap (·.toList)) added {} D :=
  foldlM_addCell_roots h

end Decisions

/-! ## Tables -/

namespace PredictionTable

/-- A place in lists of one length that stand one after the other. -/
theorem getElem?_flatMap {α β : Type} {n : Nat} {f : α → List β} (hf : ∀ a, (f a).length = n) (as : List α) {i j : Nat}
    (hj : j < n) : (as.flatMap f)[i * n + j]? = as[i]?.bind fun a => (f a)[j]? := by
  induction as generalizing i with
  | nil => simp
  | cons a as ih =>
    rw [List.flatMap_cons]
    cases i with
    | zero => simp [List.getElem?_append_left (hf a ▸ hj : j < (f a).length)]
    | succ i =>
      rw [List.getElem?_append_right (by rw [hf, Nat.add_mul]; omega), hf,
        show (i + 1) * n + j - n = i * n + j by rw [Nat.add_mul]; omega, ih, List.getElem?_cons_succ]

/-- The cells in the order in which they are decided: by symbol, and then by token. -/
theorem cells_fill (g : Grammar) (F : Facts) : (fill g F).rows.toList.flatMap (·.toList) =
    (List.range g.symbolCount).flatMap fun s => (List.range g.tokenCount).map ((fill g F).cell s) := by
  have e : (fill g F).rows.toList = (List.range g.symbolCount).map fun s =>
      ((List.range g.tokenCount).map ((fill g F).cell s)).toArray :=
    List.ext_getElem (by simp [fill]) fun s h₁ h₂ => by
      have hs : s < g.symbolCount := by simpa using h₂
      refine Array.ext (by simp [fill, row]) fun t ht₁ ht₂ => ?_
      have ht : t < g.tokenCount := by simpa using ht₂
      simp [fill, row, cell, hs, ht]
  rw [e, List.flatMap_map]

theorem getElem?_cells {g : Grammar} {F : Facts} {s t : Nat} (hs : s < g.symbolCount) (ht : t < g.tokenCount) :
    ((fill g F).rows.toList.flatMap (·.toList))[s * g.tokenCount + t]? = some ((fill g F).cell s t) := by
  rw [cells_fill, getElem?_flatMap (n := g.tokenCount) (fun s => by simp) _ ht]
  simp [hs, ht]

/-- The place of a cell comes from its symbol and token. -/
theorem exists_of_getElem?_cells {g : Grammar} {F : Facts} {k : Nat} {cell : Cell}
    (hk : ((fill g F).rows.toList.flatMap (·.toList))[k]? = some cell) :
    ∃ s t, s < g.symbolCount ∧ t < g.tokenCount ∧ k = s * g.tokenCount + t ∧ (fill g F).cell s t = cell := by
  have hlength : ((fill g F).rows.toList.flatMap (·.toList)).length = g.symbolCount * g.tokenCount := by
    simp [cells_fill, List.length_flatMap]
  have hlt := (List.getElem?_eq_some_iff.1 hk).1
  rw [hlength] at hlt
  have hpos : 0 < g.tokenCount := Nat.pos_of_ne_zero fun h => by simp [h] at hlt
  have hs : k / g.tokenCount < g.symbolCount := Nat.div_lt_of_lt_mul (by rwa [Nat.mul_comm])
  have ht : k % g.tokenCount < g.tokenCount := Nat.mod_lt _ hpos
  have e : k = k / g.tokenCount * g.tokenCount + k % g.tokenCount := (Nat.div_add_mod' k g.tokenCount).symm
  refine ⟨_, _, hs, ht, e, ?_⟩
  rw [e, getElem?_cells hs ht] at hk
  exact Option.some.inj hk

/-- Every conflict that is decided is that of a symbol and a token. -/
theorem exists_cell {T : PredictionTable} {c : Cell} (hc : c ∈ T.rows.toList.flatMap (·.toList)) :
    ∃ s t, T.cell s t = c := by
  obtain ⟨row, hrow, hcell⟩ := List.mem_flatMap.1 hc
  obtain ⟨s, hs⟩ := List.mem_iff_getElem?.1 hrow
  obtain ⟨t, ht⟩ := List.mem_iff_getElem?.1 hcell
  rw [Array.getElem?_toList] at hs ht
  exact ⟨s, t, by rw [cell, hs, Option.bind_some, ht]; rfl⟩

end PredictionTable

namespace Grammar

variable {g : Grammar} {limits : Limits} {T : Tables}

theorem exists_build (h : (g.build limits).toBool = true) : ∃ T, g.build limits = .ok T := by
  cases hb : g.build limits with
  | ok T => exact ⟨T, rfl⟩
  | error e => rw [hb] at h; cases h

/-- When building succeeds, and with what. -/
theorem build_eq_ok_iff : g.build limits = .ok T ↔ g.validate g.analyze = .ok () ∧
    ∃ D, Decisions.ofTable g limits (.fill g g.analyze) = .ok D ∧ g.validateResolvers D = .ok () ∧
      T = g.tables g.analyze D := by
  unfold build
  simp only [bind_eq_ok_iff]
  constructor
  · rintro ⟨_, hv, D, hD, _, hr, h⟩
    cases h
    exact ⟨hv, D, hD, hr, rfl⟩
  · rintro ⟨hv, D, hD, hr, rfl⟩
    exact ⟨(), hv, D, hD, (), hr, rfl⟩

/-- What building succeeds with. -/
theorem build_eq_ok (h : g.build limits = .ok T) :
    ∃ D, Decisions.ofTable g limits (.fill g g.analyze) = .ok D ∧ T = g.tables g.analyze D := by
  obtain ⟨-, D, hD, -, rfl⟩ := build_eq_ok_iff.1 h
  exact ⟨D, hD, rfl⟩

/-- Without resolvers none is left unasked. -/
theorem validateResolvers_eq_ok (hres : ∀ s, (g.symbol s).resolver = none) (D : Decisions) :
    g.validateResolvers D = .ok () := by
  rw [validateResolvers, forM_eq_ok_iff]
  intro s _
  rw [hres s]
  rfl

/-- No node of a grammar is a decision. -/
theorem instructionOf_ne_decision (n : Node) (d : Nat) : g.instructionOf n ≠ .decision d := by
  rcases n with _ | (_ | _ | _ | _ | _) | _ <;> exact nofun

/-- Only an item itself has its instruction. -/
theorem eq_item_of_instructionOf (i : Item) {x : Node} (h : g.instructionOf x = g.instructionOf i) : x = i := by
  rcases i with _ | _ | _ | _ | _ <;> rcases x with _ | (_ | _ | _ | _ | _) | _ <;> cases h <;> rfl

theorem eq_sequence_of_instructionOf {x : Node} {parts : List Nat} (h : g.instructionOf x = .sequence parts) :
    ∃ q, x = .sequence q ∧ parts = (g.sequence q).map g.itemNumber := by
  rcases x with _ | (_ | _ | _ | _ | _) | q <;> cases h
  exact ⟨q, rfl, rfl⟩

end Grammar

namespace Tables

variable {g : Grammar} {F : Facts} {D : Decisions}

/-- The entries of tables are those of the decisions. -/
theorem entry_tables {s t : Nat} (hs : s < g.symbolCount) (ht : t < g.tokenCount) :
    (g.tables F D).entry s t = D.entries[s * g.tokenCount + t]?.join := by
  simp [entry, Grammar.tables, Decisions.rows, hs, ht]

/-- Outside of the tables nothing is predicted. -/
theorem lt_of_entry_tables {s t n : Nat} (h : (g.tables F D).entry s t = some n) :
    s < g.symbolCount ∧ t < g.tokenCount := by
  by_cases hs : s < g.symbolCount
  · by_cases ht : t < g.tokenCount
    · exact ⟨hs, ht⟩
    · simp [entry, Grammar.tables, Decisions.rows, hs, ht] at h
  · simp [entry, Grammar.tables, Decisions.rows, hs] at h

theorem size_instructions (g : Grammar) : g.instructions.size = g.nodeCount := by
  simp [Grammar.instructions]

/-- The nodes of a grammar come first in its tables. -/
theorem getElem?_nodes_number {n : Node} (hn : g.HasNode n) :
    (g.tables F D).nodes[g.number n]? = some (g.instructionOf n) := by
  have hlt : g.number n < g.instructions.size := size_instructions g ▸ Grammar.number_lt hn
  simp only [Grammar.tables]
  rw [Array.getElem?_append_left hlt, Grammar.instructions, List.getElem?_toArray, List.getElem?_map,
    Grammar.getElem?_nodes_number hn]
  rfl

/-- Behind the nodes of the grammar stand the beginnings of the automata. -/
theorem getElem?_nodes_add (r : Nat) : (g.tables F D).nodes[g.nodeCount + r]? = D.roots[r]?.map .decision := by
  simp only [Grammar.tables]
  rw [Array.getElem?_append_right (by rw [size_instructions]; omega), size_instructions, Nat.add_sub_cancel_left,
    Array.getElem?_map]

theorem size_nodes_tables : (g.tables F D).nodes.size = g.nodeCount + D.roots.size := by
  simp only [Grammar.tables]
  rw [Array.size_append, size_instructions, Array.size_map]

/-- The nodes of a grammar keep their numbers. -/
theorem instruction_tables {n : Node} (hn : g.HasNode n) :
    (g.tables F D).instruction (g.number n) = g.instructionOf n := by
  rw [instruction, getElem?_nodes_number hn]
  rfl

theorem instruction_decision {r d : Nat} (h : D.roots[r]? = some d) :
    (g.tables F D).instruction (g.nodeCount + r) = .decision d := by
  rw [instruction, getElem?_nodes_add, h]
  rfl

theorem symbolNode_tables {s : Nat} (hs : s < g.symbolCount) :
    (g.tables F D).program.symbolNode s = g.number (Item.symbol s) := by
  simp [program, Grammar.tables, hs]

/-- The tables predict the outcome of a conflict for a symbol and a token. -/
def PredictsResolution (T : Tables) (g : Grammar) (s t start : Nat) : Decision.Resolution → Prop
  | .production p => T.entry s t = some (g.number p)
  | .automaton nodes => ∃ n, T.entry s t = some n ∧ T.instruction n = .decision start ∧ StandAt T.dfas start nodes

/-- The tables predict the outcome of a cell for a symbol and a token. -/
def Predicts (T : Tables) (g : Grammar) (limits : Limits) (s t : Nat) : Cell → Prop
  | .empty => T.entry s t = none
  | .production p => T.entry s t = some (g.number p)
  | .conflict conflict => ∃ start resolution asked,
    (g.problem limits conflict).resolve start = .ok (resolution, asked) ∧
      T.PredictsResolution g s t start resolution

variable {limits : Limits} {T : Tables}

/-- **Built tables predict the outcome of every cell.** -/
theorem predicts_of_build (h : g.build limits = .ok T) {s t : Nat} (hs : s < g.symbolCount) (ht : t < g.tokenCount) :
    T.Predicts g limits s t ((PredictionTable.fill g g.analyze).cell s t) := by
  obtain ⟨D, hD, rfl⟩ := Grammar.build_eq_ok h
  have hh := (Decisions.foldlM_addCell hD).2 _ _ (PredictionTable.getElem?_cells hs ht)
  rw [Array.size_empty, Nat.zero_add] at hh
  cases hc : (PredictionTable.fill g g.analyze).cell s t with
  | empty =>
    rw [hc, Decisions.Holds] at hh
    rw [Predicts, entry_tables hs ht, hh]
    rfl
  | production p =>
    rw [hc, Decisions.Holds] at hh
    rw [Predicts, entry_tables hs ht, hh]
    rfl
  | conflict c =>
    rw [hc, Decisions.Holds] at hh
    obtain ⟨start, resolution, asked, hr, hh⟩ := hh
    refine ⟨start, resolution, asked, hr, ?_⟩
    cases resolution with
    | production p =>
      rw [Decisions.HoldsResolution] at hh
      rw [PredictsResolution, entry_tables hs ht, hh]
      rfl
    | automaton nodes =>
      obtain ⟨r, he, hroot, hnodes⟩ := hh
      exact ⟨g.nodeCount + r, by rw [entry_tables hs ht, he]; rfl, instruction_decision hroot, hnodes⟩

/-- The nodes of the grammar keep their numbers in built tables. -/
theorem instruction_of_build (h : g.build limits = .ok T) {n : Node} (hn : g.HasNode n) :
    T.program.instruction (g.number n) = g.instructionOf n := by
  obtain ⟨D, -, rfl⟩ := Grammar.build_eq_ok h
  exact instruction_tables hn

theorem symbolNode_of_build (h : g.build limits = .ok T) {s : Nat} (hs : s < g.symbolCount) :
    T.program.symbolNode s = g.number (Item.symbol s) := by
  obtain ⟨D, -, rfl⟩ := Grammar.build_eq_ok h
  exact symbolNode_tables hs

/-- Every node of built tables is one of the grammar or the beginning of an automaton; behind them there is nothing. -/
theorem instruction_cases (h : g.build limits = .ok T) (n : Nat) :
    (∃ x, g.HasNode x ∧ n = g.number x) ∨ T.program.instruction n = .epsilon ∨ ∃ d, T.program.instruction n = .decision d := by
  obtain ⟨D, -, rfl⟩ := Grammar.build_eq_ok h
  rcases Nat.lt_or_ge n g.nodeCount with hlt | hge
  · obtain ⟨x, hx, e, -⟩ := Grammar.nodeAt?_of_lt hlt
    exact .inl ⟨x, hx, e.symm⟩
  · obtain ⟨r, rfl⟩ := Nat.exists_eq_add_of_le hge
    cases hr : D.roots[r]? with
    | some d => exact .inr (.inr ⟨d, instruction_decision hr⟩)
    | none =>
      refine .inr (.inl ?_)
      simp only [program, instruction]
      rw [getElem?_nodes_add, hr]
      rfl

/-- A symbol falls back to its first alternative that derives the empty text. -/
theorem emptyAlternative_of_build (h : g.build limits = .ok T) {s n : Nat}
    (hn : T.program.emptyProduction s = some n) : g.emptyAlternative g.analyze s = some n := by
  obtain ⟨D, -, rfl⟩ := Grammar.build_eq_ok h
  simp only [program, Grammar.tables, List.getElem?_toArray, List.getElem?_map] at hn
  by_cases hs : s < g.symbolCount
  · rw [List.getElem?_range hs] at hn
    exact hn
  · rw [List.getElem?_eq_none (by rw [List.length_range]; omega)] at hn
    cases hn

/-- What a symbol falls back to is one of its alternatives. -/
theorem alternative_of_empty (h : g.build limits = .ok T) {s n : Nat} (hn : T.program.emptyProduction s = some n) :
    ∃ p ∈ (g.symbol s).alts, n = g.number p := by
  obtain ⟨p, hp, rfl⟩ := Option.map_eq_some_iff.1 (emptyAlternative_of_build h hn)
  exact ⟨p, List.mem_of_find?_eq_some hp, rfl⟩

theorem lt_of_lookup (h : g.build limits = .ok T) {s t n : Nat} (hl : T.program.lookup s t = some n) :
    s < g.symbolCount ∧ t < g.tokenCount := by
  obtain ⟨D, -, rfl⟩ := Grammar.build_eq_ok h
  exact lt_of_entry_tables hl

/-- **Every node of the automata belongs to the automaton of a conflict.** -/
theorem automaton_of_build (h : g.build limits = .ok T) {d : Nat} (hd : d < T.dfas.size) :
    ∃ s t conflict start nodes asked, (PredictionTable.fill g g.analyze).cell s t = .conflict conflict ∧
      (g.problem limits conflict).resolve start = .ok (.automaton nodes, asked) ∧
        StandAt T.dfas start nodes ∧ start ≤ d ∧ d < start + nodes.length := by
  obtain ⟨D, hD, rfl⟩ := Grammar.build_eq_ok h
  rcases Decisions.foldlM_addCell_automaton hD hd with hd | ⟨conflict, start, nodes, asked, hmem, hrest⟩
  · exact absurd hd (Nat.not_lt_zero _)
  · obtain ⟨s, t, hc⟩ := PredictionTable.exists_cell hmem
    exact ⟨s, t, conflict, start, nodes, asked, hc, hrest⟩

/-- **Every decision of built tables is the automaton of a conflict, and predicted for it.** -/
theorem conflict_of_decision (h : g.build limits = .ok T) {n d : Nat} (hn : T.program.instruction n = .decision d) :
    ∃ s t conflict nodes asked, (PredictionTable.fill g g.analyze).cell s t = .conflict conflict ∧
      T.program.lookup s t = some n ∧ (g.problem limits conflict).resolve d = .ok (.automaton nodes, asked) ∧
        StandAt T.dfas d nodes := by
  obtain ⟨D, hD, rfl⟩ := Grammar.build_eq_ok h
  rcases Nat.lt_or_ge n g.nodeCount with hlt | hge
  · obtain ⟨x, hx, rfl, -⟩ := Grammar.nodeAt?_of_lt hlt
    exact absurd ((instruction_tables hx).symm.trans hn) (Grammar.instructionOf_ne_decision x d)
  · obtain ⟨r, rfl⟩ := Nat.exists_eq_add_of_le hge
    have hr : D.roots[r]? = some d := by
      simp only [program, instruction] at hn
      rw [getElem?_nodes_add] at hn
      cases hr : D.roots[r]? with
      | none => rw [hr] at hn; cases hn
      | some d' => rw [hr] at hn; cases hn; rfl
    obtain ⟨added, hadded⟩ := Decisions.roots_of_ofTable hD
    have hlt : r < added.length := hadded.size_eq ▸ (Array.getElem?_eq_some_iff.1 hr).1
    obtain ⟨hk, d', nodes, asked, hentry, hr', hresolve, hat⟩ := hadded.holds_of_empty (List.getElem?_eq_getElem hlt)
    cases hr.symm.trans hr'
    obtain ⟨s, t, hs, ht, e, hcell⟩ := PredictionTable.exists_of_getElem?_cells hk
    refine ⟨s, t, _, nodes, asked, hcell, (entry_tables hs ht).trans ?_, hresolve, hat⟩
    rw [← e, hentry]
    rfl

/-- **Without conflicts the tables have no automata.** -/
theorem dfas_of_build (h : g.build limits = .ok T) (hc : (PredictionTable.fill g g.analyze).conflicts = []) :
    T.dfas = #[] ∧ ∀ d, Instruction.decision d ∉ T.nodes := by
  obtain ⟨D, hD, rfl⟩ := Grammar.build_eq_ok h
  have hcells : ∀ c, Cell.conflict c ∉ (PredictionTable.fill g g.analyze).rows.toList.flatMap (·.toList) := by
    intro c hm
    have hmem : c ∈ (PredictionTable.fill g g.analyze).conflicts := by
      obtain ⟨row, hrow, hcell⟩ := List.mem_flatMap.1 hm
      exact List.mem_flatMap.2 ⟨row, hrow, List.mem_filterMap.2 ⟨_, hcell, rfl⟩⟩
    rw [hc] at hmem
    exact List.not_mem_nil hmem
  obtain ⟨hroots, hdfas⟩ := Decisions.foldlM_addCell_of_forall hcells hD
  refine ⟨hdfas, fun d hm => ?_⟩
  have e : (g.tables g.analyze D).nodes = g.instructions := by
    simp [Grammar.tables, hroots]
  rw [e, Grammar.instructions, List.mem_toArray, List.mem_map] at hm
  obtain ⟨n, -, hn⟩ := hm
  exact Grammar.instructionOf_ne_decision n d hn

end Tables

end PredictiveParser
