import Mathlib.Data.Set.Function
import PredictiveParser.Proofs.Decision.Automaton
import PredictiveParser.Proofs.Decision.Faults

/-!
# One numbering for all nodes

Every kind of node has a range of numbers of its own, and the ranges follow each other: whichever of them are empty, each
number below the count of the nodes belongs to one node (`Grammar.Numbered`). Tables keep these numbers and use those
behind them for decisions. The cells are decided by symbol and then by token, so the decisions stand in the order of the
conflicts that need an automaton (`Tables.Numbered`).
-/

namespace PredictiveParser

/-! ## Nodes and numbers -/

namespace Grammar

/-- The nodes of the grammar and the numbers below their count belong to each other, one by one. -/
structure Numbered (g : Grammar) : Prop where
  bijOn : Set.BijOn g.number {n | g.HasNode n} (Set.Iio g.nodeCount)
  nodeAt : ∀ k n, g.nodeAt? k = some n ↔ g.HasNode n ∧ g.number n = k
  beyond : ∀ k, g.nodeAt? k = none ↔ g.nodeCount ≤ k
  /-- The list of all nodes misses none. -/
  listed : ∀ n, n ∈ g.nodes ↔ g.HasNode n
  inOrder : g.nodes.map g.number = List.range g.nodeCount

variable {g : Grammar}

theorem nodeAt?_eq_some_iff {k : Nat} {n : Node} : g.nodeAt? k = some n ↔ g.HasNode n ∧ g.number n = k := by
  constructor
  · exact nodeAt?_eq_some
  · rintro ⟨hn, rfl⟩
    exact nodeAt?_number hn

theorem nodeAt?_eq_none_iff {k : Nat} : g.nodeAt? k = none ↔ g.nodeCount ≤ k := by
  constructor
  · intro h
    refine Nat.le_of_not_lt fun hk => ?_
    obtain ⟨n, -, -, hn⟩ := nodeAt?_of_lt hk
    cases h.symm.trans hn
  · intro h
    refine Option.eq_none_iff_forall_not_mem.2 fun n hn => ?_
    obtain ⟨hnode, rfl⟩ := nodeAt?_eq_some hn
    exact Nat.not_lt_of_le h (number_lt hnode)

theorem bijOn_number (g : Grammar) : Set.BijOn g.number {n | g.HasNode n} (Set.Iio g.nodeCount) := by
  refine ⟨fun n hn => number_lt hn, fun m hm n hn e => number_injective hm hn e, fun k hk => ?_⟩
  obtain ⟨n, hn, e, -⟩ := nodeAt?_of_lt hk
  exact ⟨n, hn, e⟩

theorem mem_nodes_iff {n : Node} : n ∈ g.nodes ↔ g.HasNode n := by
  constructor
  · intro h
    obtain ⟨k, hk⟩ := List.mem_iff_getElem?.1 h
    rw [getElem?_nodes] at hk
    exact (nodeAt?_eq_some hk).1
  · intro h
    exact List.mem_of_getElem? (getElem?_nodes_number h)

theorem map_number_nodes (g : Grammar) : g.nodes.map g.number = List.range g.nodeCount := by
  refine List.ext_getElem? fun k => ?_
  rw [List.getElem?_map, getElem?_nodes]
  rcases Nat.lt_or_ge k g.nodeCount with hk | hk
  · obtain ⟨n, -, rfl, hn⟩ := nodeAt?_of_lt hk
    rw [hn, List.getElem?_range hk]
    rfl
  · rw [nodeAt?_eq_none_iff.2 hk, List.getElem?_eq_none (by simpa using hk)]
    rfl

theorem numbered (g : Grammar) : g.Numbered where
  bijOn := g.bijOn_number
  nodeAt _ _ := nodeAt?_eq_some_iff
  beyond _ := nodeAt?_eq_none_iff
  listed _ := mem_nodes_iff
  inOrder := g.map_number_nodes

/-- The instruction is of the kind of the node and has its index; that of a sequence lists the numbers of its items. -/
inductive Represents (g : Grammar) : Node → Instruction → Prop
  | token (t : Nat) : Represents g (.item (.token t)) (.token t)
  | epsilon : Represents g .epsilon .epsilon
  | symbol (s : Nat) : Represents g (.item (.symbol s)) (.symbol s)
  | sequence {q : Nat} {is : List Item} : g.sequences[q]? = some is →
      Represents g (.sequence q) (.sequence (is.map fun i => g.number (.item i)))
  | action (a : Nat) : Represents g (.item (.action a)) (.action a)
  | argument (a : Nat) : Represents g (.item (.argument a)) (.argument a)
  | beacon (b : Nat) : Represents g (.item (.beacon b)) (.beacon b)

theorem represents_instructionOf {n : Node} (hn : g.HasNode n) : g.Represents n (g.instructionOf n) := by
  cases n with
  | epsilon => exact .epsilon
  | item i =>
    cases i with
    | token t => exact .token t
    | symbol s => exact .symbol s
    | action a => exact .action a
    | argument a => exact .argument a
    | beacon b => exact .beacon b
  | sequence q =>
    have hq : g.sequences[q]? = some (g.sequence q) := by
      rw [sequence, Array.getElem?_eq_getElem hn]
      rfl
    exact .sequence hq

end Grammar

/-! ## Decisions and numbers -/

namespace Decision

variable {Q : Problem} {start start' : Nat} {p : Node}

/-- Where the nodes of an automaton would stand plays no role in a decision for a production. -/
theorem decide_production {states : List State} (h : Q.decide start states = .ok (.production p)) :
    Q.decide start' states = .ok (.production p) := by
  cases states with
  | nil => cases h
  | cons s states =>
    unfold Problem.decide at h ⊢
    dsimp only at h ⊢
    split at h
    · cases h
      rfl
    · cases h

theorem resolve_ne_automaton {asked asked' : List Nat} {nodes : List DfaNode}
    (h : Q.resolve start = .ok (.production p, asked)) : Q.resolve start' ≠ .ok (.automaton nodes, asked') := by
  intro h'
  obtain ⟨states, hreached, hd, -⟩ := resolve_eq_ok_iff.1 h
  obtain ⟨states', hreached', hd', -⟩ := resolve_eq_ok_iff.1 h'
  cases hreached.symm.trans hreached'
  cases (decide_production hd).symm.trans hd'

end Decision

/-- The conflict is that of an earlier symbol, or of an earlier token of the same symbol. -/
def Conflict.Before (c c' : Conflict) : Prop :=
  c.symbol < c'.symbol ∨ c.symbol = c'.symbol ∧ c.token < c'.token

/-- Cells that stand one after the other are in the order of their symbols and tokens. -/
theorem lex_of_place_lt {n s s' t t' : Nat} (ht' : t' < n) (h : s * n + t < s' * n + t') :
    s < s' ∨ s = s' ∧ t < t' := by
  rcases Nat.lt_trichotomy s s' with hlt | rfl | hgt
  · exact .inl hlt
  · exact .inr ⟨rfl, by omega⟩
  · have hrow : (s' + 1) * n ≤ s * n := Nat.mul_le_mul_right n hgt
    rw [Nat.add_mul] at hrow
    omega

namespace Tables

variable {g : Grammar} {F : Facts} {D : Decisions} {limits : Limits} {T : Tables}

/-- The tables keep the numbers of the nodes of the grammar. Those behind belong to decisions, one for each of the conflicts
`cs`. -/
structure Numbered (T : Tables) (g : Grammar) (limits : Limits) (cs : List Conflict) : Prop where
  node : ∀ n, g.HasNode n → ∃ i, T.nodes[g.number n]? = some i ∧ g.Represents n i
  size : T.nodes.size = g.nodeCount + cs.length
  /-- A conflict has a decision if it needs an automaton. -/
  decided : ∀ c, c ∈ cs ↔ (PredictionTable.fill g g.analyze).cell c.symbol c.token = .conflict c ∧
    ∃ start nodes asked, (g.problem limits c).resolve start = .ok (.automaton nodes, asked)
  ordered : cs.Pairwise Conflict.Before
  /-- The decision begins with the automaton of its conflict, whose cell predicts it. -/
  decision : ∀ i c, cs[i]? = some c → ∃ d nodes asked, T.nodes[g.nodeCount + i]? = some (.decision d) ∧
    T.entry c.symbol c.token = some (g.nodeCount + i) ∧
    (g.problem limits c).resolve d = .ok (.automaton nodes, asked) ∧ StandAt T.dfas d nodes

/-- The place of a conflict among the cells comes from its symbol and its token. -/
theorem place_of_adds {added : List (Nat × Conflict)}
    (h : Decisions.Adds g limits (PredictionTable.fill g F) ((PredictionTable.fill g F).rows.toList.flatMap (·.toList)) added
      {} D) {k : Nat} {c : Conflict} (hmem : (k, c) ∈ added) : k = c.symbol * g.tokenCount + c.token ∧
      c.symbol < g.symbolCount ∧ c.token < g.tokenCount ∧
      (PredictionTable.fill g F).cell c.symbol c.token = .conflict c := by
  obtain ⟨i, hi⟩ := List.mem_iff_getElem?.1 hmem
  obtain ⟨s, t, hs, ht, rfl, hcell⟩ := PredictionTable.exists_of_getElem?_cells (h.holds_of_empty hi).1
  obtain ⟨-, -, rfl, rfl⟩ := PredictionTable.conflict_fill hcell
  exact ⟨rfl, hs, ht, hcell⟩

/-- **The decisions of built tables stand in the order of their conflicts.** -/
theorem numbered_of_build (hb : g.build limits = .ok T) : ∃ cs, T.Numbered g limits cs := by
  obtain ⟨D, hD, rfl⟩ := Grammar.build_eq_ok hb
  obtain ⟨added, hadded⟩ := Decisions.roots_of_ofTable hD
  refine ⟨added.map (·.2), ?node, ?size, ?decided, ?ordered, ?decision⟩
  case node =>
    intro n hn
    exact ⟨_, getElem?_nodes_number hn, Grammar.represents_instructionOf hn⟩
  case size =>
    rw [size_nodes_tables, hadded.size_eq, List.length_map]
  case decided =>
    intro c
    rw [List.mem_map]
    constructor
    · rintro ⟨⟨k, c⟩, hmem, rfl⟩
      obtain ⟨i, hi⟩ := List.mem_iff_getElem?.1 hmem
      obtain ⟨d, nodes, asked, -, -, hr, -⟩ := (hadded.holds_of_empty hi).2
      exact ⟨(place_of_adds hadded hmem).2.2.2, d, nodes, asked, hr⟩
    · rintro ⟨hcell, start, nodes, asked, hr⟩
      obtain ⟨hs, ht, -, -⟩ := PredictionTable.conflict_fill hcell
      have hk := PredictionTable.getElem?_cells (F := g.analyze) hs ht
      rw [hcell] at hk
      obtain hmem | ⟨start', p, asked', hr'⟩ := hadded.settled _ c hk
      · exact ⟨_, hmem, rfl⟩
      · exact absurd hr (Decision.resolve_ne_automaton hr')
  case ordered =>
    -- the cells are decided row by row
    refine List.pairwise_map.2 (hadded.ordered.imp_of_mem ?_)
    rintro ⟨k, c⟩ ⟨k', c'⟩ hmem hmem' hlt
    obtain ⟨rfl, -, -, -⟩ := place_of_adds hadded hmem
    obtain ⟨rfl, -, ht', -⟩ := place_of_adds hadded hmem'
    exact lex_of_place_lt ht' hlt
  case decision =>
    intro i c hi
    rw [List.getElem?_map, Option.map_eq_some_iff] at hi
    obtain ⟨⟨k, c⟩, hi, rfl⟩ := hi
    obtain ⟨rfl, hs, ht, -⟩ := place_of_adds hadded (List.mem_of_getElem? hi)
    obtain ⟨d, nodes, asked, hentry, hroot, hr, hat⟩ := (hadded.holds_of_empty hi).2
    refine ⟨d, nodes, asked, ?_, ?_, hr, hat⟩
    · rw [getElem?_nodes_add, hroot]
      rfl
    · rw [entry_tables hs ht, hentry]
      rfl

end Tables

namespace Grammar

/-- **Nodes and decisions share one numbering.** The nodes of a grammar take all numbers below their count, and no two of them
take the same. Built tables keep these numbers, and those behind belong to the decisions of the conflicts that need an
automaton, in the order of their symbols and tokens. -/
theorem numbered_build (g : Grammar) :
    g.Numbered ∧ ∀ limits T, g.build limits = .ok T → ∃ cs, T.Numbered g limits cs :=
  ⟨g.numbered, fun _ _ hb => Tables.numbered_of_build hb⟩

/-- The grammar `S → @x a a {go}`, `S → a b T (arg)`, `T → b a`, `T → b b`, with nodes of every kind. -/
def labelled : Grammar where
  tokens := .letters
  symbols := #[{ name := "S", alts := [.sequence 0, .sequence 1] }, { name := "T", alts := [.sequence 2, .sequence 3] }]
  sequences := #[[.beacon 0, .token 2, .token 2, .action 0], [.token 2, .token 3, .symbol 1, .argument 0],
    [.token 3, .token 2], [.token 3, .token 3]]
  actions := ⟨["go"], by decide⟩
  arguments := ⟨["arg"], by decide⟩
  beacons := ⟨["x"], by decide⟩
  start := 0

/-- Behind the nodes of this grammar stand the decision of `S` on an `a` and that of `T` on a `b`. -/
theorem labelled_numbered : ∃ T cs, labelled.build = .ok T ∧ T.Numbered labelled {} cs ∧
    labelled.number (Item.beacon 0) = 13 ∧ labelled.nodeCount = 14 ∧ cs.length = 2 ∧ T.entry 0 2 = some 14 ∧
    T.entry 1 3 = some 15 := by
  have h : labelled.build.toOption.any fun T => T.nodes.size = 16 ∧ T.entry 0 2 = some 14 ∧ T.entry 1 3 = some 15 := by
    decide +kernel
  cases hb : labelled.build with
  | error e =>
    rw [hb] at h
    cases h
  | ok T =>
    rw [hb, Except.toOption, Option.any_some] at h
    obtain ⟨hsize, h₀, h₁⟩ := of_decide_eq_true h
    obtain ⟨cs, hcs⟩ := labelled.numbered_build.2 {} T hb
    have hcount : labelled.nodeCount = 14 := by decide
    have hlength := hcs.size
    rw [hsize, hcount] at hlength
    exact ⟨T, cs, rfl, hcs, by decide, hcount, by omega, h₀, h₁⟩

end Grammar

end PredictiveParser
