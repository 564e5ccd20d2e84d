import PredictiveParser.Grammar.Basic

/-!
# Grammars without dangling references

A grammar is well formed when its productions, its resolvers and its start symbol only refer to parts that it has. The
numbering of the nodes of such a grammar is one to one (`number_injective`), and the list of all nodes is in the order
of their numbers (`getElem?_nodes`). Grammars with the same parts number them in the same way (`SameParts.number`).
-/

namespace PredictiveParser

namespace Grammar

instance (g : Grammar) : DecidablePred g.HasItem := fun i => by
  cases i <;> exact inferInstanceAs (Decidable (_ < _))

instance (g : Grammar) : DecidablePred g.HasNode := fun n =>
  match n with
  | .epsilon => .isTrue trivial
  | .item i => inferInstanceAs (Decidable (g.HasItem i))
  | .sequence q => inferInstanceAs (Decidable (q < g.sequences.size))

/-- All references of the grammar lead to parts that it has. -/
structure WellFormed (g : Grammar) : Prop where
  /-- The end of the input and the wildcard are terminals. -/
  reserved : firstConcrete ≤ g.tokenCount
  start : g.start < g.symbolCount
  alts : ∀ x ∈ g.symbols, ∀ p ∈ x.alts, g.HasNode p
  items : ∀ is ∈ g.sequences, ∀ i ∈ is, g.HasItem i
  resolvers : ∀ x ∈ g.symbols, ∀ r, x.resolver = some r → g.HasNode r.node

variable {g : Grammar}

theorem wellFormed_iff : g.WellFormed ↔ firstConcrete ≤ g.tokenCount ∧ g.start < g.symbolCount ∧
    (∀ x ∈ g.symbols.toList, (∀ p ∈ x.alts, g.HasNode p) ∧ ∀ r ∈ x.resolver, g.HasNode r.node) ∧
    ∀ is ∈ g.sequences.toList, ∀ i ∈ is, g.HasItem i := by
  simp only [Array.mem_toList_iff]
  constructor
  · exact fun h => ⟨h.reserved, h.start, fun x hx => ⟨h.alts x hx, h.resolvers x hx⟩, h.items⟩
  · rintro ⟨hreserved, hstart, hsymbols, hitems⟩
    exact ⟨hreserved, hstart, fun x hx => (hsymbols x hx).1, hitems, fun x hx => (hsymbols x hx).2⟩

instance : Decidable g.WellFormed :=
  decidable_of_iff _ wellFormed_iff.symm

/-- Two nodes of a grammar with one number are the same node. -/
theorem number_injective {m n : Node} (hm : g.HasNode m) (hn : g.HasNode n) (h : g.number m = g.number n) : m = n := by
  have e := nodeAt?_number hm
  rw [h, nodeAt?_number hn] at e
  exact (Option.some.inj e).symm

/-- The nodes of a grammar have the numbers below the number of nodes. -/
theorem number_lt {n : Node} (h : g.HasNode n) : g.number n < g.nodeCount := by
  rcases n with _ | (t | s | a | a | b) | q <;>
    simp only [HasNode, HasItem, symbolCount] at h <;>
    simp only [number, itemNumber, nodeCount, beaconBase, argumentBase, actionBase, sequenceBase, symbolBase] <;>
    omega

/-- Every number below the number of nodes belongs to a node. -/
theorem nodeAt?_of_lt {k : Nat} (h : k < g.nodeCount) : ∃ n, g.HasNode n ∧ g.number n = k ∧ g.nodeAt? k = some n := by
  have found : ∀ n : Node, g.HasNode n → g.number n = k →
      ∃ n, g.HasNode n ∧ g.number n = k ∧ g.nodeAt? k = some n :=
    fun n hn e => ⟨n, hn, e, e ▸ nodeAt?_number hn⟩
  simp only [nodeCount, beaconBase, argumentBase, actionBase, sequenceBase, symbolBase] at h
  by_cases h₁ : k < g.tokenCount
  · exact found (Item.token k) h₁ rfl
  by_cases h₂ : k < g.symbolBase
  · exact found .epsilon trivial (by simp only [number]; simp only [symbolBase] at h₂; omega)
  by_cases h₃ : k < g.sequenceBase
  · refine found (Item.symbol (k - g.symbolBase)) ?_ ?_
    · simp only [HasNode, HasItem, symbolCount]; simp only [sequenceBase] at h₃; omega
    · simp only [number, itemNumber]; omega
  by_cases h₄ : k < g.actionBase
  · refine found (.sequence (k - g.sequenceBase)) ?_ ?_
    · simp only [HasNode]; simp only [actionBase] at h₄; omega
    · simp only [number]; omega
  by_cases h₅ : k < g.argumentBase
  · refine found (Item.action (k - g.actionBase)) ?_ ?_
    · simp only [HasNode, HasItem]; simp only [argumentBase] at h₅; omega
    · simp only [number, itemNumber]; omega
  by_cases h₆ : k < g.beaconBase
  · refine found (Item.argument (k - g.argumentBase)) ?_ ?_
    · simp only [HasNode, HasItem]; simp only [beaconBase] at h₆; omega
    · simp only [number, itemNumber]; omega
  · refine found (Item.beacon (k - g.beaconBase)) ?_ ?_
    · simp only [HasNode, HasItem]
      simp only [beaconBase, argumentBase, actionBase, sequenceBase, symbolBase] at h₆ ⊢
      omega
    · simp only [number, itemNumber]; omega

/-- The node with a number is a node of the grammar. -/
theorem nodeAt?_eq_some {k : Nat} {n : Node} (h : g.nodeAt? k = some n) : g.HasNode n ∧ g.number n = k := by
  have hk : k < g.nodeCount := by
    refine Decidable.byContradiction fun hb => ?_
    simp only [nodeCount, beaconBase, argumentBase, actionBase, sequenceBase, symbolBase] at hb
    simp only [nodeAt?, nodeCount, beaconBase, argumentBase, actionBase, sequenceBase, symbolBase] at h
    grind
  obtain ⟨m, hm, e, h'⟩ := nodeAt?_of_lt hk
  cases h.symm.trans h'
  exact ⟨hm, e⟩

/-- The nodes are listed in the order of their numbers. -/
theorem nodes_eq (g : Grammar) : g.nodes.map some = (List.range g.nodeCount).map g.nodeAt? := by
  have h : ∀ ks : List Nat, (∀ k ∈ ks, k < g.nodeCount) → (ks.filterMap g.nodeAt?).map some = ks.map g.nodeAt? := by
    intro ks hks
    induction ks with
    | nil => rfl
    | cons k ks ih =>
      obtain ⟨n, _, _, e⟩ := nodeAt?_of_lt (hks k List.mem_cons_self)
      rw [List.filterMap_cons_some e, List.map_cons, List.map_cons, e,
        ih fun k' h' => hks k' (List.mem_cons_of_mem _ h')]
  exact h _ fun k hk => List.mem_range.1 hk

@[simp] theorem length_nodes (g : Grammar) : g.nodes.length = g.nodeCount := by
  have h := congrArg List.length (nodes_eq g)
  simpa using h

/-- The node with a number stands at that place of the list of nodes. -/
theorem getElem?_nodes (g : Grammar) (k : Nat) : g.nodes[k]? = g.nodeAt? k := by
  by_cases h : k < g.nodeCount
  · have e := congrArg (fun l => l[k]?) (nodes_eq g)
    simp only [List.getElem?_map, List.getElem?_range h, Option.map_some] at e
    cases hn : g.nodes[k]? with
    | none => rw [hn] at e; cases e
    | some n => rw [hn] at e; exact Option.some.inj e
  · rw [List.getElem?_eq_none (by rw [length_nodes]; omega)]
    have hb : g.nodeCount ≤ k := by omega
    simp only [nodeCount, beaconBase, argumentBase, actionBase, sequenceBase, symbolBase] at hb
    simp only [nodeAt?, nodeCount, beaconBase, argumentBase, actionBase, sequenceBase, symbolBase]
    grind

theorem getElem?_nodes_number {n : Node} (h : g.HasNode n) : g.nodes[g.number n]? = some n := by
  rw [getElem?_nodes, nodeAt?_number h]

/-! ## What is behind a number -/

theorem getElem?_symbols_of_mem_alts {s : Nat} {p : Node} (h : p ∈ (g.symbol s).alts) :
    g.symbols[s]? = some (g.symbol s) := by
  unfold symbol at h ⊢
  cases hs : g.symbols[s]? with
  | none => rw [hs] at h; cases h
  | some x => rfl

theorem getElem?_symbols_of_resolver {s : Nat} {r : Resolver} (h : (g.symbol s).resolver = some r) :
    g.symbols[s]? = some (g.symbol s) := by
  unfold symbol at h ⊢
  cases hs : g.symbols[s]? with
  | none => rw [hs] at h; cases h
  | some x => rfl

theorem getElem?_sequences_of_mem {q : Nat} {i : Item} (h : i ∈ g.sequence q) :
    g.sequences[q]? = some (g.sequence q) := by
  unfold sequence at h ⊢
  cases hq : g.sequences[q]? with
  | none => rw [hq] at h; cases h
  | some is => rfl

/-- A symbol with an alternative is a symbol of the grammar. -/
theorem symbol_lt_of_mem_alts {s : Nat} {p : Node} (h : p ∈ (g.symbol s).alts) : s < g.symbolCount :=
  (Array.getElem?_eq_some_iff.1 (getElem?_symbols_of_mem_alts h)).1

/-- A symbol with a resolver is a symbol of the grammar. -/
theorem symbol_lt_of_resolver {s : Nat} {r : Resolver} (h : (g.symbol s).resolver = some r) : s < g.symbolCount :=
  (Array.getElem?_eq_some_iff.1 (getElem?_symbols_of_resolver h)).1

/-- A sequence with an item is one of the grammar. -/
theorem sequence_lt_of_mem {q : Nat} {i : Item} (h : i ∈ g.sequence q) : q < g.sequences.size :=
  (Array.getElem?_eq_some_iff.1 (getElem?_sequences_of_mem h)).1

namespace WellFormed

variable (hg : g.WellFormed)

include hg

/-- The alternatives of a symbol are nodes of the grammar. -/
theorem hasNode_alt {s : Nat} {p : Node} (h : p ∈ (g.symbol s).alts) : g.HasNode p :=
  hg.alts _ (Array.mem_of_getElem? (getElem?_symbols_of_mem_alts h)) p h

/-- The resolver of a symbol is a node of the grammar. -/
theorem hasNode_resolver {s : Nat} {r : Resolver} (h : (g.symbol s).resolver = some r) : g.HasNode r.node :=
  hg.resolvers _ (Array.mem_of_getElem? (getElem?_symbols_of_resolver h)) r h

/-- The items of a sequence are items of the grammar. -/
theorem hasItem_sequence {q : Nat} {i : Item} (h : i ∈ g.sequence q) : g.HasItem i :=
  hg.items _ (Array.mem_of_getElem? (getElem?_sequences_of_mem h)) i h

/-- The items of a node are items of the grammar. -/
theorem hasItem_items {n : Node} (hn : g.HasNode n) {i : Item} (h : i ∈ g.items n) : g.HasItem i := by
  cases n with
  | epsilon => exact absurd h List.not_mem_nil
  | item j => rw [List.mem_singleton.1 h]; exact hn
  | sequence q => exact hg.hasItem_sequence h

/-- The items of an alternative are items of the grammar. -/
theorem hasItem_alt {s : Nat} {p : Node} (hp : p ∈ (g.symbol s).alts) {i : Item} (h : i ∈ g.items p) : g.HasItem i :=
  hg.hasItem_items (hg.hasNode_alt hp) h

/-- An item of a node and those behind it are items of the grammar. -/
theorem hasItem_behind {n : Node} (hn : g.HasNode n) {pre post : List Item} {i : Item} (e : g.items n = pre ++ i :: post) :
    g.HasItem i ∧ ∀ j ∈ post, g.HasItem j :=
  List.forall_mem_cons.1 fun _ hj => hg.hasItem_items hn (e ▸ List.mem_append_right pre hj)

end WellFormed

/-- The symbols of the grammar are those with a number. -/
theorem exists_symbol {x : Nonterminal} (hx : x ∈ g.symbols) : ∃ s, g.symbol s = x := by
  obtain ⟨s, hs, rfl⟩ := Array.getElem_of_mem hx
  exact ⟨s, by simp [symbol, hs]⟩

/-! ## Grammars with the same parts -/

/-- The grammars have the same parts, with the same numbers. Their productions may differ. -/
structure SameParts (g g' : Grammar) : Prop where
  tokens : g'.tokens = g.tokens
  symbols : g'.symbols.size = g.symbols.size
  sequences : g'.sequences.size = g.sequences.size
  actions : g'.actions = g.actions
  arguments : g'.arguments = g.arguments
  beacons : g'.beacons = g.beacons

namespace SameParts

variable {g' : Grammar} (h : g.SameParts g')

include h

theorem tokenCount : g'.tokenCount = g.tokenCount := by
  rw [Grammar.tokenCount, h.tokens, Grammar.tokenCount]

theorem nodeCount : g'.nodeCount = g.nodeCount := by
  simp only [Grammar.nodeCount, beaconBase, argumentBase, actionBase, sequenceBase, symbolBase, h.tokenCount, h.symbols,
    h.sequences, h.actions, h.arguments, h.beacons]

theorem number : g'.number = g.number := by
  funext n
  rcases n with _ | (t | s | a | a | b) | q <;>
    simp only [Grammar.number, itemNumber, beaconBase, argumentBase, actionBase, sequenceBase, symbolBase, h.tokenCount,
      h.symbols, h.sequences, h.actions, h.arguments]

theorem nodes : g'.nodes = g.nodes := by
  have hnode : g'.nodeAt? = g.nodeAt? := by
    funext k
    simp only [nodeAt?, h.nodeCount, beaconBase, argumentBase, actionBase, sequenceBase, symbolBase, h.tokenCount,
      h.symbols, h.sequences, h.actions, h.arguments]
    rfl
  rw [Grammar.nodes, Grammar.nodes, h.nodeCount, hnode]

theorem hasItem (i : Item) : g'.HasItem i ↔ g.HasItem i := by
  cases i <;> simp only [HasItem, symbolCount, h.tokenCount, h.symbols, h.actions, h.arguments, h.beacons]

theorem hasNode (n : Node) : g'.HasNode n ↔ g.HasNode n := by
  cases n with
  | epsilon => exact Iff.rfl
  | item i => exact h.hasItem i
  | sequence q => exact iff_of_eq (by rw [HasNode, HasNode, h.sequences])

end SameParts

end Grammar

/-- The reserved terminals and two letters, for small grammars. -/
def NameTable.letters : NameTable :=
  ⟨["$end", "$any", "a", "b"], by decide⟩

end PredictiveParser
