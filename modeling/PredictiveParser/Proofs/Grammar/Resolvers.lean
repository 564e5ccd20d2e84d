import PredictiveParser.Proofs.Grammar.LeftRecursion

/-!
# Grammars without their resolvers

A symbol refers to its alternatives and a sequence to its items (`Grammar.Refers`), so the subgrammar of a node consists of
the nodes that it reaches in any number of steps. `Grammar.withoutResolvers` removes the resolvers of all symbols and the
sequences that only occur in subgrammars of resolvers. What reaches such a node occurs only there itself
(`OnlyInResolvers.of_refers`), and a symbol that can be reached from the start symbol never does, so it keeps its
alternatives.
-/

namespace PredictiveParser

namespace Grammar

variable {g : Grammar}

/-! ## Subgrammars -/

/-- The second node is an alternative of the first, or an item of it. -/
inductive Refers (g : Grammar) : Node → Node → Prop
  | alternative {s : Nat} {p : Node} : p ∈ (g.symbol s).alts → Refers g (Item.symbol s) p
  | item {q : Nat} {i : Item} : i ∈ g.sequence q → Refers g (.sequence q) i

/-- The second node belongs to the subgrammar of the first. -/
def Reaches (g : Grammar) : Node → Node → Prop :=
  Relation.ReflTransGen g.Refers

/-- The node belongs to the subgrammar of a resolver. -/
def InResolver (g : Grammar) (n : Node) : Prop :=
  ∃ s r, (g.symbol s).resolver = some r ∧ g.Reaches r.node n

/-- The node occurs in subgrammars of resolvers only: it cannot be reached from the start symbol, and whatever reaches it
belongs to the subgrammar of a resolver. -/
structure OnlyInResolvers (g : Grammar) (n : Node) : Prop where
  unreached : ¬ g.Reaches (Item.symbol g.start) n
  inResolver : ∀ m, g.Reaches m n → g.InResolver m

/-- What refers to a node that occurs only in subgrammars of resolvers occurs only there as well. -/
theorem OnlyInResolvers.of_refers {m n : Node} (h : g.OnlyInResolvers n) (hmn : g.Refers m n) : g.OnlyInResolvers m :=
  ⟨fun hm => h.unreached (hm.tail hmn), fun k hk => h.inResolver k (hk.tail hmn)⟩

theorem not_onlyInResolvers_of_reaches {n : Node} (h : g.Reaches (Item.symbol g.start) n) : ¬ g.OnlyInResolvers n :=
  fun hn => hn.unreached h

/-- The root of a resolver that is no alternative of a symbol occurs nowhere else. -/
theorem onlyInResolvers_of_resolver {s : Nat} {r : Resolver} (hr : (g.symbol s).resolver = some r) {q : Nat}
    (hq : r.node = .sequence q) (halts : ∀ s, .sequence q ∉ (g.symbol s).alts) : g.OnlyInResolvers (.sequence q) := by
  have hroot : ∀ m, g.Reaches m (.sequence q) → m = .sequence q := by
    intro m hm
    rcases Relation.ReflTransGen.cases_tail hm with e | ⟨k, -, hk⟩
    · exact e.symm
    · cases hk with
      | alternative hp => exact absurd hp (halts _)
  refine ⟨fun h => ?_, fun m hm => ⟨s, r, hr, ?_⟩⟩
  · cases hroot _ h
  · rw [hroot m hm, hq]
    exact .refl

/-- The subgrammar of a node of the grammar has nodes of the grammar only. -/
theorem WellFormed.hasNode_of_reaches (hg : g.WellFormed) {m n : Node} (hm : g.HasNode m) (h : g.Reaches m n) :
    g.HasNode n := by
  induction h with
  | refl => exact hm
  | tail _ hn _ =>
    cases hn with
    | alternative hp => exact hg.hasNode_alt hp
    | item hi => exact hg.hasItem_sequence hi

/-- What an alternative consists of belongs to the subgrammar of its symbol. -/
theorem Reaches.of_uses {m : Node} {s t : Nat} (h : g.Reaches m (Item.symbol s)) (hst : g.Uses s t) :
    g.Reaches m (Item.symbol t) := by
  obtain ⟨p, hp, ht⟩ := hst
  have hp' : g.Reaches m p := h.tail (.alternative hp)
  cases p with
  | epsilon => exact absurd ht List.not_mem_nil
  | item i =>
    rw [← List.mem_singleton.1 ht] at hp'
    exact hp'
  | sequence q => exact hp'.tail (.item ht)

theorem IsReachable.reaches {s : Nat} (h : g.IsReachable s) : g.Reaches (Item.symbol g.start) (Item.symbol s) := by
  induction h with
  | refl => exact .refl
  | tail _ hst ih => exact ih.of_uses hst

/-! ## Removing resolvers -/

/-- The node is a sequence that occurs in subgrammars of resolvers only. -/
def Removed (g : Grammar) (n : Node) : Prop :=
  ∃ q, n = .sequence q ∧ g.OnlyInResolvers n

theorem not_removed_epsilon : ¬ g.Removed .epsilon := by
  rintro ⟨q, e, -⟩
  cases e

theorem not_removed_item (i : Item) : ¬ g.Removed i := by
  rintro ⟨q, e, -⟩
  cases e

theorem removed_sequence {q : Nat} : g.Removed (.sequence q) ↔ g.OnlyInResolvers (.sequence q) := by
  constructor
  · rintro ⟨-, -, h⟩
    exact h
  · exact fun h => ⟨q, rfl, h⟩

theorem not_removed {n : Node} (h : ¬ g.OnlyInResolvers n) : ¬ g.Removed n := by
  rintro ⟨-, -, hn⟩
  exact h hn

open Classical in
/-- The grammar without its resolvers and without the sequences that only occur in their subgrammars. The nodes keep their
numbers: the place of a removed sequence is left empty, and nothing refers to it. -/
noncomputable def withoutResolvers (g : Grammar) : Grammar :=
  { g with
    symbols := g.symbols.map fun x => { x with resolver := none, alts := x.alts.filter fun p => ¬ g.Removed p }
    sequences := g.sequences.mapIdx fun q is => if g.Removed (.sequence q) then [] else is }

theorem sameParts_withoutResolvers (g : Grammar) : g.SameParts g.withoutResolvers where
  tokens := rfl
  symbols := Array.size_map ..
  sequences := Array.size_mapIdx ..
  actions := rfl
  arguments := rfl
  beacons := rfl

open Classical in
theorem symbol_withoutResolvers (s : Nat) : g.withoutResolvers.symbol s =
    { g.symbol s with resolver := none, alts := (g.symbol s).alts.filter fun p => ¬ g.Removed p } := by
  simp only [symbol, withoutResolvers, Array.getElem?_map]
  cases g.symbols[s]? with
  | none => rfl
  | some x => rfl

/-- The alternatives that are not removed stay. -/
theorem mem_alts_withoutResolvers {s : Nat} {p : Node} :
    p ∈ (g.withoutResolvers.symbol s).alts ↔ p ∈ (g.symbol s).alts ∧ ¬ g.Removed p := by
  simp [symbol_withoutResolvers]

/-- The sequences that are not removed keep their items. -/
theorem items_withoutResolvers {n : Node} (h : ¬ g.Removed n) : g.withoutResolvers.items n = g.items n := by
  cases n with
  | epsilon => rfl
  | item i => rfl
  | sequence q =>
    simp only [items, sequence, withoutResolvers, Array.getElem?_mapIdx]
    cases g.sequences[q]? with
    | none => rfl
    | some is => simp [h]

theorem items_withoutResolvers_of_removed {n : Node} (h : g.Removed n) : g.withoutResolvers.items n = [] := by
  obtain ⟨q, rfl, -⟩ := id h
  simp only [items, sequence, withoutResolvers, Array.getElem?_mapIdx]
  cases g.sequences[q]? with
  | none => rfl
  | some is => simp [h]

theorem WellFormed.withoutResolvers (hg : g.WellFormed) : g.withoutResolvers.WellFormed := by
  have h := sameParts_withoutResolvers g
  refine ⟨h.tokenCount ▸ hg.reserved, ?_, fun x hx p hp => ?_, fun is his i hi => ?_, fun x hx r hr => ?_⟩
  · exact hg.start.trans_eq h.symbols.symm
  · obtain ⟨s, rfl⟩ := exists_symbol hx
    exact (h.hasNode p).2 (hg.hasNode_alt (mem_alts_withoutResolvers.1 hp).1)
  · obtain ⟨q, hq, rfl⟩ := Array.getElem_of_mem his
    rw [h.hasItem]
    have hi' : i ∈ g.withoutResolvers.items (.sequence q) := by
      rw [Grammar.items, sequence, Array.getElem?_eq_getElem hq]
      exact hi
    by_cases hr : g.Removed (.sequence q)
    · rw [items_withoutResolvers_of_removed hr] at hi'
      exact absurd hi' List.not_mem_nil
    · rw [items_withoutResolvers hr] at hi'
      exact hg.hasItem_sequence hi'
  · obtain ⟨s, rfl⟩ := exists_symbol hx
    rw [symbol_withoutResolvers] at hr
    cases hr

/-- A symbol that does not only occur in subgrammars of resolvers keeps its alternatives. -/
theorem alts_withoutResolvers {s : Nat} (hs : ¬ g.OnlyInResolvers (Item.symbol s)) :
    (g.withoutResolvers.symbol s).alts = (g.symbol s).alts := by
  rw [symbol_withoutResolvers]
  refine List.filter_eq_self.2 fun p hp => ?_
  have hp' : ¬ g.Removed p := not_removed fun h => hs (h.of_refers (.alternative hp))
  simpa using hp'

end Grammar

end PredictiveParser
