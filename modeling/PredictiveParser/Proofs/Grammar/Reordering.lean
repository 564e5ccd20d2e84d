import PredictiveParser.Proofs.Analysis.Closure
import PredictiveParser.Proofs.Prediction

/-!
# The order of alternatives

Grammars that only differ in the order of the alternatives of their symbols (`Grammar.Reordered`) have the same facts,
since the facts are the least closed ones (`Reordered.analyze`). The same alternatives compete for a token, in another
order, so that their prediction tables have the same cells up to the order of candidates (`Reordered.cell`).
-/

namespace PredictiveParser

namespace Grammar

/-- The symbols of `g'` have the alternatives of those of `g`, possibly in another order, and nothing else differs. -/
structure Reordered (g g' : Grammar) : Prop where
  rest : g' = { g with symbols := g'.symbols }
  size : g'.symbols.size = g.symbols.size
  symbol : ∀ s, g'.symbol s = { g.symbol s with alts := (g'.symbol s).alts }
  alts : ∀ s, (g'.symbol s).alts.Perm (g.symbol s).alts

/-- Every grammar can be reordered. -/
theorem reordered_map (g : Grammar) {f : List Node → List Node} (hf : ∀ ps, (f ps).Perm ps) :
    g.Reordered { g with symbols := g.symbols.map fun x => { x with alts := f x.alts } } := by
  have hsymbol : ∀ s, symbol { g with symbols := g.symbols.map fun x => { x with alts := f x.alts } } s =
      { g.symbol s with alts := f (g.symbol s).alts } := fun s => by
    simp only [symbol, Array.getElem?_map]
    cases g.symbols[s]? with
    | none => simp [(hf []).eq_nil]
    | some x => rfl
  refine ⟨rfl, Array.size_map .., fun s => ?_, fun s => ?_⟩
  · rw [hsymbol s]
  · rw [hsymbol s]
    exact hf _

namespace Reordered

variable {g g' : Grammar}

theorem symm (h : g.Reordered g') : g'.Reordered g := by
  obtain ⟨hrest, hsize, hsymbol, halts⟩ := h
  refine ⟨?_, hsize.symm, fun s => ?_, fun s => (halts s).symm⟩
  · rw [hrest]
  · rw [hsymbol s]

/-! ## Parts -/

variable (h : g.Reordered g')

include h

theorem sameParts : g.SameParts g' where
  tokens := by rw [h.rest]
  symbols := h.size
  sequences := by rw [h.rest]
  actions := by rw [h.rest]
  arguments := by rw [h.rest]
  beacons := by rw [h.rest]

theorem tokenCount : g'.tokenCount = g.tokenCount :=
  h.sameParts.tokenCount

theorem symbolCount : g'.symbolCount = g.symbolCount :=
  h.size

theorem nodeCount : g'.nodeCount = g.nodeCount :=
  h.sameParts.nodeCount

theorem sequences : g'.sequences = g.sequences := by
  rw [h.rest]

theorem items (n : Node) : g'.items n = g.items n := by
  cases n with
  | epsilon => rfl
  | item i => rfl
  | sequence q => rw [Grammar.items, Grammar.items, sequence, sequence, h.sequences]

theorem number : g'.number = g.number :=
  h.sameParts.number

theorem nodes : g'.nodes = g.nodes :=
  h.sameParts.nodes

theorem hasItem (i : Item) : g'.HasItem i ↔ g.HasItem i :=
  h.sameParts.hasItem i

theorem hasNode (n : Node) : g'.HasNode n ↔ g.HasNode n :=
  h.sameParts.hasNode n

theorem mem_alts {s : Nat} {p : Node} : p ∈ (g'.symbol s).alts ↔ p ∈ (g.symbol s).alts :=
  (h.alts s).mem_iff

theorem resolver (s : Nat) : (g'.symbol s).resolver = (g.symbol s).resolver := by
  rw [h.symbol s]

theorem resolvers (hres : ∀ x ∈ g.symbols, x.resolver = none) : ∀ x ∈ g'.symbols, x.resolver = none := by
  intro x hx
  obtain ⟨s, rfl⟩ := exists_symbol hx
  rw [h.resolver, resolver_symbol hres]

theorem wellFormed (hg : g.WellFormed) : g'.WellFormed := by
  refine ⟨h.tokenCount ▸ hg.reserved, ?_, fun x hx p hp => ?_, fun is his i hi => ?_, fun x hx r hr => ?_⟩
  · rw [h.symbolCount, h.rest]
    exact hg.start
  · obtain ⟨s, rfl⟩ := exists_symbol hx
    exact (h.hasNode p).2 (hg.hasNode_alt (h.mem_alts.1 hp))
  · exact (h.hasItem i).2 (hg.items is (h.sequences ▸ his) i hi)
  · obtain ⟨s, rfl⟩ := exists_symbol hx
    rw [h.resolver] at hr
    exact (h.hasNode r.node).2 (hg.hasNode_resolver hr)

/-! ## Facts -/

theorem of (F : Facts) (n : Node) : F.of g' n = F.of g n :=
  h.sameParts.of F n

/-- Facts that are closed are so whatever the order of the alternatives is. -/
theorem closed {F : Facts} (hF : F.Closed g) : F.Closed g' := by
  have hat : ∀ n, g'.HasNode n → F.ClosedAt g' n := fun n hn =>
    (hF.at ((h.hasNode n).1 hn)).congr (h.items n) (h.of F n) fun i _ => h.of F i
  refine ⟨fun t ht => ?_, fun i hi => ?_, fun n hn => (hat n hn).first, fun n hn => (hat n hn).nullable,
    fun s p hp => ?_, fun n hn => (hat n hn).behind, ?_⟩
  · rw [h.of]
    exact hF.token t (h.tokenCount ▸ ht)
  · rw [h.of]
    exact hF.silent i ((h.hasItem i).1 hi)
  · rw [h.of, h.of]
    exact hF.alternative s p (h.mem_alts.1 hp)
  · rw [h.of, show g'.start = g.start by rw [h.rest]]
    exact hF.start

/-- **The facts do not depend on the order of alternatives.** -/
theorem analyze (hg : g.WellFormed) : g'.analyze = g.analyze := by
  have hsize : g'.analyze.size = g.analyze.size := by rw [Facts.size_analyze, Facts.size_analyze, h.nodeCount]
  refine Facts.ext_atNumber hsize fun k hk => ?_
  rw [hsize, Facts.size_analyze] at hk
  obtain ⟨n, hn, rfl, -⟩ := nodeAt?_of_lt hk
  have hle := (h.closed hg.closed).analyze_below (h.wellFormed hg) n ((h.hasNode n).2 hn)
  have hge := (h.symm.closed (h.wellFormed hg).closed).analyze_below hg n hn
  rw [h.of, h.of] at hle
  exact hle.antisymm hge

end Reordered

end Grammar

/-! ## Cells -/

/-- The cells leave the same alternatives possible, possibly in another order. -/
inductive Cell.Reordered : Cell → Cell → Prop
  | empty : Reordered .empty .empty
  | production (p : Node) : Reordered (.production p) (.production p)
  | conflict (s t : Nat) {ps ps' : List Node} : ps'.Perm ps → Reordered (.conflict ⟨s, t, ps⟩) (.conflict ⟨s, t, ps'⟩)

theorem Cell.reordered_ofCandidates (s t : Nat) {ps ps' : List Node} (h : ps'.Perm ps) :
    (Cell.ofCandidates s t ps).Reordered (Cell.ofCandidates s t ps') := by
  match ps, ps', h with
  | [], ps', h =>
    obtain rfl := h.eq_nil
    exact .empty
  | [p], ps', h =>
    obtain rfl := List.perm_singleton.1 h
    exact .production p
  | p :: q :: ps, [], h => exact absurd h.length_eq nofun
  | p :: q :: ps, [_], h => exact absurd h.length_eq nofun
  | p :: q :: ps, p' :: q' :: ps', h => exact .conflict s t h

namespace Grammar.Reordered

variable {g g' : Grammar} (h : g.Reordered g') (F : Facts)

include h

theorem selection (s : Nat) (p : Node) : g'.selection F s p = g.selection F s p := by
  rw [Grammar.selection, Grammar.selection, h.of, h.of, h.tokenCount]

/-- The same alternatives compete for a token. -/
theorem competing (s t : Nat) : (competing (g'.selections F s) t).Perm (competing (g.selections F s) t) := by
  unfold PredictiveParser.competing
  refine (List.perm_ext_iff_of_nodup (nodup_eraseDups _) (nodup_eraseDups _)).2 fun p => ?_
  exact mem_competing.trans (Iff.trans (and_congr h.mem_alts (by rw [h.selection])) mem_competing.symm)

/-- **The cells are the same up to the order of candidates.** -/
theorem cell (s t : Nat) :
    ((PredictionTable.fill g F).cell s t).Reordered ((PredictionTable.fill g' F).cell s t) := by
  by_cases hs : s < g.symbolCount
  · by_cases ht : t < g.tokenCount
    · rw [PredictionTable.cell_fill hs ht, PredictionTable.cell_fill (h.symbolCount ▸ hs) (h.tokenCount ▸ ht)]
      exact Cell.reordered_ofCandidates s t (h.competing F s t)
    · have hs' : s < g'.symbolCount := h.symbolCount ▸ hs
      have ht' : ¬ t < g'.tokenCount := h.tokenCount ▸ ht
      simpa [PredictionTable.cell, PredictionTable.fill, PredictionTable.row, hs, hs', ht, ht'] using .empty
  · have hs' : ¬ s < g'.symbolCount := h.symbolCount ▸ hs
    simpa [PredictionTable.cell, PredictionTable.fill, hs, hs'] using .empty

end Grammar.Reordered

end PredictiveParser
