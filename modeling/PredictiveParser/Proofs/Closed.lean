import PredictiveParser.Proofs.Decision.Shape
import PredictiveParser.Proofs.Decision.Tests
import PredictiveParser.Proofs.Grammar.Written
import PredictiveParser.Proofs.Machine.Region
import PredictiveParser.Proofs.Termination

/-!
# Built tables are closed

Nodes refer to nodes, symbols and automata by number, and so do entries and automata. In built tables every such number is
that of a part of the tables, the edges of an automaton can be searched by bisection, and its links never lead back
(`Tables.Closed`). A parse therefore never asks for anything outside of the tables: a program that answers otherwise there
parses alike (`Tables.Closed.feed_eq`).
-/

namespace PredictiveParser

/-- The state only leads to nodes and states of the tables. -/
def DfaState.Within (T : Tables) : DfaState → Prop
  | .leaf p => p < T.nodes.size
  | .switch default? => ∀ p ∈ default?, p < T.nodes.size
  | .resolver n p otherwise => n < T.nodes.size ∧ p < T.nodes.size ∧
      Target.Confined (· < T.nodes.size) 0 T.dfas.size otherwise

namespace Tables

/-- Every number in the tables is that of a part of the tables, and the automata are in order. -/
structure Closed (T : Tables) : Prop where
  start : T.start < T.symbolNodes.size
  callbacks : T.callbacks.size = T.symbolNodes.size
  entries : ∀ {s t n : Nat}, T.entry s t = some n → n < T.nodes.size
  symbolNodes : ∀ n ∈ T.symbolNodes, n < T.nodes.size
  empty : ∀ n, some n ∈ T.empty → n < T.nodes.size
  parts : ∀ parts, Instruction.sequence parts ∈ T.nodes → ∀ n ∈ parts, n < T.nodes.size
  symbols : ∀ s, Instruction.symbol s ∈ T.nodes → s < T.symbolNodes.size
  decisions : ∀ d, Instruction.decision d ∈ T.nodes → d < T.dfas.size
  /-- Decisions fall on nodes, and edges and else branches lead to states. -/
  confined : ∀ n ∈ T.dfas, n.Confined (· < T.nodes.size) 0 T.dfas.size
  resolvers : ∀ {n : Nat} {priority : Int} {p : Nat} {otherwise : Option Target},
    DfaNode.resolver n priority p otherwise ∈ T.dfas → n < T.nodes.size
  increasing : ∀ n ∈ T.dfas, n.Increasing
  acyclic : ∀ d, ¬ Relation.TransGen T.Links d d

/-- The program answers every query that does not leave the tables as the tables do. -/
structure Answers (T : Tables) (P : Program) : Prop where
  instruction : ∀ n < T.nodes.size, P.instruction n = T.program.instruction n
  symbolNode : ∀ s < T.symbolNodes.size, P.symbolNode s = T.program.symbolNode s
  dfa : ∀ d < T.dfas.size, P.dfa d = T.program.dfa d
  transition : ∀ d < T.dfas.size, ∀ t, P.transition d t = T.program.transition d t
  dfaExpected : ∀ d < T.dfas.size, P.dfaExpected d = T.program.dfaExpected d
  callbacks : ∀ s < T.callbacks.size, P.callbacks s = T.program.callbacks s
  lookup : ∀ s < T.symbolNodes.size, ∀ t, P.lookup s t = T.program.lookup s t
  emptyProduction : ∀ s < T.symbolNodes.size, P.emptyProduction s = T.program.emptyProduction s
  expected : ∀ s < T.symbolNodes.size, P.expected s = T.program.expected s
  symbolName : P.symbolName = T.program.symbolName
  tokenName : P.tokenName = T.program.tokenName

variable {T : Tables}

theorem mem_nodes {n : Nat} {i : Instruction} (h : T.program.instruction n = i) (hi : i ≠ .epsilon) : i ∈ T.nodes := by
  change T.nodes[n]?.getD .epsilon = i at h
  cases hn : T.nodes[n]? with
  | none =>
    rw [hn] at h
    exact absurd h.symm hi
  | some j =>
    rw [hn] at h
    exact h ▸ Array.mem_of_getElem? hn

theorem mem_dfas {d : Nat} (hd : d < T.dfas.size) : ∃ n ∈ T.dfas, T.program.dfa d = n.state ∧
    ∀ t, T.program.transition d t = n.transitions.lookup t := by
  have hget : T.dfas[d]? = some T.dfas[d] := Array.getElem?_eq_getElem hd
  refine ⟨T.dfas[d], Array.getElem_mem hd, ?_, fun t => ?_⟩
  · simp [program, hget]
  · simp [program, transitions, hget]

namespace Closed

/-- A state of closed tables only leads to parts of them. -/
theorem within (hT : T.Closed) {d : Nat} (hd : d < T.dfas.size) : (T.program.dfa d).Within T := by
  obtain ⟨n, hn, hs, -⟩ := mem_dfas hd
  have hc := hT.confined n hn
  rw [hs]
  cases n with
  | leaf p => exact hc
  | switch edges default? => exact hc.2
  | resolver n priority p otherwise => exact ⟨hT.resolvers hn, hc⟩

/-- So do its transitions. -/
theorem lt_of_transition (hT : T.Closed) {d d' t : Nat} (hd : d < T.dfas.size) (ht : T.program.transition d t = some d') :
    d' < T.dfas.size := by
  obtain ⟨n, hn, -, htransition⟩ := mem_dfas hd
  have hc := hT.confined n hn
  rw [htransition] at ht
  obtain ⟨l₁, l₂, e, -⟩ := List.lookup_eq_some_iff.1 ht
  have hmem : (t, d') ∈ n.transitions := e ▸ List.mem_append_right _ List.mem_cons_self
  cases n with
  | leaf | resolver => exact absurd hmem List.not_mem_nil
  | switch edges default? => exact (hc.1 _ hmem).2

/-- Nothing leads out of closed tables. -/
def region (hT : T.Closed) : T.program.Region where
  node n := n < T.nodes.size
  state d := d < T.dfas.size
  symbol s := s < T.symbolNodes.size
  part _ hn hm := hT.parts _ (mem_nodes hn nofun) _ hm
  called _ hn := hT.symbols _ (mem_nodes hn nofun)
  predicted _ hp := hT.entries hp
  fallback := by
    intro s p _ hp
    exact hT.empty p (Array.mem_of_getElem? (Option.join_eq_some_iff.1 hp))
  decision _ hn := hT.decisions _ (mem_nodes hn nofun)
  leaf := by
    intro d p hd h
    have hw := hT.within hd
    rwa [h] at hw
  default := by
    intro d p hd h
    have hw := hT.within hd
    rw [h] at hw
    exact hw p rfl
  transition hd _ ht := hT.lt_of_transition hd ht
  resolver := by
    intro d n p otherwise hd h
    have hw := hT.within hd
    rw [h] at hw
    exact ⟨hw.1, hw.2.1⟩
  otherwiseState := by
    intro d d' n p hd h
    have hw := hT.within hd
    rw [h] at hw
    exact hw.2.2.2
  otherwiseNode := by
    intro d n p q hd h
    have hw := hT.within hd
    rw [h] at hw
    exact hw.2.2

theorem agrees (hT : T.Closed) {P : Program} (hP : T.Answers P) : hT.region.Agrees P where
  instruction hn := hP.instruction _ hn
  dfa hd := hP.dfa _ hd
  transition hd := hP.transition _ hd
  dfaExpected hd := hP.dfaExpected _ hd
  lookup hs := hP.lookup _ hs
  emptyProduction hs := hP.emptyProduction _ hs
  callbacks hs := hP.callbacks _ (hT.callbacks ▸ hs)
  expected hs := hP.expected _ hs
  symbolName := hP.symbolName
  tokenName := hP.tokenName

/-- Binary search finds the transitions of closed tables. -/
theorem bisect_eq_transition (hT : T.Closed) {d : Nat} (hd : d < T.dfas.size) (t : Nat) :
    bisect (T.transitions d).toArray t 0 (T.transitions d).length = T.program.transition d t := by
  have hmem : T.dfas[d] ∈ T.dfas := Array.getElem_mem hd
  have e : T.transitions d = T.dfas[d].transitions := by simp [transitions, Array.getElem?_eq_getElem hd]
  change _ = (T.transitions d).lookup t
  rw [e]
  exact bisect_eq_lookup (hT.increasing _ hmem) t

/-- **In closed tables a parse never asks for anything outside of them.** -/
theorem feed_eq (hT : T.Closed) {P : Program} (hP : T.Answers P) {σ τ : Type} [Terminal τ] {H : Machine.Host σ τ}
    {symbol : Nat} (hs : symbol < T.symbolNodes.size) {p : Machine.Parser σ τ} {past : List τ}
    (hp : p.Parses T.program H symbol past) (fuel : Nat) (t : τ) : p.feed P H fuel t = p.feed T.program H fuel t := by
  refine hp.feed_congr (hT.agrees hP) (hT.symbolNodes _ ?_)
  change T.symbolNodes[symbol]?.getD 0 ∈ T.symbolNodes
  rw [Array.getElem?_eq_getElem hs]
  exact Array.getElem_mem hs

end Closed

/-! ## Built tables -/

variable {g : Grammar} {limits : Limits}

/-- The nodes of the grammar are in the tables. -/
theorem number_lt_of_build (hb : g.build limits = .ok T) {n : Node} (hn : g.HasNode n) : g.number n < T.nodes.size := by
  obtain ⟨D, -, rfl⟩ := Grammar.build_eq_ok hb
  rw [size_nodes_tables]
  exact Nat.lt_of_lt_of_le (Grammar.number_lt hn) (Nat.le_add_right _ _)

theorem size_symbolNodes (hb : g.build limits = .ok T) : T.symbolNodes.size = g.symbolCount := by
  obtain ⟨D, -, rfl⟩ := Grammar.build_eq_ok hb
  simp [Grammar.tables]

/-- An instruction of the tables is that of a node of the grammar, or a decision. -/
theorem exists_of_mem_nodes (hb : g.build limits = .ok T) {i : Instruction} (hi : i ∈ T.nodes) :
    (∃ x, g.HasNode x ∧ i = g.instructionOf x) ∨ i = .epsilon ∨ ∃ n d, i = .decision d ∧ T.program.instruction n = i := by
  obtain ⟨n, hn⟩ := Array.mem_iff_getElem?.1 hi
  have e : T.program.instruction n = i := by
    change T.nodes[n]?.getD .epsilon = i
    rw [hn]
    rfl
  rcases instruction_cases hb n with ⟨x, hx, rfl⟩ | hepsilon | ⟨d, hd⟩
  · exact .inl ⟨x, hx, e.symm.trans (instruction_of_build hb hx)⟩
  · exact .inr (.inl (e.symm.trans hepsilon))
  · exact .inr (.inr ⟨n, d, e.symm.trans hd, e⟩)

theorem lt_of_decision {n d : Nat} (h : T.program.instruction n = .decision d) : n < T.nodes.size := by
  refine Nat.lt_of_not_le fun hle => ?_
  change T.nodes[n]?.getD .epsilon = .decision d at h
  rw [Array.getElem?_eq_none hle] at h
  cases h

/-- An automaton that stands in the tables has its beginning there. -/
theorem lt_of_standAt {start : Nat} {nodes : List DfaNode} (hat : StandAt T.dfas start nodes) (hlen : 0 < nodes.length) :
    start < T.dfas.size :=
  (Array.getElem?_eq_some_iff.1 (hat 0 nodes[0] (List.getElem?_eq_getElem hlen))).1

end Tables

/-- The number is that of an alternative of the symbol that competes for the token. -/
def Grammar.Competes (g : Grammar) (s t n : Nat) : Prop :=
  ∃ p ∈ (g.symbol s).alts, (g.selection g.analyze s p).mem t = true ∧ n = g.number p

namespace Tables

variable {T : Tables} {g : Grammar} {limits : Limits}

/-- The candidates of a conflict compete for its token. -/
theorem competes_of_candidate {s t n : Nat} {conflict : Conflict}
    (hcell : (PredictionTable.fill g g.analyze).cell s t = .conflict conflict)
    (hn : (g.problem limits conflict).Candidate n) :
    g.Competes s t n := by
  obtain ⟨p, hp, rfl⟩ := hn
  obtain ⟨halt, hsel⟩ := (PredictionTable.mem_conflict hcell).1 hp
  exact ⟨p, halt, hsel, rfl⟩

/-- **A decision that a cell predicts only falls on alternatives that compete for the cell.** -/
theorem competes_of_decides (hg : g.WellFormed) (hb : g.build limits = .ok T) {s t n d p : Nat} (hl : T.entry s t = some n)
    (hn : T.program.instruction n = .decision d) (hp : T.program.Decides d p) : g.Competes s t p := by
  rcases automaton_of_lookup hb hl with ⟨x, hx, rfl⟩ | ⟨conflict, d', nodes, asked, hcell, hn', hr, hat, hlen⟩
  · rw [instruction_of_build hb (hg.hasNode_alt hx)] at hn
    exact absurd hn (Grammar.instructionOf_ne_decision x d)
  · cases hn'.symm.trans hn
    have hconf := Decision.confined_of_resolve Decision.faithful_problem hr
    exact competes_of_candidate hcell (of_decides hat hconf hp ⟨Nat.le_refl _, hlen⟩)

/-- **Every node of the automata, whether a decision comes to it or not, decides for alternatives that compete for some cell.** -/
theorem confined_of_build (hb : g.build limits = .ok T) {d : Nat} {n : DfaNode} (hn : T.dfas[d]? = some n) :
    ∃ s t, n.Confined (g.Competes s t) 0 T.dfas.size := by
  obtain ⟨hd, -⟩ := Array.getElem?_eq_some_iff.1 hn
  obtain ⟨s, t, conflict, start, nodes, asked, hcell, hr, hat, hrange⟩ := automaton_of_build hb hd
  have hmem : n ∈ nodes := List.mem_of_getElem? ((hat.getElem? hrange).symm.trans hn)
  have hlast := hat (nodes.length - 1) nodes[nodes.length - 1] (List.getElem?_eq_getElem (by omega))
  have hsize := (Array.getElem?_eq_some_iff.1 hlast).1
  have hconf := Decision.confined_of_resolve Decision.faithful_problem hr n hmem
  have hwide : n.Confined _ 0 T.dfas.size := hconf.mono (Nat.zero_le start) (by omega)
  exact ⟨s, t, hwide.imp fun p hp => competes_of_candidate hcell hp⟩

/-- Every state of the automata was emitted for a conflict. -/
theorem emitted_of_build (hb : g.build limits = .ok T) {d : Nat} (hd : d < T.dfas.size) :
    ∃ (Q : Decision.Problem) (start : Nat), StandAt T.dfas start (Q.emit Q.limit start Q.root none).2 ∧
      start ≤ d ∧ d < start + (Q.emit Q.limit start Q.root none).2.length := by
  obtain ⟨s, t, conflict, start, nodes, asked, -, hr, hat, hrange⟩ := automaton_of_build hb hd
  obtain rfl := (Decision.candidate_of_resolve Decision.faithful_problem hr).2 nodes rfl
  exact ⟨_, start, hat, hrange⟩

theorem increasing_of_build (hb : g.build limits = .ok T) {d : Nat} {n : DfaNode} (hn : T.dfas[d]? = some n) :
    n.Increasing := by
  obtain ⟨hd, -⟩ := Array.getElem?_eq_some_iff.1 hn
  obtain ⟨Q, start, hat, hrange⟩ := emitted_of_build hb hd
  obtain ⟨i, rfl⟩ := Nat.exists_eq_add_of_le hrange.1
  have hi : i < (Q.emit Q.limit start Q.root none).2.length := by omega
  have hsame := hat i _ (List.getElem?_eq_getElem hi)
  rw [hn] at hsame
  rw [Option.some.inj hsame]
  exact Decision.increasing_emit _ _ _ _ _ (List.getElem_mem hi)

/-- The links from a state on come to an end. -/
theorem ends_of_build (hb : g.build limits = .ok T) (d : Nat) : T.Ends d := by
  rcases Nat.lt_or_ge d T.dfas.size with hd | hd
  · obtain ⟨Q, start, hat, hrange⟩ := emitted_of_build hb hd
    obtain ⟨i, rfl⟩ := Nat.exists_eq_add_of_le hrange.1
    exact (Decision.ends_emit hat).1 i (by omega)
  · refine .intro d fun d' hd' => ?_
    obtain ⟨n, hn, -⟩ := hd'
    exact absurd (Array.getElem?_eq_some_iff.1 hn).1 (Nat.not_lt_of_le hd)

/-- **Every number in built tables is that of a part of the tables, and the automata are in order.** -/
theorem closed_of_wellFormed (hg : g.WellFormed) (hb : g.build limits = .ok T) : T.Closed where
  start := by
    rw [size_symbolNodes hb]
    obtain ⟨D, -, rfl⟩ := Grammar.build_eq_ok hb
    exact hg.start
  callbacks := by
    rw [size_symbolNodes hb]
    obtain ⟨D, -, rfl⟩ := Grammar.build_eq_ok hb
    simp [Grammar.tables, Grammar.symbolCount]
  entries := by
    intro s t n hl
    rcases automaton_of_lookup hb hl with ⟨p, hp, rfl⟩ | ⟨-, d, -, -, -, hd, -⟩
    · exact number_lt_of_build hb (hg.hasNode_alt hp)
    · exact lt_of_decision hd
  symbolNodes := by
    intro n hn
    obtain ⟨s, hs, rfl⟩ := Array.getElem_of_mem hn
    have hlt : s < g.symbolCount := size_symbolNodes hb ▸ hs
    have e := symbolNode_of_build hb hlt
    change T.symbolNodes[s]?.getD 0 = _ at e
    rw [Array.getElem?_eq_getElem hs] at e
    rw [show T.symbolNodes[s] = g.number (Item.symbol s) from e]
    exact number_lt_of_build hb hlt
  empty := by
    intro n hn
    obtain ⟨s, hs⟩ := Array.mem_iff_getElem?.1 hn
    obtain ⟨p, hp, rfl⟩ := alternative_of_empty hb (s := s) (Option.join_eq_some_iff.2 hs)
    exact number_lt_of_build hb (hg.hasNode_alt hp)
  parts := by
    intro parts hparts n hn
    rcases exists_of_mem_nodes hb hparts with ⟨x, hx, e⟩ | e | ⟨-, d, e, -⟩
    · obtain ⟨q, rfl, rfl⟩ := Grammar.eq_sequence_of_instructionOf e.symm
      obtain ⟨i, hi, rfl⟩ := List.mem_map.1 hn
      exact number_lt_of_build hb (n := .item i) (hg.hasItem_items hx hi)
    · cases e
    · cases e
  symbols := by
    intro s hs
    rw [size_symbolNodes hb]
    rcases exists_of_mem_nodes hb hs with ⟨x, hx, e⟩ | e | ⟨-, d, e, -⟩
    · rw [Grammar.eq_item_of_instructionOf (.symbol _) e.symm] at hx
      exact hx
    · cases e
    · cases e
  decisions := by
    intro d hd
    rcases exists_of_mem_nodes hb hd with ⟨x, -, e⟩ | e | ⟨n, d', e, hn⟩
    · exact absurd e.symm (Grammar.instructionOf_ne_decision x d)
    · cases e
    · obtain ⟨s, t, conflict, nodes, asked, hcell, -, hr, hat⟩ := conflict_of_decision hb hn
      exact lt_of_standAt hat (length_pos_of_resolve hcell hr)
  confined := by
    intro n hn
    obtain ⟨d, hd⟩ := Array.mem_iff_getElem?.1 hn
    obtain ⟨s, t, hconf⟩ := confined_of_build hb hd
    refine hconf.imp fun p hp => ?_
    obtain ⟨x, hx, -, rfl⟩ := hp
    exact number_lt_of_build hb (hg.hasNode_alt hx)
  resolvers := by
    intro n priority p otherwise hn
    obtain ⟨d, hd⟩ := Array.mem_iff_getElem?.1 hn
    obtain ⟨⟨s, r, hr, rfl⟩, -⟩ := tests_of_build hb hd
    exact number_lt_of_build hb (hg.hasNode_resolver hr)
  increasing := by
    intro n hn
    obtain ⟨d, hd⟩ := Array.mem_iff_getElem?.1 hn
    exact increasing_of_build hb hd
  acyclic d := not_transGen_of_acc (ends_of_build hb d)

end Tables

/-! ## Grammars written down step by step -/

namespace Draft

/-- The grammar `S → a b`, `S → a c`, written down step by step. -/
def forked : Draft :=
  [Call.token "a", .token "b", .token "c", .symbol "S", .seq [Item.token 2, Item.token 3], .seq [Item.token 2, Item.token 4],
    .alt (Item.symbol 0) (.sequence 0), .alt (Item.symbol 0) (.sequence 1), .start (Item.symbol 0)].foldl Call.apply {}

theorem written_forked : forked.Written :=
  Written.empty.foldl (by decide +kernel)

end Draft

namespace Tables

/-- **Built tables are closed.** However a grammar is written down, every number in its tables is that of a part of the
tables, bisection finds the transitions, decisions only fall on alternatives that compete for the cell that predicts them, and
every state of the automata decides for alternatives of some cell. So no parse asks for anything outside of the tables. -/
theorem closed_of_build {d : Draft} {g : Grammar} {limits : Limits} {T : Tables} (hd : d.Written) (hg : d.finish = .ok g)
    (hb : g.build limits = .ok T) : T.Closed ∧
      (∀ d < T.dfas.size, ∀ t,
        bisect (T.transitions d).toArray t 0 (T.transitions d).length = T.program.transition d t) ∧
      (∀ s t n d p, T.entry s t = some n → T.program.instruction n = .decision d → T.program.Decides d p →
        g.Competes s t p) ∧
      (∀ (d : Nat) (n : DfaNode), T.dfas[d]? = some n → ∃ s t, n.Confined (g.Competes s t) 0 T.dfas.size) ∧
      ∀ P, T.Answers P → ∀ {σ τ : Type} [Terminal τ] (H : Machine.Host σ τ), ∀ symbol < T.symbolNodes.size,
        (∀ buildTree (p : Machine.Parser σ τ), p.start P symbol buildTree = p.start T.program symbol buildTree) ∧
        ∀ (p : Machine.Parser σ τ) (past : List τ), p.Parses T.program H symbol past → ∀ (fuel : Nat) (t : τ),
          p.feed P H fuel t = p.feed T.program H fuel t := by
  have hwf := hd.wellFormed hg
  have hT := closed_of_wellFormed hwf hb
  refine ⟨hT, fun d hd t => hT.bisect_eq_transition hd t, ?_, fun d n hn => confined_of_build hb hn, ?_⟩
  · intro s t n d p hl hn hp
    exact competes_of_decides hwf hb hl hn hp
  · intro P hP σ τ _ H symbol hsymbol
    refine ⟨fun buildTree p => ?_, fun p past hp fuel t => hT.feed_eq hP hsymbol hp fuel t⟩
    unfold Machine.Parser.start
    rw [hP.symbolNode symbol hsymbol]

/-- On an `a` the tables of the grammar with the alternatives `a b` and `a c` predict a decision, between these alternatives. -/
theorem forked_closed : ∃ g T, Draft.forked.finish = .ok g ∧ g.build = .ok T ∧ T.Closed ∧ ∃ n d,
    T.entry 0 2 = some n ∧ T.program.instruction n = .decision d ∧ d < T.dfas.size ∧
      (∃ p q, p ≠ q ∧ T.program.Decides d p ∧ T.program.Decides d q) ∧ ∀ p, T.program.Decides d p → g.Competes 0 2 p := by
  have h : Draft.forked.finish.toOption.any fun g => g.build.toOption.any fun T => T.entry 0 2 = some 9 ∧
      T.program.instruction 9 = .decision 0 ∧ T.dfas.size = 4 ∧ T.program.dfa 0 = .switch none ∧
      T.program.transition 0 2 = some 1 ∧ T.program.dfa 1 = .switch none ∧ T.program.transition 1 3 = some 2 ∧
      T.program.transition 1 4 = some 3 ∧ T.program.dfa 2 = .leaf 7 ∧ T.program.dfa 3 = .leaf 8 := by
    decide +kernel
  obtain ⟨g, hg, h⟩ := exists_of_any_toOption h
  obtain ⟨T, hb, h⟩ := exists_of_any_toOption h
  obtain ⟨hentry, hn, hsize, h₀, h₀₁, h₁, h₁₂, h₁₃, h₂, h₃⟩ := of_decide_eq_true h
  obtain ⟨hT, -, hcompetes, -, -⟩ := closed_of_build Draft.written_forked hg hb
  exact ⟨g, T, hg, hb, hT, 9, 0, hentry, hn, hsize ▸ Nat.zero_lt_succ _,
    ⟨7, 8, by decide, .transition h₀ h₀₁ (.transition h₁ h₁₂ (.leaf h₂)), .transition h₀ h₀₁ (.transition h₁ h₁₃ (.leaf h₃))⟩,
    fun p hp => hcompetes 0 2 9 0 p hentry hn hp⟩

end Tables

end PredictiveParser
