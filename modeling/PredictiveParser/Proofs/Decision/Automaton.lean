import PredictiveParser.Proofs.Decision.State
import PredictiveParser.Proofs.Tables

/-!
# What lookahead automata decide for

What holds of emitted nodes is proved once for each way in which nodes come together: those of a state with an edge to it,
those of several states, the switch in front of them and the tests in front of that (`Emission.emit`). The nodes of an
automaton only lead to one another, and only decide for candidates (`confined_emit`). So whatever a decision comes to that
begins in the automaton is the number of a candidate (`Program.Decides`, `Tables.of_decides`).
-/

namespace PredictiveParser

/-! ## Decisions of a program -/

/-- A decision in the automaton state `d` can fall on the production `p`, whatever the tokens are and the resolvers say. -/
inductive Program.Decides (P : Program) : (d p : Nat) → Prop
  | leaf {d p : Nat} : P.dfa d = .leaf p → P.Decides d p
  | transition {d d' t p : Nat} {default? : Option Nat} : P.dfa d = .switch default? → P.transition d t = some d' →
      P.Decides d' p → P.Decides d p
  | default {d p : Nat} : P.dfa d = .switch (some p) → P.Decides d p
  | accept {d n p : Nat} {otherwise : Option Target} : P.dfa d = .resolver n p otherwise → P.Decides d p
  | node {d n q p : Nat} : P.dfa d = .resolver n q (some (.node p)) → P.Decides d p
  | otherwise {d d' n q p : Nat} : P.dfa d = .resolver n q (some (.dfa d')) → P.Decides d' p → P.Decides d p

/-- The target is one of the states from `lo` up to `hi`, or a production with the property `A`. -/
def Target.Confined (A : Nat → Prop) (lo hi : Nat) : Option Target → Prop
  | none => True
  | some (.node p) => A p
  | some (.dfa d) => lo ≤ d ∧ d < hi

/-- The node only leads to states from `lo` up to `hi`, and only decides for productions with the property `A`. -/
def DfaNode.Confined (A : Nat → Prop) (lo hi : Nat) : DfaNode → Prop
  | .leaf p => A p
  | .switch edges default? => (∀ e ∈ edges, lo ≤ e.2 ∧ e.2 < hi) ∧ ∀ p ∈ default?, A p
  | .resolver _ _ p otherwise => A p ∧ Target.Confined A lo hi otherwise

theorem Target.Confined.mono {A : Nat → Prop} {lo hi lo' hi' : Nat} {target : Option Target}
    (h : Target.Confined A lo hi target) (hlo : lo' ≤ lo) (hhi : hi ≤ hi') : Target.Confined A lo' hi' target := by
  match target, h with
  | none, _ => trivial
  | some (.node p), h => exact h
  | some (.dfa d), h => exact ⟨Nat.le_trans hlo h.1, Nat.lt_of_lt_of_le h.2 hhi⟩

theorem DfaNode.Confined.mono {A : Nat → Prop} {lo hi lo' hi' : Nat} {n : DfaNode} (h : n.Confined A lo hi)
    (hlo : lo' ≤ lo) (hhi : hi ≤ hi') : n.Confined A lo' hi' := by
  cases n with
  | leaf p => exact h
  | switch edges default? =>
    exact ⟨fun e he => ⟨Nat.le_trans hlo (h.1 e he).1, Nat.lt_of_lt_of_le (h.1 e he).2 hhi⟩, h.2⟩
  | resolver m priority p otherwise => exact ⟨h.1, h.2.mono hlo hhi⟩

theorem Target.Confined.imp {A B : Nat → Prop} {lo hi : Nat} {target : Option Target} (hAB : ∀ p, A p → B p)
    (h : Target.Confined A lo hi target) : Target.Confined B lo hi target := by
  match target, h with
  | none, _ => trivial
  | some (.node p), h => exact hAB p h
  | some (.dfa d), h => exact h

theorem DfaNode.Confined.imp {A B : Nat → Prop} {lo hi : Nat} {n : DfaNode} (hAB : ∀ p, A p → B p)
    (h : n.Confined A lo hi) : n.Confined B lo hi := by
  cases n with
  | leaf p => exact hAB p h
  | switch edges default? => exact ⟨h.1, fun p hp => hAB p (h.2 p hp)⟩
  | resolver m priority p otherwise => exact ⟨hAB p h.1, h.2.imp hAB⟩

/-- The states of an automaton that stands in the tables are its nodes. -/
theorem Tables.exists_node {T : Tables} {start : Nat} {nodes : List DfaNode} (hat : StandAt T.dfas start nodes) {d : Nat}
    (hd : start ≤ d ∧ d < start + nodes.length) : ∃ n, nodes[d - start]? = some n ∧ T.program.dfa d = n.state ∧
      ∀ t d', T.program.transition d t = some d' → ∃ e ∈ n.transitions, e.2 = d' := by
  have hlt : d - start < nodes.length := by omega
  have he := hat.getElem? hd
  rw [List.getElem?_eq_getElem hlt] at he
  refine ⟨_, List.getElem?_eq_getElem hlt, by simp [Tables.program, he], fun t d' ht => ?_⟩
  simp only [Tables.program, Tables.transitions, he, Option.map_some, Option.getD_some] at ht
  obtain ⟨l₁, l₂, e, -⟩ := List.lookup_eq_some_iff.1 ht
  exact ⟨(t, d'), by rw [e]; simp, rfl⟩

/-- The state only leads to states from `lo` up to `hi`, and only decides for productions with the property `A`. -/
structure Program.ConfinedAt (P : Program) (A : Nat → Prop) (lo hi d : Nat) : Prop where
  leaf : ∀ {p}, P.dfa d = .leaf p → A p
  transition : ∀ {default? t d'}, P.dfa d = .switch default? → P.transition d t = some d' → lo ≤ d' ∧ d' < hi
  default : ∀ {p}, P.dfa d = .switch (some p) → A p
  resolver : ∀ {n p otherwise}, P.dfa d = .resolver n p otherwise → A p ∧ Target.Confined A lo hi otherwise

theorem Tables.confinedAt {T : Tables} {A : Nat → Prop} {start : Nat} {nodes : List DfaNode}
    (hat : StandAt T.dfas start nodes) (hn : ∀ n ∈ nodes, n.Confined A start (start + nodes.length)) {d : Nat}
    (hd : start ≤ d ∧ d < start + nodes.length) : T.program.ConfinedAt A start (start + nodes.length) d := by
  obtain ⟨n, hget, hs, htransition⟩ := exists_node hat hd
  have hc := hn n (List.mem_of_getElem? hget)
  constructor <;> rw [hs]
  · rintro p h
    cases n <;> cases h
    exact hc
  · rintro default? t d' h ht
    obtain ⟨e, he, rfl⟩ := htransition _ _ ht
    cases n <;> cases h
    exact hc.1 e he
  · rintro p h
    cases n <;> cases h
    exact hc.2 _ rfl
  · rintro m p otherwise h
    cases n <;> cases h
    exact hc

/-- **A decision among confined nodes falls on a production with the property.** -/
theorem Tables.of_decides {T : Tables} {A : Nat → Prop} {start : Nat} {nodes : List DfaNode}
    (hat : StandAt T.dfas start nodes) (hn : ∀ n ∈ nodes, n.Confined A start (start + nodes.length)) {d p : Nat}
    (h : T.program.Decides d p) (hd : start ≤ d ∧ d < start + nodes.length) : A p := by
  induction h with
  | leaf h => exact (confinedAt hat hn hd).leaf h
  | transition h ht _ ih => exact ih ((confinedAt hat hn hd).transition h ht)
  | default h => exact (confinedAt hat hn hd).default h
  | accept h => exact ((confinedAt hat hn hd).resolver h).1
  | node h => exact ((confinedAt hat hn hd).resolver h).2
  | otherwise h _ ih => exact ih ((confinedAt hat hn hd).resolver h).2

namespace Decision

variable {Q : Problem}

/-! ## Emitted nodes -/

/-- The edge to a state that is emitted from `start` on, and its nodes; a state that decides at once gets a leaf. -/
def edgeTo (token start : Nat) : Option Target × List DfaNode → List (Nat × Nat) × List DfaNode
  | (none, nodes) => ([], nodes)
  | (some (.dfa d), nodes) => ([(token, d)], nodes)
  | (some (.node p), nodes) => ([(token, start + nodes.length)], nodes ++ [.leaf p])

theorem emitEdges_cons (emit : Nat → State → Option Target × List DfaNode) (start : Nat) (c : State) (cs : List State) :
    emitEdges emit start (c :: cs) =
      ((edgeTo c.token start (emit start c)).1 ++
          (emitEdges emit (start + (edgeTo c.token start (emit start c)).2.length) cs).1,
        (edgeTo c.token start (emit start c)).2 ++
          (emitEdges emit (start + (edgeTo c.token start (emit start c)).2.length) cs).2) := by
  rw [emitEdges]
  generalize emit start c = block
  rcases block with ⟨_ | (d | p), nodes⟩ <;> rfl

/-- The edges to some states have their tokens. -/
theorem edges_sublist (emit : Nat → State → Option Target × List DfaNode) (start : Nat) (cs : List State) :
    ((emitEdges emit start cs).1.map (·.1)).Sublist (cs.map State.token) := by
  induction cs generalizing start with
  | nil => exact .refl _
  | cons c cs ih =>
    rw [emitEdges_cons, List.map_append, List.map_cons]
    have hedge : ((edgeTo c.token start (emit start c)).1.map (·.1)).Sublist [c.token] := by
      rcases emit start c with ⟨_ | (d | p), nodes⟩
      · exact List.nil_sublist _
      · exact .refl _
      · exact .refl _
    exact hedge.append (ih _)

/-- The nodes that are emitted for a state, one level after the other. -/
def below (Q : Problem) : (k : Nat) → State → Option Node → (start : Nat) → List (Nat × Nat) × List DfaNode
  | 0, _, _, _ => ([], [])
  | k + 1, s, inherited, start =>
    match Q.children s with
    | .ok cs => emitEdges (fun start c => Q.emit k start c inherited) start cs
    | .error _ => ([], [])

/-- The nodes of a state, whatever is emitted below it. -/
theorem emit_eq (k start : Nat) (s : State) (inherited : Option Node) : Q.emit k start s inherited =
    emitState Q.grammar (fun start inherited => below Q k s inherited start) start s inherited := by
  cases k <;> rfl

/-- The edges to the states below are in the order of their tokens. -/
theorem pairwise_below (k start : Nat) (s : State) (inherited : Option Node) :
    ((below Q k s inherited start).1.map (·.1)).Pairwise (· < ·) := by
  cases k with
  | zero => exact .nil
  | succ k =>
    rw [below]
    cases hcs : Q.children s with
    | error e => exact .nil
    | ok cs => exact (pairwise_tokens hcs).sublist (edges_sublist _ _ cs)

/-- Properties that are kept when nodes are emitted: `I` of the states, with the default that they inherit, `B` of the nodes
of one state, with their target, and `R` of the nodes of several states, with the edges to them. Nodes are numbered from some
number on. -/
structure Emission (Q : Problem) (I : State → Option Node → Prop) (B : Nat → Option Target × List DfaNode → Prop)
    (R : Nat → List (Nat × Nat) × List DfaNode → Prop) : Prop where
  next {s n : State} {inherited : Option Node} : I s inherited → Q.Next s n → I n (s.default? <|> inherited)
  nothing (start : Nat) : B start (none, [])
  leaf {start : Nat} {s : State} {inherited : Option Node} {p : Node} : I s inherited → s.verdict = .leaf p →
    B start (some (.node (Q.grammar.number p)), [])
  switch {start : Nat} {s : State} {inherited : Option Node} {edges : List (Nat × Nat)} {nodes : List DfaNode} :
    I s inherited → (edges.map (·.1)).Pairwise (· < ·) → R (start + 1) (edges, nodes) →
    B start (some (.dfa start), .switch edges ((s.default? <|> inherited).map Q.grammar.number) :: nodes)
  /-- One more test in front of the decision. -/
  test {start : Nat} {s : State} {inherited : Option Node} {l : Link} {target : Option Target} {nodes : List DfaNode} :
    I s inherited → l ∈ s.reversedChain → B start (target, nodes) →
    B start (some (.dfa (start + nodes.length)), nodes ++
      [.resolver (Q.grammar.number l.resolver.node) l.resolver.priority (Q.grammar.number l.production) target])
  nil (start : Nat) : R start ([], [])
  edge (token : Nat) {start : Nat} {block : Option Target × List DfaNode} : B start block →
    R start (edgeTo token start block)
  append {start : Nat} {edges edges' : List (Nat × Nat)} {nodes nodes' : List DfaNode} : R start (edges, nodes) →
    R (start + nodes.length) (edges', nodes') → R start (edges ++ edges', nodes ++ nodes')

namespace Emission

variable {I : State → Option Node → Prop} {B : Nat → Option Target × List DfaNode → Prop}
  {R : Nat → List (Nat × Nat) × List DfaNode → Prop} {s : State} {inherited : Option Node} {start : Nat}

theorem tests (h : Emission Q I B R) (hs : I s inherited) {tests : List Link} (ht : ∀ l ∈ tests, l ∈ s.reversedChain)
    {target : Option Target} {nodes : List DfaNode} (hB : B start (target, nodes)) :
    B start (prependTests Q.grammar start tests target nodes) := by
  induction tests generalizing target nodes with
  | nil => exact hB
  | cons l ls ih =>
    rw [List.forall_mem_cons] at ht
    rw [prependTests]
    exact ih ht.2 (h.test hs ht.1 hB)

theorem edges (h : Emission Q I B R) {emit : Nat → State → Option Target × List DfaNode} {cs : List State}
    (hB : ∀ start, ∀ c ∈ cs, B start (emit start c)) : R start (emitEdges emit start cs) := by
  induction cs generalizing start with
  | nil => exact h.nil start
  | cons c cs ih =>
    rw [emitEdges_cons]
    have hedge := h.edge c.token (hB start c List.mem_cons_self)
    exact h.append hedge (ih fun start c hc => hB start c (List.mem_cons_of_mem _ hc))

theorem state (h : Emission Q I B R) (hs : I s inherited) {k : Nat}
    (hbelow : ∀ start, R start (below Q k s (s.default? <|> inherited) start)) : B start (Q.emit k start s inherited) := by
  rw [emit_eq, emitState]
  refine h.tests hs (fun _ => id) ?_
  cases hv : s.verdict with
  | leaf p => exact h.leaf hs hv
  | nothing => exact h.nothing start
  | undecided => exact h.switch hs (pairwise_below _ _ _ _) (hbelow (start + 1))

/-- **What is kept when nodes are emitted holds of the nodes of every state.** -/
theorem emit (h : Emission Q I B R) (k start : Nat) (hs : I s inherited) : B start (Q.emit k start s inherited) := by
  induction k generalizing start s inherited with
  | zero => exact h.state hs h.nil
  | succ k ih =>
    refine h.state hs fun start => ?_
    rw [below]
    cases hcs : Q.children s with
    | error e => exact h.nil start
    | ok cs => exact h.edges fun start c hc => ih start (h.next hs (next_of_mem_children hcs hc))

end Emission

/-! ## Nodes that lead to one another -/

/-- A target with nodes from `start` on that only lead to one another. -/
def Confined (A : Nat → Prop) (start : Nat) (block : Option Target × List DfaNode) : Prop :=
  Target.Confined A start (start + block.2.length) block.1 ∧
    ∀ n ∈ block.2, n.Confined A start (start + block.2.length)

/-- Edges with nodes from `start` on that only lead to one another. -/
def ConfinedEdges (A : Nat → Prop) (start : Nat) (row : List (Nat × Nat) × List DfaNode) : Prop :=
  (∀ e ∈ row.1, start ≤ e.2 ∧ e.2 < start + row.2.length) ∧ ∀ n ∈ row.2, n.Confined A start (start + row.2.length)

theorem Confined.edge {A : Nat → Prop} {start : Nat} {block : Option Target × List DfaNode} (h : Confined A start block)
    (token : Nat) : ConfinedEdges A start (edgeTo token start block) := by
  obtain ⟨target, nodes⟩ := block
  match target, h with
  | none, h => exact ⟨List.forall_mem_nil _, h.2⟩
  | some (.dfa d), h => exact ⟨fun e he => by rw [List.mem_singleton.1 he]; exact h.1, h.2⟩
  | some (.node p), h =>
    refine ⟨fun e he => by rw [List.mem_singleton.1 he]; simp [edgeTo], List.forall_mem_append.2 ⟨fun n hn => ?_, ?_⟩⟩
    · exact (h.2 n hn).mono (Nat.le_refl _) (by simp [edgeTo])
    · exact List.forall_mem_singleton.2 h.1

theorem ConfinedEdges.append {A : Nat → Prop} {start : Nat} {edges edges' : List (Nat × Nat)} {nodes nodes' : List DfaNode}
    (h : ConfinedEdges A start (edges, nodes)) (h' : ConfinedEdges A (start + nodes.length) (edges', nodes')) :
    ConfinedEdges A start (edges ++ edges', nodes ++ nodes') := by
  obtain ⟨hedges, hnodes⟩ := h
  obtain ⟨hedges', hnodes'⟩ := h'
  dsimp only at hedges hnodes hedges' hnodes'
  unfold ConfinedEdges
  rw [List.length_append]
  refine ⟨List.forall_mem_append.2 ⟨fun e he => ?_, fun e he => ?_⟩, List.forall_mem_append.2 ⟨fun n hn => ?_, fun n hn => ?_⟩⟩
  · have := hedges e he
    omega
  · have := hedges' e he
    omega
  · exact (hnodes n hn).mono (Nat.le_refl _) (by omega)
  · exact (hnodes' n hn).mono (by omega) (by omega)

/-- The tests of a state are those that its threads wait for. -/
theorem State.exists_redirect {s : State} {l : Link} (hl : l ∈ s.reversedChain) :
    ∃ r ∈ s.redirected, l = ⟨r.resolver, r.production⟩ := by
  have hfold : ∀ (rs : List Redirect) (chain : List Link), ∀ l ∈ rs.foldl addLink chain,
      l ∈ chain ∨ ∃ r ∈ rs, l = ⟨r.resolver, r.production⟩ := by
    intro rs
    induction rs with
    | nil => exact fun chain l hl => .inl hl
    | cons r rs ih =>
      intro chain l hl
      rcases ih _ l hl with hl | ⟨r', hr', e⟩
      · unfold addLink at hl
        dsimp only at hl
        split at hl
        · exact .inl hl
        · rcases List.mem_cons.1 hl with e | hl
          · exact .inr ⟨r, List.mem_cons_self, e⟩
          · exact .inl hl
      · exact .inr ⟨r', List.mem_cons_of_mem _ hr', e⟩
  have hchain : l ∈ (s.redirected.mergeSort Redirect.before).foldl addLink [] := by
    unfold State.reversedChain at hl
    dsimp only at hl
    split at hl
    · exact (List.dropWhile_sublist _).subset hl
    · exact hl
  rcases hfold _ _ l hchain with hl | ⟨r, hr, e⟩
  · exact absurd hl List.not_mem_nil
  · exact ⟨r, List.mem_mergeSort.1 hr, e⟩

/-- The tests of a state are for candidates. -/
theorem State.Traced.mem_reversedChain {s : State} (hs : s.Traced Q) {l : Link} (hl : l ∈ s.reversedChain) :
    l.production ∈ Q.conflict.candidates := by
  obtain ⟨r, hr, rfl⟩ := State.exists_redirect hl
  exact hs.redirected r hr

theorem State.Traced.mem_default {s : State} (hs : s.Traced Q) {p : Node} (hp : s.default? = some p) :
    p ∈ Q.conflict.candidates := by
  obtain ⟨t, ht, rfl⟩ := Option.map_eq_some_iff.1 hp
  rcases List.mem_append.1 (List.mem_of_mem_head? ht) with ht | ht
  · exact (hs.exhausted t ht).1
  · exact (hs.completed t ht).1

theorem State.Traced.mem_verdict {s : State} (hs : s.Traced Q) {p : Node} (hp : s.verdict = .leaf p) :
    p ∈ Q.conflict.candidates := by
  cases hd : s.deciding with
  | nil => rw [verdict, hd] at hp; cases hp
  | cons t ts =>
    have ht : t ∈ s.deciding := hd ▸ List.mem_cons_self
    rw [← State.production_eq_of_verdict hp ht]
    rcases List.mem_append.1 ht with ht | ht
    · rcases List.mem_append.1 ht with ht | ht
      · exact (hs.exhausted t ht).1
      · exact (hs.completed t ht).1
    · exact (hs.active t ht).1

/-- What is inherited below a state is a candidate. -/
theorem State.Traced.mem_inherited {s : State} (hs : s.Traced Q) {inherited : Option Node}
    (hi : ∀ p, inherited = some p → p ∈ Q.conflict.candidates) :
    ∀ p, (s.default? <|> inherited) = some p → p ∈ Q.conflict.candidates := by
  intro p hp
  cases hd : s.default? with
  | none =>
    rw [hd] at hp
    exact hi p hp
  | some q =>
    rw [hd] at hp
    cases hp
    exact hs.mem_default hd

/-- The number is that of a candidate. -/
def Problem.Candidate (Q : Problem) (n : Nat) : Prop :=
  ∃ p ∈ Q.conflict.candidates, n = Q.grammar.number p

theorem emission_confined (hQ : Q.Faithful) :
    Emission Q (fun s inherited => s.Traced Q ∧ ∀ p, inherited = some p → p ∈ Q.conflict.candidates) (Confined Q.Candidate)
      (ConfinedEdges Q.Candidate) where
  next hs hn := by
    obtain ⟨a, -, hsucc⟩ := hn
    exact ⟨hs.1.successor hQ hsucc, hs.1.mem_inherited hs.2⟩
  nothing _ := ⟨trivial, List.forall_mem_nil _⟩
  leaf hs hv := ⟨⟨_, hs.1.mem_verdict hv, rfl⟩, List.forall_mem_nil _⟩
  switch {start _ _ _ nodes} hs _ hbelow := by
    obtain ⟨hedges, hnodes⟩ := hbelow
    dsimp only at hedges hnodes
    refine ⟨⟨Nat.le_refl _, by simp⟩, ?_⟩
    rw [List.length_cons]
    refine List.forall_mem_cons.2 ⟨⟨fun e he => ?_, fun n hn => ?_⟩, fun n hn => ?_⟩
    · have := hedges e he
      omega
    · obtain ⟨p, hp, rfl⟩ := Option.map_eq_some_iff.1 hn
      exact ⟨p, hs.1.mem_inherited hs.2 p hp, rfl⟩
    · exact (hnodes n hn).mono (by omega) (by omega)
  test hs hl h := by
    refine ⟨⟨by omega, by simp⟩, List.forall_mem_append.2 ⟨fun n hn => ?_, List.forall_mem_singleton.2 ⟨?_, ?_⟩⟩⟩
    · exact (h.2 n hn).mono (Nat.le_refl _) (by simp)
    · exact ⟨_, hs.1.mem_reversedChain hl, rfl⟩
    · exact h.1.mono (Nat.le_refl _) (by simp)
  nil _ := ⟨List.forall_mem_nil _, List.forall_mem_nil _⟩
  edge token _ _ h := h.edge token
  append h h' := h.append h'

/-- **The nodes that are emitted for a state only lead to one another and decide for candidates.** -/
theorem confined_emit (hQ : Q.Faithful) (k start : Nat) {s : State} {inherited : Option Node} (hs : s.Traced Q)
    (hi : ∀ p, inherited = some p → p ∈ Q.conflict.candidates) :
    Confined Q.Candidate start (Q.emit k start s inherited) :=
  (emission_confined hQ).emit k start ⟨hs, hi⟩

/-! ## The nodes of a conflict -/

/-- Without threads that wait for a resolver there are no tests. -/
theorem State.reversedChain_of_redirected {s : State} (h : s.redirected = []) : s.reversedChain = [] := by
  unfold reversedChain
  rw [h]
  split <;> simp

/-- An undecided state without tests becomes a switch. -/
theorem emit_undecided (k start : Nat) {s : State} (inherited : Option Node) (hs : s.isUndecided = true)
    (hr : s.redirected = []) : Q.emit k start s inherited =
      (some (.dfa start), .switch (below Q k s (s.default? <|> inherited) (start + 1)).1
        ((s.default? <|> inherited).map Q.grammar.number) :: (below Q k s (s.default? <|> inherited) (start + 1)).2) := by
  have hv : s.verdict = .undecided := beq_iff_eq.1 hs
  rw [emit_eq, emitState, State.reversedChain_of_redirected hr, hv]
  rfl

/-- A state without tests that has decided needs no nodes. -/
theorem emit_leaf (k start : Nat) {s : State} (inherited : Option Node) {p : Node} (hs : s.verdict = .leaf p)
    (hr : s.redirected = []) : Q.emit k start s inherited = (some (.node (Q.grammar.number p)), []) := by
  rw [emit_eq, emitState, State.reversedChain_of_redirected hr, hs]
  rfl

/-- What the decision of a conflict goes through. -/
theorem resolve_eq_ok_iff {start : Nat} {resolution : Resolution} {asked : List Nat} :
    Q.resolve start = .ok (resolution, asked) ↔
      ∃ states, Q.reached = .ok states ∧ Q.decide start states = .ok resolution ∧ Problem.asked states = asked := by
  unfold Problem.resolve
  rw [bind_eq_ok_iff]
  refine exists_congr fun states => and_congr_right fun _ => ?_
  rw [bind_eq_ok_iff]
  constructor
  · rintro ⟨r, hr, h⟩
    cases h
    exact ⟨hr, rfl⟩
  · rintro ⟨hr, rfl⟩
    exact ⟨_, hr, rfl⟩

/-- The decision of a conflict has seen every state that it can come to. -/
theorem decided_of_resolve {start : Nat} {resolution : Resolution} {asked : List Nat}
    (h : Q.resolve start = .ok (resolution, asked)) : Decided Q Q.limit Q.root := by
  obtain ⟨states, hreach, -⟩ := resolve_eq_ok_iff.1 h
  exact decided_of_survey hreach _ (List.mem_singleton_self _)

/-- **A conflict is decided for a candidate.** -/
theorem candidate_of_resolve (hQ : Q.Faithful) {start : Nat} {resolution : Resolution} {asked : List Nat}
    (h : Q.resolve start = .ok (resolution, asked)) :
    (∀ p, resolution = .production p → p ∈ Q.conflict.candidates) ∧
      ∀ nodes, resolution = .automaton nodes → nodes = (Q.emit Q.limit start Q.root none).2 := by
  obtain ⟨states, hreach, hd, -⟩ := resolve_eq_ok_iff.1 h
  have htraced := State.traced_of_survey hQ hreach fun s hs => List.mem_singleton.1 hs ▸ State.traced_root Q
  unfold Problem.decide at hd
  cases states with
  | nil => cases hd
  | cons s states =>
    dsimp only at hd
    split at hd
    · next p hv _ =>
      cases hd
      refine ⟨fun p' e => ?_, fun nodes e => nomatch e⟩
      cases e
      exact (htraced s List.mem_cons_self).mem_verdict hv
    · cases hd
      exact ⟨fun p' e => (nomatch e), fun nodes e => by cases e; rfl⟩

/-- The nodes of the automaton of a conflict only lead to one another and decide for candidates. -/
theorem confined_of_resolve (hQ : Q.Faithful) {start : Nat} {nodes : List DfaNode} {asked : List Nat}
    (h : Q.resolve start = .ok (.automaton nodes, asked)) :
    ∀ n ∈ nodes, n.Confined Q.Candidate start (start + nodes.length) := by
  have hconf : Confined Q.Candidate start (Q.emit Q.limit start Q.root none) :=
    confined_emit hQ Q.limit start (State.traced_root Q) fun _ e => absurd e (Option.some_ne_none _).symm
  rw [(candidate_of_resolve hQ h).2 nodes rfl]
  exact hconf.2

end Decision

namespace Tables

variable {g : Grammar} {limits : Limits} {T : Tables}

/-- The automaton of a conflict is not empty. -/
theorem length_pos_of_resolve {s t start : Nat} {conflict : Conflict} {nodes : List DfaNode} {asked : List Nat}
    (hcell : (PredictionTable.fill g g.analyze).cell s t = .conflict conflict)
    (hr : (g.problem limits conflict).resolve start = .ok (.automaton nodes, asked)) : 0 < nodes.length := by
  let Q := g.problem limits conflict
  rw [(Decision.candidate_of_resolve (Q := Q) Decision.faithful_problem hr).2 nodes rfl,
    Decision.emit_undecided (Q := Q) Q.limit start none (Decision.isUndecided_root (Q := Q) hcell) rfl]
  exact Nat.succ_pos _

/-- What tables predict for a symbol is one of its alternatives, or a decision in the automaton of a conflict. -/
theorem automaton_of_lookup (hb : g.build limits = .ok T) {s t n : Nat} (h : T.program.lookup s t = some n) :
    (∃ p ∈ (g.symbol s).alts, n = g.number p) ∨ ∃ conflict d nodes asked,
      (PredictionTable.fill g g.analyze).cell s t = .conflict conflict ∧ T.program.instruction n = .decision d ∧
      (g.problem limits conflict).resolve d = .ok (.automaton nodes, asked) ∧
        StandAt T.dfas d nodes ∧ d < d + nodes.length := by
  obtain ⟨hs, ht⟩ := lt_of_lookup hb h
  have hpred := predicts_of_build hb hs ht
  have halts : ∀ p ∈ ((PredictionTable.fill g g.analyze).cell s t).candidates, p ∈ (g.symbol s).alts := fun p hp =>
    PredictionTable.mem_alts_of_mem_candidates hp
  change T.entry s t = some n at h
  cases hcell : (PredictionTable.fill g g.analyze).cell s t with
  | empty =>
    rw [hcell, Predicts, h] at hpred
    cases hpred
  | production p =>
    rw [hcell, Predicts, h] at hpred
    rw [hcell] at halts
    exact .inl ⟨p, halts p (List.mem_singleton_self p), Option.some.inj hpred⟩
  | conflict conflict =>
    rw [hcell] at hpred halts
    obtain ⟨start, resolution, asked, hr, hpred⟩ := hpred
    let Q := g.problem limits conflict
    obtain ⟨hprod, hnodes⟩ := Decision.candidate_of_resolve (Q := Q) Decision.faithful_problem hr
    cases resolution with
    | production b =>
      rw [PredictsResolution, h] at hpred
      exact .inl ⟨b, halts b (hprod b rfl), Option.some.inj hpred⟩
    | automaton nodes =>
      obtain ⟨n', hn', hdecision, hat⟩ := hpred
      cases h.symm.trans hn'
      refine .inr ⟨conflict, start, nodes, asked, rfl, hdecision, hr, hat, ?_⟩
      exact Nat.lt_add_of_pos_right (length_pos_of_resolve hcell hr)

/-- **What tables predict for a symbol is one of its alternatives, or a decision between its alternatives.** -/
theorem alternative_of_lookup (hb : g.build limits = .ok T) {s t n : Nat} (h : T.program.lookup s t = some n) :
    (∃ p ∈ (g.symbol s).alts, n = g.number p) ∨
      ∃ d, T.program.instruction n = .decision d ∧
        ∀ m, T.program.Decides d m → ∃ p ∈ (g.symbol s).alts, m = g.number p := by
  rcases automaton_of_lookup hb h with hp | ⟨conflict, d, nodes, asked, hcell, hdecision, hr, hat, hlen⟩
  · exact .inl hp
  · refine .inr ⟨d, hdecision, fun m hm => ?_⟩
    have hconf := Decision.confined_of_resolve Decision.faithful_problem hr
    obtain ⟨p, hp, e⟩ := of_decides hat hconf hm ⟨Nat.le_refl _, hlen⟩
    exact ⟨p, ((PredictionTable.mem_conflict hcell).1 hp).1, e⟩

end Tables

end PredictiveParser
