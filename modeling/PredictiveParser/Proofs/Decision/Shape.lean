import PredictiveParser.Proofs.Decision.Reading

/-!
# The shape of lookahead automata

The edges of every state are in increasing order of their tokens, because the search tries the tokens in that order
(`increasing_emit`); so a binary search finds the same edges as a search from the front (`bisect_eq_lookup`). A state is only
linked to states that were emitted for later tokens or for the rest of its tests, so the links never lead back
(`ends_emit`).
-/

namespace PredictiveParser

/-! ## Edges in order -/

/-- The edges of the node are in increasing order of their tokens. -/
def DfaNode.Increasing (n : DfaNode) : Prop :=
  (n.transitions.map (·.1)).Pairwise (· < ·)

/-- Binary search for the edge of a token among the edges from `lo` up to `hi`. -/
def bisect (edges : Array (Nat × Nat)) (t lo hi : Nat) : Option Nat :=
  if lo < hi then
    let mid := lo + (hi - lo) / 2
    match edges[mid]? with
    | none => none
    | some (u, d) => if u = t then some d else if u < t then bisect edges t (mid + 1) hi else bisect edges t lo mid
  else none
termination_by hi - lo

/-- An edge of a token is the only one. -/
theorem lookup_eq_some_of_increasing {edges : List (Nat × Nat)} (h : (edges.map (·.1)).Pairwise (· < ·)) {t d : Nat}
    (he : (t, d) ∈ edges) : edges.lookup t = some d := by
  obtain ⟨l₁, l₂, rfl⟩ := List.append_of_mem he
  refine List.lookup_eq_some_iff.2 ⟨l₁, l₂, rfl, fun e hmem => ?_⟩
  rw [List.map_append, List.map_cons, List.pairwise_append] at h
  have hlt := h.2.2 e.1 (List.mem_map_of_mem hmem) t List.mem_cons_self
  exact bne_iff_ne.2 (Nat.ne_of_gt hlt)

/-- **Binary search finds exactly the edges.** -/
theorem bisect_eq_lookup {edges : List (Nat × Nat)} (h : (edges.map (·.1)).Pairwise (· < ·)) (t : Nat) :
    bisect edges.toArray t 0 edges.length = edges.lookup t := by
  have hlt : ∀ {i j : Nat} {e e' : Nat × Nat}, edges[i]? = some e → edges[j]? = some e' → e.1 < e'.1 → i < j := by
    intro i j e e' hi hj hee
    obtain ⟨hilt, rfl⟩ := List.getElem?_eq_some_iff.1 hi
    obtain ⟨hjlt, rfl⟩ := List.getElem?_eq_some_iff.1 hj
    refine Nat.lt_of_not_le fun hle => ?_
    rcases Nat.lt_or_eq_of_le hle with hji | rfl
    · have hpair := List.pairwise_map.1 h
      exact Nat.lt_asymm hee (List.pairwise_iff_getElem.1 hpair j i hjlt hilt hji)
    · exact Nat.lt_irrefl _ hee
  -- the window holds every edge of the token
  suffices ∀ lo hi, hi ≤ edges.length → (∀ i d, edges[i]? = some (t, d) → lo ≤ i ∧ i < hi) →
      bisect edges.toArray t lo hi = edges.lookup t from
    this 0 edges.length (Nat.le_refl _) fun i d hi => ⟨Nat.zero_le i, (List.getElem?_eq_some_iff.1 hi).1⟩
  intro lo hi hle hwindow
  fun_induction bisect edges.toArray t lo hi with
  | case1 lo hi hlohi mid hmid =>
    rw [List.getElem?_toArray, List.getElem?_eq_none_iff] at hmid
    omega
  | case2 lo hi hlohi mid d hmid =>
    rw [List.getElem?_toArray] at hmid
    exact (lookup_eq_some_of_increasing h (List.mem_of_getElem? hmid)).symm
  | case3 lo hi hlohi mid u d hmid hne hut ih =>
    rw [List.getElem?_toArray] at hmid
    exact ih hle fun i d' hi => ⟨hlt hmid hi hut, (hwindow i d' hi).2⟩
  | case4 lo hi hlohi mid u d hmid hne hut ih =>
    rw [List.getElem?_toArray] at hmid
    refine ih (by omega) fun i d' hi => ⟨(hwindow i d' hi).1, hlt hi hmid ?_⟩
    show t < u
    omega
  | case5 lo hi hlohi =>
    refine (List.lookup_eq_none_iff.2 fun e he => ?_).symm
    obtain ⟨i, hi, rfl⟩ := List.getElem_of_mem he
    by_contra hnot
    have htoken : edges[i].1 = t := (bne_eq_false_iff_eq.1 (Bool.eq_false_iff.2 hnot)).symm
    have := hwindow i edges[i].2 (by rw [List.getElem?_eq_getElem hi, ← htoken])
    omega

namespace Decision

variable {Q : Problem} {T : Tables}

theorem emission_increasing : Emission Q (fun _ _ => True) (fun _ block => ∀ n ∈ block.2, n.Increasing)
    (fun _ row => ∀ n ∈ row.2, n.Increasing) where
  next _ _ := trivial
  nothing _ := List.forall_mem_nil _
  leaf _ _ := List.forall_mem_nil _
  switch _ hedges hbelow := List.forall_mem_cons.2 ⟨hedges, hbelow⟩
  test _ _ h := List.forall_mem_append.2 ⟨h, List.forall_mem_singleton.2 .nil⟩
  nil _ := List.forall_mem_nil _
  edge token _ block h := by
    obtain ⟨_ | (d | p), nodes⟩ := block
    · exact h
    · exact h
    · exact List.forall_mem_append.2 ⟨h, List.forall_mem_singleton.2 .nil⟩
  append h h' := List.forall_mem_append.2 ⟨h, h'⟩

/-- **The edges of emitted nodes are in increasing order.** -/
theorem increasing_emit (k start : Nat) (s : State) (inherited : Option Node) :
    ∀ n ∈ (Q.emit k start s inherited).2, n.Increasing :=
  emission_increasing.emit k start trivial

end Decision

/-! ## Links -/

/-- The states that the node is linked to, by an edge or by the else branch of a test. -/
def DfaNode.links : DfaNode → List Nat
  | .leaf _ => []
  | .switch edges _ => edges.map (·.2)
  | .resolver _ _ _ (some (.dfa d)) => [d]
  | .resolver _ _ _ _ => []

/-- The state `d` of the automata is linked to the state `d'`. -/
def Tables.Links (T : Tables) (d d' : Nat) : Prop :=
  ∃ n, T.dfas[d]? = some n ∧ d' ∈ n.links

/-- The links from the state on come to an end. -/
def Tables.Ends (T : Tables) (d : Nat) : Prop :=
  Acc (fun d' d => T.Links d d') d

theorem Tables.Ends.of_node {T : Tables} {d : Nat} {n : DfaNode} (hn : T.dfas[d]? = some n)
    (h : ∀ d' ∈ n.links, T.Ends d') : T.Ends d := by
  refine .intro d fun d' hd' => ?_
  obtain ⟨n', hn', hmem⟩ := hd'
  cases hn.symm.trans hn'
  exact h d' hmem

namespace Decision

variable {Q : Problem} {T : Tables}

/-- The links from the nodes, which stand from `start` on, and from the target come to an end. -/
def BlockEnds (T : Tables) (start : Nat) (block : Option Target × List DfaNode) : Prop :=
  (∀ i < block.2.length, T.Ends (start + i)) ∧ ∀ d, block.1 = some (.dfa d) → T.Ends d

theorem ends_append {start n : Nat} {nodes : List DfaNode} (h : ∀ i < nodes.length, T.Ends (start + i))
    (h' : ∀ i < n, T.Ends (start + nodes.length + i)) : ∀ i < nodes.length + n, T.Ends (start + i) := by
  intro i hi
  rcases Nat.lt_or_ge i nodes.length with hlt | hge
  · exact h i hlt
  · obtain ⟨j, rfl⟩ := Nat.exists_eq_add_of_le hge
    rw [← Nat.add_assoc]
    exact h' j (by omega)

/-- One more node behind the others. -/
theorem ends_concat {start : Nat} {nodes : List DfaNode} (h : ∀ i < nodes.length, T.Ends (start + i))
    (h' : T.Ends (start + nodes.length)) (n : DfaNode) : ∀ i < (nodes ++ [n]).length, T.Ends (start + i) := by
  rw [List.length_append]
  refine ends_append h fun i hi => ?_
  rw [List.length_singleton, Nat.lt_one_iff] at hi
  subst hi
  exact h'

/-- The links from the edges and from the nodes, which stand from `start` on, come to an end. -/
def EdgesEnd (T : Tables) (start : Nat) (row : List (Nat × Nat) × List DfaNode) : Prop :=
  (∀ i < row.2.length, T.Ends (start + i)) ∧ ∀ e ∈ row.1, T.Ends e.2

/-- The links from a switch come to an end if those from below it do. -/
theorem ends_switch {start : Nat} {edges : List (Nat × Nat)} {default? : Option Nat} {nodes : List DfaNode}
    (hat : StandAt T.dfas start (.switch edges default? :: nodes))
    (h : EdgesEnd T (start + 1) (edges, nodes)) :
    BlockEnds T start (some (.dfa start), .switch edges default? :: nodes) := by
  have hswitch : T.Ends start := by
    refine .of_node (hat 0 _ rfl) fun d hd => ?_
    obtain ⟨e, he, rfl⟩ := List.mem_map.1 hd
    exact h.2 e he
  refine ⟨fun i hi => ?_, fun d hd => by cases hd; exact hswitch⟩
  cases i with
  | zero => exact hswitch
  | succ i =>
    rw [Nat.add_comm i 1, ← Nat.add_assoc]
    exact h.1 i (Nat.lt_of_succ_lt_succ hi)

/-- The links from a test come to an end if those from the decision behind it do. -/
theorem ends_test {start m p : Nat} {priority : Int} {target : Option Target} {nodes : List DfaNode}
    (hat : StandAt T.dfas start (nodes ++ [.resolver m priority p target])) (h : BlockEnds T start (target, nodes)) :
    BlockEnds T start (some (.dfa (start + nodes.length)), nodes ++ [.resolver m priority p target]) := by
  have hends : T.Ends (start + nodes.length) := by
    refine .of_node ((standAt_append hat).2 0 _ rfl) fun d hd => ?_
    rcases target with _ | (d' | p)
    · exact absurd hd List.not_mem_nil
    · rw [List.mem_singleton.1 hd]
      exact h.2 d' rfl
    · exact absurd hd List.not_mem_nil
  exact ⟨ends_concat h.1 hends _, fun d hd => by cases hd; exact hends⟩

/-- An edge leads to where the decision of the state begins, or to a leaf. -/
theorem ends_edge {token start : Nat} {block : Option Target × List DfaNode}
    (hat : StandAt T.dfas start (edgeTo token start block).2) (h : BlockEnds T start block) :
    EdgesEnd T start (edgeTo token start block) := by
  obtain ⟨_ | (d | p), nodes⟩ := block
  · exact ⟨h.1, List.forall_mem_nil _⟩
  · exact ⟨h.1, List.forall_mem_singleton.2 (h.2 d rfl)⟩
  · have hleaf : T.Ends (start + nodes.length) :=
      .of_node (n := .leaf p) ((standAt_append hat).2 0 _ rfl) (List.forall_mem_nil _)
    exact ⟨ends_concat h.1 hleaf _, List.forall_mem_singleton.2 hleaf⟩

theorem emission_ends (T : Tables) : Emission Q (fun _ _ => True)
    (fun start block => StandAt T.dfas start block.2 → BlockEnds T start block)
    (fun start row => StandAt T.dfas start row.2 → EdgesEnd T start row) where
  next _ _ := trivial
  nothing _ _ := ⟨fun i hi => absurd hi (Nat.not_lt_zero i), nofun⟩
  leaf _ _ _ := ⟨fun i hi => absurd hi (Nat.not_lt_zero i), nofun⟩
  switch _ _ hbelow hat := ends_switch hat (hbelow (standAt_append (List.singleton_append ▸ hat)).2)
  test _ _ h hat := ends_test hat (h (standAt_append hat).1)
  nil _ _ := ⟨fun i hi => absurd hi (Nat.not_lt_zero i), List.forall_mem_nil _⟩
  edge token _ _ h hat := ends_edge hat (h (standAt_of_edgeTo hat))
  append h h' hat := by
    obtain ⟨hat, hat'⟩ := standAt_append hat
    obtain ⟨hnodes, hedges⟩ := h hat
    obtain ⟨hnodes', hedges'⟩ := h' hat'
    refine ⟨?_, List.forall_mem_append.2 ⟨hedges, hedges'⟩⟩
    rw [List.length_append]
    exact ends_append hnodes hnodes'

/-- **The links from emitted nodes come to an end.** -/
theorem ends_emit {k start : Nat} {s : State} {inherited : Option Node}
    (hat : StandAt T.dfas start (Q.emit k start s inherited).2) : BlockEnds T start (Q.emit k start s inherited) :=
  (emission_ends T).emit k start trivial hat

end Decision

end PredictiveParser
