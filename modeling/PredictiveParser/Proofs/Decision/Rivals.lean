import PredictiveParser.Proofs.Decision.Automaton

/-!
# When a decision falls on the right candidate

A candidate that ends is only kept as a default while others go on, so a decision prefers the rival that goes on along the
tokens that come (`Grammar.Outlasts`). If no rival outlasts the match of a candidate, or if no default is ever left, then
the walk through the automaton falls on the candidate (`picks_of_carries`): as long as the match goes on the candidate is
carried along, and where it ends it is decided for, at once or with the next token.
-/

namespace PredictiveParser

/-! ## Walks through an automaton -/

/-- In the automaton state `d` the decision falls on the production `n` when the tokens `u` come. -/
inductive Program.Picks (P : Program) : (d : Nat) → (u : List Nat) → (n : Nat) → Prop
  | leaf {d n : Nat} {u : List Nat} : P.dfa d = .leaf n → P.Picks d u n
  | transition {d d' x n : Nat} {u : List Nat} {default? : Option Nat} : P.dfa d = .switch default? →
      P.transition d x = some d' → P.Picks d' u n → P.Picks d (x :: u) n
  | default {d x n : Nat} {u : List Nat} : P.dfa d = .switch (some n) → P.transition d x = none → P.Picks d (x :: u) n

namespace Tables

variable {T : Tables} {d : Nat} {n : DfaNode}

theorem dfa_program (h : T.dfas[d]? = some n) : T.program.dfa d = n.state := by
  simp [program, h]

theorem transition_program (h : T.dfas[d]? = some n) (x : Nat) :
    T.program.transition d x = n.transitions.lookup x := by
  simp [program, transitions, h]

end Tables

theorem standAt_append {dfas : Array DfaNode} {start : Nat} {ns ms : List DfaNode} (h : StandAt dfas start (ns ++ ms)) :
    StandAt dfas start ns ∧ StandAt dfas (start + ns.length) ms := by
  refine ⟨fun i n hn => h i n ?_, fun i m hm => ?_⟩
  · rw [List.getElem?_append_left (List.getElem?_eq_some_iff.1 hn).1, hn]
  · have := h (ns.length + i) m (by rw [List.getElem?_append_right (Nat.le_add_right _ _), Nat.add_sub_cancel_left, hm])
    rwa [← Nat.add_assoc] at this

/-- The default of a switch. -/
def DfaNode.default? : DfaNode → Option Nat
  | .switch _ default? => default?
  | _ => none

/-- On the tokens `u` the alternative `q` outlasts the match `c` of another: it goes on with one more token than are needed
to see that the match has ended; or it has a match itself that does not end with a token, and it takes one more token to
see that, or as many where a token ends `c`. -/
def Grammar.Outlasts (g : Grammar) (u : List Nat) (c : Forest Nat) (q : Node) : Prop :=
  (∃ js, g.Leads (g.items q) (u.take (c.span + 1)) js) ∨
    ∃ d, g.Grows (g.items q) d ∧ d.leaves <+: u ∧ d.endsWithToken = false ∧
      (d.span = c.span + 1 ∨ d.span = c.span ∧ c.endsWithToken = true)

namespace Decision

variable {Q : Problem}

/-! ## Tests and edges -/

/-- Tests stand behind the nodes of the decision that they are put in front of. -/
theorem exists_prependTests (g : Grammar) (start : Nat) (tests : List Link) (target : Option Target)
    (nodes : List DfaNode) : ∃ more, (prependTests g start tests target nodes).2 = nodes ++ more := by
  induction tests generalizing target nodes with
  | nil => exact ⟨[], (List.append_nil _).symm⟩
  | cons l ls ih =>
    rw [prependTests]
    obtain ⟨more, hmore⟩ := ih (some (.dfa (start + nodes.length))) (nodes ++
      [.resolver (g.number l.resolver.node) l.resolver.priority (g.number l.production) target])
    exact ⟨_, hmore.trans (List.append_assoc _ _ _)⟩

/-- The nodes of a state stand before a leaf that its edge may need. -/
theorem standAt_of_edgeTo {token start : Nat} {dfas : Array DfaNode} {block : Option Target × List DfaNode}
    (hat : StandAt dfas start (edgeTo token start block).2) : StandAt dfas start block.2 := by
  obtain ⟨_ | (d | p), nodes⟩ := block
  · exact hat
  · exact hat
  · exact (standAt_append hat).1

/-- The children of a state come with different tokens. -/
theorem nodup_tokens {s : State} {cs : List State} (h : Q.children s = .ok cs) : (cs.map State.token).Nodup :=
  (pairwise_tokens h).imp Nat.ne_of_lt

theorem lookup_edgeTo {token t start : Nat} {block : Option Target × List DfaNode} (h : t ≠ token) :
    (edgeTo token start block).1.lookup t = none := by
  have hne : (t == token) = false := beq_eq_false_iff_ne.2 h
  rcases block with ⟨_ | (d | p), nodes⟩
  · rfl
  · simp [edgeTo, hne]
  · simp [edgeTo, hne]

/-- No edge is labelled with a token that leads to no state. -/
theorem lookup_emitEdges_of_not_mem {emit : Nat → State → Option Target × List DfaNode} {cs : List State} {t : Nat}
    (h : t ∉ cs.map State.token) (start : Nat) : (emitEdges emit start cs).1.lookup t = none := by
  induction cs generalizing start with
  | nil => rfl
  | cons c cs ih =>
    rw [List.map_cons, List.mem_cons, not_or] at h
    rw [emitEdges_cons, List.lookup_append, lookup_edgeTo h.1, ih h.2]
    rfl

/-- The edge of a state leads to its nodes. -/
theorem lookup_emitEdges {emit : Nat → State → Option Target × List DfaNode} {cs : List State}
    (hnodup : (cs.map State.token).Nodup) {c : State} (hc : c ∈ cs) (dfas : Array DfaNode) (start : Nat)
    (hat : StandAt dfas start (emitEdges emit start cs).2) :
    ∃ start', StandAt dfas start' (edgeTo c.token start' (emit start' c)).2 ∧
      (emitEdges emit start cs).1.lookup c.token = (edgeTo c.token start' (emit start' c)).1.lookup c.token := by
  induction cs generalizing start with
  | nil => exact absurd hc List.not_mem_nil
  | cons c₀ cs ih =>
    rw [List.map_cons, List.nodup_cons] at hnodup
    rw [emitEdges_cons] at hat ⊢
    dsimp only at hat ⊢
    obtain ⟨hat₀, hat⟩ := standAt_append hat
    rw [List.lookup_append]
    rcases List.mem_cons.1 hc with rfl | hc
    · refine ⟨start, hat₀, ?_⟩
      rw [lookup_emitEdges_of_not_mem hnodup.1, Option.or_none]
    · obtain ⟨start', hat', hl⟩ := ih hnodup.2 hc _ hat
      have hne : c.token ≠ c₀.token := fun e => hnodup.1 (e ▸ List.mem_map_of_mem hc)
      exact ⟨start', hat', by rw [lookup_edgeTo hne, hl]; rfl⟩

/-! ## Where a candidate ends -/

namespace State

variable {s n : State} {p : Node}

theorem isDead_preferConcrete (h : s.isDead = false) : s.preferConcrete.isDead = false := by
  unfold preferConcrete
  split
  · exact h
  · next hcond =>
    rw [Bool.and_eq_true, not_and] at hcond
    by_cases he : s.exhausted.isEmpty = true
    · have hc := hcond he
      rw [List.all_eq_true, not_forall] at hc
      obtain ⟨t, hc⟩ := hc
      rw [Classical.not_imp] at hc
      obtain ⟨ht, hm⟩ := hc
      have hm' : t.matched = .concrete := by simpa using hm
      rcases List.mem_append.1 ht with ht | ht
      · have : (s.active.filter (·.matched != .wildcard)).isEmpty = false :=
          List.isEmpty_eq_false_iff.2 (List.ne_nil_of_mem (List.mem_filter.2 ⟨ht, by rw [hm']; rfl⟩))
        simp only [isDead, this, Bool.false_and]
      · have : (s.completed.filter (·.matched != .wildcard)).isEmpty = false :=
          List.isEmpty_eq_false_iff.2 (List.ne_nil_of_mem (List.mem_filter.2 ⟨ht, by rw [hm']; rfl⟩))
        simp only [isDead, this, Bool.and_false, Bool.false_and]
    · simp only [isDead, he, Bool.and_false]

theorem isDead_sortEnded (s : State) : s.sortEnded.isDead = s.isDead := by
  have h : ∀ (le : Thread → Thread → Bool) (ts : List Thread), (ts.mergeSort le).isEmpty = ts.isEmpty := fun le ts => by
    rw [Bool.eq_iff_iff, List.isEmpty_iff, List.isEmpty_iff, ← List.length_eq_zero_iff, List.length_mergeSort,
      List.length_eq_zero_iff]
  simp only [isDead, sortEnded, h]

/-- The state after one more token has a thread that counts. -/
theorem deciding_ne_nil (hQ : Plain Q) {a : Nat} (h : Q.successor s a = .ok (some n)) : n.deciding ≠ [] := by
  have hred := redirected_of_successor hQ.resolvers h
  have hdead : n.isDead = false := by
    obtain ⟨m, -, e⟩ := successor_eq_ok_iff.1 h
    split at e
    · cases e
    · next hd =>
      cases e
      rw [isDead_sortEnded]
      exact isDead_preferConcrete (by simpa using hd)
  intro hdec
  simp only [deciding, List.append_eq_nil_iff] at hdec
  obtain ⟨⟨h₁, h₂⟩, h₃⟩ := hdec
  rw [isDead, h₁, h₂, h₃, hred] at hdead
  cases hdead

/-- Where a candidate has ended in a state that is not stuck it is the default, unless another ended before it. -/
theorem default_of_ended {b : Bool} (hstuck : s.isStuck = false) (hund : s.isUndecided = true) (hp : s.Ended p b)
    (hearlier : b = true → ∀ t ∈ s.exhausted, t.production = p) : s.default? = some p := by
  have hsplit : disagree s.completed = false ∧ disagree s.exhausted = false := by
    rw [isStuck, hund, Bool.true_and, Bool.or_eq_false_iff, isSplit, Bool.or_eq_false_iff] at hstuck
    exact hstuck.2
  obtain ⟨t, ht, htp⟩ := hp
  unfold default?
  cases he : s.exhausted with
  | cons t₀ ts =>
    have ht₀ : t₀ ∈ s.exhausted := he ▸ List.mem_cons_self
    have : t₀.production = p := by
      cases b with
      | true => exact hearlier rfl t₀ ht₀
      | false => exact (production_of_not_disagree hsplit.2 ht₀ ht).trans htp
    simp [this]
  | nil =>
    cases b with
    | false =>
      have ht' : t ∈ s.exhausted := ht
      rw [he] at ht'
      exact absurd ht' List.not_mem_nil
    | true =>
      have ht' : t ∈ s.completed := ht
      cases hc : s.completed with
      | nil =>
        rw [hc] at ht'
        exact absurd ht' List.not_mem_nil
      | cons t₀ ts =>
        have : t₀.production = p :=
          (production_of_not_disagree hsplit.1 (hc ▸ List.mem_cons_self) ht').trans htp
        simp [this]

theorem default_ne_none_of_ended {b : Bool} (hp : s.Ended p b) : s.default? ≠ none := by
  obtain ⟨t, ht, -⟩ := hp
  rw [default?, Ne, Option.map_eq_none_iff, List.head?_eq_none_iff]
  refine List.ne_nil_of_mem (a := t) (List.mem_append.2 ?_)
  cases b with
  | true => exact .inr ht
  | false => exact .inl ht

end State

/-- No child of a state belongs to a token that no thread survives. -/
theorem token_notMem_of_visit {s : State} {a : Nat} {cs : List State} (hcs : Q.children s = .ok cs)
    (hvisit : Q.visit s a = .ok none) : a ∉ cs.map State.token := by
  intro ha
  obtain ⟨c, hc, e⟩ := List.mem_map.1 ha
  obtain ⟨b, -, hv⟩ := exists_visit_of_mem_children hcs hc
  have hb : b = a := (token_of_successor (visit_eq_ok_iff.1 hv).1).symm.trans e
  rw [hb, hvisit] at hv
  cases hv

/-! ## Decisions -/

section Walk

variable {T : Tables} {p : Node} {u : List Nat} {c : Forest Nat}

/-- Nothing can go wrong with the candidate `p` and its match `c` on the tokens `u`: no rival outlasts the match, or the
automata have no defaults. -/
def Prevails (Q : Problem) (T : Tables) (p : Node) (c : Forest Nat) (u : List Nat) : Prop :=
  (∀ q ∈ Q.conflict.candidates, q ≠ p → ¬ Q.grammar.Outlasts u c q) ∨ ∀ n ∈ T.dfas, n.default? = none

/-- The nodes of an undecided state begin with its switch. -/
theorem switch_of_standAt {k start : Nat} {s : State} {inherited : Option Node} (hund : s.isUndecided = true)
    (hat : StandAt T.dfas start (Q.emit k start s inherited).2) :
    T.dfas[start]? = some (.switch (below Q k s (s.default? <|> inherited) (start + 1)).1
      ((s.default? <|> inherited).map Q.grammar.number)) ∧
      StandAt T.dfas (start + 1) (below Q k s (s.default? <|> inherited) (start + 1)).2 := by
  rw [emit_eq, emitState, show s.verdict = .undecided from beq_iff_eq.1 hund] at hat
  obtain ⟨more, hmore⟩ := exists_prependTests Q.grammar start s.reversedChain _ _
  rw [hmore] at hat
  obtain ⟨hat, -⟩ := standAt_append hat
  refine ⟨hat 0 _ rfl, ?_⟩
  rw [← List.singleton_append] at hat
  exact (standAt_append hat).2

/-- The edge of the next token leads to the nodes of the state that the token leads to. -/
theorem edge_of_child {k start a : Nat} {s n : State} {cs : List State} {inherited : Option Node}
    (hund : s.isUndecided = true) (hcs : Q.children s = .ok cs) (hn : n ∈ cs) (ha : n.token = a)
    (hat : StandAt T.dfas start (Q.emit (k + 1) start s inherited).2) :
    ∃ default? start' inherited', T.program.dfa start = .switch default? ∧
      StandAt T.dfas start' (edgeTo a start' (Q.emit k start' n inherited')).2 ∧
      T.program.transition start a = (edgeTo a start' (Q.emit k start' n inherited')).1.lookup a := by
  obtain ⟨hswitch, hat'⟩ := switch_of_standAt hund hat
  simp only [below, hcs] at hswitch hat'
  obtain ⟨start', hblock, hl⟩ := lookup_emitEdges (nodup_tokens hcs) hn T.dfas _ hat'
  rw [ha] at hl hblock
  refine ⟨_, start', _, Tables.dfa_program hswitch, hblock, ?_⟩
  rw [Tables.transition_program hswitch]
  exact hl

/-- The walk goes on with the state that the next token leads to. -/
theorem picks_of_child {k start a m : Nat} {w : List Nat} {s n : State} {cs : List State} {inherited : Option Node}
    (hund : s.isUndecided = true) (hcs : Q.children s = .ok cs) (hn : n ∈ cs) (ha : n.token = a)
    (hat : StandAt T.dfas start (Q.emit (k + 1) start s inherited).2)
    (hpick : ∀ start' inherited', StandAt T.dfas start' (edgeTo a start' (Q.emit k start' n inherited')).2 →
      ∃ d, (edgeTo a start' (Q.emit k start' n inherited')).1.lookup a = some d ∧ T.program.Picks d w m) :
    T.program.Picks start (a :: w) m := by
  obtain ⟨default?, start', inherited', hswitch, hblock, hedge⟩ := edge_of_child hund hcs hn ha hat
  obtain ⟨d, hd, hp⟩ := hpick start' inherited' hblock
  exact .transition hswitch (hedge.trans hd) hp

/-- The edge to a state that has decided leads to a leaf. -/
theorem edge_of_leaf {k start a : Nat} {n : State} {inherited : Option Node} (hv : n.verdict = .leaf p)
    (hred : n.redirected = []) (hat : StandAt T.dfas start (edgeTo a start (Q.emit k start n inherited)).2) :
    (edgeTo a start (Q.emit k start n inherited)).1.lookup a = some start ∧
      T.program.dfa start = .leaf (Q.grammar.number p) := by
  rw [emit_leaf k start inherited hv hred] at hat ⊢
  refine ⟨by simp [edgeTo], ?_⟩
  exact Tables.dfa_program (n := .leaf (Q.grammar.number p)) (hat 0 _ rfl)

/-- The edge to an undecided state leads to the nodes of the state. -/
theorem edge_of_undecided {k start a : Nat} {n : State} {inherited : Option Node} (hund : n.isUndecided = true)
    (hred : n.redirected = []) (hat : StandAt T.dfas start (edgeTo a start (Q.emit k start n inherited)).2) :
    (edgeTo a start (Q.emit k start n inherited)).1.lookup a = some start ∧
      StandAt T.dfas start (Q.emit k start n inherited).2 := by
  rw [emit_undecided k start inherited hund hred] at hat ⊢
  exact ⟨by simp [edgeTo], hat⟩

/-- A state that has decided ends the walk. -/
theorem exists_picks_of_leaf {k start a : Nat} {w : List Nat} {n : State} {inherited : Option Node}
    (hv : n.verdict = .leaf p) (hred : n.redirected = [])
    (hat : StandAt T.dfas start (edgeTo a start (Q.emit k start n inherited)).2) :
    ∃ d, (edgeTo a start (Q.emit k start n inherited)).1.lookup a = some d ∧
      T.program.Picks d w (Q.grammar.number p) := by
  obtain ⟨hedge, hleaf⟩ := edge_of_leaf hv hred hat
  exact ⟨start, hedge, .leaf hleaf⟩

section

variable (hrivals : ∀ q ∈ Q.conflict.candidates, q ≠ p → ¬ Q.grammar.Outlasts u c q)

include hrivals

/-- A candidate whose match no rival outlasts is the default where the match ends. -/
theorem default_of_unrivalled {n : State} {w : List Nat} (htraced : n.Traced Q) (hund : n.isUndecided = true)
    (hstuck : n.isStuck = false) (hended : n.Ended p c.endsWithToken) (hpath : n.path.length = c.span)
    (hu : n.path.reverse ++ w = u) : n.default? = some p := by
  refine State.default_of_ended hstuck hund hended fun hend t ht => ?_
  obtain ⟨hmem, d, hd, hleaves, hlast⟩ := htraced.exhausted t ht
  by_contra hne
  refine hrivals _ hmem hne (.inr ⟨d, hd, ?_, hlast, .inr ⟨?_, hend⟩⟩)
  · rw [hleaves, ← hu, ← List.dropLast_reverse]
    exact (List.dropLast_prefix _).trans (List.prefix_append _ _)
  · have := c.span_pos
    rw [Forest.span, hlast, hleaves, List.length_reverse, List.length_tail, hpath]
    show c.span - 1 + 1 = c.span
    omega

/-- One token behind the match no thread of a rival is left. -/
theorem production_of_unrivalled {n : State} {a : Nat} {path w : List Nat} (htraced : n.Traced Q)
    (hpath : n.path = a :: path) (hlen : path.length = c.span) (hu : path.reverse ++ a :: w = u) :
    ∀ t ∈ n.deciding, t.production = p := by
  have hlen' : path.reverse.length = c.span := by rw [List.length_reverse, hlen]
  have htake : u.take (c.span + 1) = n.path.reverse := by
    rw [hpath, List.reverse_cons, ← hu, List.take_append, hlen', List.take_of_length_le (by omega)]
    simp
  intro t ht
  by_contra hne
  rcases List.mem_append.1 ht with ht | ht
  · rcases List.mem_append.1 ht with ht | ht
    · obtain ⟨hmem, d, hd, hleaves, hlast⟩ := htraced.exhausted t ht
      rw [hpath, List.tail_cons] at hleaves
      refine hrivals _ hmem hne (.inr ⟨d, hd, ?_, hlast, .inl ?_⟩)
      · rw [hleaves, ← hu]
        exact List.prefix_append _ _
      · rw [Forest.span, hlast, hleaves, hlen']
        rfl
    · obtain ⟨hmem, hd⟩ := htraced.completed t ht
      rw [← htake] at hd
      exact hrivals _ hmem hne (.inl ⟨_, hd⟩)
  · obtain ⟨hmem, hl⟩ := htraced.active t ht
    rw [← htake] at hl
    exact hrivals _ hmem hne (.inl ⟨_, hl⟩)

end

/-- **Where the match of the candidate ends, the decision falls on it.** -/
theorem picks_of_ended {k start : Nat} {n : State} {inherited : Option Node} {w : List Nat} (hQ : Plain Q)
    (hprevails : Prevails Q T p c u) (htraced : n.Traced Q) (hund : n.isUndecided = true)
    (hstuck : n.isStuck = false) (hended : n.Ended p c.endsWithToken) (hpath : n.path.length = c.span)
    (hu : n.path.reverse ++ w = u) (hw : w ≠ []) (hrange : ∀ x ∈ w, x < Q.grammar.tokenCount ∧ x ≠ anyToken)
    (hdec : Decided Q k n) (hat : StandAt T.dfas start (Q.emit k start n inherited).2) :
    T.program.Picks start w (Q.grammar.number p) := by
  cases k with
  | zero => exact absurd hdec id
  | succ k =>
  obtain ⟨cs, hcs, -⟩ := hdec
  obtain ⟨hswitch, -⟩ := switch_of_standAt hund hat
  rcases hprevails with hrivals | hnone
  · obtain ⟨b, w, rfl⟩ := List.exists_cons_of_ne_nil hw
    obtain ⟨hlt, hany⟩ := hrange b List.mem_cons_self
    have hpos := c.span_pos
    have htok : b ∈ Q.tokensAt n := mem_tokensAt (by rintro e; rw [e] at hpath; simp at hpath; omega) hlt hany
    obtain ⟨next?, hvisit, hmem⟩ := visit_of_children hcs htok
    cases next? with
    | none =>
      -- no thread survives the token, and the default is taken
      rw [default_of_unrivalled hrivals htraced hund hstuck hended hpath hu] at hswitch
      refine .default (Tables.dfa_program hswitch) ?_
      rw [Tables.transition_program hswitch]
      simp only [below, hcs]
      exact lookup_emitEdges_of_not_mem (token_notMem_of_visit hcs hvisit) _
    | some n' =>
      obtain ⟨hsucc, -⟩ := visit_eq_ok_iff.1 hvisit
      have hpath' := path_of_successor hsucc
      have hall := production_of_unrivalled hrivals (htraced.successor hQ.faithful hsucc) hpath' hpath hu
      have hv := State.verdict_eq_leaf (State.deciding_ne_nil hQ hsucc) hall
      refine picks_of_child hund hcs (hmem n' rfl) (token_of_successor hsucc) hat fun start' _ hat' => ?_
      exact exists_picks_of_leaf hv (redirected_of_successor hQ.resolvers hsucc) hat'
  · have hdefault : (n.default? <|> inherited) = none := by
      simpa [DfaNode.default?] using hnone _ (Array.mem_of_getElem? hswitch)
    rw [Option.orElse_eq_none] at hdefault
    exact absurd hdefault.1 (State.default_ne_none_of_ended hended)

/-- The walk goes on in a state that decides for the candidate, or in which its walk is known. -/
theorem exists_picks {k start a : Nat} {w : List Nat} {n : State} {inherited : Option Node} (hred : n.redirected = [])
    (hp : ∃ t ∈ n.deciding, t.production = p)
    (hat : StandAt T.dfas start (edgeTo a start (Q.emit k start n inherited)).2)
    (hpick : n.isUndecided = true → StandAt T.dfas start (Q.emit k start n inherited).2 →
      T.program.Picks start w (Q.grammar.number p)) :
    ∃ d, (edgeTo a start (Q.emit k start n inherited)).1.lookup a = some d ∧
      T.program.Picks d w (Q.grammar.number p) := by
  obtain ⟨t, ht, htp⟩ := hp
  rcases n.verdict_cases with hund | ⟨p', hv⟩ | hnil
  · obtain ⟨hedge, hat⟩ := edge_of_undecided hund hred hat
    exact ⟨start, hedge, hpick hund hat⟩
  · have e : p' = p := (State.production_eq_of_verdict hv ht).symm.trans htp
    exact exists_picks_of_leaf (e ▸ hv) hred hat
  · rw [hnil] at ht
    exact absurd ht List.not_mem_nil

/-- No thread goes on behind the end of the input. -/
theorem active_eq_nil_of_endToken {n : State} (hend : ¬ Q.grammar.Mentions endToken)
    (halts : ∀ q ∈ Q.conflict.candidates, ∃ s, q ∈ (Q.grammar.symbol s).alts) (htraced : n.Traced Q)
    (hmem : endToken ∈ n.path) : n.active = [] := by
  by_contra hactive
  obtain ⟨t, ht⟩ := List.exists_mem_of_ne_nil _ hactive
  obtain ⟨hcand, hl⟩ := htraced.active t ht
  obtain ⟨s, hs⟩ := halts _ hcand
  exact hl.endToken_notMem hend (fun h => hend ⟨s, _, hs, h⟩) (List.mem_reverse.2 hmem)

/-- **The decision falls on a candidate that nothing can go wrong with.** -/
theorem picks_of_carries {k start : Nat} {s : State} {inherited : Option Node} {rest : List Item} {v : List Nat}
    {f : Forest Nat} (hQ : Plain Q) (hend : ¬ Q.grammar.Mentions endToken)
    (halts : ∀ q ∈ Q.conflict.candidates, ∃ s, q ∈ (Q.grammar.symbol s).alts) (hprevails : Prevails Q T p c u)
    (hrange : ∀ x ∈ u, x < Q.grammar.tokenCount ∧ x ≠ anyToken) (htraced : s.Traced Q) (hund : s.isUndecided = true)
    (hcarries : Carries Q rest v p f s) (hspan : s.path.length + f.span = c.span)
    (hends : f.endsWithToken = c.endsWithToken) (hu : s.path.reverse ++ (f.leaves ++ v ++ [endToken]) = u)
    (htok : (f.leaves ++ v).headD endToken ∈ Q.tokensAt s) (hdec : Decided Q k s)
    (hat : StandAt T.dfas start (Q.emit k start s inherited).2) :
    T.program.Picks start (f.leaves ++ v ++ [endToken]) (Q.grammar.number p) := by
  induction k generalizing f s start inherited with
  | zero => exact absurd hdec id
  | succ k ih =>
  obtain ⟨cs, hcs, hdec⟩ := hdec
  obtain ⟨a, ha⟩ : ∃ a, (f.leaves ++ v).headD endToken = a := ⟨_, rfl⟩
  obtain ⟨w, hw⟩ : ∃ w, f.leaves ++ v ++ [endToken] = a :: w := by
    rw [← ha]
    cases f.leaves ++ v with
    | nil => exact ⟨[], rfl⟩
    | cons x w => exact ⟨w ++ [endToken], rfl⟩
  rw [ha] at htok
  rw [hw] at hu ⊢
  have hmem : ∀ x ∈ a :: w, x ∈ u := fun x hx => hu ▸ List.mem_append_right _ hx
  obtain ⟨hlt, hany⟩ := hrange a (hmem a List.mem_cons_self)
  obtain ⟨next?, hvisit, hchild⟩ := visit_of_children hcs htok
  obtain ⟨hsucc, hstuck⟩ := visit_eq_ok_iff.1 hvisit
  obtain ⟨n, rfl, hpath, hstep⟩ := hcarries.step hQ hsucc ha hlt hany
  have htraced' := htraced.successor hQ.faithful hsucc
  have hred' := redirected_of_successor hQ.resolvers hsucc
  have hu' : n.path.reverse ++ w = u := by rw [hpath, List.reverse_cons, List.append_assoc, List.singleton_append, hu]
  refine picks_of_child hund hcs (hchild n rfl) (token_of_successor hsucc) hat fun start' inherited' hat' => ?_
  rcases hstep with ⟨hone, hended⟩ | ⟨hl, hb, hcarries'⟩
  · -- the match ends here
    refine exists_picks hred' hended.mem_deciding hat' fun hund' hat' => ?_
    have hnotStuck := hstuck n rfl
    refine picks_of_ended hQ hprevails htraced' hund' hnotStuck (hends ▸ hended) ?_ hu' ?_
      (fun x hx => hrange x (hmem x (List.mem_cons_of_mem _ hx))) (hdec n (hchild n rfl) hund') hat'
    · rw [hpath, List.length_cons]
      omega
    · -- no candidate goes on behind the end of the input
      rintro rfl
      have haEnd : a = endToken := by
        have := congrArg List.getLast? hw
        simpa using this.symm
      have hactive : n.active = [] :=
        active_eq_nil_of_endToken hend halts htraced' (hpath ▸ haEnd ▸ List.mem_cons_self)
      rw [State.isStuck, hund', hactive] at hnotStuck
      cases hnotStuck
  · -- the match goes on
    have htail : f.behind.leaves ++ v ++ [endToken] = w := by
      rw [Forest.leaves_behind, ← List.tail_append_of_ne_nil hl, ← List.tail_append_of_ne_nil (by simp [hl]), hw,
        List.tail_cons]
    have hspan' := Forest.span_behind hl hb
    have hdeciding : ∃ t ∈ n.deciding, t.production = p := by
      obtain ⟨t, ht, htp, -⟩ := hcarries'
      exact ⟨t, List.mem_append_right _ ht, htp⟩
    refine exists_picks hred' hdeciding hat' fun hund' hat' => ?_
    rw [← htail] at hu' ⊢
    refine ih htraced' hund' hcarries' ?_ ?_ hu' ?_ (hdec n (hchild n rfl) hund') hat'
    · rw [hpath, List.length_cons]
      omega
    · rw [← hends, Forest.endsWithToken_behind hl, Forest.lastIsToken_of_ne hb]
    · have hhead : (f.behind.leaves ++ v).headD endToken ∈ u := by
        rw [← hu']
        refine List.mem_append_right _ ?_
        cases f.behind.leaves ++ v <;> simp
      obtain ⟨hlt', hany'⟩ := hrange _ hhead
      exact mem_tokensAt (by rw [hpath]; exact List.cons_ne_nil _ _) hlt' hany'

end Walk

/-! ## Conflicts -/

/-- A conflict that is decided at once is decided by the state after its token, without a test. -/
theorem exists_successor_of_resolve {start : Nat} {b : Node} {asked : List Nat}
    (hr : Q.resolve start = .ok (.production b, asked)) :
    ∃ n, Q.successor Q.root Q.conflict.token = .ok (some n) ∧ n.verdict = .leaf b ∧ n.reversedChain = [] := by
  obtain ⟨states, hreach, hd, -⟩ := resolve_eq_ok_iff.1 hr
  obtain ⟨k, css, more, -, hcss, hmore, hstates⟩ := survey_eq_ok_iff.1 hreach
  obtain ⟨cs, _, hcs, hnil, rfl⟩ := List.forall₂_cons_left_iff.1 hcss
  cases hnil
  -- only the token of the conflict is tried at first
  obtain ⟨ns, hall, rfl⟩ := children_eq_ok_iff.1 hcs
  have htokens : Q.tokensAt Q.root = [Q.conflict.token] := rfl
  rw [htokens] at hall
  obtain ⟨next?, _, hvisit, hnil, rfl⟩ := List.forall₂_cons_left_iff.1 hall
  cases hnil
  subst hstates
  cases next? with
  | none =>
    cases k <;> cases hmore <;> cases hd
  | some n =>
    refine ⟨n, (visit_eq_ok_iff.1 hvisit).1, ?_⟩
    unfold Problem.decide at hd
    dsimp only [List.filterMap_cons, id, List.flatten_cons, List.cons_append] at hd
    split at hd
    · next hv hchain =>
      cases hd
      exact ⟨hv, hchain⟩
    · cases hd

/-- A conflict that is decided at once is decided for every candidate that has a thread left after the first token. -/
theorem production_of_resolve {start : Nat} {b p : Node} {asked : List Nat}
    (hr : Q.resolve start = .ok (.production b, asked))
    (h : ∀ next?, Q.successor Q.root Q.conflict.token = .ok next? →
      ∃ n, next? = some n ∧ ∃ t ∈ n.deciding, t.production = p) : b = p := by
  obtain ⟨n, hsucc, hv, -⟩ := exists_successor_of_resolve hr
  obtain ⟨_, hn, t, ht, htp⟩ := h _ hsucc
  cases hn
  exact (State.production_eq_of_verdict hv ht).symm.trans htp

/-- A conflict that is decided at once is decided for every candidate with a parse tree. -/
theorem resolve_production {start : Nat} {b p : Node} {asked : List Nat} {rest : List Item} {v : List Nat} {c : Forest Nat}
    (hQ : Plain Q) (hr : Q.resolve start = .ok (.production b, asked)) (hcarries : Carries Q rest v p c Q.root)
    (ha : (c.leaves ++ v).headD endToken = Q.conflict.token) (hlt : Q.conflict.token < Q.grammar.tokenCount)
    (hany : Q.conflict.token ≠ anyToken) : b = p := by
  refine production_of_resolve hr fun next? hs => ?_
  obtain ⟨n, hn, -, hstep⟩ := hcarries.step hQ hs ha hlt hany
  refine ⟨n, hn, ?_⟩
  rcases hstep with ⟨-, hended⟩ | ⟨-, -, t, ht, htp, -⟩
  · exact hended.mem_deciding
  · exact ⟨t, List.mem_append_right _ ht, htp⟩

end Decision

namespace Tables

variable {g : Grammar} {limits : Limits} {T : Tables}

/-- **The tables predict the alternative of a parse tree**, or an automaton whose decision falls on it, if no rival
outlasts its match or the automata have no defaults. -/
theorem picks_of_build (hg : g.WellFormed) (hres : ∀ x ∈ g.symbols, x.resolver = none) (hany : ¬ g.Mentions anyToken)
    (hend : ¬ g.Mentions endToken) (hb : g.build limits = .ok T) {s a : Nat} {p : Node} {rest : List Item} {v : List Nat}
    {c : Forest Nat} (hrest : ∀ i ∈ rest, g.HasItem i ∧ i ≠ .token anyToken)
    (hch : g.analyze.Chained g (.symbol s :: rest)) (hp : p ∈ (g.symbol s).alts) (hc : g.Grows (g.items p) c)
    (hv : g.Derives rest v) (ha : (c.leaves ++ v).headD endToken = a)
    (hprevails : (∀ q ∈ ((PredictionTable.fill g g.analyze).cell s a).candidates, q ≠ p →
      ¬ g.Outlasts (c.leaves ++ v ++ [endToken]) c q) ∨ ∀ n ∈ T.dfas, n.default? = none) :
    ∃ n, T.program.lookup s a = some n ∧ (n = g.number p ∨
      ∃ d, T.program.instruction n = .decision d ∧ T.program.Picks d (c.leaves ++ v ++ [endToken]) (g.number p)) := by
  have hw : ∀ x ∈ c.leaves ++ v, x < g.tokenCount ∧ x ≠ anyToken :=
    (Grammar.Leads.derives_append hc.leads hv).terminals hg hany
      (List.forall_mem_append.2 ⟨hg.proper_alt hany hp, hrest⟩)
  have hrange : ∀ x ∈ c.leaves ++ v ++ [endToken], x < g.tokenCount ∧ x ≠ anyToken :=
    List.forall_mem_append.2 ⟨hw, fun x hx => List.mem_singleton.1 hx ▸ hg.head_lt (w := []) nofun⟩
  obtain ⟨hlt, hne⟩ : a < g.tokenCount ∧ a ≠ anyToken := ha ▸ hg.head_lt hw
  have hs := Grammar.symbol_lt_of_mem_alts hp
  have hcand := hch.mem_candidates hg.closed hg (fun i hi => (hrest i hi).1) hp hc.leads hv ha hlt hne
  have hpred := predicts_of_build hb hs hlt
  rcases Cell.production_or_conflict hcand with hcell | ⟨conflict, hcell⟩
  · rw [hcell] at hpred
    exact ⟨_, hpred, .inl rfl⟩
  · have hund : (g.problem limits conflict).root.isUndecided = true :=
      Decision.isUndecided_root (Q := g.problem limits conflict) hcell
    have halts : ∀ q ∈ conflict.candidates, ∃ s, q ∈ (g.symbol s).alts := fun q hq =>
      ⟨s, ((PredictionTable.mem_conflict hcell).1 hq).1⟩
    rw [hcell] at hcand hpred hprevails
    obtain ⟨start, resolution, asked, hresolve, hpred⟩ := hpred
    obtain ⟨-, -, -, htoken⟩ := PredictionTable.conflict_fill hcell
    let Q := g.problem limits conflict
    have hQ : Decision.Plain Q := Decision.plain_problem hg limits conflict hany hres
    have hcarries : Decision.Carries Q rest v p c Q.root := Decision.carries_root hQ hcand hrest hp hch hc hv
    cases resolution with
    | production b =>
      obtain rfl := Decision.resolve_production hQ hresolve hcarries (ha.trans htoken.symm) (htoken ▸ hlt) (htoken ▸ hne)
      exact ⟨_, hpred, .inl rfl⟩
    | automaton nodes =>
      obtain ⟨n, hn, hdecision, hat⟩ := hpred
      refine ⟨n, hn, .inr ⟨start, hdecision, ?_⟩⟩
      obtain ⟨-, hnodes⟩ := Decision.candidate_of_resolve hQ.faithful hresolve
      rw [hnodes nodes rfl] at hat
      have hdec : Decision.Decided Q Q.limit Q.root := Decision.decided_of_resolve hresolve
      refine Decision.picks_of_carries hQ hend halts hprevails hrange (Decision.State.traced_root Q)
        hund hcarries (Nat.zero_add _) rfl rfl ?_ hdec hat
      rw [ha, ← htoken]
      exact List.mem_singleton_self _

end Tables

end PredictiveParser
