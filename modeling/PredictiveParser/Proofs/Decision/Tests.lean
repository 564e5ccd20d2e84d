import PredictiveParser.Proofs.Decision.Automaton
import PredictiveParser.Proofs.Grammar.LeftRecursion

/-!
# What lookahead automata test

An automaton only tests resolvers of symbols that its candidates lead to without a token, and where a resolver fails the
decision goes on in an earlier state (`tested_emit`). So the tables of a grammar only ask for the resolvers of symbols that
begin the symbol in question (`Tables.decision_of_lookup`), never one after another without end (`Tables.falls_of_build`),
and only decide for nodes of the grammar (`Tables.node_of_decides`).
-/

namespace PredictiveParser

/-! ## Tests of a program -/

/-- A decision in the automaton state `d` can try the resolver `n`, whatever the tokens are. -/
inductive Program.Asks (P : Program) : (d n : Nat) → Prop
  | resolver {d n p : Nat} {otherwise : Option Target} : P.dfa d = .resolver n p otherwise → P.Asks d n
  | transition {d d' t n : Nat} {default? : Option Nat} : P.dfa d = .switch default? → P.transition d t = some d' →
      P.Asks d' n → P.Asks d n
  | otherwise {d d' m n p : Nat} : P.dfa d = .resolver m p (some (.dfa d')) → P.Asks d' n → P.Asks d n

/-- After a failed resolver a decision goes on in an earlier state of the automata. -/
def Program.Falls (P : Program) : Prop :=
  ∀ d n p d', P.dfa d = .resolver n p (some (.dfa d')) → d' < d

/-- The node with the number `k` only tests nodes with the property `A`, and goes on in an earlier state if it fails. -/
def DfaNode.Tests (A : Nat → Prop) (k : Nat) : DfaNode → Prop
  | .resolver n _ _ otherwise => A n ∧ ∀ d, otherwise = some (.dfa d) → d < k
  | _ => True

namespace Decision

variable {Q : Problem} {A : Nat → Prop} {start : Nat}

/-! ## Emitted nodes -/

/-- The nodes, numbered from `start`, only test nodes with the property, and go on in earlier states. -/
def TestsFrom (A : Nat → Prop) (start : Nat) (nodes : List DfaNode) : Prop :=
  ∀ (i : Nat) (n : DfaNode), nodes[i]? = some n → n.Tests A (start + i)

/-- The same, with a target that is not behind them. -/
def Tested (A : Nat → Prop) (start : Nat) (block : Option Target × List DfaNode) : Prop :=
  (∀ d, block.1 = some (.dfa d) → d < start + block.2.length) ∧ TestsFrom A start block.2

theorem TestsFrom.nil : TestsFrom A start [] :=
  fun i n hn => by simp at hn

theorem TestsFrom.cons {n : DfaNode} {nodes : List DfaNode} (hn : n.Tests A start) (h : TestsFrom A (start + 1) nodes) :
    TestsFrom A start (n :: nodes) := by
  intro i m hm
  cases i with
  | zero =>
    cases hm
    exact hn
  | succ i =>
    rw [List.getElem?_cons_succ] at hm
    rw [← Nat.add_assoc, Nat.add_right_comm]
    exact h i m hm

theorem TestsFrom.append {ns ms : List DfaNode} (hn : TestsFrom A start ns) (hm : TestsFrom A (start + ns.length) ms) :
    TestsFrom A start (ns ++ ms) := by
  induction ns generalizing start with
  | nil => exact hm
  | cons n ns ih =>
    refine .cons (hn 0 n rfl) (ih (fun i n' h => ?_) ?_)
    · rw [Nat.add_assoc, Nat.add_comm 1 i]
      exact hn (i + 1) n' h
    · rwa [List.length_cons, Nat.add_comm ns.length 1, ← Nat.add_assoc] at hm

/-- The number is that of the resolver of a symbol that a candidate leads to without a token. -/
def Problem.Resolver (Q : Problem) (n : Nat) : Prop :=
  ∃ p ∈ Q.conflict.candidates, ∃ s is r, Q.grammar.Leads (Q.grammar.items p) [] (.symbol s :: is) ∧
    (Q.grammar.symbol s).resolver = some r ∧ n = Q.grammar.number r.node

/-- The threads of the state only wait for such resolvers. -/
def State.Redirects (Q : Problem) (s : State) : Prop :=
  ∀ r ∈ s.redirected, Q.Resolver (Q.grammar.number r.resolver.node)

theorem redirects_of_successor (hQ : Q.Faithful) {s n : State} {a : Nat} (hs : s.Traced Q)
    (h : Q.successor s a = .ok (some n)) : n.Redirects Q := by
  intro r hr
  obtain ⟨t, ht, hset⟩ := exists_settles_of_keeps (x := .redirected r) h hr
  obtain ⟨hfirst, -, is, hl⟩ := hset.leads_symbol hQ
  obtain ⟨hp, hl'⟩ := hs.active t ht
  -- resolvers only count before the first token
  rw [List.isEmpty_iff.1 hfirst] at hl'
  exact ⟨t.production, hp, r.symbol, is, r.resolver, hl'.trans hl, hset.resolver_eq, rfl⟩

theorem State.Redirects.resolver {s : State} (hs : s.Redirects Q) {l : Link} (hl : l ∈ s.reversedChain) :
    Q.Resolver (Q.grammar.number l.resolver.node) := by
  obtain ⟨r, hr, rfl⟩ := State.exists_redirect hl
  exact hs r hr

theorem emission_tested (hQ : Q.Faithful) : Emission Q (fun s _ => s.Traced Q ∧ s.Redirects Q) (Tested Q.Resolver)
    (fun start row => TestsFrom Q.Resolver start row.2) where
  next hs hn := by
    obtain ⟨a, -, hsucc⟩ := hn
    exact ⟨hs.1.successor hQ hsucc, redirects_of_successor hQ hs.1 hsucc⟩
  nothing _ := ⟨nofun, .nil⟩
  leaf _ _ := ⟨nofun, .nil⟩
  switch _ _ hbelow := ⟨fun d hd => by cases hd; simp, .cons trivial hbelow⟩
  test hs hl h := ⟨fun d hd => by cases hd; simp, h.2.append (.cons ⟨hs.2.resolver hl, h.1⟩ .nil)⟩
  nil _ := .nil
  edge token _ block h := by
    obtain ⟨_ | (d | p), nodes⟩ := block
    · exact h.2
    · exact h.2
    · exact h.2.append (.cons trivial .nil)
  append h h' := TestsFrom.append h h'

/-- **The nodes that are emitted for a state only test such resolvers, and go on in earlier states.** -/
theorem tested_emit (hQ : Q.Faithful) (k : Nat) {s : State} {inherited : Option Node} (hs : s.Traced Q)
    (hr : s.Redirects Q) : Tested Q.Resolver start (Q.emit k start s inherited) :=
  (emission_tested hQ).emit k start ⟨hs, hr⟩

theorem tests_of_resolve (hQ : Q.Faithful) {nodes : List DfaNode} {asked : List Nat}
    (h : Q.resolve start = .ok (.automaton nodes, asked)) : TestsFrom Q.Resolver start nodes := by
  rw [(candidate_of_resolve hQ h).2 nodes rfl]
  exact (tested_emit hQ Q.limit (State.traced_root Q) nofun).2

end Decision

/-! ## Tests of built tables -/

namespace Tables

variable {g : Grammar} {limits : Limits} {T : Tables}

/-- **Every node of the automata only tests resolvers of the grammar, and goes on in an earlier state.** -/
theorem tests_of_build (hb : g.build limits = .ok T) {d : Nat} {n : DfaNode} (hn : T.dfas[d]? = some n) :
    n.Tests (fun m => ∃ s r, (g.symbol s).resolver = some r ∧ m = g.number r.node) d := by
  obtain ⟨hd, -⟩ := Array.getElem?_eq_some_iff.1 hn
  obtain ⟨s, t, conflict, start, nodes, asked, -, hr, hat, hrange⟩ := automaton_of_build hb hd
  have htests := Decision.tests_of_resolve Decision.faithful_problem hr
  have h := htests (d - start) n ((hat.getElem? hrange).symm.trans hn)
  rw [Nat.add_sub_cancel' hrange.1] at h
  cases n with
  | leaf | switch => trivial
  | resolver m priority p otherwise =>
    obtain ⟨⟨-, -, s, -, r, -, hr, e⟩, hlt⟩ := h
    exact ⟨⟨s, r, hr, e⟩, hlt⟩

/-- Behind the last automaton node there are none. -/
theorem dfa_eq_leaf {d : Nat} (h : T.dfas[d]? = none) : T.program.dfa d = .leaf 0 := by
  simp [program, h]

/-- A resolver in the program is one in the automata. -/
theorem exists_of_dfa {d n p : Nat} {otherwise : Option Target} (h : T.program.dfa d = .resolver n p otherwise) :
    ∃ priority, T.dfas[d]? = some (.resolver n priority p otherwise) := by
  cases hd : T.dfas[d]? with
  | none =>
    rw [dfa_eq_leaf hd] at h
    cases h
  | some m =>
    have hstate : T.program.dfa d = m.state := by simp [program, hd]
    rw [hstate] at h
    cases m <;> cases h
    exact ⟨_, rfl⟩

/-- **After a failed resolver a decision goes on in an earlier state.** -/
theorem falls_of_build (hb : g.build limits = .ok T) : T.program.Falls := by
  intro d n p d' h
  obtain ⟨priority, hd⟩ := exists_of_dfa h
  exact (tests_of_build hb hd).2 d' rfl

/-- **Only resolvers of the grammar are asked.** -/
theorem resolver_of_asks (hb : g.build limits = .ok T) {d n : Nat} (h : T.program.Asks d n) :
    ∃ s r, (g.symbol s).resolver = some r ∧ n = g.number r.node := by
  induction h with
  | resolver h =>
    obtain ⟨priority, hd⟩ := exists_of_dfa h
    exact (tests_of_build hb hd).1
  | transition _ _ _ ih => exact ih
  | otherwise _ _ ih => exact ih

/-- **A decision only asks for resolvers that the nodes of its automaton test.** -/
theorem of_asks {A B : Nat → Prop} {start : Nat} {nodes : List DfaNode} (hat : StandAt T.dfas start nodes)
    (hn : ∀ n ∈ nodes, n.Confined A start (start + nodes.length)) (ht : Decision.TestsFrom B start nodes) {d m : Nat}
    (h : T.program.Asks d m) (hd : start ≤ d ∧ d < start + nodes.length) : B m := by
  induction h with
  | resolver h =>
    obtain ⟨n, hget, hs, -⟩ := exists_node hat hd
    have htest := ht _ n hget
    rw [h] at hs
    cases n <;> cases hs
    exact htest.1
  | transition h htransition _ ih => exact ih ((confinedAt hat hn hd).transition h htransition)
  | otherwise h _ ih => exact ih ((confinedAt hat hn hd).resolver h).2

/-- **What tables predict for a symbol is one of its alternatives, or a decision between its alternatives that only asks for
the resolvers of symbols that it begins with.** -/
theorem decision_of_lookup (hb : g.build limits = .ok T) {s t n : Nat} (h : T.program.lookup s t = some n) :
    (∃ p ∈ (g.symbol s).alts, n = g.number p) ∨ ∃ d, T.program.instruction n = .decision d ∧
      (∀ m, T.program.Decides d m → ∃ p ∈ (g.symbol s).alts, m = g.number p) ∧
      ∀ m, T.program.Asks d m → ∃ b r, Relation.TransGen g.Begins s b ∧ (g.symbol b).resolver = some r ∧
        m = g.number r.node := by
  rcases automaton_of_lookup hb h with hp | ⟨conflict, d, nodes, asked, hcell, hdecision, hr, hat, hlen⟩
  · exact .inl hp
  · have hconf := Decision.confined_of_resolve Decision.faithful_problem hr
    have hrange : d ≤ d ∧ d < d + nodes.length := ⟨Nat.le_refl _, hlen⟩
    have halts : ∀ p ∈ conflict.candidates, p ∈ (g.symbol s).alts := fun p hp =>
      ((PredictionTable.mem_conflict hcell).1 hp).1
    refine .inr ⟨d, hdecision, fun m hm => ?_, fun m hm => ?_⟩
    · obtain ⟨p, hp, e⟩ := of_decides hat hconf hm hrange
      exact ⟨p, halts p hp, e⟩
    · have htests := Decision.tests_of_resolve Decision.faithful_problem hr
      obtain ⟨p, hp, b, is, r, hl, hresolver, e⟩ := of_asks hat hconf htests hm hrange
      obtain ⟨pre, c, post, hitems, hpre, hcb⟩ := Grammar.Leads.exists_begins hl
      exact ⟨b, r, .head' ⟨p, halts p hp, pre, post, hitems, hpre⟩ hcb, hresolver, e⟩

/-- **Decisions only fall on nodes of the grammar.** -/
theorem node_of_decides (hg : g.WellFormed) (hb : g.build limits = .ok T) {d p : Nat} (h : T.program.Decides d p) :
    ∃ q, g.HasNode q ∧ p = g.number q := by
  cases hd : T.dfas[d]? with
  | none =>
    -- what is not in the tables is read as the first node
    have hleaf := dfa_eq_leaf hd
    have hzero : p = 0 := by
      cases h with
      | leaf h => exact (DfaState.leaf.inj (hleaf.symm.trans h)).symm
      | transition h | default h | accept h | node h | otherwise h => cases hleaf.symm.trans h
    obtain ⟨q, hq, e, -⟩ := Grammar.nodeAt?_of_lt (g := g) (k := 0)
      (Nat.lt_of_le_of_lt (Nat.zero_le _) (Grammar.number_lt (n := .epsilon) trivial))
    exact ⟨q, hq, hzero.trans e.symm⟩
  | some m =>
    obtain ⟨hlt, -⟩ := Array.getElem?_eq_some_iff.1 hd
    obtain ⟨s, t, conflict, start, nodes, asked, hcell, hr, hat, hrange⟩ := automaton_of_build hb hlt
    have hconf := Decision.confined_of_resolve Decision.faithful_problem hr
    obtain ⟨q, hq, e⟩ := of_decides hat hconf h hrange
    exact ⟨q, hg.hasNode_alt ((PredictionTable.mem_conflict hcell).1 hq).1, e⟩

end Tables

end PredictiveParser
