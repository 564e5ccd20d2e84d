import Mathlib.Data.List.Permutation
import PredictiveParser.Proofs.Decision.Reading

/-!
# Chains of tests

The threads of a state that wait for resolvers ask for tests, which are tried one after another: the first whose resolver
passes settles the decision, and if all fail, the other threads decide (`tryAll`). The chain that is built leaves out some of
these tests. A test that was tried already makes no difference (`tryAll_of_repeats`), nor do the last tests for the
production that the other threads decide for (`tryAll_dropWhile`). But a test that follows one for the same production is
left out as well, even if it has another resolver. So the chain decides as the tests do that are not left out in this way, and
as all of them do where no candidate waits for two resolvers (`tests_decide`).
-/

namespace PredictiveParser

/-! ## Following tests -/

/-- A decision that has come to a target passes over the tests there and goes on at the other target; the resolvers of the
nodes with the property pass, and all others fail. -/
inductive Program.Tries (P : Program) (passes : Nat → Bool) : Option Target → Option Target → Prop
  | passed {d n p : Nat} {otherwise : Option Target} : P.dfa d = .resolver n p otherwise → passes n = true →
      P.Tries passes (some (.dfa d)) (some (.node p))
  | failed {d n p : Nat} {otherwise r : Option Target} : P.dfa d = .resolver n p otherwise → passes n = false →
      P.Tries passes otherwise r → P.Tries passes (some (.dfa d)) r
  | rest {r : Option Target} : (∀ d n p otherwise, r = some (.dfa d) → P.dfa d ≠ .resolver n p otherwise) →
      P.Tries passes r r

/-- Tests lead to one target. -/
theorem Program.Tries.unique {P : Program} {passes : Nat → Bool} {target r r' : Option Target}
    (h : P.Tries passes target r) (h' : P.Tries passes target r') : r = r' := by
  induction h with
  | passed hd hp =>
    cases h' with
    | passed hd' => cases hd.symm.trans hd'; rfl
    | failed hd' hp' => cases hd.symm.trans hd'; cases hp.symm.trans hp'
    | rest hr => exact absurd hd (hr _ _ _ _ rfl)
  | failed hd hp _ ih =>
    cases h' with
    | passed hd' hp' => cases hd.symm.trans hd'; cases hp.symm.trans hp'
    | failed hd' _ h' => cases hd.symm.trans hd'; exact ih h'
    | rest hr => exact absurd hd (hr _ _ _ _ rfl)
  | rest hr =>
    cases h' with
    | passed hd | failed hd => exact absurd hd (hr _ _ _ _ rfl)
    | rest => rfl

namespace Decision

/-- The test that a thread asks for. -/
def Redirect.test (r : Redirect) : Link :=
  ⟨r.resolver, r.production⟩

/-- The tests that the threads of a state ask for, in the order in which they are to be tried: those of higher priority first,
then those of earlier candidates, then those that came first. -/
def State.tests (s : State) : List Link :=
  (s.redirected.mergeSort Redirect.before).map Redirect.test

/-- Where a decision goes on that tries tests one after another: at the production of the first whose resolver passes, and at
`rest` if all fail. -/
def tryAll (g : Grammar) (passes : Nat → Bool) (tests : List Link) (rest : Option Target) : Option Target :=
  match tests.find? fun l => passes (g.number l.resolver.node) with
  | some l => some (.node (g.number l.production))
  | none => rest

/-- The test is one of the chain, whatever the priorities are. -/
def Link.repeats (chain : List Link) (l : Link) : Bool :=
  chain.any fun l' => l'.resolver.node == l.resolver.node && l'.production == l.production

/-- The last test of the chain, whose tests are listed from the last to the first, is for the same production. -/
def Link.follows (chain : List Link) (l : Link) : Bool :=
  chain.head?.any (·.production == l.production)

/-- The tests that are not left out behind a chain for the reason that they follow a test for the same production. -/
def heeded : (chain : List Link) → List Link → List Link
  | _, [] => []
  | chain, l :: ls =>
    if l.repeats chain then l :: heeded chain ls
    else if l.follows chain then heeded chain ls
    else l :: heeded (l :: chain) ls

/-- Where the decision of the threads that wait for no resolver begins, if the nodes of the state are numbered from `start`. -/
def State.rest (g : Grammar) (start : Nat) (s : State) : Option Target :=
  match s.verdict with
  | .leaf p => some (.node (g.number p))
  | .nothing => none
  | .undecided => some (.dfa start)

variable {g : Grammar} {passes : Nat → Bool} {rest : Option Target}

/-! ## Trying tests -/

theorem tryAll_append (ls ms : List Link) :
    tryAll g passes (ls ++ ms) rest = tryAll g passes ls (tryAll g passes ms rest) := by
  unfold tryAll
  rw [List.find?_append]
  cases ls.find? fun l => passes (g.number l.resolver.node) <;> rfl

theorem tryAll_singleton (l : Link) : tryAll g passes [l] rest =
    if passes (g.number l.resolver.node) then some (.node (g.number l.production)) else rest := by
  unfold tryAll
  rw [List.find?_singleton]
  cases passes (g.number l.resolver.node) <;> rfl

/-- A test that was tried already makes no difference. -/
theorem tryAll_of_repeats {chain : List Link} {l : Link} (h : l.repeats chain = true) (ls : List Link) :
    tryAll g passes (chain.reverse ++ l :: ls) rest = tryAll g passes (chain.reverse ++ ls) rest := by
  obtain ⟨l', hl', e⟩ := List.any_eq_true.1 h
  obtain ⟨hnode, hproduction⟩ : l'.resolver.node = l.resolver.node ∧ l'.production = l.production := by
    simpa using e
  rw [tryAll_append, tryAll_append, ← List.singleton_append, tryAll_append, tryAll_singleton]
  cases hl : passes (g.number l.resolver.node) with
  | false => rfl
  | true =>
    -- the chain settles the decision before it comes to the test
    have hfind : ∃ m, chain.reverse.find? (fun l => passes (g.number l.resolver.node)) = some m :=
      Option.isSome_iff_exists.1 (List.find?_isSome.2 ⟨l', List.mem_reverse.2 hl', by rw [hnode, hl]⟩)
    obtain ⟨m, hm⟩ := hfind
    unfold tryAll
    rw [hm]

theorem addLink_eq (chain : List Link) (r : Redirect) : addLink chain r =
    if r.test.repeats chain then chain else if r.test.follows chain then chain else r.test :: chain := by
  show (if r.test.repeats chain || r.test.follows chain then chain else r.test :: chain) = _
  cases r.test.repeats chain <;> cases r.test.follows chain <;> rfl

/-- The chain that is built behind another decides as the tests do that are not left out. -/
theorem tryAll_links (rs : List Redirect) (chain : List Link) : tryAll g passes (rs.foldl addLink chain).reverse rest =
    tryAll g passes (chain.reverse ++ heeded chain (rs.map Redirect.test)) rest := by
  induction rs generalizing chain with
  | nil => rw [List.map_nil, heeded, List.append_nil, List.foldl_nil]
  | cons r rs ih =>
    rw [List.foldl_cons, List.map_cons, heeded, ih, addLink_eq]
    cases hrepeats : r.test.repeats chain with
    | true => exact (tryAll_of_repeats hrepeats _).symm
    | false =>
      cases r.test.follows chain with
      | true => rfl
      | false =>
        show tryAll g passes ((r.test :: chain).reverse ++ _) rest = tryAll g passes (chain.reverse ++ r.test :: _) rest
        rw [List.reverse_cons, List.append_assoc]
        rfl

/-- The last tests for the production that is taken anyway make no difference. -/
theorem tryAll_dropWhile (p : Node) (chain : List Link) :
    tryAll g passes (chain.dropWhile (·.production == p)).reverse (some (.node (g.number p))) =
      tryAll g passes chain.reverse (some (.node (g.number p))) := by
  induction chain with
  | nil => rfl
  | cons l ls ih =>
    rw [List.dropWhile_cons]
    split
    · next hl =>
      rw [ih, List.reverse_cons, tryAll_append, tryAll_singleton, beq_iff_eq.1 hl, ite_self]
    · rfl

/-- The chain of a state decides as the tests of its threads do that are not left out. -/
theorem tryAll_chain (start : Nat) (s : State) :
    tryAll g passes s.chain (s.rest g start) = tryAll g passes (heeded [] s.tests) (s.rest g start) := by
  have hlinks : ∀ rest, tryAll g passes ((s.redirected.mergeSort Redirect.before).foldl addLink []).reverse rest =
      tryAll g passes (heeded [] s.tests) rest := fun rest => tryAll_links _ []
  unfold State.chain State.reversedChain State.rest
  cases s.verdict with
  | leaf p => exact (tryAll_dropWhile p _).trans (hlinks _)
  | nothing | undecided => exact hlinks _

/-- No test is left out if all tests for one production have one resolver. -/
theorem heeded_eq {tests chain ls : List Link} (h : ∀ l ∈ tests, ∀ l' ∈ tests, l.production = l'.production →
    l.resolver.node = l'.resolver.node) (hchain : chain ⊆ tests) (hls : ls ⊆ tests) : heeded chain ls = ls := by
  induction ls generalizing chain with
  | nil => rfl
  | cons l ls ih =>
    obtain ⟨hl, hls⟩ := List.cons_subset.1 hls
    rw [heeded]
    split
    · rw [ih hchain hls]
    · next hrepeats =>
      -- a test that follows one for the same production has the same resolver, and so repeats it
      have hfollows : ¬ l.follows chain = true := fun hfollows => hrepeats <| by
        cases chain with
        | nil => cases hfollows
        | cons l' chain =>
          have hproduction : l'.production = l.production := beq_iff_eq.1 hfollows
          have hnode := h l' (hchain List.mem_cons_self) l hl hproduction
          exact List.any_eq_true.2 ⟨l', List.mem_cons_self, by rw [hproduction, hnode, beq_self_eq_true, beq_self_eq_true]; rfl⟩
      rw [if_neg hfollows, ih (List.cons_subset.2 ⟨hl, hchain⟩) hls]

/-! ## Emitted tests -/

variable {Q : Problem} {T : Tables}

/-- A decision that comes to tests passes over them. -/
theorem tries_prependTests {start : Nat} {tests : List Link} {target r : Option Target} {nodes : List DfaNode}
    (hat : StandAt T.dfas start (prependTests g start tests target nodes).2) (hr : T.program.Tries passes target r) :
    T.program.Tries passes (prependTests g start tests target nodes).1 (tryAll g passes tests.reverse r) := by
  induction tests generalizing target nodes r with
  | nil => exact hr
  | cons l ls ih =>
    rw [prependTests] at hat ⊢
    obtain ⟨more, hmore⟩ := exists_prependTests g start ls (some (.dfa (start + nodes.length))) (nodes ++
      [.resolver (g.number l.resolver.node) l.resolver.priority (g.number l.production) target])
    have hnode := hat
    rw [hmore] at hnode
    have hstate : T.program.dfa (start + nodes.length) =
        .resolver (g.number l.resolver.node) (g.number l.production) target :=
      Tables.dfa_program ((standAt_append (standAt_append hnode).1).2 0 _ rfl)
    rw [List.reverse_cons, tryAll_append]
    refine ih hat ?_
    rw [tryAll_singleton]
    split
    · next hl => exact .passed hstate hl
    · next hl => exact .failed hstate (Bool.not_eq_true _ ▸ hl) hr

/-- The nodes of a state are tests in front of the decision of the other threads, which begins with a switch if it begins
with a node. -/
theorem exists_emit (k start : Nat) (s : State) (inherited : Option Node) : ∃ nodes,
    Q.emit k start s inherited = prependTests Q.grammar start s.reversedChain (s.rest Q.grammar start) nodes ∧
      (s.verdict = .undecided → ∃ transitions default?, nodes[0]? = some (.switch transitions default?)) := by
  rw [emit_eq, emitState, State.rest]
  cases s.verdict with
  | leaf | nothing =>
    refine ⟨[], rfl, fun h => ?_⟩
    cases h
  | undecided => exact ⟨_, rfl, fun _ => ⟨_, _, rfl⟩⟩

/-- The other threads decide without a test. -/
theorem tries_rest {k start : Nat} {s : State} {inherited : Option Node}
    (hat : StandAt T.dfas start (Q.emit k start s inherited).2) :
    T.program.Tries passes (s.rest Q.grammar start) (s.rest Q.grammar start) := by
  obtain ⟨nodes, hemit, hswitch⟩ := exists_emit (Q := Q) k start s inherited
  refine .rest fun d n p otherwise hd h => ?_
  have hund : s.verdict = .undecided ∧ d = start := by
    revert hd
    rw [State.rest]
    cases s.verdict with
    | leaf | nothing => exact nofun
    | undecided => exact fun hd => ⟨rfl, (Target.dfa.inj (Option.some.inj hd)).symm⟩
  obtain ⟨hund, rfl⟩ := hund
  obtain ⟨transitions, default?, hnode⟩ := hswitch hund
  obtain ⟨more, hmore⟩ := exists_prependTests Q.grammar d s.reversedChain (s.rest Q.grammar d) nodes
  rw [hemit, hmore] at hat
  cases (Tables.dfa_program ((standAt_append hat).1 0 _ hnode)).symm.trans h

/-! ## Tests of built tables -/

/-- The nodes of every state that a survey goes through are emitted along with those of the states it begins with. -/
theorem standAt_of_survey {k : Nat} {level states : List State} (h : Q.survey k level = .ok states)
    (hl : ∀ s ∈ level, s.isUndecided = true ∧ ∃ start inherited, StandAt T.dfas start (Q.emit k start s inherited).2) :
    ∀ s ∈ states, ∃ k start inherited, StandAt T.dfas start (Q.emit k start s inherited).2 := by
  let q (k : Nat) (s : State) : Prop := ∃ start inherited, StandAt T.dfas start (Q.emit k start s inherited).2
  refine forall_of_survey (p := fun k s => s.isUndecided = true ∧ q k s) (q := q) ?_ (fun hat hund => ⟨hund, hat⟩) h hl
  rintro k s cs ⟨hund, start, inherited, hat⟩ hcs n hn
  obtain ⟨_, start', inherited', -, hblock, -⟩ := edge_of_child hund hcs hn rfl hat
  exact ⟨start', inherited', standAt_of_edgeTo hblock⟩

end Decision

/-- **Built tables hold the nodes of every state that a conflict leads to,** unless its token decides it without a test. -/
theorem Tables.standAt_of_conflict {g : Grammar} {limits : Limits} {T : Tables} (hb : g.build limits = .ok T) {s t : Nat}
    {c : Conflict} (hcell : (PredictionTable.fill g g.analyze).cell s t = .conflict c) :
    let Q := g.problem limits c
    ∃ states, Q.reached = .ok states ∧
      ((∃ n ∈ states, ∃ p, n.verdict = .leaf p ∧ n.reversedChain = []) ∨
        ∀ n ∈ states, ∃ k start inherited, StandAt T.dfas start (Q.emit k start n inherited).2) := by
  intro Q
  obtain ⟨hs, ht, -, -⟩ := PredictionTable.conflict_fill hcell
  have hpredicts := predicts_of_build hb hs ht
  rw [hcell] at hpredicts
  obtain ⟨start, resolution, asked, hresolve, hentry⟩ := hpredicts
  obtain ⟨states, hreached, hdecide, -⟩ := Decision.resolve_eq_ok_iff.1 hresolve
  refine ⟨states, hreached, ?_⟩
  cases resolution with
  | production p =>
    unfold Decision.Problem.decide at hdecide
    cases states with
    | nil => cases hdecide
    | cons n states =>
      dsimp only at hdecide
      split at hdecide
      · next hv hchain => exact .inl ⟨n, List.mem_cons_self, _, hv, hchain⟩
      · cases hdecide
  | automaton nodes =>
    obtain ⟨-, -, -, hat⟩ := hentry
    obtain rfl := (Decision.candidate_of_resolve (Q := Q) Decision.faithful_problem hresolve).2 nodes rfl
    refine .inr (Decision.standAt_of_survey hreached fun n hn => ?_)
    obtain rfl := List.mem_singleton.1 hn
    exact ⟨Decision.isUndecided_root (Q := Q) hcell, start, none, hat⟩

namespace Decision

/-! ## What tests decide -/

/-- **The tests of a state decide, whatever resolvers pass, as the tests of its threads do that are not left out.** They
decide as all of them do where no candidate waits for two resolvers. Emitted nodes decide as the tests do. -/
theorem tests_decide (Q : Problem) (k start : Nat) (s : State) (inherited : Option Node) (passes : Nat → Bool) :
    tryAll Q.grammar passes s.chain (s.rest Q.grammar start) =
        tryAll Q.grammar passes (heeded [] s.tests) (s.rest Q.grammar start) ∧
      ((∀ r ∈ s.redirected, ∀ r' ∈ s.redirected, r.production = r'.production → r.resolver.node = r'.resolver.node) →
        tryAll Q.grammar passes s.chain (s.rest Q.grammar start) =
          tryAll Q.grammar passes s.tests (s.rest Q.grammar start)) ∧
      ∀ T : Tables, StandAt T.dfas start (Q.emit k start s inherited).2 →
        ∀ r, T.program.Tries passes (Q.emit k start s inherited).1 r ↔
          r = tryAll Q.grammar passes s.chain (s.rest Q.grammar start) := by
  refine ⟨tryAll_chain start s, fun h => ?_, fun T hat r => ?_⟩
  · have htests : ∀ l ∈ s.tests, ∃ r ∈ s.redirected, r.test = l := fun l hl => by
      obtain ⟨r, hr, rfl⟩ := List.mem_map.1 hl
      exact ⟨r, List.mem_mergeSort.1 hr, rfl⟩
    have hresolvers : ∀ l ∈ s.tests, ∀ l' ∈ s.tests, l.production = l'.production → l.resolver.node = l'.resolver.node := by
      intro l hl l' hl' hproduction
      obtain ⟨r, hr, rfl⟩ := htests l hl
      obtain ⟨r', hr', rfl⟩ := htests l' hl'
      exact h r hr r' hr' hproduction
    rw [tryAll_chain, heeded_eq hresolvers (List.nil_subset _) fun _ => id]
  · have htries : T.program.Tries passes (Q.emit k start s inherited).1
        (tryAll Q.grammar passes s.chain (s.rest Q.grammar start)) := by
      have hrest : T.program.Tries passes (s.rest Q.grammar start) (s.rest Q.grammar start) := tries_rest hat
      obtain ⟨nodes, hemit, -⟩ := exists_emit (Q := Q) k start s inherited
      rw [hemit] at hat ⊢
      exact tries_prependTests hat hrest
    exact ⟨fun h => h.unique htries, fun h => h ▸ htries⟩

/-- `P` is `X` or `Y`, which has a resolver, and `Z` is an `a`. -/
def paired (resolver : Option Resolver) : Grammar where
  tokens := .letters
  symbols := #[{ name := "S", alts := [Item.symbol 1, Item.symbol 2] },
    { name := "P", alts := [Item.symbol 3, Item.symbol 4] }, { name := "Z", alts := [Item.token 2] },
    { name := "X", alts := [.sequence 0], resolver },
    { name := "Y", alts := [.sequence 1], resolver := some ⟨.sequence 3, 5⟩ }]
  sequences := #[[.token 2, .token 3], [.token 2, .token 2], [.token 2, .token 3], [.token 2, .token 2]]
  actions := {}
  arguments := {}
  beacons := {}
  start := 0

namespace paired

/-- The conflict between `P` and `Z`. -/
def outer : Conflict :=
  ⟨0, 2, [Item.symbol 1, Item.symbol 2]⟩

/-- The conflict between `X` and `Y`. -/
def inner : Conflict :=
  ⟨1, 2, [Item.symbol 3, Item.symbol 4]⟩

/-- A resolver for `X`. -/
def resolver : Resolver :=
  ⟨.sequence 2, 1⟩

/-- What `P` and `Z` come to with an `a` if both `X` and `Y` have a resolver. -/
def waiting : State where
  path := [2]
  redirected := [⟨Item.symbol 1, 0, 3, resolver⟩, ⟨Item.symbol 1, 0, 4, ⟨.sequence 3, 5⟩⟩]
  completed := [⟨Item.symbol 2, 1, [], .concrete, 0⟩]

/-- What `X` and `Y` come to with an `a` if only `Y` has a resolver. -/
def split : State where
  path := [2]
  active := [⟨Item.symbol 3, 0, [Item.token 3], .concrete, 0⟩]
  redirected := [⟨Item.symbol 4, 1, 4, ⟨.sequence 3, 5⟩⟩]

end paired

/-- The test of `X` follows that of `Y` and is left out. Where only the resolver of `X` passes, `Z` is taken and not `P`. -/
theorem paired_otherwise : let g := paired (some paired.resolver)
    (PredictionTable.fill g g.analyze).cell 0 2 = .conflict paired.outer ∧
      (g.problem {} paired.outer).reached = .ok [paired.waiting] ∧
      ∃ passes, tryAll g passes paired.waiting.chain (paired.waiting.rest g 0) ≠
        tryAll g passes paired.waiting.tests (paired.waiting.rest g 0) := by
  intro g
  refine ⟨by decide +kernel, by decide +kernel, (· == g.number (.sequence 2)), ?_⟩
  have hchain : tryAll g (· == g.number (.sequence 2)) paired.waiting.chain (paired.waiting.rest g 0) =
      some (.node (g.number (Item.symbol 2))) := by cbv
  have htests : tryAll g (· == g.number (.sequence 2)) paired.waiting.tests (paired.waiting.rest g 0) =
      some (.node (g.number (Item.symbol 1))) := by cbv
  rw [hchain, htests]
  decide

/-- Where the resolver of `Y` passes, the test in front of the decision for `X` comes to `Y`. -/
theorem paired_passes : ∃ T, (paired none).build = .ok T ∧
    ((paired none).problem {} paired.inner).reached = .ok [paired.split] ∧
    ∃ k start inherited, ∀ r, T.program.Tries (· == (paired none).number (.sequence 3))
        (((paired none).problem {} paired.inner).emit k start paired.split inherited).1 r ↔
      r = some (.node ((paired none).number (Item.symbol 4))) := by
  obtain ⟨T, hT⟩ : ∃ T, (paired none).build = .ok T := Grammar.exists_build (by decide +kernel)
  have hcell : (PredictionTable.fill (paired none) (paired none).analyze).cell 1 2 = .conflict paired.inner := by
    decide +kernel
  have hreached : ((paired none).problem {} paired.inner).reached = .ok [paired.split] := by decide +kernel
  obtain ⟨states, hstates, hleaf | hat⟩ := Tables.standAt_of_conflict hT hcell <;>
    obtain rfl : [paired.split] = states := Except.ok.inj (hreached.symm.trans hstates)
  · obtain ⟨n, hn, p, -, hchain⟩ := hleaf
    obtain rfl := List.mem_singleton.1 hn
    exact absurd hchain (by decide +kernel)
  · obtain ⟨k, start, inherited, hat⟩ := hat _ (List.mem_singleton_self _)
    obtain ⟨-, hall, htries⟩ := tests_decide ((paired none).problem {} paired.inner) k start paired.split inherited
      (· == (paired none).number (.sequence 3))
    have htests : tryAll (paired none) (· == (paired none).number (.sequence 3)) paired.split.tests
        (paired.split.rest (paired none) start) = some (.node ((paired none).number (Item.symbol 4))) := by cbv
    exact ⟨T, hT, hreached, k, start, inherited, fun r =>
      (htries T hat r).trans (iff_of_eq (congrArg _ ((hall (by decide)).trans htests)))⟩

end Decision

end PredictiveParser
