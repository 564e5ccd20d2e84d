import PredictiveParser.Proofs.Decision.Rivals
import PredictiveParser.Proofs.Decision.Tests

/-!
# What a decision reads

A walk through an automaton follows the search that decided its conflict: where it comes to a state that inspects one more
token, the search came over the same tokens to a state that needs more tokens (`exists_comes_of_reads`). The search makes
every decision within the limit of the conflict, so no walk inspects more tokens (`Tables.length_le_of_reads`). No thread goes
on behind the end of the input, so no walk inspects a token behind it (`Tables.endToken_notMem_of_reads`).
-/

namespace PredictiveParser

/-! ## Walks -/

/-- A walk through the automata gets from the state `d` to the state `d'` over the tokens `ts`, whatever the resolvers on the
way say: where one fails the walk may go on without a token. -/
inductive Program.Reads (P : Program) : (d : Nat) → (ts : List Nat) → (d' : Nat) → Prop
  | refl (d : Nat) : P.Reads d [] d
  | follow {d d₁ d' t : Nat} {ts : List Nat} {default? : Option Nat} : P.dfa d = .switch default? →
      P.transition d t = some d₁ → P.Reads d₁ ts d' → P.Reads d (t :: ts) d'
  | onward {d d₁ d' n p : Nat} {ts : List Nat} : P.dfa d = .resolver n p (some (.dfa d₁)) → P.Reads d₁ ts d' →
      P.Reads d ts d'

theorem Program.Reads.trans {P : Program} {d d' d'' : Nat} {ts us : List Nat} (h : P.Reads d ts d')
    (h' : P.Reads d' us d'') : P.Reads d (ts ++ us) d'' := by
  induction h with
  | refl => exact h'
  | follow hd ht _ ih => exact .follow hd ht (ih h')
  | onward hd _ ih => exact .onward hd (ih h')

/-- A walk over some tokens goes over the first of them before. -/
theorem Program.Reads.exists_of_append {P : Program} {d d' : Nat} {ts us : List Nat} (h : P.Reads d (ts ++ us) d')
    (hus : us ≠ []) : ∃ d₁ default?, P.Reads d ts d₁ ∧ P.dfa d₁ = .switch default? := by
  generalize hvs : ts ++ us = vs at h
  induction h generalizing ts with
  | refl => exact absurd (List.append_eq_nil_iff.1 hvs).2 hus
  | @follow d _ _ _ _ default? hd ht _ ih =>
    cases ts with
    | nil => exact ⟨d, default?, .refl d, hd⟩
    | cons t ts =>
      obtain ⟨rfl, hrest⟩ := List.cons.inj hvs
      obtain ⟨d₁, default?, hr, hd₁⟩ := ih hrest
      exact ⟨d₁, default?, .follow hd ht hr, hd₁⟩
  | onward hd _ ih =>
    obtain ⟨d₁, default?, hr, hd₁⟩ := ih hvs
    exact ⟨d₁, default?, .onward hd hr, hd₁⟩

namespace Decision

variable {Q : Problem} {T : Tables}

/-! ## The search -/

/-- The search comes from the state `s` over the tokens `ts` to the state `n`, and needs more tokens all the way. -/
inductive Comes (Q : Problem) : (s : State) → (ts : List Nat) → (n : State) → Prop
  | refl {s : State} : s.isUndecided = true → Comes Q s [] s
  | visit {s m n : State} {t : Nat} {ts : List Nat} : s.isUndecided = true → t ∈ Q.tokensAt s →
      Q.visit s t = .ok (some m) → Comes Q m ts n → Comes Q s (t :: ts) n

theorem Comes.isUndecided {s n : State} {ts : List Nat} (h : Comes Q s ts n) : s.isUndecided = true := by
  cases h with
  | refl h => exact h
  | visit h => exact h

/-- Where the decision is made within `k` tokens the search does not get further. -/
theorem Comes.length_lt {k : Nat} {s n : State} {ts : List Nat} (h : Comes Q s ts n) (hdec : Decided Q k s) :
    ts.length < k := by
  induction h generalizing k with
  | refl =>
    cases k with
    | zero => exact absurd hdec id
    | succ k => exact Nat.succ_pos k
  | visit _ ht hv hrest ih =>
    cases k with
    | zero => exact absurd hdec id
    | succ k =>
      obtain ⟨cs, hcs, hdec⟩ := hdec
      obtain ⟨next?, hvisit, hmem⟩ := visit_of_children hcs ht
      cases hv.symm.trans hvisit
      exact Nat.succ_lt_succ (ih (hdec _ (hmem _ rfl) hrest.isUndecided))

/-- A state that needs more tokens has threads that go on. -/
theorem active_ne_nil_of_visit {s n : State} {t : Nat} (hv : Q.visit s t = .ok (some n)) (hund : n.isUndecided = true) :
    n.active ≠ [] := by
  intro hnil
  have hstuck := (visit_eq_ok_iff.1 hv).2 n rfl
  rw [State.isStuck, hund, hnil] at hstuck
  cases hstuck

/-- The search ends at the end of the input, if no candidate goes on there. -/
theorem Comes.endToken_notMem {s n : State} {ts : List Nat} (h : Comes Q s ts n) (hQ : Q.Faithful)
    (hend : ¬ Q.grammar.Mentions endToken) (halts : ∀ q ∈ Q.conflict.candidates, ∃ s, q ∈ (Q.grammar.symbol s).alts)
    (hs : s.Traced Q) : endToken ∉ ts := by
  induction h with
  | refl => exact List.not_mem_nil
  | visit _ _ hv hrest ih =>
    obtain ⟨hsucc, -⟩ := visit_eq_ok_iff.1 hv
    have htraced := hs.successor hQ hsucc
    refine List.not_mem_cons_of_ne_of_not_mem (fun e => ?_) (ih htraced)
    exact active_ne_nil_of_visit hv hrest.isUndecided
      (active_eq_nil_of_endToken hend halts htraced (by rw [path_of_successor hsucc, ← e]; exact List.mem_cons_self))

/-! ## The walk follows the search -/

/-- A walk that comes to a switch passes the tests in front of a decision without a token. -/
theorem reads_of_prependTests {g : Grammar} {start d d' : Nat} {tests : List Link} {target : Option Target}
    {nodes : List DfaNode} {ts : List Nat} {default? : Option Nat}
    (hat : StandAt T.dfas start (prependTests g start tests target nodes).2)
    (hd : (prependTests g start tests target nodes).1 = some (.dfa d)) (hr : T.program.Reads d ts d')
    (hswitch : T.program.dfa d' = .switch default?) : ∃ d₀, target = some (.dfa d₀) ∧ T.program.Reads d₀ ts d' := by
  induction tests generalizing target nodes with
  | nil => exact ⟨d, hd, hr⟩
  | cons l ls ih =>
    rw [prependTests] at hat hd
    obtain ⟨d₁, e, hr₁⟩ := ih hat hd
    obtain ⟨more, hmore⟩ := exists_prependTests g start ls (some (.dfa (start + nodes.length))) (nodes ++
      [.resolver (g.number l.resolver.node) l.resolver.priority (g.number l.production) target])
    rw [hmore] at hat
    have hnode := (standAt_append (standAt_append hat).1).2 0 _ rfl
    have hstate : T.program.dfa d₁ = .resolver (g.number l.resolver.node) (g.number l.production) target := by
      cases e
      exact Tables.dfa_program hnode
    cases hr₁ with
    | refl => cases hstate.symm.trans hswitch
    | follow h => cases hstate.symm.trans h
    | onward h hr₁ =>
      cases hstate.symm.trans h
      exact ⟨_, rfl, hr₁⟩

/-- Every edge leads to the nodes of a state. -/
theorem exists_edgeTo {emit : Nat → State → Option Target × List DfaNode} {cs : List State} {dfas : Array DfaNode}
    {start : Nat} {e : Nat × Nat} (hat : StandAt dfas start (emitEdges emit start cs).2)
    (he : e ∈ (emitEdges emit start cs).1) :
    ∃ c ∈ cs, ∃ start', StandAt dfas start' (edgeTo c.token start' (emit start' c)).2 ∧
      e ∈ (edgeTo c.token start' (emit start' c)).1 := by
  induction cs generalizing start with
  | nil => exact absurd he List.not_mem_nil
  | cons c cs ih =>
    rw [emitEdges_cons] at hat he
    obtain ⟨hat₀, hat⟩ := standAt_append hat
    rcases List.mem_append.1 he with he | he
    · exact ⟨c, List.mem_cons_self, start, hat₀, he⟩
    · obtain ⟨c', hc', hrest⟩ := ih hat he
      exact ⟨c', List.mem_cons_of_mem _ hc', hrest⟩

/-- A walk along an edge to a switch begins where the decision of the next state does. -/
theorem target_of_edgeTo {token start t d d' : Nat} {ts : List Nat} {default? : Option Nat}
    {block : Option Target × List DfaNode} (hat : StandAt T.dfas start (edgeTo token start block).2)
    (he : (t, d) ∈ (edgeTo token start block).1) (hr : T.program.Reads d ts d')
    (hswitch : T.program.dfa d' = .switch default?) :
    t = token ∧ block.1 = some (.dfa d) := by
  obtain ⟨_ | (d₀ | p), nodes⟩ := block
  · exact absurd he List.not_mem_nil
  · cases List.mem_singleton.1 he
    exact ⟨rfl, rfl⟩
  · cases List.mem_singleton.1 he
    -- nothing is read behind a leaf
    have hleaf : T.program.dfa (start + nodes.length) = .leaf p :=
      Tables.dfa_program (n := .leaf p) ((standAt_append hat).2 0 _ rfl)
    cases hr with
    | refl => cases hleaf.symm.trans hswitch
    | follow h => cases hleaf.symm.trans h
    | onward h => cases hleaf.symm.trans h

/-- The nodes of a state hold the switch of an undecided one, and no other target than that leads to a state. -/
theorem switch_of_target {k start d d' : Nat} {s : State} {inherited : Option Node} {ts : List Nat}
    {default? : Option Nat} (hat : StandAt T.dfas start (Q.emit k start s inherited).2)
    (hd : (Q.emit k start s inherited).1 = some (.dfa d)) (hr : T.program.Reads d ts d')
    (hswitch : T.program.dfa d' = .switch default?) :
    s.isUndecided = true ∧ T.program.Reads start ts d' ∧
      T.dfas[start]? = some (.switch (below Q k s (s.default? <|> inherited) (start + 1)).1
        ((s.default? <|> inherited).map Q.grammar.number)) ∧
      StandAt T.dfas (start + 1) (below Q k s (s.default? <|> inherited) (start + 1)).2 := by
  have hnodes := hat
  rw [emit_eq, emitState] at hnodes hd
  obtain ⟨d₀, htarget, hr₀⟩ := reads_of_prependTests hnodes hd hr hswitch
  cases hv : s.verdict with
  | leaf p => simp [hv] at htarget
  | nothing => simp [hv] at htarget
  | undecided =>
    simp only [hv, Option.some.injEq, Target.dfa.injEq] at htarget
    subst htarget
    have hund : s.isUndecided = true := beq_iff_eq.2 hv
    exact ⟨hund, hr₀, switch_of_standAt hund hat⟩

/-- **A walk that comes to a switch has the search come to a state that needs more tokens.** -/
theorem exists_comes_of_reads {k start d d' : Nat} {s : State} {inherited : Option Node} {ts : List Nat}
    {default? : Option Nat} (hat : StandAt T.dfas start (Q.emit k start s inherited).2)
    (hd : (Q.emit k start s inherited).1 = some (.dfa d)) (hr : T.program.Reads d ts d')
    (hswitch : T.program.dfa d' = .switch default?) : ∃ n, Comes Q s ts n := by
  induction k generalizing start d s inherited ts with
  | zero =>
    obtain ⟨hund, hr, hnode, -⟩ := switch_of_target hat hd hr hswitch
    have hstate := Tables.dfa_program hnode
    cases hr with
    | refl => exact ⟨s, .refl hund⟩
    | follow _ ht =>
      rw [Tables.transition_program hnode] at ht
      cases ht
    | onward h => cases hstate.symm.trans h
  | succ k ih =>
    obtain ⟨hund, hr, hnode, hat⟩ := switch_of_target hat hd hr hswitch
    have hstate := Tables.dfa_program hnode
    cases hr with
    | refl => exact ⟨s, .refl hund⟩
    | @follow _ d₁ _ t ts _ _ ht hrest =>
      rw [Tables.transition_program hnode] at ht
      obtain ⟨l₁, l₂, hedges, -⟩ := List.lookup_eq_some_iff.1 ht
      have he : (t, d₁) ∈ (below Q (k + 1) s (s.default? <|> inherited) (start + 1)).1 := by
        rw [show (below Q (k + 1) s (s.default? <|> inherited) (start + 1)).1 = _ from hedges]
        simp
      cases hcs : Q.children s with
      | error e =>
        simp only [below, hcs] at he
        exact absurd he List.not_mem_nil
      | ok cs =>
        simp only [below, hcs] at he hat
        obtain ⟨c, hc, start', hat', he'⟩ := exists_edgeTo hat he
        obtain ⟨rfl, htarget⟩ := target_of_edgeTo hat' he' hrest hswitch
        obtain ⟨n, hn⟩ := ih (standAt_of_edgeTo hat') htarget hrest
        obtain ⟨a, ha, hv⟩ := exists_visit_of_mem_children hcs hc
        have htoken : c.token = a := token_of_successor (visit_eq_ok_iff.1 hv).1
        exact ⟨n, .visit hund (htoken ▸ ha) (htoken ▸ hv) hn⟩
    | onward h => cases hstate.symm.trans h

end Decision

/-! ## Built tables -/

namespace Tables

variable {g : Grammar} {limits : Limits} {T : Tables}

/-- A walk that begins where a conflict is decided follows the search for its decision. -/
theorem exists_comes_of_decision (hb : g.build limits = .ok T) {n d : Nat} (hd : T.program.instruction n = .decision d) :
    ∃ s t c, (PredictionTable.fill g g.analyze).cell s t = .conflict c ∧ T.program.lookup s t = some n ∧
      let Q := g.problem limits c
      Decision.Decided Q Q.limit Q.root ∧ ∀ {d' ts default?}, T.program.Reads d ts d' →
        T.program.dfa d' = .switch default? → ∃ n, Decision.Comes Q Q.root ts n := by
  obtain ⟨s, t, c, nodes, asked, hcell, hn, hresolve, hat⟩ := conflict_of_decision hb hd
  let Q := g.problem limits c
  obtain rfl := (Decision.candidate_of_resolve (Q := Q) Decision.faithful_problem hresolve).2 nodes rfl
  have hroot := Decision.emit_undecided (Q := Q) Q.limit d none (Decision.isUndecided_root (Q := Q) hcell) rfl
  refine ⟨s, t, c, hcell, hn, Decision.decided_of_resolve hresolve, fun hr hswitch => ?_⟩
  exact Decision.exists_comes_of_reads hat (by rw [hroot]) hr hswitch

/-- **A decision inspects at most as many tokens as the limit of its conflict allows,** counting those that it inspected
before a resolver failed. -/
theorem length_le_of_reads (hb : g.build limits = .ok T) {n d : Nat} (hd : T.program.instruction n = .decision d) :
    ∃ s t c, (PredictionTable.fill g g.analyze).cell s t = .conflict c ∧ T.program.lookup s t = some n ∧
      ∀ ts d', T.program.Reads d ts d' → ts.length ≤ c.limit g limits ∧
        ∀ default?, T.program.dfa d' = .switch default? → ts.length < c.limit g limits := by
  obtain ⟨s, t, c, hcell, hn, hdec, hcomes⟩ := exists_comes_of_decision hb hd
  have hlt : ∀ {ts d' default?}, T.program.Reads d ts d' → T.program.dfa d' = .switch default? →
      ts.length < c.limit g limits := fun hr hswitch => by
    obtain ⟨n, hn⟩ := hcomes hr hswitch
    exact hn.length_lt hdec
  refine ⟨s, t, c, hcell, hn, fun ts d' hr => ⟨?_, fun _ => hlt hr⟩⟩
  -- the last token was followed from a switch
  rcases List.eq_nil_or_concat ts with rfl | ⟨us, u, rfl⟩
  · exact Nat.zero_le _
  · rw [List.concat_eq_append] at hr ⊢
    obtain ⟨d₁, default?, hr₁, hd₁⟩ := hr.exists_of_append (List.cons_ne_nil _ _)
    rw [List.length_append]
    exact hlt hr₁ hd₁

/-- **No decision inspects a token behind the end of the input,** if no production goes on there. -/
theorem endToken_notMem_of_reads (hb : g.build limits = .ok T) (hend : ¬ g.Mentions endToken) {n d d' : Nat} {ts : List Nat}
    {default? : Option Nat} (hd : T.program.instruction n = .decision d) (hr : T.program.Reads d ts d')
    (hswitch : T.program.dfa d' = .switch default?) : endToken ∉ ts := by
  obtain ⟨s, t, c, hcell, -, -, hcomes⟩ := exists_comes_of_decision hb hd
  obtain ⟨n, hn⟩ := hcomes hr hswitch
  have hq : ∀ q ∈ c.candidates, q ∈ (g.symbol s).alts := fun q hq =>
    ((PredictionTable.mem_conflict hcell).1 hq).1
  exact hn.endToken_notMem Decision.faithful_problem hend (fun q hm => ⟨s, hq q hm⟩) (Decision.State.traced_root _)

end Tables

end PredictiveParser
