import PredictiveParser.Proofs.Ambiguity
import PredictiveParser.Proofs.Decision.Rivals

/-!
# Decisions inside the text of a candidate

A walk through a decision that only inspects the tokens of a text ends where it commits to a production, where it takes a
default or fails, or where the text does. As long as the text is that of a candidate, a thread of the candidate matches
what is left of it (`Matching.step`). So the walk commits to the candidate, or it is still undecided when the text ends
(`Tables.predict_of_derives`).
-/

namespace PredictiveParser

/-! ## Walks over a text -/

namespace Program

/-- Where a walk through a decision ends. -/
inductive Walk
  /-- It commits to a production. -/
  | committed (production : Nat)
  /-- The text is exhausted in a state that needs more tokens. -/
  | undecided (d : Nat)
  /-- It takes the default of a state. -/
  | defaulted (production : Nat)
  /-- No production is predicted, or a state has neither a transition nor a default. -/
  | failed
  /-- It comes to the test of a resolver. -/
  | tested (d : Nat)
  deriving DecidableEq

variable (P : Program)

/-- The walk from a state over a text. -/
def walk (d : Nat) : List Nat → Walk
  | [] =>
    match P.dfa d with
    | .leaf n => .committed n
    | .switch _ => .undecided d
    | .resolver .. => .tested d
  | x :: u =>
    match P.dfa d with
    | .leaf n => .committed n
    | .switch default? =>
      match P.transition d x with
      | some d' => walk d' u
      | none => default?.elim .failed .defaulted
    | .resolver .. => .tested d

/-- The walk through what is predicted for a symbol on the first token of a text. -/
def predict (s : Nat) (u : List Nat) : Walk :=
  match P.lookup s (u.headD endToken) with
  | none => .failed
  | some n =>
    match P.instruction n with
    | .decision d => P.walk d u
    | _ => .committed n

/-- The walk has committed to the production, or has only run out of text. -/
def Walk.Keeps (w : Walk) (n : Nat) : Prop :=
  w = .committed n ∨ ∃ d, w = .undecided d

variable {P} {d n : Nat}

theorem walk_leaf (h : P.dfa d = .leaf n) (u : List Nat) : P.walk d u = .committed n := by
  cases u <;> rw [walk, h]

theorem walk_nil {default? : Option Nat} (h : P.dfa d = .switch default?) : P.walk d [] = .undecided d := by
  rw [walk, h]

theorem walk_cons {x d' : Nat} {u : List Nat} {default? : Option Nat} (h : P.dfa d = .switch default?)
    (ht : P.transition d x = some d') : P.walk d (x :: u) = P.walk d' u := by
  rw [walk, h]
  simp only [ht]

end Program

namespace Decision

variable {Q : Problem} {T : Tables} {p : Node} {a : Nat} {w : List Nat}

/-! ## Threads of the candidate match the text -/

/-- A thread of the candidate matches the text. -/
def Matching (Q : Problem) (p : Node) (u : List Nat) (s : State) : Prop :=
  ∃ t ∈ s.active, t.production = p ∧ (∀ i ∈ t.items Q.grammar, Q.grammar.HasItem i ∧ i ≠ .token anyToken) ∧
    Q.grammar.analyze.Linked Q.grammar (t.items Q.grammar) ∧ Q.grammar.Derives (t.items Q.grammar) u

/-- At first a candidate matches all of its texts. -/
theorem matching_root {s : Nat} (hQ : Plain Q) (hp : p ∈ Q.conflict.candidates) (halt : p ∈ (Q.grammar.symbol s).alts)
    (hw : Q.grammar.Derives (Q.grammar.items p) w) : Matching Q p w Q.root := by
  obtain ⟨i, hi⟩ := List.mem_iff_getElem?.1 hp
  have e : Thread.items Q.grammar { production := p, order := i, stack := [p] } = Q.grammar.items p := by
    rw [Thread.items, List.flatMap_singleton]
  refine ⟨_, mem_active_root.2 ⟨i, p, hi, rfl⟩, rfl, ?_, ?_, ?_⟩
  · exact e ▸ hQ.wellFormed.proper_alt hQ.wildcard halt
  · exact e ▸ hQ.wellFormed.closed.linked_items (hQ.wellFormed.hasNode_alt halt)
  · exact e ▸ hw

/-- **The next token of the text leaves a thread of the candidate, which matches what is left of the text.** -/
theorem Matching.step {s : State} {next? : Option State} (h : Matching Q p (a :: w) s) (hQ : Plain Q)
    (hs : Q.successor s a = .ok next?) (hlt : a < Q.grammar.tokenCount) (hany : a ≠ anyToken) :
    ∃ n, next? = some n ∧ n.path = a :: s.path ∧ (∃ t ∈ n.deciding, t.production = p) ∧ (w ≠ [] → Matching Q p w n) := by
  obtain ⟨t, ht, hp, hproper, hlinked, hderives⟩ := h
  have hg := hQ.wellFormed
  obtain ⟨f, hf, hleaves⟩ := Grammar.Leads.exists_grows hderives
  have htoward : Toward Q.grammar Q.grammar.analyze a t.fresh f := by
    refine ⟨hproper, hlinked, hf, fun x v e => ?_, fun e => ?_⟩
    · rw [hleaves] at e
      exact (List.cons.inj e).1.symm
    · rw [hleaves] at e
      cases e
  have hrest : f.behind.leaves = w := by rw [Forest.leaves_behind, hleaves, List.tail_cons]
  cases (expands_of_successor hs t ht).follows_of_toward hQ rfl htoward hlt hany with
  | exhausted hl =>
    rw [hleaves] at hl
    cases hl
  | @completed u _ hb hm hset =>
    obtain ⟨n, rfl, hu⟩ := exists_keeps_of_settles hs ht hset fun u' hu' => by cases hu'; rw [hm]; decide
    refine ⟨n, rfl, path_of_successor hs, ⟨u, ?_, (hset.production_eq hQ.faithful).trans hp⟩, fun hw => absurd ?_ hw⟩
    · exact List.mem_append_left _ (List.mem_append_right _ hu)
    · rw [← hrest, hb]
      rfl
  | @active u _ hb hm hgrows hset =>
    obtain ⟨n, rfl, hu⟩ := exists_keeps_of_settles hs ht hset fun u' hu' => by cases hu'; rw [hm]; decide
    have hup : u.production = p := (hset.production_eq hQ.faithful).trans hp
    obtain ⟨v, -, hl⟩ := hset.leads hQ.faithful rfl
    refine ⟨n, rfl, path_of_successor hs, ⟨u, List.mem_append_right _ hu, hup⟩, fun _ => ⟨u, hu, hup, ?_, ?_, hrest ▸ hgrows.leads⟩⟩
    · exact hl.forall_mem (fun _ _ => hg.proper_alt hQ.wildcard) hproper
    · exact hlinked.leads hg.closed hg hl

/-! ## The walk keeps to the candidate -/

/-- **Over a text that the candidate matches the walk keeps to the candidate.** -/
theorem keeps_of_matching {k start : Nat} {s : State} {inherited : Option Node} (hQ : Plain Q)
    (hmatch : Matching Q p (a :: w) s) (hrange : ∀ x ∈ a :: w, x < Q.grammar.tokenCount ∧ x ≠ anyToken)
    (hund : s.isUndecided = true) (htok : a ∈ Q.tokensAt s) (hdec : Decided Q k s)
    (hat : StandAt T.dfas start (Q.emit k start s inherited).2) :
    (T.program.walk start (a :: w)).Keeps (Q.grammar.number p) := by
  induction k generalizing a w s start inherited with
  | zero => exact absurd hdec id
  | succ k ih =>
  obtain ⟨cs, hcs, hdec⟩ := hdec
  obtain ⟨⟨hlt, hany⟩, hrange'⟩ := List.forall_mem_cons.1 hrange
  obtain ⟨next?, hvisit, hchild⟩ := visit_of_children hcs htok
  obtain ⟨hsucc, -⟩ := visit_eq_ok_iff.1 hvisit
  obtain ⟨n, rfl, hpath, ⟨t, ht, htp⟩, hmatch'⟩ := hmatch.step hQ hsucc hlt hany
  have hred' := redirected_of_successor hQ.resolvers hsucc
  have hn := hchild n rfl
  have htoken : n.token = a := by rw [State.token, hpath]; rfl
  obtain ⟨default?, start', inherited', hswitch, hblock, hedge⟩ := edge_of_child hund hcs hn htoken hat
  rcases n.verdict_cases with hund' | ⟨p', hv⟩ | hnil
  · -- the decision goes on in the next state
    obtain ⟨hlookup, hat'⟩ := edge_of_undecided hund' hred' hblock
    rw [Program.walk_cons hswitch (hedge.trans hlookup)]
    cases w with
    | nil => exact .inr ⟨start', Program.walk_nil (Tables.dfa_program (switch_of_standAt hund' hat').1)⟩
    | cons b w =>
      obtain ⟨hlt', hany'⟩ := hrange' b List.mem_cons_self
      refine ih (hmatch' (List.cons_ne_nil _ _)) hrange' hund' ?_ (hdec n hn hund') hat'
      exact mem_tokensAt (by rw [hpath]; exact List.cons_ne_nil _ _) hlt' hany'
  · -- the next state decides
    obtain rfl : p' = p := (State.production_eq_of_verdict hv ht).symm.trans htp
    obtain ⟨hlookup, hleaf⟩ := edge_of_leaf hv hred' hblock
    rw [Program.walk_cons hswitch (hedge.trans hlookup)]
    exact .inl (Program.walk_leaf hleaf w)
  · rw [hnil] at ht
    exact absurd ht List.not_mem_nil

end Decision

namespace Tables

variable {g : Grammar} {limits : Limits} {T : Tables}

/-- **A decision never goes wrong inside the text of a candidate:** the walk over it neither fails nor takes a default nor
commits to another production. -/
theorem predict_of_derives (hg : g.WellFormed) (hres : ∀ x ∈ g.symbols, x.resolver = none) (hany : ¬ g.Mentions anyToken)
    (hb : g.build limits = .ok T) {s t : Nat} {c : Conflict}
    (hcell : (PredictionTable.fill g g.analyze).cell s t = .conflict c) {p : Node} (hp : p ∈ c.candidates) {z : List Nat}
    (hz : g.Derives (g.items p) (t :: z)) :
    T.program.predict s (t :: z) = .committed (g.number p) ∨ ∃ d, T.program.predict s (t :: z) = .undecided d := by
  obtain ⟨hs, ht, -, htoken⟩ := PredictionTable.conflict_fill hcell
  have halt : p ∈ (g.symbol s).alts := ((PredictionTable.mem_conflict hcell).1 hp).1
  have hrange : ∀ x ∈ t :: z, x < g.tokenCount ∧ x ≠ anyToken := hz.terminals hg hany (hg.proper_alt hany halt)
  have hne : t ≠ anyToken := (hrange t List.mem_cons_self).2
  have hpred := predicts_of_build hb hs ht
  rw [hcell] at hpred
  obtain ⟨start, resolution, asked, hresolve, hpred⟩ := hpred
  let Q := g.problem limits c
  have hQ : Decision.Plain Q := Decision.plain_problem hg limits c hany hres
  have hmatch : Decision.Matching Q p (t :: z) Q.root := Decision.matching_root hQ hp halt hz
  cases resolution with
  | production b =>
    obtain rfl : b = p := by
      refine Decision.production_of_resolve (Q := Q) hresolve fun next? hsucc => ?_
      rw [show Q.conflict.token = t from htoken] at hsucc
      obtain ⟨n, hn, -, hmem, -⟩ := hmatch.step hQ hsucc ht hne
      exact ⟨n, hn, hmem⟩
    refine .inl ?_
    rw [Program.predict, List.headD_cons, show T.program.lookup s t = _ from hpred]
    dsimp only
    rw [instruction_of_build hb (hg.hasNode_alt halt)]
    split
    · next h => exact absurd h (Grammar.instructionOf_ne_decision b _)
    · rfl
  | automaton nodes =>
    obtain ⟨n, hn, hdecision, hat⟩ := hpred
    rw [(Decision.candidate_of_resolve hQ.faithful hresolve).2 nodes rfl] at hat
    have hkeeps : (T.program.walk start (t :: z)).Keeps (g.number p) := by
      refine Decision.keeps_of_matching hQ hmatch hrange (Decision.isUndecided_root (Q := Q) hcell) ?_
        (Decision.decided_of_resolve hresolve) hat
      exact htoken ▸ List.mem_singleton_self _
    rw [Program.predict, List.headD_cons, show T.program.lookup s t = some n from hn]
    dsimp only
    rw [show T.program.instruction n = .decision start from hdecision]
    exact hkeeps

end Tables

namespace Grammar

/-- Over the text `a b` of its second candidate the decision for `A` on `a` keeps to that candidate. -/
theorem overlapping_predict : ∃ T c, overlapping.build = .ok T ∧
    (PredictionTable.fill overlapping overlapping.analyze).cell 1 2 = .conflict c ∧ .sequence 1 ∈ c.candidates ∧
    overlapping.Derives (overlapping.items (.sequence 1)) [2, 3] ∧
    (T.program.predict 1 [2, 3] = .committed (overlapping.number (.sequence 1)) ∨
      ∃ d, T.program.predict 1 [2, 3] = .undecided d) := by
  obtain ⟨T, hT⟩ : ∃ T, overlapping.build = .ok T := exists_build (by decide +kernel)
  have hcell : (PredictionTable.fill overlapping overlapping.analyze).cell 1 2 =
      .conflict ⟨1, 2, [Item.token 2, .sequence 1]⟩ := by decide +kernel
  have hz : overlapping.Derives (overlapping.items (.sequence 1)) [2, 3] := .token rfl (.token rfl (.refl []))
  exact ⟨T, _, hT, hcell, by decide, hz,
    Tables.predict_of_derives (by decide) (by decide) (by decide) hT hcell (by decide) hz⟩

end Grammar

end PredictiveParser
