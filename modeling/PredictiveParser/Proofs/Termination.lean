import Mathlib.Data.Fintype.EquivFin
import PredictiveParser.Proofs.Decision.LeftRecursion
import PredictiveParser.Proofs.Machine.Completeness
import PredictiveParser.Proofs.Machine.Termination

/-!
# When tables make the parser stop

Built tables have finitely many nodes, so every token is answered if none of their nodes comes before itself
(`answered_of_build`). Building does not check that. It holds for grammars in which no symbol considers itself
(`not_circular_of_considers`), and among grammars without resolvers for those all of whose symbols are reachable and
productive (`not_considers_of_productive`), since left recursion is refused there. It can fail otherwise: the grammar
`endless` has tables, but its start symbol derives no text, and the parser enters it again and again on one token
(`endless_hangs`).
-/

namespace PredictiveParser

open Relation

/-- A relation that leads on from finitely many numbers only, and from none of them back, does not lead on forever. -/
theorem wellFounded_of_not_circular {r : Nat → Nat → Prop} {N : Nat} (hlt : ∀ {n m}, r n m → n < N)
    (hr : ∀ n, ¬ TransGen r n n) : WellFounded fun m n => r n m := by
  let below : Fin N → Fin N → Prop := fun m n => TransGen r n m
  have : IsTrans (Fin N) below := ⟨fun _ _ _ h h' => h'.trans h⟩
  have : Std.Irrefl below := ⟨fun n => hr n⟩
  have hbelow : WellFounded below := Finite.wellFounded_of_trans_of_irrefl below
  have hacc : ∀ n : Fin N, Acc (fun m n => r n m) n.val := fun n => by
    induction n using hbelow.induction with
    | _ n ih =>
      refine .intro _ fun m hm => ?_
      by_cases h : m < N
      · exact ih ⟨m, h⟩ (.single hm)
      · exact .intro _ fun k hk => absurd (hlt hk) h
  refine ⟨fun n => ?_⟩
  by_cases h : n < N
  · exact hacc ⟨n, h⟩
  · exact .intro _ fun k hk => absurd (hlt hk) h

/-- Where a relation does not lead on forever it does not lead back. -/
theorem not_transGen_of_acc {r : Nat → Nat → Prop} {n : Nat} (h : Acc (fun m n => r n m) n) : ¬ TransGen r n n := by
  induction h with
  | intro n _ ih =>
    intro hn
    obtain ⟨m, hm, hmn⟩ := TransGen.head'_iff.1 hn
    exact ih m hm (.tail' hmn hm)

namespace Grammar

variable {g : Grammar}

/-- Items derive the empty text if each of them does. -/
theorem derives_nil {is : List Item} (h : ∀ i ∈ is, g.Derives [i] []) : g.Derives is [] := by
  induction is with
  | nil => exact .refl []
  | cons i is ih =>
    obtain ⟨hi, his⟩ := List.forall_mem_cons.1 h
    exact derives_append_nil.2 ⟨hi, ih his⟩

end Grammar

namespace Tables

variable {g : Grammar} {limits : Limits} {T : Tables} {t : Nat}

/-! ## Tables without circles -/

/-- Tables have finitely many nodes. -/
theorem wellFounded_opens (hc : ¬ T.program.Circular) (t : Nat) : WellFounded fun m n => T.program.Opens t n m := by
  refine wellFounded_of_not_circular (N := T.nodes.size) (fun {n m} h => ?_) fun n hn => hc ⟨t, n, hn⟩
  refine Decidable.byContradiction fun hge => ?_
  have hn : T.program.instruction n = .epsilon := by
    simp [program, instruction, Array.getElem?_eq_none (Nat.le_of_not_lt hge)]
  cases h with
  | production hn' | part hn' | decided hn' | asked hn' => cases hn.symm.trans hn'

/-! ## What vanishes and opens in built tables -/

/-- The node derives the empty text if it is one of the grammar. -/
def Erases (g : Grammar) (n : Nat) : Prop :=
  ∀ x, g.HasNode x → n = g.number x → g.Derives (g.items x) []

section Nodes

variable (hg : g.WellFormed) (hb : g.build limits = .ok T)

include hb

/-- What is taken for a symbol is one of its alternatives, or a decision between its alternatives that only asks for the
resolvers of symbols that it begins with. -/
theorem decision_of_taken {a n : Nat} (h : (T.program.lookup a t <|> T.program.emptyProduction a) = some n) :
    (∃ p ∈ (g.symbol a).alts, n = g.number p) ∨ ∃ d, T.program.instruction n = .decision d ∧
      (∀ m, T.program.Decides d m → ∃ p ∈ (g.symbol a).alts, m = g.number p) ∧
      ∀ m, T.program.Asks d m → ∃ b r, TransGen g.Begins a b ∧ (g.symbol b).resolver = some r ∧ m = g.number r.node := by
  cases hl : T.program.lookup a t with
  | some q =>
    rw [hl] at h
    cases h
    exact decision_of_lookup hb hl
  | none =>
    rw [hl] at h
    exact .inl (alternative_of_empty hb h)

include hg

/-- A node of the grammar that vanishes derives the empty text, and a decision that vanishes falls on such a node. -/
theorem erases_of_vanishes {n : Nat} (h : T.program.Vanishes t n) :
    Erases g n ∧ ∀ d, T.program.instruction n = .decision d → ∃ p, T.program.Decides d p ∧ Erases g p := by
  induction h with
  | epsilon hn | action hn | argument hn | beacon hn =>
    refine ⟨?_, fun d hd => nomatch hn.symm.trans hd⟩
    rintro x hx rfl
    rw [instruction_of_build hb hx] at hn
    cases x with
    | epsilon => exact .refl []
    | sequence q => cases hn
    | item i =>
      cases i with
      | token | symbol => cases hn
      | action | argument | beacon => exact .silent rfl (.refl [])
  | sequence hn _ ih =>
    refine ⟨?_, fun d hd => nomatch hn.symm.trans hd⟩
    rintro x hx rfl
    rw [instruction_of_build hb hx] at hn
    obtain ⟨q, rfl, rfl⟩ := Grammar.eq_sequence_of_instructionOf hn
    exact Grammar.derives_nil fun i hi =>
      (ih _ (List.mem_map_of_mem hi)).1 (.item i) (hg.hasItem_sequence hi) rfl
  | symbol hn hp _ ih =>
    refine ⟨?_, fun d hd => nomatch hn.symm.trans hd⟩
    rintro x hx rfl
    rw [instruction_of_build hb hx] at hn
    obtain rfl := Grammar.eq_item_of_instructionOf (.symbol _) hn
    rcases decision_of_taken hb hp with ⟨q, hq, e⟩ | ⟨d, hd, hdecides, -⟩
    · exact .symbol hq (by rw [List.append_nil]; exact ih.1 q (hg.hasNode_alt hq) e)
    · obtain ⟨m, hm, hderives⟩ := ih.2 d hd
      obtain ⟨q, hq, e⟩ := hdecides m hm
      exact .symbol hq (by rw [List.append_nil]; exact hderives q (hg.hasNode_alt hq) e)
  | decision hn hd _ ih =>
    refine ⟨?_, fun d' hd' => ?_⟩
    · rintro x hx rfl
      rw [instruction_of_build hb hx] at hn
      exact absurd hn (Grammar.instructionOf_ne_decision x _)
    · cases hn.symm.trans hd'
      exact ⟨_, hd, ih.1⟩

/-- What a node of the grammar opens: a symbol what is taken for it, and a sequence an item behind others that derive the
empty text. -/
theorem opens_cases {x : Node} {m : Nat} (hx : g.HasNode x) (h : T.program.Opens t (g.number x) m) :
    (∃ a, x = Item.symbol a ∧ (T.program.lookup a t <|> T.program.emptyProduction a) = some m) ∨
      ∃ q pre i post, x = .sequence q ∧ g.items x = pre ++ i :: post ∧ m = g.number (.item i) ∧ g.Derives pre [] := by
  have hinstruction := instruction_of_build hb hx
  cases h with
  | production hn hp => exact .inl ⟨_, Grammar.eq_item_of_instructionOf (.symbol _) (hinstruction.symm.trans hn), hp⟩
  | part hn hpre =>
    obtain ⟨q, rfl, hparts⟩ := Grammar.eq_sequence_of_instructionOf (hinstruction.symm.trans hn)
    obtain ⟨is, js, hq, rfl, hjs⟩ := List.map_eq_append_iff.1 hparts.symm
    obtain ⟨i, js, rfl, hi, -⟩ := List.map_eq_cons_iff.1 hjs
    refine .inr ⟨q, is, i, js, rfl, hq, hi.symm, Grammar.derives_nil fun j hj => ?_⟩
    have hj' : g.HasItem j := hg.hasItem_sequence (q := q) (by rw [hq]; exact List.mem_append_left _ hj)
    exact (erases_of_vanishes hg hb (hpre _ (List.mem_map_of_mem hj))).1 (.item j) hj' rfl
  | decided hn | asked hn =>
    exact absurd (hinstruction.symm.trans hn) (Grammar.instructionOf_ne_decision x _)

/-! ## Nothing leads on forever -/

/-- Nothing leads on forever from a node if nothing does from its symbols behind items that derive the empty text. -/
theorem acc_node {x : Node} (hx : g.HasNode x) (hsymbol : ∀ pre a post, g.items x = pre ++ .symbol a :: post →
      g.Derives pre [] → Acc (fun m n => T.program.Opens t n m) (g.number (Item.symbol a))) :
    Acc (fun m n => T.program.Opens t n m) (g.number x) := by
  have hitem : ∀ pre i post, g.items x = pre ++ i :: post → g.Derives pre [] →
      Acc (fun m n => T.program.Opens t n m) (g.number (.item i)) := by
    intro pre i post e hpre
    have hi : g.HasItem i := hg.hasItem_items hx (e ▸ List.mem_append_right _ List.mem_cons_self)
    have hinstruction := instruction_of_build hb (n := .item i) hi
    cases i with
    | symbol a => exact hsymbol pre a post e hpre
    | token | action | argument | beacon =>
      refine .intro _ fun m hm => ?_
      cases hm with
      | production hn | part hn | decided hn | asked hn => cases hinstruction.symm.trans hn
  cases x with
  | item i => exact hitem [] i [] rfl (.refl [])
  | epsilon | sequence =>
    refine .intro _ fun m hm => ?_
    rcases opens_cases hg hb hx hm with ⟨a, e, -⟩ | ⟨q, pre, i, post, -, e, rfl, hpre⟩
    · cases e
    · exact hitem pre i post e hpre

/-- **Nothing leads on forever from a symbol** if symbols do not consider symbols forever. -/
theorem acc_symbol (hconsiders : WellFounded fun b a => g.Considers a b) {a : Nat} (ha : a < g.symbolCount) :
    Acc (fun m n => T.program.Opens t n m) (g.number (Item.symbol a)) := by
  induction a using hconsiders.transGen.induction with
  | _ a ih =>
    have hnext : ∀ b, TransGen g.Considers a b → b < g.symbolCount →
        Acc (fun m n => T.program.Opens t n m) (g.number (Item.symbol b)) := fun b hab =>
      ih b (transGen_swap.1 hab)
    have halt : ∀ p ∈ (g.symbol a).alts, Acc (fun m n => T.program.Opens t n m) (g.number p) := fun p hp =>
      acc_node hg hb (hg.hasNode_alt hp) fun pre b post e hpre =>
        have hab : g.Considers a b := .inl ⟨p, hp, pre, post, e, hpre⟩
        hnext b (.single hab) (hab.lt hg)
    refine .intro _ fun m hm => ?_
    rcases opens_cases hg hb (x := Item.symbol a) ha hm with ⟨a', e, htaken⟩ | ⟨q, pre, i, post, e, -⟩
    · cases e
      rcases decision_of_taken hb htaken with ⟨p, hp, rfl⟩ | ⟨d, hd, hdecides, hasks⟩
      · exact halt p hp
      · refine .intro _ fun k hk => ?_
        cases hk with
        | production hn | part hn => cases hd.symm.trans hn
        | decided hn hdecided =>
          cases hd.symm.trans hn
          obtain ⟨p, hp, rfl⟩ := hdecides k hdecided
          exact halt p hp
        | asked hn hasked =>
          cases hd.symm.trans hn
          obtain ⟨b, r, hab, hr, rfl⟩ := hasks k hasked
          refine acc_node hg hb (hg.hasNode_resolver hr) fun pre c post e hpre => ?_
          have hbc : g.Considers b c := .inr ⟨r, hr, pre, post, e, hpre⟩
          have hab' : TransGen g.Considers a b := TransGen.mono (fun _ _ h => .inl h) a b hab
          exact hnext c (hab'.tail hbc) (hbc.lt hg)
    · cases e

/-- **Tables are not circular if no symbol considers itself.** -/
theorem not_circular_of_considers (hconsiders : ∀ s, ¬ TransGen g.Considers s s) : ¬ T.program.Circular := by
  rintro ⟨t, n, hn⟩
  have hwf : WellFounded fun b a => g.Considers a b := wellFounded_of_not_circular Grammar.Considers.lt_left hconsiders
  have hnode : ∀ x, g.HasNode x → Acc (fun m n => T.program.Opens t n m) (g.number x) := fun x hx =>
    acc_node hg hb hx fun pre a post e _ =>
      acc_symbol hg hb hwf (hg.hasItem_items hx (i := .symbol a) (e ▸ List.mem_append_right _ List.mem_cons_self))
  have hacc : Acc (fun m n => T.program.Opens t n m) n := by
    rcases instruction_cases hb n with ⟨x, hx, rfl⟩ | hn | ⟨d, hn⟩
    · exact hnode x hx
    · refine .intro _ fun m hm => ?_
      cases hm with
      | production hn' | part hn' | decided hn' | asked hn' => cases hn.symm.trans hn'
    · refine .intro _ fun m hm => ?_
      cases hm with
      | production hn' | part hn' => cases hn.symm.trans hn'
      | decided _ hdecided =>
        obtain ⟨q, hq, rfl⟩ := node_of_decides hg hb hdecided
        exact hnode q hq
      | asked _ hasked =>
        obtain ⟨s, r, hr, rfl⟩ := resolver_of_asks hb hasked
        exact hnode r.node (hg.hasNode_resolver hr)
  exact not_transGen_of_acc hacc hn

/-- **Without resolvers no symbol of a productive grammar with tables considers itself.** -/
theorem not_considers_of_productive (hres : ∀ x ∈ g.symbols, x.resolver = none) (hP : g.Productive) (s : Nat) :
    ¬ TransGen g.Considers s s := by
  intro hs
  have hs' : TransGen g.Begins s s := by
    refine TransGen.mono (fun a b hab => hab.resolve_right ?_) s s hs
    rintro ⟨r, hr, -⟩
    rw [Grammar.resolver_symbol hres] at hr
    cases hr
  obtain ⟨b, ⟨p, hp, -⟩, -⟩ := TransGen.head'_iff.1 hs'
  exact Grammar.not_onCircle hg hres hb hs' hP (Grammar.symbol_lt_of_mem_alts hp)

end Nodes

end Tables

namespace Machine

variable {σ τ : Type} [Terminal τ] {g : Grammar} {limits : Limits} {T : Tables}

/-- **Every token is answered if the tables are not circular, or if no symbol considers itself, or if there are no resolvers
and all symbols are reachable and productive.** This holds for every host, after every history of calls, for every token. -/
theorem answered_of_build (hg : g.WellFormed) (hb : g.build limits = .ok T)
    (hc : ¬ T.program.Circular ∨ (∀ s, ¬ TransGen g.Considers s s) ∨
      (∀ x ∈ g.symbols, x.resolver = none) ∧ g.Productive)
    {H : Host σ τ} {p : Parser σ τ} {past : List τ} (hp : p.Reachable T.program H past) (t : τ) :
    ∃ fuel a q, p.feed T.program H fuel t = some (a, q) := by
  have hc' : ¬ T.program.Circular := by
    rcases hc with hc | hconsiders | ⟨hres, hP⟩
    · exact hc
    · exact Tables.not_circular_of_considers hg hb hconsiders
    · exact Tables.not_circular_of_considers hg hb (Tables.not_considers_of_productive hg hb hres hP)
  exact hp.exists_feed (Tables.falls_of_build hb) (Tables.wellFounded_opens hc') t

/-- Any number of `a` and a `b`: `S → a S | b`. -/
def repeated : Grammar where
  tokens := .letters
  symbols := #[{ name := "S", alts := [.sequence 0, Item.token 3] }]
  sequences := #[[.token 2, .symbol 0]]
  actions := {}
  arguments := {}
  beacons := {}
  start := 0

theorem repeated_answered : repeated.WellFormed ∧ (∀ x ∈ repeated.symbols, x.resolver = none) ∧ repeated.Productive ∧
    ∃ T fuel a, ∃ q : Parser Unit Nat, repeated.build = .ok T ∧
      (Parser.start T.program 0 true ⟨{}, ()⟩ : Parser Unit Nat).feed T.program Host.silent fuel 2 = some (a, q) := by
  obtain ⟨T, hT⟩ : ∃ T, repeated.build = .ok T := Grammar.exists_build (by decide +kernel)
  have hg : repeated.WellFormed := by decide
  have hres : ∀ x ∈ repeated.symbols, x.resolver = none := by decide
  have hP : repeated.Productive := by
    refine ⟨fun s hs => ?_, fun s hs => ?_, fun h => absurd h (by decide)⟩
    · obtain rfl : s = 0 := Nat.lt_one_iff.1 hs
      exact .refl
    · obtain rfl : s = 0 := Nat.lt_one_iff.1 hs
      refine ⟨[3], .symbol (p := Item.token 3) (by decide) (.token (by decide) (.refl [])), ?_⟩
      exact List.forall_mem_singleton.2 ⟨by decide, by decide⟩
  have hp : (Parser.start T.program 0 true ⟨{}, ()⟩ : Parser Unit Nat).Reachable T.program Host.silent [] :=
    (Parser.Reachable.new ()).start 0 true
  obtain ⟨fuel, a, q, h⟩ := answered_of_build hg hT (.inr (.inr ⟨hres, hP⟩)) hp 2
  exact ⟨hg, hres, hP, T, fuel, a, q, hT, h⟩

/-! ## A parser that does not stop -/

section Endless

variable {P : Program} {H : Host σ τ} {s s' : State τ} {h h' : σ}

/-- After steps less fuel is needed. -/
theorem Steps.exists_run_le (hs : Steps P H s h s' h') {fuel : Nat} {stop : Stop σ τ}
    (hr : Machine.run P H fuel s h = some stop) : ∃ fuel' ≤ fuel, Machine.run P H fuel' s' h' = some stop := by
  induction hs generalizing fuel with
  | refl => exact ⟨fuel, Nat.le_refl _, hr⟩
  | head hv _ ih =>
    cases fuel with
    | zero => cases hr
    | succ fuel =>
      rw [Machine.run, hv] at hr
      obtain ⟨fuel', hle, hr'⟩ := ih hr
      exact ⟨fuel', Nat.le_succ_of_le hle, hr'⟩

/-- A run does not end if from every state with the property the machine comes to another one. -/
theorem run_eq_none_of_returns {A : State τ → Prop} (hA : ∀ s h, A s → (step P H s h).verdict = .proceed ∧
      ∃ s' h', Steps P H (step P H s h).state (step P H s h).host s' h' ∧ A s') (hs : A s) (fuel : Nat) :
    run P H fuel s h = none := by
  induction fuel using Nat.strong_induction_on generalizing s h with
  | _ fuel ih =>
    cases fuel with
    | zero => rfl
    | succ fuel =>
      obtain ⟨hv, s', h', hsteps, hs'⟩ := hA s h hs
      rw [run, hv]
      dsimp only
      cases hr : run P H fuel (step P H s h).state (step P H s h).host with
      | none => rfl
      | some stop =>
        obtain ⟨fuel', hle, hr'⟩ := hsteps.exists_run_le hr
        rw [ih fuel' (Nat.lt_succ_of_le hle) hs'] at hr'
        cases hr'

/-- From where the machine has matched `k` tokens of the window and the stack is left it comes to the property. -/
def Leads (P : Program) (H : Host σ τ) (w : TokenWindow τ) (A : State τ → Prop) (k : Nat) (stack : List Frame) : Prop :=
  ∀ s h, s.window = w → Stands s k stack → ∃ s' h', Steps P H s h s' h' ∧ A s'

theorem Leads.of_step {w : TokenWindow τ} {A : State τ → Prop} {k k' : Nat} {stack stack' : List Frame}
    (hstep : ∀ s h, s.window = w → Stands s k stack → (step P H s h).Stands k' stack') (hl : Leads P H w A k' stack') :
    Leads P H w A k stack := by
  intro s h hw hs
  obtain ⟨hv, hs'⟩ := hstep s h hw hs
  obtain ⟨s', h', hsteps, ha⟩ := hl _ (step P H s h).host ((step_frame s h).1.trans hw) hs'
  exact ⟨s', h', .head hv hsteps, ha⟩

end Endless

/-- A start symbol that derives no text, behind an optional one: `E → C E`, `C → a b | ε`. -/
def endless : Grammar where
  tokens := .letters
  symbols := #[{ name := "E", alts := [.sequence 0] }, { name := "C", alts := [.sequence 1, .epsilon] }]
  sequences := #[[.symbol 1, .symbol 0], [.token 2, .token 3]]
  actions := {}
  arguments := {}
  beacons := {}
  start := 0

namespace endless

/-- What the tables say about two `a` in a row: `C` is decided for what is empty, after the second of them. -/
structure Skips (T : Tables) : Prop where
  expand : T.program.lookup 0 2 = some (endless.number (.sequence 0))
  decide : ∃ n, T.program.lookup 1 2 = some n ∧ T.program.instruction n = .decision 0
  first : T.program.dfa 0 = .switch none ∧ T.program.transition 0 2 = some 1
  second : T.program.dfa 1 = .switch (some (endless.number .epsilon)) ∧ T.program.transition 1 2 = none

/-- The start symbol is expected at the first of two `a`. -/
def Recurs (s : State Nat) : Prop :=
  s.window = ⟨0, #[2, 2]⟩ ∧ ∃ rest, Stands s 0 (.node (endless.number (Item.symbol 0)) :: rest)

variable {T : Tables} {rest : List Frame}

/-- The optional symbol is passed over, and the start symbol is expected again. -/
theorem leads_default (hT : endless.build = .ok T) (hskips : Skips T) :
    Leads T.program (Host.silent : Host Unit Nat) ⟨0, #[2, 2]⟩ Recurs 1
      (.lookahead 1 0 :: .entered 1 false :: .node (endless.number (Item.symbol 0)) :: rest) := by
  refine .of_step (fun s h hw hs => hs.default (x := 2) hskips.second.1 hskips.second.2 (by rw [hw]; rfl) h) ?_
  refine .of_step (fun s h _ hs => hs.epsilon hT h) ?_
  refine .of_step (fun s h _ hs => hs.entered Host.obliging_silent h) ?_
  exact fun s h hw hs => ⟨s, h, .refl s h, hw, rest, hs⟩

/-- The start symbol is entered, then the optional symbol, and the decision for it begins. -/
theorem recurs (hT : endless.build = .ok T) (hskips : Skips T) (s : State Nat) (h : Unit) (hs : Recurs s) :
    (step T.program Host.silent s h).verdict = .proceed ∧ ∃ s' h',
      Steps T.program Host.silent (step T.program Host.silent s h).state (step T.program Host.silent s h).host s' h' ∧
        Recurs s' := by
  obtain ⟨hw, rest, hs⟩ := hs
  obtain ⟨n, hn, hd⟩ := hskips.decide
  have hx : ∀ {s : State Nat}, s.window = ⟨0, #[2, 2]⟩ → s.window.get? 0 = some 2 := fun hw => by rw [hw]; rfl
  obtain ⟨hv, hs'⟩ := hs.symbol hT Host.obliging_silent (by decide) (hx hw) hskips.expand h
  have hl : Leads T.program (Host.silent : Host Unit Nat) ⟨0, #[2, 2]⟩ Recurs 0
      (.node (endless.number (.sequence 0)) :: .entered 0 false :: rest) := by
    refine .of_step (fun s h _ hs => hs.sequence hT (by decide) h) ?_
    refine .of_step (fun s h hw hs => hs.symbol (a := 1) hT Host.obliging_silent (by decide) (hx hw) hn h) ?_
    refine .of_step (fun s h hw hs => hs.decision hd (hx hw) h) ?_
    refine .of_step (fun s h hw hs => hs.transition hskips.first.1 hskips.first.2 (hx hw) h) ?_
    exact leads_default hT hskips
  exact ⟨hv, hl _ _ ((step_frame s h).1.trans hw) hs'⟩

end endless

open endless in
/-- **Tables do not always make the parser stop.** The start symbol of this grammar derives no text, and there are tables for
it; after one `a` the parser asks for more, and the second `a` is never answered. -/
theorem endless_hangs : endless.WellFormed ∧ ∃ T, endless.build = .ok T ∧ ∃ q : Parser Unit Nat,
    (Parser.start T.program endless.start false ⟨{}, ()⟩ : Parser Unit Nat).Feeds T.program Host.silent [2] [.ok .more] q ∧
      ∀ fuel, q.feed T.program Host.silent fuel 2 = none := by
  -- after the first token the machine waits in the decision for the optional symbol
  have h : endless.build.toOption.any fun T => (T.program.lookup 0 2 = some (endless.number (.sequence 0)) ∧
      (T.program.lookup 1 2).map T.program.instruction = some (.decision 0) ∧
      (T.program.dfa 0 = .switch none ∧ T.program.transition 0 2 = some 1) ∧
      T.program.dfa 1 = .switch (some (endless.number .epsilon)) ∧ T.program.transition 1 2 = none) ∧
      ((Parser.start T.program 0 false ⟨{}, ()⟩ : Parser Unit Nat).feedAll T.program Host.silent 20 [2]).any fun r =>
        r.1 = [.ok .more] ∧ r.2.state.status = .running ∧ r.2.state.window.base = 0 ∧ r.2.state.window.tokens = #[2] ∧
          r.2.state.episodes = [] ∧ r.2.state.position = 1 ∧
          r.2.state.stack = .lookahead 1 0 :: .entered 1 false :: .node (endless.number (Item.symbol 0)) ::
            [.entered 0 false, .finish] := by decide +kernel
  obtain ⟨T, hT, h⟩ := exists_of_any_toOption h
  obtain ⟨⟨hexpand, hdecide, hfirst, hsecond⟩, h⟩ := of_decide_eq_true h
  have hskips : Skips T := ⟨hexpand, Option.map_eq_some_iff.1 hdecide, hfirst, hsecond⟩
  obtain ⟨⟨as, q⟩, hq, h⟩ := Option.any_eq_true _ _ |>.1 h
  obtain ⟨rfl, hstatus, hbase, htokens, hepisodes, hposition, hstack⟩ := of_decide_eq_true h
  refine ⟨by decide, T, hT, q, Parser.feeds_of_feedAll hq, fun fuel => ?_⟩
  have hw : (q.state.receive 2).window = ⟨0, #[2, 2]⟩ := by
    show TokenWindow.mk q.state.window.base (q.state.window.tokens.push 2) = _
    rw [hbase, htokens]
    rfl
  obtain ⟨s', h', hsteps, hs'⟩ := leads_default hT hskips (q.state.receive 2) q.host hw ⟨hepisodes, hposition, hstack⟩
  rw [Parser.feed, hstatus]
  dsimp only
  cases hr : run T.program Host.silent fuel (q.state.receive 2) q.host with
  | none => rfl
  | some stop =>
    obtain ⟨fuel', -, hr'⟩ := hsteps.exists_run_le hr
    rw [run_eq_none_of_returns (recurs hT hskips) hs' fuel'] at hr'
    cases hr'

end Machine

end PredictiveParser
