import PredictiveParser.Proofs.Machine.Session
import PredictiveParser.Proofs.Grammar.Forest
import PredictiveParser.Proofs.Tables

/-!
# What the stack expects

Outside of decisions the prediction stack holds nodes of the grammar and marks of entered symbols, down to what was there
before; so it stands for a list of items that are still to be matched (`StandsFor`). Outside of resolvers there is the end of
the input at the bottom (`Expects`).
-/

namespace PredictiveParser.Machine

/-- Above the frames `below` the stack stands for items that are still to be matched. The marks of entered symbols tell
whether that is done inside of a resolver. -/
inductive StandsFor (g : Grammar) (speculative : Bool) (below : List Frame) : (stack : List Frame) → (is : List Item) → Prop
  | base : StandsFor g speculative below below []
  | node {n : Node} {stack : List Frame} {is : List Item} : g.HasNode n → StandsFor g speculative below stack is →
      StandsFor g speculative below (.node (g.number n) :: stack) (g.items n ++ is)
  | entered {a : Nat} {stack : List Frame} {is : List Item} : StandsFor g speculative below stack is →
      StandsFor g speculative below (.entered a speculative :: stack) is

/-- The frames of items. -/
def itemFrames (g : Grammar) (is : List Item) : List Frame :=
  is.map fun i => .node (g.itemNumber i)

namespace StandsFor

variable {g : Grammar} {speculative : Bool} {below stack : List Frame} {is js : List Item}

theorem items (hi : ∀ i ∈ is, g.HasItem i) (h : StandsFor g speculative below stack js) :
    StandsFor g speculative below (itemFrames g is ++ stack) (is ++ js) := by
  induction is with
  | nil => exact h
  | cons i is ih =>
    rw [List.forall_mem_cons] at hi
    exact .node (n := i) hi.1 (ih hi.2)

theorem suffix (h : StandsFor g speculative below stack is) : below <:+ stack := by
  induction h with
  | base => exact List.suffix_rfl
  | node _ _ ih => exact ih.trans (List.suffix_cons _ _)
  | entered _ ih => exact ih.trans (List.suffix_cons _ _)

end StandsFor

/-- The frames expect the items, and then the end of the input. -/
abbrev Expects (g : Grammar) : (stack : List Frame) → (is : List Item) → Prop :=
  StandsFor g false [.finish]

namespace Expects

variable {g : Grammar}

/-- A property of stacks that survives marks and nodes without a first item holds of a stack if it holds once the first
item is on top. -/
theorem peel {G : List Frame → Prop} (hentered : ∀ a rest, G rest → G (.entered a false :: rest))
    (hepsilon : ∀ rest, G rest → G (.node (g.number .epsilon) :: rest))
    (hsequence : ∀ q rest, q < g.sequences.size → G (itemFrames g (g.sequence q) ++ rest) →
      G (.node (g.number (.sequence q)) :: rest)) (hg : g.WellFormed) {stack : List Frame} {is : List Item}
    (h : Expects g stack is) (hfinish : is = [] → G [.finish])
    (hitem : ∀ i js rest, is = i :: js → g.HasItem i → Expects g rest js → G (.node (g.itemNumber i) :: rest)) : G stack := by
  induction h with
  | base => exact hfinish rfl
  | entered _ ih => exact hentered _ _ (ih hfinish hitem)
  | @node n rest js hn hrest ih =>
    match n, hn with
    | .epsilon, _ => exact hepsilon _ (ih hfinish hitem)
    | .item i, hi => exact hitem i js rest rfl hi hrest
    | .sequence q, hq =>
      refine hsequence q rest hq ?_
      cases hseq : g.sequence q with
      | nil =>
        have e : g.items (.sequence q) = [] := hseq
        rw [e] at hfinish hitem
        exact ih hfinish hitem
      | cons i ks =>
        have e : g.items (.sequence q) = i :: ks := hseq
        have hks : ∀ j ∈ i :: ks, g.HasItem j := fun j hj => hg.hasItem_sequence (hseq ▸ hj)
        rw [List.forall_mem_cons] at hks
        exact hitem i (ks ++ js) _ (by rw [e]; rfl) hks.1 (hrest.items hks.2)

end Expects

/-! ## Outside of resolvers -/

variable {τ : Type} {s : State τ}

theorem isSpeculating_eq_false (hs : s.episodes = []) : s.isSpeculating = false := by
  rw [State.isSpeculating, hs]
  rfl

/-- Outside of resolvers a matched token is added to the tree, and is what the slot that waits for one holds. -/
theorem consume_of_episodes (hs : s.episodes = []) (t : τ) (rest : List Frame) : s.consume t rest = { s with
    stack := rest, matched := true, stats.matched := s.stats.matched + 1, tree := s.tree.map (·.leaf t), last := some t
    locators := s.armed.elim s.locators fun slot => (slot, t) :: s.locators.filter (·.1 != slot), armed := none } := by
  obtain ⟨window, cursor, matched, stack, symbols, episodes, locators, armed, last, tree, stats, status⟩ := s
  obtain rfl : episodes = [] := hs
  cases armed <;> rfl

theorem position_consume (s : State τ) (t : τ) (rest : List Frame) : (s.consume t rest).position = s.cursor + 1 := by
  rw [consume_eq]
  rfl

/-- Outside of resolvers a symbol that is entered opens a node of the tree. -/
theorem enterSymbol_of_episodes (hs : s.episodes = []) (symbol production : Nat) :
    (s.enterSymbol symbol production).episodes = [] ∧ (s.enterSymbol symbol production).position = s.position ∧
      (s.enterSymbol symbol production).stack = .node production :: .entered symbol false :: s.stack ∧
      (s.enterSymbol symbol production).tree = s.tree.map (·.enter symbol) := by
  unfold State.enterSymbol
  dsimp only
  rw [isSpeculating_eq_false hs]
  exact ⟨hs, rfl, rfl, rfl⟩

variable {σ : Type} [Terminal τ] {P : Program} {H : Host σ τ}

/-- Outside of resolvers an error ends the parse. -/
theorem miss_of_episodes (hs : s.episodes = []) (error : ParseError) (h : σ) (remarks : List Remark) :
    miss P error s h remarks = ⟨.reject error, s, h, remarks⟩ := by
  rw [miss, isSpeculating_eq_false hs]
  rfl

/-- Outside of resolvers a token is matched, or the parse ends. -/
theorem stepToken_of_episodes (hs : s.episodes = []) (expected : Nat) (rest : List Frame) (h : σ) {t : τ}
    (ht : s.advance.current? = some t) : stepToken P s expected rest h =
      if accepts expected (Terminal.id t) then { verdict := .proceed, state := s.advance.consume t rest, host := h }
      else ⟨.reject (s.advance.unexpected P [expected]), s.advance, h, []⟩ := by
  unfold stepToken
  dsimp only
  rw [ht, miss_of_episodes (by rw [episodes_advance, hs])]

/-- Outside of resolvers a symbol is entered with what the tables predict, if the host agrees. -/
theorem stepSymbol_of_episodes (hs : s.episodes = []) (symbol : Nat) (rest : List Frame) (h : σ) {id : Nat}
    (hid : s.advance.currentId? = some id) : stepSymbol P H s symbol rest h =
      match P.lookup symbol id with
      | none => ⟨.reject (s.advance.unexpected P (P.expected symbol)), s.advance, h, []⟩
      | some n =>
        let reply := H.callAll (s.advance.withStack rest) (entryEvents P symbol rest) h
        match reply.failure with
        | some message => ⟨.reject ((s.advance.withStack rest).semantic message), s.advance.withStack rest, reply.host,
            reply.notes.map .said⟩
        | none => ⟨.proceed, (s.advance.withStack rest).enterSymbol symbol n, reply.host,
            reply.notes.map .said ++ [.entered symbol n]⟩ := by
  have hspec : s.advance.isSpeculating = false := isSpeculating_eq_false (by rw [episodes_advance, hs])
  have hspec' : (s.advance.withStack rest).isSpeculating = false := hspec
  unfold stepSymbol
  dsimp only
  rw [hid, hspec, hspec']
  dsimp only
  cases P.lookup symbol id with
  | none => exact miss_of_episodes (by rw [episodes_advance, hs]) _ _ _
  | some n => rfl

/-! ## Steps of a parse that no host objects to -/

/-- The host never fails. -/
def Host.Obliging (H : Host σ τ) : Prop :=
  ∀ event s h, (H.call event s h).failure = none

omit [Terminal τ] in
theorem Host.obliging_silent : (Host.silent : Host Unit τ).Obliging :=
  fun _ _ _ => rfl

omit [Terminal τ] in
theorem Host.Obliging.callAll (hH : H.Obliging) (s : State τ) (events : List Event) (h : σ) :
    (H.callAll s events h).failure = none := by
  induction events generalizing h with
  | nil => rfl
  | cons event events ih =>
    rw [Host.callAll]
    have hf := hH event s h
    generalize H.call event s h = reply at hf
    obtain ⟨h', failure, notes⟩ := reply
    dsimp only at hf
    rw [hf]
    exact ih h'

/-- The machine has matched `k` tokens, and the stack is left. -/
structure Stands (s : State τ) (k : Nat) (stack : List Frame) : Prop where
  episodes : s.episodes = []
  position : s.position = k
  stack : s.stack = stack

/-- The step goes on, with `k` tokens matched and the stack left. -/
def Turn.Stands (turn : Turn σ τ) (k : Nat) (stack : List Frame) : Prop :=
  turn.verdict = .proceed ∧ Machine.Stands turn.state k stack

namespace Stands

variable {g : Grammar} {limits : Limits} {T : Tables} {k : Nat} {rest stack : List Frame}

omit [Terminal τ] in
theorem next (hs : Stands s k stack) : s.next? = s.window.get? k := by
  rw [State.next?, hs.position]

omit [Terminal τ] in
theorem current (hs : Stands s k stack) : s.advance.current? = s.window.get? k :=
  (current_advance s).trans hs.next

theorem currentId (hs : Stands s k stack) : s.advance.currentId? = (s.window.get? k).map Terminal.id := by
  rw [State.currentId?, hs.current]

omit [Terminal τ] in
theorem advance (hs : Stands s k stack) : Stands s.advance k stack :=
  ⟨(episodes_advance s).trans hs.episodes, (position_advance s).trans hs.position, (stack_advance s).trans hs.stack⟩

theorem token {t : Nat} {x : τ} (hb : g.build limits = .ok T) (ht : t < g.tokenCount)
    (hs : Stands s k (.node (g.number (Item.token t)) :: rest)) (hx : s.window.get? k = some x)
    (hacc : accepts t (Terminal.id x) = true) (h : σ) : (step T.program H s h).Stands (k + 1) rest := by
  rw [step_token hs.stack (Tables.instruction_of_build hb (n := Item.token t) ht),
    stepToken_of_episodes hs.episodes t rest h (hs.current.trans hx), if_pos hacc]
  refine ⟨rfl, ?_, ?_, ?_⟩
  · rw [consume_of_episodes hs.advance.episodes]
    exact hs.advance.episodes
  · rw [position_consume, cursor_advance, hs.position]
  · rw [consume_of_episodes hs.advance.episodes]

theorem token_refused {t : Nat} {x : τ} (hb : g.build limits = .ok T) (ht : t < g.tokenCount)
    (hs : Stands s k (.node (g.number (Item.token t)) :: rest)) (hx : s.window.get? k = some x)
    (hacc : accepts t (Terminal.id x) = false) (h : σ) : ∃ error, (step T.program H s h).verdict = .reject error := by
  rw [step_token hs.stack (Tables.instruction_of_build hb (n := Item.token t) ht),
    stepToken_of_episodes hs.episodes t rest h (hs.current.trans hx), hacc]
  exact ⟨_, rfl⟩

theorem symbol {a n : Nat} {x : τ} (hb : g.build limits = .ok T) (hH : H.Obliging) (ha : a < g.symbolCount)
    (hs : Stands s k (.node (g.number (Item.symbol a)) :: rest)) (hx : s.window.get? k = some x)
    (hl : T.program.lookup a (Terminal.id x) = some n) (h : σ) :
    (step T.program H s h).Stands k (.node n :: .entered a false :: rest) := by
  have hid : s.advance.currentId? = some (Terminal.id x) := by rw [hs.currentId, hx, Option.map_some]
  rw [step_symbol hs.stack (Tables.instruction_of_build hb (n := Item.symbol a) ha),
    stepSymbol_of_episodes hs.episodes a rest h hid, hl]
  dsimp only
  rw [hH.callAll]
  obtain ⟨he, hp, hstack, -⟩ := enterSymbol_of_episodes (s := s.advance.withStack rest)
    ((episodes_advance s).trans hs.episodes) a n
  exact ⟨rfl, he, hp.trans ((position_advance s).trans hs.position), hstack⟩

theorem symbol_refused {a : Nat} {x : τ} (hb : g.build limits = .ok T) (ha : a < g.symbolCount)
    (hs : Stands s k (.node (g.number (Item.symbol a)) :: rest)) (hx : s.window.get? k = some x)
    (hl : T.program.lookup a (Terminal.id x) = none) (h : σ) : ∃ error, (step T.program H s h).verdict = .reject error := by
  have hid : s.advance.currentId? = some (Terminal.id x) := by rw [hs.currentId, hx, Option.map_some]
  rw [step_symbol hs.stack (Tables.instruction_of_build hb (n := Item.symbol a) ha),
    stepSymbol_of_episodes hs.episodes a rest h hid, hl]
  exact ⟨_, rfl⟩

theorem silent {i : Item} (hb : g.build limits = .ok T) (hH : H.Obliging) (hi : g.HasItem i)
    (hsilent : i.isTransparent = true) (hs : Stands s k (.node (g.number i) :: rest)) (h : σ) :
    (step T.program H s h).Stands k rest := by
  rw [step_node hs.stack, stepNode, Tables.instruction_of_build hb (n := .item i) hi]
  cases i with
  | token t => cases hsilent
  | symbol a => cases hsilent
  | action a =>
    dsimp only [Grammar.instructionOf, stepAction]
    rw [hH]
    exact ⟨rfl, hs.episodes, hs.position, rfl⟩
  | argument a => exact ⟨rfl, hs.episodes, hs.position, rfl⟩
  | beacon b =>
    dsimp only [Grammar.instructionOf]
    split <;> exact ⟨rfl, hs.episodes, hs.position, rfl⟩

theorem epsilon (hb : g.build limits = .ok T) (hs : Stands s k (.node (g.number .epsilon) :: rest)) (h : σ) :
    (step T.program H s h).Stands k rest := by
  rw [step_node hs.stack, stepNode, Tables.instruction_of_build hb (n := .epsilon) trivial]
  exact ⟨rfl, hs.episodes, hs.position, rfl⟩

theorem sequence {q : Nat} (hb : g.build limits = .ok T) (hq : q < g.sequences.size)
    (hs : Stands s k (.node (g.number (.sequence q)) :: rest)) (h : σ) :
    (step T.program H s h).Stands k (itemFrames g (g.sequence q) ++ rest) := by
  rw [step_node hs.stack, stepNode, Tables.instruction_of_build hb (n := .sequence q) hq]
  refine ⟨rfl, hs.episodes, hs.position, ?_⟩
  show ((g.sequence q).map g.itemNumber).map Frame.node ++ rest = _
  rw [itemFrames, List.map_map]
  rfl

theorem entered {a : Nat} (hH : H.Obliging) (hs : Stands s k (.entered a false :: rest)) (h : σ) :
    (step P H s h).Stands k rest := by
  rw [step, hs.stack]
  dsimp only [stepEntered]
  rw [if_neg Bool.false_ne_true, hH.callAll]
  exact ⟨rfl, hs.episodes, hs.position, rfl⟩

theorem finish {x : τ} (hs : Stands s k [.finish]) (hx : s.window.get? k = some x) (h : σ) :
    (Terminal.id x = endToken → (step P H s h).verdict = .accept) ∧
      (Terminal.id x ≠ endToken → ∃ error, (step P H s h).verdict = .reject error) := by
  rw [step_finish hs.stack (hs.next.trans hx)]
  constructor
  · intro e
    rw [if_pos e]
  · intro e
    rw [if_neg e]
    exact ⟨_, rfl⟩

/-- A step that looks at the next token waits for it. -/
theorem await {f : Frame} (hs : Stands s k (f :: rest)) (hf : f.Looks P) (hx : s.window.get? k = none) (h : σ) :
    (step P H s h).verdict = .await := by
  rw [step_of_looks hs.stack hf (hs.next.trans hx)]

theorem await_token {t : Nat} (hb : g.build limits = .ok T) (ht : t < g.tokenCount)
    (hs : Stands s k (.node (g.number (Item.token t)) :: rest)) (hx : s.window.get? k = none) (h : σ) :
    (step T.program H s h).verdict = .await :=
  hs.await (.inl ⟨t, Tables.instruction_of_build hb (n := Item.token t) ht⟩) hx h

theorem await_symbol {a : Nat} (hb : g.build limits = .ok T) (ha : a < g.symbolCount)
    (hs : Stands s k (.node (g.number (Item.symbol a)) :: rest)) (hx : s.window.get? k = none) (h : σ) :
    (step T.program H s h).verdict = .await :=
  hs.await (.inr (.inl ⟨a, Tables.instruction_of_build hb (n := Item.symbol a) ha⟩)) hx h

end Stands

end PredictiveParser.Machine
