import PredictiveParser.Proofs.Machine.Matching
import PredictiveParser.Proofs.Machine.Speculation
import PredictiveParser.Proofs.Decision.Automaton

/-!
# What is left to be matched

Outside of resolvers the stack itself is what is left to be matched. While a symbol is decided on, and while resolvers are
evaluated for that, it is not known yet which stack it will be: some alternative of the symbol above the frames below the
decision (`View`). A parse that waits for a token has the same left as before (`View.await`), and it only ends with success
when nothing is left but the end of the input (`View.accept`).
-/

namespace PredictiveParser.Machine

variable {σ τ : Type}

/-- The stack is an alternative of the symbol `s`, entered above `rest`. -/
def Choice (g : Grammar) (s : Nat) (rest stack : List Frame) : Prop :=
  ∃ p ∈ (g.symbol s).alts, stack = .node (g.number p) :: .entered s false :: rest

/-- The number is that of an alternative of the symbol. -/
def Alternative (g : Grammar) (s n : Nat) : Prop :=
  ∃ p ∈ (g.symbol s).alts, n = g.number p

/-- What is left to be matched from the token position `k` on: the stacks `A` can, outside of resolvers and decisions. -/
inductive View (g : Grammar) (P : Program) (s : State τ) (k : Nat) : (A : List Frame → Prop) → Prop
  /-- The stack itself. -/
  | matching {stack : List Frame} {is : List Item} : s.episodes = [] → s.position = k → s.stack = stack →
      Expects g stack is → View g P s k (· = stack)
  /-- A decision between the alternatives of a symbol is due. -/
  | due {n d symbol : Nat} {rest : List Frame} {is : List Item} : s.episodes = [] → s.position = k →
      s.stack = .node n :: .entered symbol false :: rest → P.instruction n = .decision d →
      (∀ m, P.Decides d m → Alternative g symbol m) → Expects g rest is → View g P s k (Choice g symbol rest)
  /-- Such a decision is being made. -/
  | deciding {d symbol : Nat} {rest : List Frame} {is : List Item} : s.episodes = [] →
      s.stack = .lookahead d k :: .entered symbol false :: rest → (∀ m, P.Decides d m → Alternative g symbol m) →
      Expects g rest is → View g P s k (Choice g symbol rest)
  /-- Such a decision waits for resolvers. -/
  | resolving {e : Episode} {symbol : Nat} {rest : List Frame} {is : List Item} :
      Above (.entered symbol false :: rest) e s.stack s.episodes → e.entry = k → Alternative g symbol e.accept →
      (∀ p, e.otherwise = some (.node p) → Alternative g symbol p) →
      (∀ d, e.otherwise = some (.dfa d) → ∀ m, P.Decides d m → Alternative g symbol m) → Expects g rest is →
      View g P s k (Choice g symbol rest)

variable {g : Grammar} {P : Program} {H : Host σ τ} {s : State τ} {k : Nat} {A : List Frame → Prop}

/-- Waiting for a token changes nothing that matters. -/
theorem View.await (hv : View g P s k A) (t : τ) :
    View g P ((s.advance.settle (.ok .more)).receive t) k A := by
  cases hv with
  | matching hepisodes hpos hstack hexpects =>
    exact .matching ((episodes_advance s).trans hepisodes) ((position_advance s).trans hpos)
      ((stack_advance s).trans hstack) hexpects
  | due hepisodes hpos hstack hdue hdecides hrest =>
    exact .due ((episodes_advance s).trans hepisodes) ((position_advance s).trans hpos) ((stack_advance s).trans hstack)
      hdue hdecides hrest
  | deciding hepisodes hstack hdecides hrest =>
    exact .deciding ((episodes_advance s).trans hepisodes) ((stack_advance s).trans hstack) hdecides hrest
  | @resolving e symbol rest is habove hentry haccept hrefuse honward hrest =>
    refine .resolving (e := e) ?_ hentry haccept hrefuse honward hrest
    show Above _ e s.advance.stack s.advance.episodes
    rw [stack_advance, episodes_advance]
    exact habove

variable [Terminal τ]

/-- The input is only accepted when nothing is left but its end, and that is the current token. -/
theorem View.accept {xs : List τ} (hv : View g P s k A) (hxs : ∀ p x, s.window.get? p = some x → xs[p]? = some x) {h : σ}
    (hacc : (Machine.step P H s h).verdict = .accept) :
    A [.finish] ∧ xs[k]?.map Terminal.id = some endToken ∧ (Machine.step P H s h).state.tree = s.tree := by
  have hstops := (stops_step s h).2 hacc
  cases hv with
  | matching hepisodes hpos hstack hexpects =>
    rw [hstack] at hstops
    rcases hstops with rfl | ⟨rest, rfl, hid, hstate⟩
    · cases hexpects
    · cases hexpects
      obtain ⟨x, hx, hid⟩ := Option.map_eq_some_iff.1 hid
      rw [State.current?, window_advance, cursor_advance, hpos] at hx
      refine ⟨rfl, ?_, ?_⟩
      · rw [hxs k x hx, Option.map_some, hid]
      · rw [hstate]
        exact tree_advance s
  | due _ _ hstack _ _ _ => rcases hstops with hs | ⟨rest, hs, -⟩ <;> rw [hstack] at hs <;> cases hs
  | deciding _ hstack _ _ => rcases hstops with hs | ⟨rest, hs, -⟩ <;> rw [hstack] at hs <;> cases hs
  | resolving habove => exact absurd hacc (habove.not_accept h)

end PredictiveParser.Machine
