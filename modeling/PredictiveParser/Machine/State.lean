import PredictiveParser.Program
import PredictiveParser.TokenWindow
import PredictiveParser.SyntaxTree
import PredictiveParser.Machine.Error

/-!
# The state of the parsing machine

The machine predicts with a stack of frames. A decision that needs lookahead keeps its place with a `lookahead` frame; a
resolver is matched above a `resolving` frame, and its `Episode` remembers where to go back to. While an episode is
open the machine speculates: it neither records a tree nor binds locators.
-/

namespace PredictiveParser

/-- What the machine wants to know of a token. -/
class Terminal (τ : Type) where
  /-- The terminal of the token. -/
  id : τ → Nat
  /-- Where the token stands in the source. -/
  span? : τ → Option Span

namespace Machine

/-- An entry of the prediction stack. -/
inductive Frame
  /-- The end of the input is expected. -/
  | finish
  /-- A node is to be matched. -/
  | node (n : Nat)
  /-- A symbol whose production is on the stack above. -/
  | entered (symbol : Nat) (speculative : Bool)
  /-- A decision in the automaton state `dfa` that began at the token position `entry`. -/
  | lookahead (dfa entry : Nat)
  /-- A decision that waits for the resolver above it. -/
  | resolving
  deriving DecidableEq, Inhabited

/-- The frame marks an entered symbol. -/
def Frame.isEntered : Frame → Bool
  | entered _ _ => true
  | _ => false

/-- A resolver under evaluation. -/
structure Episode where
  /-- The number of frames below the waiting one. -/
  depth : Nat
  /-- The token position where the decision began. -/
  entry : Nat
  /-- The token position where the resolver was reached. -/
  resume : Nat
  /-- The production to take if the resolver matches. -/
  accept : Nat
  /-- Where to go on if it does not. -/
  otherwise : Option Target
  deriving DecidableEq, Inhabited

/-- Counts of what happened since the start of a parse. -/
structure Stats where
  tokens : Nat := 0
  matched : Nat := 0
  lookaheads : Nat := 0
  resolvers : Nat := 0
  rollbacks : Nat := 0
  deriving DecidableEq, Inhabited

/-- The text of the counts. -/
def Stats.display (s : Stats) : String :=
  s!"ParserStats \x7b tokens: {s.tokens}, matches: {s.matched}, lookaheads: {s.lookaheads}, " ++
    s!"resolvers: {s.resolvers}, rollbacks: {s.rollbacks} \x7d"

/-- Where a parse stands in its life. -/
inductive Status
  | idle
  | running
  | done
  | failed
  deriving DecidableEq, Inhabited

/-- The state of the machine. -/
structure State (τ : Type) where
  /-- The tokens that may still be looked at. -/
  window : TokenWindow τ := {}
  /-- The position of the current token. -/
  cursor : Nat := 0
  /-- The current token is matched, so the next step that needs a token moves on first. -/
  matched : Bool := false
  /-- The prediction stack, top first. -/
  stack : List Frame := []
  /-- The entered symbols, innermost first. -/
  symbols : List Nat := []
  /-- The open episodes, innermost first. -/
  episodes : List Episode := []
  /-- The tokens bound to slots. -/
  locators : List (Nat × τ) := []
  /-- The slot that waits for the next matched token. -/
  armed : Option Nat := none
  /-- The last token matched outside of episodes. -/
  last : Option τ := none
  /-- The tree under construction, if one was asked for. -/
  tree : Option (SyntaxTree τ) := none
  stats : Stats := {}
  status : Status := .idle

namespace State

variable {τ : Type}

instance : Inhabited (State τ) := ⟨{}⟩

/-- The token at the cursor, if it was fed. -/
def current? (s : State τ) : Option τ :=
  s.window.get? s.cursor

/-- An episode is open. -/
def isSpeculating (s : State τ) : Bool :=
  !s.episodes.isEmpty

/-- The token bound to a slot. -/
def locator? (s : State τ) (slot : Nat) : Option τ :=
  s.locators.lookup slot

/-- The number of frames on the stack. -/
def predictionDepth (s : State τ) : Nat :=
  s.stack.length

/-- The number of open episodes. -/
def episodeDepth (s : State τ) : Nat :=
  s.episodes.length

/-- The entered symbols, outermost first. -/
def symbolPath (s : State τ) : List Nat :=
  s.symbols.reverse

/-- The number of retained tokens. -/
def buffered (s : State τ) : Nat :=
  s.window.size

/-- The lowest position that the cursor may still go back to. -/
def lowWater (s : State τ) : Nat :=
  let low := s.episodes.foldl (fun low e => min low e.entry) s.cursor
  match s.stack with
  | .lookahead _ entry :: _ => min low entry
  | _ => low

/-- Moves past a matched token. -/
def advance (s : State τ) : State τ :=
  if s.matched then { s with cursor := s.cursor + 1, matched := false } else s

/-- Replaces the stack. -/
def withStack (s : State τ) (stack : List Frame) : State τ :=
  { s with stack }

/-- Goes to a position with a new stack; the token there is not matched yet. -/
def goto (s : State τ) (cursor : Nat) (stack : List Frame) : State τ :=
  { s with cursor, matched := false, stack }

/-- Binds a token to the slot that waits for one. -/
def bindArmed (s : State τ) (t : τ) : State τ :=
  match s.armed with
  | some slot => { s with locators := (slot, t) :: s.locators.filter (·.1 != slot), armed := none }
  | none => s

/-- Marks the current token as matched. Outside of episodes the token `t` is also bound to a waiting slot, added to the
tree and remembered. -/
def consume (s : State τ) (t : τ) (rest : List Frame) : State τ :=
  let s := { s with stack := rest, matched := true, stats.matched := s.stats.matched + 1 }
  if s.isSpeculating then s
  else
    let s := s.bindArmed t
    { s with tree := s.tree.map (·.leaf t), last := some t }

/-- Enters a symbol: its production goes on the stack above a frame that marks the entry. -/
def enterSymbol (s : State τ) (symbol production : Nat) : State τ :=
  let speculative := s.isSpeculating
  { s with
    tree := if speculative then s.tree else s.tree.map (·.enter symbol)
    symbols := symbol :: s.symbols
    stack := .node production :: .entered symbol speculative :: s.stack }

/-- Opens an episode for a decision that began at `entry`; `rest` is the stack below the decision. -/
def openEpisode (s : State τ) (entry resolver accept : Nat) (otherwise : Option Target) (rest : List Frame) : State τ :=
  { s with
    episodes := ⟨rest.length, entry, s.cursor, accept, otherwise⟩ :: s.episodes
    stats.resolvers := s.stats.resolvers + 1
    cursor := entry
    matched := false
    stack := .node resolver :: .resolving :: rest }

/-- Undoes what an episode `e` put on the stacks; `outer` are the episodes around it. The waiting frame of the episode
is on top of the stack afterwards. -/
def undo (s : State τ) (e : Episode) (outer : List Episode) : State τ :=
  let extra := s.stack.length - (e.depth + 1)
  { s with
    episodes := outer
    stats.rollbacks := s.stats.rollbacks + 1
    symbols := s.symbols.drop ((s.stack.take extra).countP Frame.isEntered)
    stack := s.stack.drop extra
    matched := false }

/-- Forgets an earlier parse, but not where it stood in its life. -/
def reset (s : State τ) (buildTree : Bool) : State τ :=
  { s with
    window := s.window.clear
    cursor := 0
    matched := false
    stack := []
    symbols := []
    episodes := []
    locators := []
    armed := none
    last := none
    tree := if buildTree then some {} else none
    stats := {} }

/-- The state at the start of a parse of the node `root`. -/
def initial (root : Nat) (buildTree : Bool) : State τ where
  stack := [.node root, .finish]
  tree := if buildTree then some {} else none
  status := .running

section Errors

variable [Terminal τ]

/-- The terminal at the cursor. -/
def currentId? (s : State τ) : Option Nat :=
  s.current?.map Terminal.id

/-- The source range of the token at the cursor. -/
def currentSpan? (s : State τ) : Option Span :=
  s.current?.bind Terminal.span?

/-- The name of the token at the cursor. -/
def found (P : Program) (s : State τ) : String :=
  (s.currentId?.map P.tokenName).getD "nothing"

/-- The error that the current token is none of the expected terminals. -/
def unexpected (P : Program) (expected : List Nat) (s : State τ) : ParseError :=
  .unexpectedToken (s.found P) (expected.map P.tokenName) s.currentSpan?

/-- The error that a callback failed at the current token. -/
def semantic (message : String) (s : State τ) : ParseError :=
  .semantic message s.currentSpan?

end Errors

end State

end Machine

end PredictiveParser
