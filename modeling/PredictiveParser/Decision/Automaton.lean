import PredictiveParser.Decision.State
import PredictiveParser.Program

/-!
# Lookahead automata

A decided conflict becomes one production, or an automaton: a state that needs more tokens becomes a switch, and one that
has decided becomes a leaf. Threads that wait for resolvers become a chain of tests in front of the decision of the other
threads: the resolver of highest priority is tried first, and tests that could not change the outcome are left out.
-/

namespace PredictiveParser

/-- A node of a lookahead automaton; productions and resolvers are node numbers of the grammar. -/
inductive DfaNode
  /-- The decision is made. -/
  | leaf (production : Nat)
  /-- The successors by token, in increasing order, and the production for all other tokens. -/
  | switch (transitions : List (Nat × Nat)) (default? : Option Nat)
  /-- If the resolver matches take `accept`, otherwise go on with `otherwise`. -/
  | resolver (node : Nat) (priority : Int) (accept : Nat) (otherwise : Option Target)
  deriving DecidableEq, Inhabited

namespace Decision

/-- A test of a chain: a resolver, and the production to take if it matches. -/
structure Link where
  resolver : Resolver
  production : Node
  deriving DecidableEq, Inhabited

/-- Adds a test behind a chain, whose tests are listed from the last to the first, unless it is a repetition or follows a
test for the same production. -/
def addLink (chain : List Link) (r : Redirect) : List Link :=
  let repeated := chain.any fun l => l.resolver.node == r.resolver.node && l.production == r.production
  let follows := chain.head?.any (·.production == r.production)
  if repeated || follows then chain else ⟨r.resolver, r.production⟩ :: chain

/-- The resolver of `a` is tried before that of `b`. -/
def Redirect.before (a b : Redirect) : Bool :=
  b.resolver.priority < a.resolver.priority ||
    (a.resolver.priority == b.resolver.priority && a.order ≤ b.order)

namespace State

/-- The tests in front of the decision of a state, from the last to the first. Last tests for the production that the
other threads decide for are left out. -/
def reversedChain (s : State) : List Link :=
  let chain := (s.redirected.mergeSort Redirect.before).foldl addLink []
  match s.verdict with
  | .leaf p => chain.dropWhile (·.production == p)
  | _ => chain

/-- The tests in front of the decision of a state. -/
def chain (s : State) : List Link :=
  s.reversedChain.reverse

end State

/-- Puts tests in front of a decision that goes on at `target` and has the nodes `nodes`, numbered from `start`. The tests
are listed from the last to the first. -/
def prependTests (g : Grammar) (start : Nat) :
    (tests : List Link) → Option Target → (nodes : List DfaNode) → Option Target × List DfaNode
  | [], target, nodes => (target, nodes)
  | l :: ls, target, nodes =>
    let test := DfaNode.resolver (g.number l.resolver.node) l.resolver.priority (g.number l.production) target
    prependTests g start ls (some (.dfa (start + nodes.length))) (nodes ++ [test])

/-- The nodes of the states `cs` and the edges that lead to them; the nodes are numbered from `start`, and `emit` gives
those of one state. A state that decides at once gets a leaf. -/
def emitEdges (emit : (start : Nat) → State → Option Target × List DfaNode) :
    (start : Nat) → (cs : List State) → List (Nat × Nat) × List DfaNode
  | _, [] => ([], [])
  | start, c :: cs =>
    let (target, nodes) := emit start c
    let (edge, nodes) : List (Nat × Nat) × List DfaNode :=
      match target with
      | none => ([], nodes)
      | some (.dfa d) => ([(c.token, d)], nodes)
      | some (.node p) => ([(c.token, start + nodes.length)], nodes ++ [.leaf p])
    let (edges, more) := emitEdges emit (start + nodes.length) cs
    (edge ++ edges, nodes ++ more)

/-- Where the decision of a state begins, and its nodes, numbered from `start`. The nodes of the states below it come from
`below`, which is told the number of the first and the default that they inherit. -/
def emitState (g : Grammar) (below : (start : Nat) → (inherited : Option Node) → List (Nat × Nat) × List DfaNode)
    (start : Nat) (s : State) (inherited : Option Node) : Option Target × List DfaNode :=
  let (target, nodes) : Option Target × List DfaNode :=
    match s.verdict with
    | .leaf p => (some (.node (g.number p)), [])
    | .nothing => (none, [])
    | .undecided =>
      let default? := s.default? <|> inherited
      let (edges, nodes) := below (start + 1) default?
      (some (.dfa start), .switch edges (default?.map g.number) :: nodes)
  prependTests g start s.reversedChain target nodes

namespace Problem

variable (Q : Problem)

/-- Where the decision of a state begins, and its nodes, numbered from `start`, as far as `k` more tokens lead. -/
def emit : (k start : Nat) → State → (inherited : Option Node) → Option Target × List DfaNode
  | 0, start, s, inherited => emitState Q.grammar (fun _ _ => ([], [])) start s inherited
  | k + 1, start, s, inherited =>
    let below start inherited :=
      match Q.children s with
      | .ok cs => emitEdges (fun start c => emit k start c inherited) start cs
      | .error _ => ([], [])
    emitState Q.grammar below start s inherited

end Problem

/-- How a conflict was decided. -/
inductive Resolution
  /-- For one production. -/
  | production (p : Node)
  /-- By an automaton, whose first node is its beginning. -/
  | automaton (nodes : List DfaNode)
  deriving DecidableEq, Inhabited

namespace Problem

variable (Q : Problem)

/-- The number of tokens that the decision may look at. -/
def limit : Nat :=
  Q.conflict.limit Q.grammar Q.limits

/-- The states that the decision goes through. -/
def reached : Except GrammarError (List State) :=
  Q.survey Q.limit [Q.root]

/-- The symbols whose resolvers some state asks. -/
def asked (states : List State) : List Nat :=
  states.flatMap fun s => s.redirected.map (·.symbol)

/-- The decision of a conflict whose states are known; nodes of an automaton are numbered from `start`. The first state is
the one after the token of the conflict. -/
def decide (start : Nat) : (states : List State) → Except GrammarError Resolution
  | [] => .error (.unresolvedConflict (Q.conflict.symbolName Q.grammar) (Q.conflict.tokenName Q.grammar))
  | s :: _ =>
    match s.verdict, s.reversedChain with
    | .leaf p, [] => .ok (.production p)
    | _, _ => .ok (.automaton (Q.emit Q.limit start Q.root none).2)

/-- Decides the conflict, with the symbols whose resolvers are asked. -/
def resolve (start : Nat) : Except GrammarError (Resolution × List Nat) := do
  let states ← Q.reached
  return (← Q.decide start states, asked states)

end Problem

end Decision

end PredictiveParser
