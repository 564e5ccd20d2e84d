import PredictiveParser.Prediction

/-!
# Threads

To decide a conflict every candidate is followed over the coming tokens by threads. A thread keeps the nodes that it still
has to match. On each token it is advanced node by node until it settles: it has matched the token and stands before the
next one, or it has run out of nodes, or it has reached a symbol with a resolver. At another conflict it forks into one
thread for every candidate. `expand` advances a list of threads, the first one first, within a budget of nodes.
-/

namespace PredictiveParser

namespace Decision

/-- The number of nodes that may be expanded on one token. -/
def expansionLimit : Nat :=
  65536

/-- A conflict with all that is needed to decide it. -/
structure Problem where
  grammar : Grammar
  table : PredictionTable
  limits : Limits
  conflict : Conflict

end Decision

/-- The problem of a conflict of the prediction table. -/
def Grammar.problem (g : Grammar) (limits : Limits) (c : Conflict) : Decision.Problem :=
  ⟨g, .fill g g.analyze, limits, c⟩

namespace Decision

/-- How a thread has matched the current token. -/
inductive Match
  /-- Not yet. -/
  | pending
  /-- With the terminal itself. -/
  | concrete
  /-- With the wildcard. -/
  | wildcard
  deriving DecidableEq, Inhabited

/-- A way in which a candidate may go on. -/
structure Thread where
  /-- The candidate. -/
  production : Node
  /-- The place of the candidate among the candidates. -/
  order : Nat
  /-- The nodes that are still to be matched. -/
  stack : List Node
  matched : Match := .pending
  /-- The number of conflicts that the thread has passed. -/
  forks : Nat := 0
  deriving DecidableEq, Inhabited

/-- A thread that has reached a symbol with a resolver. -/
structure Redirect where
  production : Node
  order : Nat
  symbol : Nat
  resolver : Resolver
  deriving DecidableEq, Inhabited

/-- A thread that is done with the current token. -/
inductive Settled
  /-- It has matched the token and has nodes left. -/
  | active (t : Thread)
  /-- It has reached a symbol with a resolver. -/
  | redirected (r : Redirect)
  /-- It has matched the token and has no nodes left. -/
  | completed (t : Thread)
  /-- It has run out of nodes before the token. -/
  | exhausted (t : Thread)
  deriving DecidableEq, Inhabited

/-- What advancing a thread by one node leads to. -/
inductive Advance
  /-- The thread is done with the token. -/
  | settled (s : Settled)
  /-- These threads go on in its place; there are none if it fails. -/
  | threads (ts : List Thread)
  /-- It may not fork any more. -/
  | tooDeep

namespace Problem

variable (Q : Problem)

/-- The fault that the conflict leads through too many others. -/
def depthExceeded : GrammarError :=
  .conflictDepth (Q.conflict.symbolName Q.grammar) (Q.conflict.tokenName Q.grammar) Q.limits.conflictDepth
    (Q.conflict.position? Q.grammar)

/-- The fault that deciding the conflict expands too many nodes. -/
def expansionExceeded : GrammarError :=
  .expansionLimit (Q.conflict.symbolName Q.grammar) (Q.conflict.tokenName Q.grammar) (Q.conflict.position? Q.grammar)

/-- The threads of the candidates before the first token. -/
def candidateThreads : List Thread :=
  Q.conflict.candidates.zipIdx.map fun (p, i) => { production := p, order := i, stack := [p] }

end Problem

namespace Thread

/-- How a terminal of a production matches a token, if it does. -/
def matchToken (expected token : Nat) : Option Match :=
  if expected = token then some .concrete
  else if expected = anyToken ∧ token ≠ endToken then some .wildcard
  else none

/-- Advances a thread whose next node is a symbol, with the nodes `rest` behind it, on a token. Resolvers only count on
the first token of a decision. -/
def advanceSymbol (Q : Problem) (token : Nat) (first : Bool) (t : Thread) (s : Nat) (rest : List Node) : Advance :=
  match if first then (Q.grammar.symbol s).resolver else none with
  | some r => .settled (.redirected ⟨t.production, t.order, s, r⟩)
  | none =>
    match Q.table.cell s token with
    | .empty => .threads []
    | .production p => .threads [{ t with stack := p :: rest }]
    | .conflict c =>
      if Q.limits.conflictDepth ≤ t.forks then .tooDeep
      else .threads (c.candidates.map fun p => { t with stack := p :: rest, forks := t.forks + 1 })

/-- Advances a thread by one node on a token. -/
def advance (Q : Problem) (token : Nat) (first : Bool) (t : Thread) : Advance :=
  match t.stack with
  | [] => .settled (if t.matched = .pending then .exhausted t else .completed t)
  | .epsilon :: rest => .threads [{ t with stack := rest }]
  | .sequence q :: rest => .threads [{ t with stack := (Q.grammar.sequence q).map .item ++ rest }]
  | .item (.token expected) :: rest =>
    if t.matched = .pending then
      .threads ((matchToken expected token).toList.map fun m => { t with stack := rest, matched := m })
    else .settled (.active t)
  | .item (.symbol s) :: rest =>
    if t.matched = .pending then t.advanceSymbol Q token first s rest else .settled (.active t)
  | .item (.action _) :: rest | .item (.argument _) :: rest | .item (.beacon _) :: rest =>
    .threads [{ t with stack := rest }]

end Thread

/-- Advances threads until all have settled, expanding at most `budget` nodes; `settled` are those that have already
settled, the latest first. -/
def expand (Q : Problem) (token : Nat) (first : Bool) :
    (budget : Nat) → List Thread → (settled : List Settled) → Except GrammarError (List Settled)
  | _, [], settled => .ok settled.reverse
  | 0, _ :: _, _ => .error Q.expansionExceeded
  | budget + 1, t :: ts, settled =>
    match t.advance Q token first with
    | .settled s => expand Q token first budget ts (s :: settled)
    | .threads us => expand Q token first budget (us ++ ts) settled
    | .tooDeep => .error Q.depthExceeded

end Decision

end PredictiveParser
