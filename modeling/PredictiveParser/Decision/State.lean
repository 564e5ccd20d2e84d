import PredictiveParser.Decision.Thread

/-!
# States of a decision

A state holds the threads that are left after some tokens. It decides for a production when all of its threads belong to
it; threads that wait for a resolver have no say. A thread that matched a token with the wildcard gives way to any thread
that matched it as itself, and to any that ran out of nodes before it. If two candidates are completed on the same tokens,
no further token can tell them apart, and the grammar is ambiguous.
-/

namespace PredictiveParser.Decision

/-- The threads that are left after some tokens. -/
structure State where
  /-- The tokens, the latest first. -/
  path : List Nat := []
  /-- The threads that have nodes left. -/
  active : List Thread := []
  /-- The threads that wait for a resolver. -/
  redirected : List Redirect := []
  /-- The threads that ended with the last token. -/
  completed : List Thread := []
  /-- The threads that ended before the last token. -/
  exhausted : List Thread := []
  deriving DecidableEq, Inhabited

/-- What the threads of a state say. -/
inductive Verdict
  /-- More tokens are needed. -/
  | undecided
  /-- All threads belong to one production. -/
  | leaf (production : Node)
  /-- Only threads that wait for a resolver are left. -/
  | nothing
  deriving DecidableEq, Inhabited

namespace State

/-- The state of settled threads. -/
def ofSettled (path : List Nat) (settled : List Settled) : State where
  path
  active := settled.filterMap fun | .active t => some t | _ => none
  redirected := settled.filterMap fun | .redirected r => some r | _ => none
  completed := settled.filterMap fun | .completed t => some t | _ => none
  exhausted := settled.filterMap fun | .exhausted t => some t | _ => none

/-- The last token. -/
def token (s : State) : Nat :=
  s.path.head?.getD endToken

/-- No thread is left. -/
def isDead (s : State) : Bool :=
  s.active.isEmpty && s.redirected.isEmpty && s.completed.isEmpty && s.exhausted.isEmpty

/-- The threads that have a say, those that ended first. -/
def deciding (s : State) : List Thread :=
  s.exhausted ++ s.completed ++ s.active

/-- Drops the threads that matched the last token with the wildcard if another thread did better. -/
def preferConcrete (s : State) : State :=
  if s.exhausted.isEmpty && (s.active ++ s.completed).all (·.matched != .concrete) then s
  else
    { s with
      active := s.active.filter (·.matched != .wildcard)
      completed := s.completed.filter (·.matched != .wildcard) }

/-- Puts the threads that ended into the order of their candidates. -/
def sortEnded (s : State) : State :=
  { s with
    completed := s.completed.mergeSort (·.order ≤ ·.order)
    exhausted := s.exhausted.mergeSort (·.order ≤ ·.order) }

/-- What the threads say. -/
def verdict (s : State) : Verdict :=
  match s.deciding with
  | [] => .nothing
  | t :: ts => if ts.all (·.production == t.production) then .leaf t.production else .undecided

/-- More tokens are needed. -/
def isUndecided (s : State) : Bool :=
  s.verdict == .undecided

/-- The threads belong to more than one candidate. -/
def disagree : List Thread → Bool
  | [] => false
  | t :: ts => ts.any (·.production != t.production)

/-- Two candidates ended at the same place. -/
def isSplit (s : State) : Bool :=
  disagree s.completed || disagree s.exhausted

/-- More tokens are needed and cannot help. -/
def isStuck (s : State) : Bool :=
  s.isUndecided && (s.active.isEmpty || s.isSplit)

/-- The production to take when the next token leads nowhere. -/
def default? (s : State) : Option Node :=
  (s.exhausted ++ s.completed).head?.map (·.production)

end State

namespace Problem

variable (Q : Problem)

/-- The state before the first token. -/
def root : State :=
  { active := Q.candidateThreads }

/-- The tokens to try in a state: at first the token of the conflict, later every concrete token and the end. -/
def tokensAt (s : State) : List Nat :=
  if s.path.isEmpty then [Q.conflict.token]
  else (List.range Q.grammar.tokenCount).filter (· != anyToken)

/-- The state after one more token, unless no thread is left. -/
def successor (s : State) (token : Nat) : Except GrammarError (Option State) := do
  let threads := s.active.map fun t => { t with matched := .pending }
  let settled ← expand Q token s.path.isEmpty expansionLimit threads []
  let next := State.ofSettled (token :: s.path) settled
  return if next.isDead then none else some next.preferConcrete.sortEnded

/-- The fault that candidates cannot be told apart in a state. -/
def ambiguous (s : State) : GrammarError :=
  let threads := if s.isSplit then s.exhausted ++ s.completed else s.deciding
  let productions := Q.conflict.candidates.filter fun p => threads.any (·.production == p)
  .ambiguity (Q.conflict.symbolName Q.grammar) (" ".intercalate (s.path.reverse.map Q.grammar.tokenName))
    (productions.map Q.grammar.describe) (Q.conflict.position? Q.grammar)

/-- The state after one more token; it is a fault if that state is stuck. -/
def visit (s : State) (token : Nat) : Except GrammarError (Option State) := do
  let next? ← Q.successor s token
  match next? with
  | some next => if next.isStuck then throw (Q.ambiguous next) else return some next
  | none => return none

/-- The states after one more token, in the order of the tokens. -/
def children (s : State) : Except GrammarError (List State) := do
  let next ← (Q.tokensAt s).mapM (Q.visit s)
  return next.filterMap id

/-- The states that are reached from a level of states within `k` more tokens, level by level. It is a fault if more
tokens are needed after that. -/
def survey : (k : Nat) → (level : List State) → Except GrammarError (List State)
  | _, [] => return []
  | 0, s :: _ => throw (Q.ambiguous s)
  | k + 1, level => do
    let next := (← level.mapM Q.children).flatten
    return next ++ (← survey k (next.filter (·.isUndecided)))

end Problem

end PredictiveParser.Decision
