import PredictiveParser.Decision.Automaton

/-!
# Notes on a decision

The notes on a decision list its states in the order in which they are found, with the state each one comes from, and stop
where the decision fails.
-/

namespace PredictiveParser.Decision

/-- The text of a verdict. -/
def Verdict.display : Verdict → String
  | .undecided => "Open"
  | .leaf p => s!"Leaf({p.display})"
  | .nothing => "Nothing"

/-- A search that takes notes. -/
structure Walk where
  /-- The number of states found. -/
  count : Nat
  /-- The notes, the latest first. -/
  notes : List Note := []
  /-- The undecided states of the next level, the latest first. -/
  next : List (Nat × State) := []
  /-- The decision has failed. -/
  failed : Bool := false

namespace Problem

variable (Q : Problem)

/-- The note on the state number `i`, which was found from the state number `parent`. -/
def stateNote (parent i : Nat) (s : State) : Note :=
  .trace (s!"state {i} <- {parent} on {Q.grammar.tokenName s.token}: active={s.active.length} " ++
    s!"redirected={s.redirected.length} completed={s.completed.length} epsilon={s.exhausted.length} " ++
    s.verdict.display)

/-- Looks for the state after one more token. -/
def walk (parent : Nat × State) (w : Walk) (token : Nat) : Walk :=
  if w.failed then w
  else
    match Q.successor parent.2 token with
    | .error _ => { w with failed := true }
    | .ok none => w
    | .ok (some s) =>
      let w := { w with count := w.count + 1, notes := Q.stateNote parent.1 w.count s :: w.notes }
      if s.isStuck then { w with failed := true }
      else if s.isUndecided then { w with next := (w.count - 1, s) :: w.next }
      else w

/-- The notes on the states found from a level of numbered states; `count` states were found before. -/
def surveyNotes : (k count : Nat) → (level : List (Nat × State)) → List Note
  | 0, _, _ => []
  | _, _, [] => []
  | k + 1, count, level =>
    let w := level.foldl (fun w parent => (Q.tokensAt parent.2).foldl (Q.walk parent) w) { count }
    w.notes.reverse ++ if w.failed then [] else surveyNotes k w.count w.next.reverse

/-- The notes on a decision. -/
def notes : List Note :=
  let g := Q.grammar
  let start := Note.debug (s!"resolving {Q.conflict.symbolName g} on {Q.conflict.tokenName g} " ++
    s!"({Q.conflict.candidates.length} candidates, lookahead {Q.limit})")
  let result :=
    match Q.resolve 0 with
    | .ok (.production p, _) => [Note.debug s!"resolved to {g.describe p}"]
    | .ok (.automaton nodes, _) => [Note.debug s!"resolved with {nodes.length} DFA nodes"]
    | .error _ => []
  start :: Q.surveyNotes Q.limit 1 [(0, Q.root)] ++ result

end Problem

end PredictiveParser.Decision
