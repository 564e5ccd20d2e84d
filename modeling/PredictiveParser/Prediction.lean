import PredictiveParser.Analysis

/-!
# Predicting with one token

An alternative of a symbol competes for a token if the token can begin it or, when the alternative derives the empty text,
can follow the symbol. A cell of the prediction table holds what competes: nothing, one production, or a conflict of
several candidates. A production of the wildcard competes for every concrete terminal.
-/

namespace PredictiveParser

/-- The limits on the search that decides conflicts. -/
structure Limits where
  /-- The number of tokens that a decision may look at. -/
  lookahead : Nat := 4
  /-- The number of conflicts that the search may pass on one token. -/
  conflictDepth : Nat := 8
  deriving DecidableEq, Inhabited

/-- Several alternatives of a symbol compete for a token. -/
structure Conflict where
  symbol : Nat
  token : Nat
  /-- The alternatives, in the order in which the symbol has them. -/
  candidates : List Node
  deriving DecidableEq, Inhabited

/-- What a symbol and a token predict. -/
inductive Cell
  /-- No alternative. -/
  | empty
  /-- One alternative. -/
  | production (p : Node)
  /-- Several alternatives. -/
  | conflict (c : Conflict)
  deriving DecidableEq, Inhabited

namespace Conflict

variable (g : Grammar)

/-- The lookahead that a candidate asks for: that of the symbol it consists of, else that of the conflicting symbol. -/
def lookaheadOf (c : Conflict) (candidate : Node) : Option Nat :=
  let own := (g.symbol c.symbol).lookahead
  match candidate with
  | .item (.symbol s) => (g.symbol s).lookahead <|> own
  | _ => own

/-- The largest lookahead that a candidate asks for, if any does. -/
def lookahead? (c : Conflict) : Option Nat :=
  (c.candidates.filterMap (c.lookaheadOf g)).max?

/-- The number of tokens that the decision may look at. -/
def limit (limits : Limits) (c : Conflict) : Nat :=
  (c.lookahead? g).elim limits.lookahead (min · limits.lookahead)

/-- The name of the conflicting symbol. -/
def symbolName (c : Conflict) : String :=
  g.symbolName c.symbol

/-- The name of the token. -/
def tokenName (c : Conflict) : String :=
  g.tokenName c.token

/-- Where the conflicting symbol stands in the source of the grammar. -/
def position? (c : Conflict) : Option Position :=
  g.position? (Item.symbol c.symbol)

end Conflict

namespace Grammar

variable (g : Grammar) (F : Facts)

/-- The tokens for which an alternative of a symbol competes. -/
def selection (s : Nat) (alt : Node) : TokenSet :=
  let a := F.of g alt
  let first := a.first.concrete g.tokenCount
  if a.nullable then
    let f := F.of g (Item.symbol s)
    let follow := first.union (f.follow.concrete g.tokenCount)
    if f.final then follow.union (.single endToken) else follow
  else first

/-- The alternatives of a symbol with the tokens for which they compete. -/
def selections (s : Nat) : List (Node × TokenSet) :=
  (g.symbol s).alts.map fun alt => (alt, g.selection F s alt)

end Grammar

/-- The alternatives that compete for a token, without repetitions. -/
def competing (selections : List (Node × TokenSet)) (t : Nat) : List Node :=
  ((selections.filter fun s => s.2.mem t).map (·.1)).eraseDups

/-- The cell of a symbol and a token for which the candidates compete. -/
def Cell.ofCandidates (s t : Nat) : List Node → Cell
  | [] => .empty
  | [p] => .production p
  | candidates => .conflict ⟨s, t, candidates⟩

/-- The cells of all symbols and tokens. -/
structure PredictionTable where
  rows : Array (Array Cell)
  deriving DecidableEq, Inhabited

namespace PredictionTable

/-- The cell of a symbol and a token. -/
def cell (T : PredictionTable) (s t : Nat) : Cell :=
  (T.rows[s]?.bind (·[t]?)).getD .empty

/-- The cells of a symbol. -/
def row (g : Grammar) (F : Facts) (s : Nat) : Array Cell :=
  let selections := g.selections F s
  Array.ofFn (n := g.tokenCount) fun t => Cell.ofCandidates s t (competing selections t)

/-- The prediction table of a grammar. -/
def fill (g : Grammar) (F : Facts) : PredictionTable :=
  ⟨Array.ofFn (n := g.symbolCount) fun s => row g F s⟩

/-- The conflicts, by symbol and then by token. -/
def conflicts (T : PredictionTable) : List Conflict :=
  T.rows.toList.flatMap fun row => row.toList.filterMap fun
    | .conflict c => some c
    | _ => none

/-! ## Notes -/

/-- The notes on the conflicts that the alternatives `rest` of a symbol bring about after the alternatives `earlier`: a
conflict shows with the second candidate. -/
def conflictNotes (g : Grammar) (s : Nat) (earlier : List (Node × TokenSet)) : List (Node × TokenSet) → List Note
  | [] => []
  | (alt, tokens) :: rest =>
    let notes := (tokens.toList g.tokenCount).filterMap fun t =>
      match competing earlier t with
      | [p] =>
        if p = alt then none
        else some (.trace (s!"conflict {g.symbolName s},{g.tokenName t}: " ++
          s!"{g.describe p} | {g.describe alt}"))
      | _ => none
    notes ++ conflictNotes g s (earlier ++ [(alt, tokens)]) rest

/-- The notes on filling the table. -/
def notes (g : Grammar) (F : Facts) (T : PredictionTable) : List Note :=
  (List.range g.symbolCount).flatMap (fun s => conflictNotes g s [] (g.selections F s)) ++
    [.debug s!"parse table {g.symbolCount}x{g.tokenCount}, {T.conflicts.length} conflicts"]

end PredictionTable

end PredictiveParser
