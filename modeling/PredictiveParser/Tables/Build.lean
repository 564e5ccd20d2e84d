import PredictiveParser.Tables.Basic
import PredictiveParser.Decision.Journal

/-!
# Building parse tables

The tables of a grammar are built in stages: its nodes are analysed, its declarations are checked, the prediction table is
filled, and the conflicts are decided by symbol and token. A fault in any stage ends the building; so does a resolver that
no decision asks.
-/

namespace PredictiveParser

namespace Grammar

variable (g : Grammar)

/-- The instruction of a node. -/
def instructionOf : Node → Instruction
  | .epsilon => .epsilon
  | .item (.token t) => .token t
  | .item (.symbol s) => .symbol s
  | .item (.action a) => .action a
  | .item (.argument a) => .argument a
  | .item (.beacon b) => .beacon b
  | .sequence q => .sequence ((g.sequence q).map g.itemNumber)

/-- The instructions of all nodes. -/
def instructions : Array Instruction :=
  (g.nodes.map g.instructionOf).toArray

/-- The first alternative of a symbol that derives the empty text. -/
def emptyAlternative (F : Facts) (s : Nat) : Option Nat :=
  ((g.symbol s).alts.find? fun alt => (F.of g alt).nullable).map g.number

end Grammar

/-- The decisions made so far. -/
structure Decisions where
  /-- The numbers predicted by the cells that were visited. -/
  entries : Array (Option Nat) := #[]
  /-- The first states of the automata. -/
  roots : Array Nat := #[]
  /-- The nodes of the automata. -/
  dfas : Array DfaNode := #[]
  /-- The symbols whose resolvers were asked. -/
  asked : List Nat := []
  deriving DecidableEq, Inhabited

namespace Decisions

variable (g : Grammar) (limits : Limits) (table : PredictionTable)

/-- Adds the entry of a cell, for which a conflict is decided first. -/
def addCell (D : Decisions) : Cell → Except GrammarError Decisions
  | .empty => .ok { D with entries := D.entries.push none }
  | .production p => .ok { D with entries := D.entries.push (some (g.number p)) }
  | .conflict conflict => do
    match ← Decision.Problem.resolve { grammar := g, table, limits, conflict } D.dfas.size with
    | (.production p, asked) =>
      return { D with entries := D.entries.push (some (g.number p)), asked := asked ++ D.asked }
    | (.automaton nodes, asked) =>
      return {
        entries := D.entries.push (some (g.nodeCount + D.roots.size))
        roots := D.roots.push D.dfas.size
        dfas := D.dfas ++ nodes.toArray
        asked := asked ++ D.asked }

/-- The decisions for all cells, by symbol and token. -/
def ofTable : Except GrammarError Decisions :=
  (table.rows.toList.flatMap (·.toList)).foldlM (addCell g limits table) {}

/-- The entries by symbol and token. -/
def rows (D : Decisions) : Array (Array (Option Nat)) :=
  Array.ofFn (n := g.symbolCount) fun s =>
    Array.ofFn (n := g.tokenCount) fun t => D.entries[s.val * g.tokenCount + t.val]?.join

end Decisions

namespace Grammar

variable (g : Grammar)

/-- Checks that the resolvers of all symbols were asked. -/
def validateResolvers (D : Decisions) : Except GrammarError Unit :=
  (List.range g.symbolCount).forM fun s =>
    if (g.symbol s).resolver.isSome && !D.asked.contains s then
      .error (.unusedResolver (g.symbolName s) (g.position? (Item.symbol s)))
    else .ok ()

/-- The tables of a grammar with known facts and decisions. -/
def tables (F : Facts) (D : Decisions) : Tables :=
  let symbols := List.range g.symbolCount
  let facts := symbols.map fun s => F.of g (Item.symbol s)
  { tokens := g.tokens.names.toArray
    symbols := g.symbols.map (·.name)
    actions := g.actions.names.toArray
    arguments := g.arguments.names.toArray
    beacons := g.beacons.names.toArray
    nodes := g.instructions ++ D.roots.map .decision
    symbolNodes := (symbols.map fun s => g.number (Item.symbol s)).toArray
    callbacks := g.symbols.map fun s => ⟨s.enter, s.leave⟩
    first := (facts.map (·.first.toList g.tokenCount)).toArray
    follow := (facts.map (·.follow.toList g.tokenCount)).toArray
    nullable := (facts.map (·.nullable)).toArray
    empty := (symbols.map (g.emptyAlternative F)).toArray
    entries := D.rows g
    dfas := D.dfas
    start := g.start }

/-- Builds the tables of a grammar. -/
def build (limits : Limits := {}) : Except GrammarError Tables := do
  let F := g.analyze
  g.validate F
  let D ← Decisions.ofTable g limits (.fill g F)
  g.validateResolvers D
  return g.tables F D

/-! ## Notes -/

/-- The notes on deciding conflicts in order, up to the first that cannot be decided. -/
def decisionNotes (limits : Limits) (table : PredictionTable) : List Conflict → List Note
  | [] => []
  | conflict :: rest =>
    let Q : Decision.Problem := { grammar := g, table, limits, conflict }
    Q.notes ++
      match Q.resolve 0 with
      | .ok _ => decisionNotes limits table rest
      | .error _ => []

/-- The notes on building the tables of a grammar, up to the first fault. -/
def buildNotes (limits : Limits := {}) : List Note :=
  let F := g.analyze
  let stages :=
    match g.validate F with
    | .error _ => []
    | .ok () =>
      let table := PredictionTable.fill g F
      let result :=
        match g.build limits with
        | .error _ => []
        | .ok T =>
          [Note.debug (s!"tables: {T.nodes.size} nodes, {table.conflicts.length} conflicts, " ++
            s!"{T.dfas.size} DFA nodes")]
      table.notes g F ++ g.decisionNotes limits table table.conflicts ++ result
  g.analysisNote :: stages

end Grammar

end PredictiveParser
