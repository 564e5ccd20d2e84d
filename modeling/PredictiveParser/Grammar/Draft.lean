import PredictiveParser.Grammar.Basic
import PredictiveParser.Grammar.Error
import PredictiveParser.Journal

/-!
# Writing a grammar down

A grammar is written by a script, which names its parts and states the alternatives and properties of its symbols in any
order. A part is created when it is first named. The first fault is remembered, and `Draft.finish` reports it; a script
without faults whose symbols all have alternatives finishes with a grammar.
-/

namespace PredictiveParser

/-- A grammar that is being written down. -/
structure Draft where
  tokens : NameTable := NameTable.ofList ["$end", "$any"]
  symbols : Array Nonterminal := #[]
  sequences : Array (List Item) := #[]
  actions : NameTable := {}
  arguments : NameTable := {}
  beacons : NameTable := {}
  start : Option Nat := none
  positions : List (Node × Position) := []
  /-- The first fault. -/
  fault : Option GrammarError := none

/-- A step, or several, of writing a grammar down. -/
abbrev Script := StateM Draft

namespace Draft

instance : Inhabited Draft := ⟨{}⟩

/-- The items that a node stands for. -/
def items (d : Draft) : Node → List Item
  | .epsilon => []
  | .item i => [i]
  | .sequence q => d.sequences[q]?.getD []

/-- Remembers a fault, unless there was one before. -/
def record (d : Draft) (e : GrammarError) : Draft :=
  { d with fault := d.fault <|> some e }

/-- The grammar, if the draft has no fault, a start symbol and alternatives for every symbol. -/
def finish (d : Draft) : Except GrammarError Grammar := do
  if let some e := d.fault then throw e
  let some start := d.start | throw .noStart
  if let some i := d.symbols.findIdx? (·.alts.isEmpty) then
    throw (.noProductions ((d.symbols[i]?.map (·.name)).getD "?") (d.positions.lookup (.item (.symbol i))))
  return {
    tokens := d.tokens, symbols := d.symbols, sequences := d.sequences, actions := d.actions
    arguments := d.arguments, beacons := d.beacons, start, positions := d.positions }

end Draft

namespace Script

/-! ## Parts -/

/-- A terminal. -/
def token (name : String) : Script Node := do
  let d ← get
  let (i, tokens) := d.tokens.add name
  set { d with tokens }
  return Item.token i

/-- The end of the input. -/
def endOfInput : Node :=
  Item.token endToken

/-- The wildcard. -/
def wildcard : Node :=
  Item.token anyToken

/-- A symbol. -/
def symbol (name : String) : Script Node := do
  let d ← get
  match d.symbols.findIdx? (·.name == name) with
  | some i => return Item.symbol i
  | none =>
    set { d with symbols := d.symbols.push { name } }
    return Item.symbol d.symbols.size

/-- An action. -/
def action (name : String) : Script Node := do
  let d ← get
  let (i, actions) := d.actions.add name
  set { d with actions }
  return Item.action i

/-- An argument. -/
def argument (name : String) : Script Node := do
  let d ← get
  let (i, arguments) := d.arguments.add name
  set { d with arguments }
  return Item.argument i

/-- A locator. -/
def beacon (name : String) : Script Node := do
  let d ← get
  let (i, beacons) := d.beacons.add name
  set { d with beacons }
  return Item.beacon i

/-- The concatenation of nodes. It is stored as a sequence only if it has two items or more. -/
def seq (nodes : List Node) : Script Node := do
  let d ← get
  match nodes.flatMap d.items with
  | [] => return .epsilon
  | [i] => return i
  | items =>
    set { d with sequences := d.sequences.push items }
    return .sequence d.sequences.size

/-! ## Properties of symbols -/

/-- Changes the symbol of a node; `change` may refuse with a reason. -/
def update (node : Node) (change : Nonterminal → Except String Nonterminal) : Script Unit :=
  modify fun d =>
    match node with
    | .item (.symbol s) =>
      match d.symbols[s]? with
      | none => d
      | some symbol =>
        match change symbol with
        | .ok symbol => { d with symbols := d.symbols.setIfInBounds s symbol }
        | .error reason => d.record (.conflictingSpecifiers symbol.name reason (d.positions.lookup node))
    | node => d.record (.notASymbol node.display)

/-- Adds an alternative. -/
def alt (symbol production : Node) : Script Unit :=
  update symbol fun s => .ok { s with alts := s.alts ++ [production] }

/-- Gives a symbol its resolver. -/
def resolver (symbol node : Node) (priority : Int) : Script Unit :=
  update symbol fun s =>
    if s.resolver.isSome then .error "resolver given twice"
    else .ok { s with resolver := some ⟨node, priority⟩ }

/-- Bounds the lookahead that decides between the alternatives of a symbol. -/
def lookahead (symbol : Node) (k : Nat) : Script Unit :=
  update symbol fun s =>
    if k = 0 then .error "lookahead must be at least 1"
    else if s.lookahead.any (· != k) then .error "lookahead given twice"
    else .ok { s with lookahead := some k }

/-- Declares whether a symbol is nullable. -/
def declareNullable (symbol : Node) (nullable : Bool) : Script Unit :=
  update symbol fun s =>
    if s.nullable.any (· != nullable) then .error "declared both nullable and non-nullable"
    else .ok { s with nullable := some nullable }

/-- Lets a symbol resynchronise a parse. -/
def sync (symbol : Node) : Script Unit :=
  update symbol fun s => .ok { s with sync := true }

/-- Asks for a callback when a symbol is entered. -/
def enter (symbol : Node) : Script Unit :=
  update symbol fun s => .ok { s with enter := true }

/-- Asks for a callback when a symbol is left. -/
def leave (symbol : Node) : Script Unit :=
  update symbol fun s => .ok { s with leave := true }

/-- Makes a symbol the start symbol. -/
def start (symbol : Node) : Script Unit :=
  modify fun d =>
    match symbol with
    | .item (.symbol s) => { d with start := some s }
    | node => d.record (.notASymbol node.display)

/-- Says where a node stands in the source of the grammar. -/
def position (node : Node) (p : Position) : Script Unit :=
  modify fun d => { d with positions := (node, p) :: d.positions }

/-- The grammar that a script writes down. -/
def grammar {α : Type} (script : Script α) : Except GrammarError Grammar :=
  (script.run {}).2.finish

end Script

namespace Grammar

/-- The note on a finished grammar. -/
def note (g : Grammar) : Note :=
  .debug (s!"grammar: {g.tokenCount} tokens, {g.symbolCount} symbols, {g.sequences.size} sequences, " ++
    s!"{g.nodeCount} nodes")

end Grammar

end PredictiveParser
