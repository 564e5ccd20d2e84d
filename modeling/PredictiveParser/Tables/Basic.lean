import PredictiveParser.Decision.Automaton

/-!
# Parse tables

Parse tables are all that is left of a grammar for parsing: the names, the nodes by number, an entry for every symbol and
token, and the lookahead automata. `Tables.program` is the program that the parsing machine walks; a lookup outside of the
tables finds nothing.
-/

namespace PredictiveParser

/-- The tables of a grammar. -/
structure Tables where
  tokens : Array String
  symbols : Array String
  actions : Array String
  arguments : Array String
  beacons : Array String
  /-- The nodes of the grammar, and behind them one decision for each automaton. -/
  nodes : Array Instruction
  /-- The numbers of the nodes of the symbols. -/
  symbolNodes : Array Nat
  callbacks : Array Callbacks
  /-- What symbols can begin with, in increasing order. -/
  first : Array (List Nat)
  /-- What can follow symbols, in increasing order. -/
  follow : Array (List Nat)
  nullable : Array Bool
  /-- The first alternative of each symbol that derives the empty text. -/
  empty : Array (Option Nat)
  /-- The nodes predicted by symbol and token. -/
  entries : Array (Array (Option Nat))
  /-- The nodes of all automata. -/
  dfas : Array DfaNode
  start : Nat
  deriving DecidableEq, Inhabited

namespace DfaNode

/-- The state that the machine sees. -/
def state : DfaNode → DfaState
  | leaf p => .leaf p
  | switch _ default? => .switch default?
  | resolver n _ p otherwise => .resolver n p otherwise

/-- The edges to other states. -/
def transitions : DfaNode → List (Nat × Nat)
  | switch edges _ => edges
  | _ => []

end DfaNode

namespace Tables

variable (T : Tables)

/-- The node predicted for a symbol on a token. -/
def entry (s t : Nat) : Option Nat :=
  (T.entries[s]?.bind (·[t]?)).join

/-- The tokens on which a symbol has a prediction. -/
def expected (s : Nat) : List Nat :=
  (List.range T.tokens.size).filter fun t => (T.entry s t).isSome

/-- The edges of an automaton state. -/
def transitions (d : Nat) : List (Nat × Nat) :=
  (T.dfas[d]?.map (·.transitions)).getD []

/-- The name of a terminal. -/
def tokenName (t : Nat) : String :=
  T.tokens[t]?.getD "?"

/-- The name of a symbol. -/
def symbolName (s : Nat) : String :=
  T.symbols[s]?.getD "?"

/-- The terminal with a name. -/
def token? (name : String) : Option Nat :=
  T.tokens.idxOf? name

/-- The symbol with a name. -/
def symbol? (name : String) : Option Nat :=
  T.symbols.idxOf? name

/-- The action with a name. -/
def action? (name : String) : Option Nat :=
  T.actions.idxOf? name

/-- The argument with a name. -/
def argument? (name : String) : Option Nat :=
  T.arguments.idxOf? name

/-- The locator with a name. -/
def beacon? (name : String) : Option Nat :=
  T.beacons.idxOf? name

/-- The node with a number. -/
def instruction (n : Nat) : Instruction :=
  T.nodes[n]?.getD .epsilon

/-- The program that the parsing machine walks. -/
def program : Program where
  instruction := T.instruction
  symbolNode s := T.symbolNodes[s]?.getD 0
  lookup := T.entry
  dfa d := (T.dfas[d]?.map (·.state)).getD (.leaf 0)
  transition d t := (T.transitions d).lookup t
  emptyProduction s := T.empty[s]?.join
  callbacks s := T.callbacks[s]?.getD {}
  expected := T.expected
  dfaExpected d := (T.transitions d).map (·.1)
  symbolName := T.symbolName
  tokenName := T.tokenName

end Tables

end PredictiveParser
