import PredictiveParser.Span
import PredictiveParser.NameTable
import PredictiveParser.TokenSet

/-!
# Grammars

The right side of a production is a node: nothing, one item, or a stored sequence of items. A sequence holds items and no
sequences, so a node stands for a flat list of items (`Grammar.items`).

All nodes of a grammar share one numbering: terminals first, then the empty node, symbols, sequences, actions, arguments
and locators. `Grammar.nodeAt?` takes a number back to its node (`nodeAt?_number`).
-/

namespace PredictiveParser

/-- A part of a production. -/
inductive Item
  /-- A terminal. -/
  | token (t : Nat)
  /-- A symbol to be derived. -/
  | symbol (s : Nat)
  /-- A callback. -/
  | action (a : Nat)
  /-- A callback bound to the entry of the symbol before it. -/
  | argument (a : Nat)
  /-- A locator that captures the next token. -/
  | beacon (b : Nat)
  deriving DecidableEq, Inhabited

/-- The right side of a production. -/
inductive Node
  /-- Nothing. -/
  | epsilon
  /-- One item. -/
  | item (i : Item)
  /-- The stored sequence with a number. -/
  | sequence (q : Nat)
  deriving DecidableEq, Inhabited

instance : Coe Item Node := ⟨Node.item⟩

namespace Item

/-- The item matches no input. -/
def isTransparent : Item → Bool
  | action _ | argument _ | beacon _ => true
  | token _ | symbol _ => false

/-- The text of an item, its kind and its number. -/
def display : Item → String
  | token t => s!"Token({t})"
  | symbol s => s!"Symbol({s})"
  | action a => s!"Action({a})"
  | argument a => s!"Argument({a})"
  | beacon b => s!"Beacon({b})"

end Item

namespace Node

/-- The node matches no input, whatever the grammar. -/
def isTransparent : Node → Bool
  | epsilon => true
  | item i => i.isTransparent
  | sequence _ => false

/-- The text of a node, its kind and its number. -/
def display : Node → String
  | epsilon => "Epsilon"
  | item i => i.display
  | sequence q => s!"Sequence({q})"

end Node

/-- A test that settles a decision in favour of the alternatives that begin with a symbol. -/
structure Resolver where
  /-- What the input has to match. -/
  node : Node
  /-- Resolvers of higher priority are tried first. -/
  priority : Int
  deriving DecidableEq, Inhabited

/-- A symbol with its alternatives and its declared properties. -/
structure Nonterminal where
  name : String
  alts : List Node := []
  resolver : Option Resolver := none
  /-- A bound on the lookahead that decides between the alternatives. -/
  lookahead : Option Nat := none
  /-- The declared nullability. -/
  nullable : Option Bool := none
  /-- The symbol can resynchronise a parse, for which it has to be nullable. -/
  sync : Bool := false
  /-- The host is called when the symbol is entered. -/
  enter : Bool := false
  /-- The host is called when the symbol is left. -/
  leave : Bool := false
  deriving DecidableEq, Inhabited

/-- A grammar. -/
structure Grammar where
  tokens : NameTable
  symbols : Array Nonterminal
  sequences : Array (List Item)
  actions : NameTable
  arguments : NameTable
  beacons : NameTable
  start : Nat
  /-- Where nodes stand in the source of the grammar, the latest word first. -/
  positions : List (Node × Position) := []

namespace Grammar

variable (g : Grammar)

instance : Inhabited Grammar := ⟨⟨{}, #[], #[], {}, {}, {}, 0, []⟩⟩

/-! ## Parts -/

/-- The number of terminals. -/
def tokenCount : Nat :=
  g.tokens.size

/-- The number of symbols. -/
def symbolCount : Nat :=
  g.symbols.size

/-- The symbol with a number. -/
def symbol (s : Nat) : Nonterminal :=
  g.symbols[s]?.getD ⟨"?", [], none, none, none, false, false, false⟩

/-- The items of a stored sequence. -/
def sequence (q : Nat) : List Item :=
  g.sequences[q]?.getD []

/-- The items that a node stands for. -/
def items : Node → List Item
  | .epsilon => []
  | .item i => [i]
  | .sequence q => g.sequence q

/-- The name of a symbol. -/
def symbolName (s : Nat) : String :=
  (g.symbol s).name

/-- The name of a terminal. -/
def tokenName (t : Nat) : String :=
  g.tokens.label t

/-- Where a node stands in the source of the grammar. -/
def position? (n : Node) : Option Position :=
  g.positions.lookup n

/-! ## The numbering of all nodes -/

/-- The number of the first symbol. -/
def symbolBase : Nat :=
  g.tokenCount + 1

/-- The number of the first sequence. -/
def sequenceBase : Nat :=
  g.symbolBase + g.symbols.size

/-- The number of the first action. -/
def actionBase : Nat :=
  g.sequenceBase + g.sequences.size

/-- The number of the first argument. -/
def argumentBase : Nat :=
  g.actionBase + g.actions.size

/-- The number of the first locator. -/
def beaconBase : Nat :=
  g.argumentBase + g.arguments.size

/-- The number of nodes, which is the first number that no node has. -/
def nodeCount : Nat :=
  g.beaconBase + g.beacons.size

/-- The number of an item among all nodes. -/
def itemNumber : Item → Nat
  | .token t => t
  | .symbol s => g.symbolBase + s
  | .action a => g.actionBase + a
  | .argument a => g.argumentBase + a
  | .beacon b => g.beaconBase + b

/-- The number of a node among all nodes. -/
def number : Node → Nat
  | .epsilon => g.tokenCount
  | .item i => g.itemNumber i
  | .sequence q => g.sequenceBase + q

/-- The node with a number. -/
def nodeAt? (n : Nat) : Option Node :=
  if n < g.tokenCount then some (Item.token n)
  else if n < g.symbolBase then some .epsilon
  else if n < g.sequenceBase then some (Item.symbol (n - g.symbolBase))
  else if n < g.actionBase then some (.sequence (n - g.sequenceBase))
  else if n < g.argumentBase then some (Item.action (n - g.actionBase))
  else if n < g.beaconBase then some (Item.argument (n - g.argumentBase))
  else if n < g.nodeCount then some (Item.beacon (n - g.beaconBase))
  else none

/-- All nodes in the order of their numbers. -/
def nodes : List Node :=
  (List.range g.nodeCount).filterMap g.nodeAt?

/-- The node refers to parts that the grammar has. -/
def HasItem : Item → Prop
  | .token t => t < g.tokenCount
  | .symbol s => s < g.symbolCount
  | .action a => a < g.actions.size
  | .argument a => a < g.arguments.size
  | .beacon b => b < g.beacons.size

/-- The node is one of the grammar. -/
def HasNode : Node → Prop
  | .epsilon => True
  | .item i => g.HasItem i
  | .sequence q => q < g.sequences.size

variable {g}

/-- The number of a node leads back to it. -/
theorem nodeAt?_number {n : Node} (h : g.HasNode n) : g.nodeAt? (g.number n) = some n := by
  rcases n with _ | (t | s | a | a | b) | q <;>
    simp only [HasNode, HasItem, symbolCount] at h <;>
    simp only [nodeAt?, number, itemNumber, nodeCount, beaconBase, argumentBase, actionBase, sequenceBase,
      symbolBase] <;>
    grind

variable (g)

/-! ## Describing productions -/

/-- The text of an item. -/
def describeItem : Item → String
  | .token t => g.tokenName t
  | .symbol s => g.symbolName s
  | .action a => "\x7b" ++ g.actions.label a ++ "\x7d"
  | .argument a => "(" ++ g.arguments.label a ++ ")"
  | .beacon b => "@" ++ g.beacons.label b

/-- The text of a node: its items, separated by blanks. -/
def describe : Node → String
  | .epsilon => "ε"
  | .item i => g.describeItem i
  | .sequence q => " ".intercalate ((g.sequence q).map g.describeItem)

end Grammar

end PredictiveParser
