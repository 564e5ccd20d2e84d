import PredictiveParser.TokenSet

/-!
# What a parser executes

A `Program` is the finished description of a language that the parsing machine walks: numbered nodes, a table that
predicts a production for a symbol and a token, and lookahead automata for the predictions that one token cannot
decide. It is an interface of total functions, so a program may come from built tables or from anywhere else.
-/

namespace PredictiveParser

/-- Joins the parts of a list text with a comma and a blank. -/
def commaSeparated (parts : List String) : String :=
  ", ".intercalate parts

/-- A node as the machine sees it; parts of a sequence are node numbers. -/
inductive Instruction
  /-- Match a terminal, possibly the wildcard. -/
  | token (t : Nat)
  /-- Match nothing. -/
  | epsilon
  /-- Predict and match a production of a symbol. -/
  | symbol (s : Nat)
  /-- Match the parts in order. -/
  | sequence (parts : List Nat)
  /-- Call the host. -/
  | action (a : Nat)
  /-- An argument, bound when the symbol before it is entered. -/
  | argument (a : Nat)
  /-- Bind the next matched token to a slot. -/
  | beacon (slot : Nat)
  /-- Decide between productions with the automaton that starts at a state. -/
  | decision (dfa : Nat)
  deriving DecidableEq, Inhabited

namespace Instruction

/-- The text of an instruction. -/
def display : Instruction → String
  | token t => s!"Token({t})"
  | epsilon => "Epsilon"
  | symbol s => s!"Symbol({s})"
  | sequence parts => "Sequence([" ++ commaSeparated (parts.map toString) ++ "])"
  | action a => s!"Action({a})"
  | argument a => s!"Argument({a})"
  | beacon b => s!"Beacon({b})"
  | decision d => s!"LaDfa({d})"

end Instruction

/-- Where a decision goes on after a failed resolver. -/
inductive Target
  /-- To another state of the automaton. -/
  | dfa (d : Nat)
  /-- To this production. -/
  | node (p : Nat)
  deriving DecidableEq, Inhabited

namespace Target

/-- The text of a target that may be missing. -/
def display? : Option Target → String
  | some (dfa d) => s!"Some(Dfa({d}))"
  | some (node p) => s!"Some(Node({p}))"
  | none => "None"

end Target

/-- The shape of a state of a lookahead automaton. -/
inductive DfaState
  /-- The decision is made. -/
  | leaf (production : Nat)
  /-- Inspect one more token; without a transition on it take the default. -/
  | switch (default? : Option Nat)
  /-- Try to match `node`; take `accept` if it matches, go on with `otherwise` if not. -/
  | resolver (node accept : Nat) (otherwise : Option Target)
  deriving DecidableEq, Inhabited

namespace DfaState

/-- The text of a state. -/
def display : DfaState → String
  | leaf p => s!"Leaf({p})"
  | switch none => "Switch \x7b default: None \x7d"
  | switch (some p) => s!"Switch \x7b default: Some({p}) \x7d"
  | resolver n p o => s!"Resolver \x7b resolver: {n}, then: {p}, otherwise: {Target.display? o} \x7d"

end DfaState

/-- The callbacks that a symbol asks for. -/
structure Callbacks where
  enter : Bool := false
  leave : Bool := false
  deriving DecidableEq, Inhabited

/-- The description of a language that the machine walks. -/
structure Program where
  /-- The node with a number. -/
  instruction : Nat → Instruction
  /-- The number of the node of a symbol. -/
  symbolNode : Nat → Nat
  /-- The production, or the decision, predicted for a symbol on a token. -/
  lookup : Nat → Nat → Option Nat
  /-- The state of the lookahead automata with a number. -/
  dfa : Nat → DfaState
  /-- The successor of a state on a token. -/
  transition : Nat → Nat → Option Nat
  /-- The production that a symbol falls back to when it matches nothing inside a resolver. -/
  emptyProduction : Nat → Option Nat
  /-- The callbacks of a symbol. -/
  callbacks : Nat → Callbacks
  /-- The tokens on which a symbol has a prediction. -/
  expected : Nat → List Nat
  /-- The tokens on which a state has a transition. -/
  dfaExpected : Nat → List Nat
  /-- The name of a symbol. -/
  symbolName : Nat → String
  /-- The name of a terminal. -/
  tokenName : Nat → String

end PredictiveParser
