import PredictiveParser.Tables.Basic

/-!
# Listing parse tables

Tables are listed as lines of fields that are separated by commas: what symbols begin with and are followed by, the
entries of symbols and tokens, and the nodes of the automata.
-/

namespace PredictiveParser.Tables

variable (T : Tables)

/-- The text of a node without parts. -/
def describeAtom : Instruction → String
  | .token t => T.tokenName t
  | .epsilon => "ε"
  | .symbol s => T.symbolName s
  | .sequence _ => ""
  | .action a => "\x7b" ++ T.actions[a]?.getD "?" ++ "\x7d"
  | .argument a => "(" ++ T.arguments[a]?.getD "?" ++ ")"
  | .beacon b => "@" ++ T.beacons[b]?.getD "?"
  | .decision d => s!"LaDfa({d})"

/-- The text of a node: its parts, separated by blanks. Parts of a sequence have no parts themselves. -/
def describe (n : Nat) : String :=
  match T.instruction n with
  | .sequence parts => " ".intercalate (parts.map fun p => T.describeAtom (T.instruction p))
  | i => T.describeAtom i

/-- A line of fields. -/
def line (fields : List String) : String :=
  ",".intercalate fields ++ "\n"

/-- A list of tokens in braces. -/
def tokenSetText (empty : Bool) (tokens : List Nat) : String :=
  let tokens := String.join (tokens.map fun t => T.tokenName t ++ ", ")
  "\x7b" ++ (if empty then "`empty', " else "") ++ tokens ++ "\x7d"

/-- The listing of what symbols begin with and are followed by. -/
def listSets : String :=
  let symbols := List.range T.symbols.size
  let first s := line ["FIRST", T.symbolName s, T.tokenSetText (T.nullable[s]?.getD false) (T.first[s]?.getD [])]
  let follow s := line ["FOLLOW", T.symbolName s, T.tokenSetText false (T.follow[s]?.getD [])]
  String.join (symbols.map first) ++ "\n" ++ String.join (symbols.map follow)

/-- The listing of the entries. -/
def listEntries : String :=
  let row s := (List.range T.tokens.size).filterMap fun t =>
    (T.entry s t).map fun n => line ["T", T.symbolName s, T.tokenName t, T.describe n]
  String.join ((List.range T.symbols.size).flatMap row)

/-- The text of where a decision goes on. -/
def targetText : Option Target → String
  | some (.dfa d) => s!"D{d}"
  | some (.node p) => T.describe p
  | none => ""

/-- The fields of an automaton node. -/
def dfaFields : DfaNode → List String
  | .leaf p => ["leaf", T.describe p]
  | .switch edges default? =>
    let edges := String.join (edges.map fun (t, d) => s!"{T.tokenName t}:{d} ")
    ["switch", edges, "default=" ++ (default?.map T.describe).getD ""]
  | .resolver n priority p otherwise =>
    ["resolve", T.describe n, s!"priority={priority}", "then=" ++ T.describe p, "else=" ++ T.targetText otherwise]

/-- The listing of the automata. -/
def listDfas : String :=
  let node (x : DfaNode × Nat) := line ("D" :: toString x.2 :: T.dfaFields x.1)
  line ["DS", toString T.dfas.size] ++ String.join (T.dfas.toList.zipIdx.map node)

end PredictiveParser.Tables
