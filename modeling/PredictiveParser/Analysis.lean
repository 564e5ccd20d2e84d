import PredictiveParser.Grammar.Basic
import PredictiveParser.Grammar.Error
import PredictiveParser.Journal

/-!
# What nodes can begin with and be followed by

For every node of a grammar the analysis finds the terminals that its texts can begin with, the terminals that can follow
it, whether it derives the empty text, and whether the input can end after it. These facts are the least ones that are
closed under a round of propagation through alternatives and sequences; `analyze` repeats the round until it changes
nothing.
-/

namespace PredictiveParser

/-- What is known of a node. -/
structure NodeFacts where
  /-- The terminals that a text of the node can begin with. -/
  first : TokenSet := .empty
  /-- The terminals that can follow the node. -/
  follow : TokenSet := .empty
  /-- The node derives the empty text. -/
  nullable : Bool := false
  /-- The input can end after the node. -/
  final : Bool := false
  deriving DecidableEq, Inhabited

/-- What is known of the nodes of a grammar, by number. -/
abbrev Facts := Array NodeFacts

namespace NodeFacts

/-- Adds to what a node can begin with. -/
def addFirst (f : NodeFacts) (first : TokenSet) (nullable : Bool) : NodeFacts :=
  { f with first := f.first.union first, nullable := f.nullable || nullable }

/-- Adds to what can follow a node. -/
def addFollow (f : NodeFacts) (follow : TokenSet) (final : Bool) : NodeFacts :=
  { f with follow := f.follow.union follow, final := f.final || final }

end NodeFacts

namespace Facts

variable (g : Grammar)

/-- The facts of a node. -/
def of (F : Facts) (n : Node) : NodeFacts :=
  F[g.number n]?.getD {}

/-- Changes the facts of a node. -/
def update (F : Facts) (n : Node) (change : NodeFacts → NodeFacts) : Facts :=
  F.modify (g.number n) change

/-- What a list of items can begin with, and whether it derives the empty text. -/
def firstOf (F : Facts) : List Item → TokenSet × Bool
  | [] => (.empty, true)
  | i :: is =>
    let f := F.of g i
    if f.nullable then
      let (first, nullable) := firstOf F is
      (f.first.union first, nullable)
    else (f.first, false)

/-- Propagates along one alternative: the symbol begins as the alternative does, and the alternative is followed by what
follows the symbol. -/
def throughAlternative (symbol : Node) (F : Facts) (alt : Node) : Facts :=
  let a := F.of g alt
  let F := F.update g symbol (·.addFirst a.first a.nullable)
  let f := F.of g symbol
  F.update g alt (·.addFollow f.follow f.final)

/-- Propagates what follows a sequence from its last item to its first: `reversed` are the items still to be visited,
and `trailing` and `final` say what follows them. -/
def throughItems : (reversed : List Item) → (trailing : TokenSet) → (final : Bool) → Facts → Facts
  | [], _, _, F => F
  | i :: is, trailing, final, F =>
    let F := F.update g i (·.addFollow trailing final)
    let f := F.of g i
    if f.nullable then throughItems is (trailing.union f.first) final F else throughItems is f.first false F

/-- Propagates through one sequence: it begins as its items do, and they are followed by one another and by what follows
the sequence. -/
def throughSequence (F : Facts) (q : Nat) : Facts :=
  let (first, nullable) := F.firstOf g (g.sequence q)
  let F := F.update g (.sequence q) (·.addFirst first nullable)
  let f := F.of g (.sequence q)
  throughItems g (g.sequence q).reverse f.follow f.final F

/-- One round of propagation, through all alternatives and then through all sequences. -/
def round (F : Facts) : Facts :=
  let F := (List.range g.symbolCount).foldl (fun F s =>
    (g.symbol s).alts.foldl (throughAlternative g (Item.symbol s)) F) F
  (List.range g.sequences.size).foldl (throughSequence g) F

/-- What is known at the outset: terminals begin with themselves, transparent nodes derive the empty text, and the input
can end after the start symbol. -/
def initial : Facts :=
  let facts := g.nodes.map fun n =>
    match n with
    | .item (.token t) => { first := .single t }
    | n => { nullable := n.isTransparent }
  update g facts.toArray (Item.symbol g.start) ({ · with final := true })

/-- Repeats the round until it changes nothing, at most `fuel` times, and counts the rounds. -/
def iterate : (fuel : Nat) → (rounds : Nat) → Facts → Facts × Nat
  | 0, rounds, F => (F, rounds)
  | fuel + 1, rounds, F =>
    let F' := round g F
    if F' = F then (F, rounds + 1) else iterate fuel (rounds + 1) F'

/-- The number of facts that can be found: for every node, a terminal at its beginning, a terminal after it, and two
properties. -/
def bound : Nat :=
  g.nodeCount * (2 * g.tokenCount + 2)

end Facts

namespace Grammar

/-- The facts of all nodes and the number of rounds that it took to find them. Every round but the last finds a new
fact, so there are enough rounds. -/
def analysis (g : Grammar) : Facts × Nat :=
  Facts.iterate g (Facts.bound g + 1) 0 (Facts.initial g)

/-- The facts of all nodes. -/
def analyze (g : Grammar) : Facts :=
  g.analysis.1

/-- The note on the analysis. -/
def analysisNote (g : Grammar) : Note :=
  .debug s!"FIRST/FOLLOW fixed point after {g.analysis.2} rounds"

/-- Checks one symbol against its declarations. -/
def validateSymbol (g : Grammar) (F : Facts) (s : Nat) : Except GrammarError Unit := do
  let symbol := g.symbol s
  let nullable := (F.of g (Item.symbol s)).nullable
  let position? := g.position? (Item.symbol s)
  if symbol.nullable.any (· != nullable) then throw (.nullabilityMismatch symbol.name nullable position?)
  if symbol.sync && !nullable then throw (.syncOnNonNullable symbol.name position?)

/-- Checks the symbols against their declarations, in order. -/
def validate (g : Grammar) (F : Facts) : Except GrammarError Unit :=
  (List.range g.symbolCount).forM (g.validateSymbol F)

end Grammar

end PredictiveParser
