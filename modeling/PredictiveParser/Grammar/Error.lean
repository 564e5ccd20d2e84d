import PredictiveParser.Span

/-!
# What can be wrong with a grammar

Some faults show while a grammar is written down, some when its declarations are checked, and some when its conflicts
are decided. `GrammarError.message` is the wording; the position of the symbol follows it where one is known.
-/

namespace PredictiveParser

/-- The faults of a grammar, with the names that their messages need. -/
inductive GrammarError
  /-- No start symbol was given. -/
  | noStart
  /-- A symbol has no alternatives. -/
  | noProductions (symbol : String) (position? : Option Position)
  /-- A property of symbols was given to another node. -/
  | notASymbol (node : String)
  /-- A symbol is nullable, or not, against its declaration. -/
  | nullabilityMismatch (symbol : String) (nullable : Bool) (position? : Option Position)
  /-- Only nullable symbols can resynchronise a parse. -/
  | syncOnNonNullable (symbol : String) (position? : Option Position)
  /-- Two properties given to a symbol exclude each other. -/
  | conflictingSpecifiers (symbol reason : String) (position? : Option Position)
  /-- No decision ever asks the resolver of a symbol. -/
  | unusedResolver (symbol : String) (position? : Option Position)
  /-- After the tokens of `path`, which all of `productions` allow, the productions cannot be told apart. -/
  | ambiguity (symbol path : String) (productions : List String) (position? : Option Position)
  /-- Deciding a conflict leads through more than `depth` other conflicts on one token. -/
  | conflictDepth (symbol token : String) (depth : Nat) (position? : Option Position)
  /-- Deciding a conflict expands too many nodes on one token. -/
  | expansionLimit (symbol token : String) (position? : Option Position)
  /-- No candidate of a conflict can match its token. -/
  | unresolvedConflict (symbol token : String)
  deriving DecidableEq, Inhabited

namespace GrammarError

/-- The wording of a fault. -/
def message : GrammarError → String
  | noStart => "no start symbol"
  | noProductions s p => s!"symbol {s} has no productions" ++ Position.suffix p
  | notASymbol n => s!"{n} is not a symbol"
  | nullabilityMismatch s true p => s!"symbol {s} is nullable but declared otherwise" ++ Position.suffix p
  | nullabilityMismatch s false p => s!"symbol {s} is not nullable but declared otherwise" ++ Position.suffix p
  | syncOnNonNullable s p => s!"sync on non-nullable symbol {s}" ++ Position.suffix p
  | conflictingSpecifiers s reason p => s!"conflicting specifiers on {s}: {reason}" ++ Position.suffix p
  | unusedResolver s p => s!"resolver of {s} is never used" ++ Position.suffix p
  | ambiguity s path productions p =>
    s!"{s} is ambiguous on `{path}` between " ++ " | ".intercalate productions ++ Position.suffix p
  | conflictDepth s t depth p =>
    s!"conflict depth {depth} exceeded while resolving {s} on {t} (likely left recursion)" ++ Position.suffix p
  | expansionLimit s t p =>
    s!"expansion limit exceeded while resolving {s} on {t} (likely left recursion)" ++ Position.suffix p
  | unresolvedConflict s t => s!"conflict on {s}, {t} left unresolved"

end GrammarError

end PredictiveParser
