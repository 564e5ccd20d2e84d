/-!
# Notes on the work in progress

Building tables and parsing leave notes of three levels of detail. A journal is a list of notes in the order in which
they were made; `Note.atLevel` keeps those that a reader at some level wants to see.
-/

namespace PredictiveParser

/-- How detailed a note is, the coarsest level first. -/
inductive Level
  | info
  | debug
  | trace
  deriving DecidableEq, Inhabited

namespace Level

/-- The place of a level in the order of detail. -/
def rank : Level → Nat
  | info => 0
  | debug => 1
  | trace => 2

/-- The word that opens a note of the level. -/
def label : Level → String
  | info => "INFO"
  | debug => "DEBUG"
  | trace => "TRACE"

end Level

/-- One line of a journal. -/
structure Note where
  level : Level
  text : String
  deriving DecidableEq, Inhabited

namespace Note

/-- A note for general information. -/
def info (text : String) : Note :=
  ⟨.info, text⟩

/-- A note for whoever looks for a fault. -/
def debug (text : String) : Note :=
  ⟨.debug, text⟩

/-- A note on a single step. -/
def trace (text : String) : Note :=
  ⟨.trace, text⟩

/-- The line of a note. -/
def render (n : Note) : String :=
  n.level.label ++ " " ++ n.text

/-- The notes that a reader at the level sees. -/
def atLevel (level : Level) (notes : List Note) : List Note :=
  notes.filter fun n => n.level.rank ≤ level.rank

end Note

end PredictiveParser
