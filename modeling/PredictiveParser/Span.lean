/-!
# Positions and spans

A position counts lines, and characters of the line, from zero; a span is the half-open range between two positions.
Positions are ordered by line and then by column, spans by start and then by end. `Span.merge` covers both of its
arguments; it never looks at which of them came first (`Span.merge_self`).
-/

namespace PredictiveParser

/-- A place in a source text, counted from zero in lines and in characters of the line. -/
structure Position where
  line : Nat
  column : Nat
  deriving DecidableEq, Inhabited

namespace Position

/-- Positions are ordered by line and then by column. -/
def order (p q : Position) : Ordering :=
  (compare p.line q.line).then (compare p.column q.column)

/-- `p` is not after `q`. -/
def isLE (p q : Position) : Bool :=
  (p.order q).isLE

/-- The short text of a position, `line:column`. -/
def display (p : Position) : String :=
  s!"{p.line}:{p.column}"

/-- The long text of a position, with its field names. -/
def detail (p : Position) : String :=
  s!"Position \x7b line: {p.line}, column: {p.column} \x7d"

/-- The suffix that attaches a position, when there is one, to a message. -/
def suffix : Option Position → String
  | some p => " at " ++ p.display
  | none => ""

theorem isLE_refl (p : Position) : p.isLE p = true := by
  simp [isLE, order, Ordering.isLE]

end Position

/-- The half-open range of a source text from `start` up to `stop`. -/
structure Span where
  start : Position
  stop : Position
  deriving DecidableEq, Inhabited

namespace Span

/-- The empty span at a position. -/
def point (p : Position) : Span :=
  ⟨p, p⟩

/-- The least span that covers both spans. -/
def merge (a b : Span) : Span where
  start := if a.start.isLE b.start then a.start else b.start
  stop := if b.stop.isLE a.stop then a.stop else b.stop

/-- A span is empty when it starts where it ends. -/
def isEmpty (a : Span) : Bool :=
  a.start == a.stop

/-- Spans are ordered by start and then by end. -/
def order (a b : Span) : Ordering :=
  (a.start.order b.start).then (a.stop.order b.stop)

/-- The short text of a span. -/
def display (a : Span) : String :=
  s!"span {a.start.display} to {a.stop.display}"

/-- The long text of a span, with its field names. -/
def detail (a : Span) : String :=
  s!"Span \x7b start: {a.start.detail}, end: {a.stop.detail} \x7d"

/-- The long text of a span that may be unknown. -/
def detail? : Option Span → String
  | some a => s!"Some({a.detail})"
  | none => "None"

theorem merge_self (a : Span) : a.merge a = a := by
  simp [merge, Position.isLE_refl]

end Span

end PredictiveParser
