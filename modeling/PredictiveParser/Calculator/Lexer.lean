import PredictiveParser.Calculator.Language
import PredictiveParser.Calculator.Error
import PredictiveParser.Machine.State

/-!
# Lexemes of the calculator

A source is cut into pieces. The first character of a piece says of which kind it is and which characters may go on with
it, and a piece takes as many of those as there are; the pieces put together are the source (`text_pieces`). Blanks
and comments, which run from a number sign to the end of the line, are passed over, and a character that begins nothing
else is an error. Identifiers, digits and blanks are of the ASCII kind only.
-/

namespace PredictiveParser.Calculator

/-- What the evaluator needs to know of a token besides its terminal. -/
inductive Payload
  | none
  | ident (name : String)
  | number (value : Value)
  deriving DecidableEq, Inhabited

/-- A token of the calculator. -/
structure Token where
  id : Nat
  payload : Payload := .none
  span : Option Span := none
  deriving DecidableEq, Inhabited

instance : Terminal Token where
  id := Token.id
  span? := Token.span

/-- The terminals of the lexemes in some tables. -/
structure Alphabet where
  id : Lexeme → Nat

/-- The terminals of the lexemes in tables that have them all. -/
def Alphabet.ofTables (T : Tables) : Except Error Alphabet :=
  if Lexeme.all.all fun l => (T.token? l.name).isSome then .ok ⟨fun l => (T.token? l.name).getD endToken⟩
  else .error (.internal "lexeme missing from the grammar")

/-! ## Pieces -/

/-- The kinds of pieces of a source. -/
inductive Kind
  /-- A piece that is passed over. -/
  | blank
  | lexeme (l : Lexeme)
  /-- A character that begins nothing. -/
  | unknown
  deriving DecidableEq, Inhabited

/-- The character separates lexemes. -/
def isBlank (c : Char) : Bool :=
  c == ' ' || c == '\t' || c == '\r' || c == '\n' || c == '\x0c'

/-- The character may begin an identifier. -/
def isIdentStart (c : Char) : Bool :=
  c.isAlpha || c == '_'

/-- The character may go on with an identifier. -/
def isIdentPart (c : Char) : Bool :=
  c.isAlphanum || c == '_'

/-- The lexeme of a single character. -/
def Lexeme.ofChar? (c : Char) : Option Lexeme :=
  match c with
  | '=' => some .assign
  | '+' => some .plus
  | '-' => some .minus
  | '*' => some .star
  | '/' => some .slash
  | '(' => some .lparen
  | ')' => some .rparen
  | ';' => some .semi
  | _ => none

/-- The kind of the piece that a character begins, and the characters that may go on with it. -/
def Kind.starting (c : Char) : Kind × (Char → Bool) :=
  if isBlank c then (.blank, isBlank)
  else if c = '#' then (.blank, (· != '\n'))
  else if isIdentStart c then (.lexeme .ident, isIdentPart)
  else if c.isDigit then (.lexeme .number, Char.isDigit)
  else
    match Lexeme.ofChar? c with
    | some l => (.lexeme l, fun _ => false)
    | none => (.unknown, fun _ => false)

/-- The position after a character. -/
def nextPosition (p : Position) (c : Char) : Position :=
  if c = '\n' then ⟨p.line + 1, 0⟩ else ⟨p.line, p.column + 1⟩

/-- The position after a text. -/
def positionAfter (p : Position) (text : List Char) : Position :=
  text.foldl nextPosition p

/-- A piece of a source. -/
structure Piece where
  kind : Kind
  text : List Char
  span : Span
  deriving DecidableEq, Inhabited

theorem length_dropWhile_lt_cons (p : Char → Bool) (c : Char) (cs : List Char) :
    (cs.dropWhile p).length < (c :: cs).length :=
  Nat.lt_succ_of_le (List.dropWhile_suffix p).length_le

/-- The pieces of a text that begins at a position. -/
def pieces (p : Position) : List Char → List Piece
  | [] => []
  | c :: cs =>
    let (kind, more) := Kind.starting c
    let text := c :: cs.takeWhile more
    let stop := positionAfter p text
    { kind, text, span := ⟨p, stop⟩ } :: pieces stop (cs.dropWhile more)
termination_by cs => cs.length
decreasing_by exact length_dropWhile_lt_cons _ c cs

/-- The pieces put together are the source. -/
theorem text_pieces (p : Position) (cs : List Char) : (pieces p cs).flatMap (·.text) = cs := by
  fun_induction pieces p cs with
  | case1 => rfl
  | case2 p c cs kind more hk text stop ih =>
    rw [List.flatMap_cons, ih, List.cons_append, List.takeWhile_append_dropWhile]

/-! ## Tokens -/

/-- A lexeme of a source with its token. -/
structure Lexed where
  lexeme : Lexeme
  text : String
  token : Token
  deriving DecidableEq, Inhabited

/-- The token of a lexeme. -/
def tokenOf (A : Alphabet) (l : Lexeme) (text : String) (span : Span) : Except Error Token :=
  match l with
  | .ident => .ok ⟨A.id l, .ident text, span⟩
  | .number =>
    match Value.read text with
    | .ok value => .ok ⟨A.id l, .number value, span⟩
    | .error e => .error (.literal e)
  | _ => .ok ⟨A.id l, .none, span⟩

/-- What a piece stands for, if it is not passed over. -/
def lexPiece? (A : Alphabet) (piece : Piece) : Option (Except Error Lexed) :=
  let text := String.ofList piece.text
  match piece.kind with
  | .blank => none
  | .unknown => some (.error (.unrecognized text piece.span))
  | .lexeme l => some ((tokenOf A l text piece.span).map fun token => ⟨l, text, token⟩)

/-- The lexemes and errors of a source. -/
def lex (A : Alphabet) (source : String) : List (Except Error Lexed) :=
  (pieces ⟨0, 0⟩ source.toList).filterMap (lexPiece? A)

/-- The empty span at the end of a source. -/
def endSpan (source : String) : Span :=
  .point (positionAfter ⟨0, 0⟩ source.toList)

/-- The note on a lexeme. -/
def Lexed.note (l : Lexed) : Note :=
  .trace s!"lexeme {l.lexeme.display} \"{l.text}\" at {Span.detail? l.token.span}"

end PredictiveParser.Calculator
