import PredictiveParser.Calculator.Variables
import PredictiveParser.Calculator.Lexer

/-!
# What programs of the calculator mean

Expressions have integers as values, and every operation has to stay within 64 bits (`Expr.eval`). Operands are evaluated from
the left and before the operation, and the first operation without a value ends the program (`execute`). A program is written
down with parentheses at least where the ranks of the operations ask for them (`Writes`), and laid out with blanks and
comments that keep its words apart (`Laid`).
-/

namespace PredictiveParser.Calculator

/-! ## Values -/

/-- Why an operation has no value. -/
inductive Fault
  /-- The variable was never assigned. -/
  | undefined (name : String)
  | divisionByZero
  /-- The result does not fit into 64 bits. -/
  | overflow
  deriving DecidableEq

/-- The integer, if it fits into 64 bits and so is at least `-2 ^ 63` and less than `2 ^ 63`. -/
def checked (n : Int) : Except Fault Int :=
  if -0x8000000000000000 ≤ n ∧ n < 0x8000000000000000 then .ok n else .error .overflow

/-- The operations on two operands. -/
inductive BinaryOp
  | add
  | sub
  | mul
  | div
  deriving DecidableEq

/-- The value of an operation; division drops the fraction. -/
def BinaryOp.apply (op : BinaryOp) (a b : Int) : Except Fault Int :=
  match op with
  | add => checked (a + b)
  | sub => checked (a - b)
  | mul => checked (a * b)
  | div => if b = 0 then .error .divisionByZero else checked (a.tdiv b)

/-- Expressions. -/
inductive Expr
  /-- The number is less than `2 ^ 63`. -/
  | literal (n : Fin 0x8000000000000000)
  | var (name : String)
  | neg (e : Expr)
  | binary (op : BinaryOp) (a b : Expr)

/-- Variables with their values, in the order of their first assignments. -/
abbrev Env := List (String × Int)

/-- Assigns a value: a variable keeps its place, and a new one comes last. -/
def Env.assign (env : Env) (name : String) (v : Int) : Env :=
  match env.findIdx? (·.1 == name) with
  | some i => env.set i (name, v)
  | none => env ++ [(name, v)]

/-- The value of an expression. -/
def Expr.eval (env : Env) : Expr → Except Fault Int
  | literal n => .ok n
  | var name =>
    match env.lookup name with
    | some v => .ok v
    | none => .error (.undefined name)
  | neg e => do
    let v ← e.eval env
    checked (-v)
  | binary op a b => do
    let v ← a.eval env
    let w ← b.eval env
    op.apply v w

/-- Statements. -/
inductive Statement
  | assign (name : String) (e : Expr)
  | print (e : Expr)

namespace Statement

/-- The expression that gives a statement its value. -/
def expr : Statement → Expr
  | assign _ e => e
  | print e => e

/-- The variables after the statement, whose value is known. -/
def effect (env : Env) (v : Int) : Statement → Env
  | assign name _ => env.assign name v
  | print _ => env

end Statement

/-- The values of the statements, or the first fault, and the variables at the end. -/
def execute : List Statement → Env → Except Fault (List Int) × Env
  | [], env => (.ok [], env)
  | s :: rest, env =>
    match s.expr.eval env with
    | .error fault => (.error fault, env)
    | .ok v =>
      let (values, env) := execute rest (s.effect env v)
      (values.map (v :: ·), env)

/-! ## Words -/

/-- A lexeme with its text. -/
structure Word where
  lexeme : Lexeme
  text : List Char
  deriving DecidableEq

/-- The text of a lexeme that has only one. -/
def Lexeme.word (l : Lexeme) : Word :=
  ⟨l, l.name.toList⟩

/-- The word is spelled as its lexeme demands. -/
def Word.Spelled (w : Word) : Prop :=
  match w.lexeme with
  | .ident => ∃ c cs, w.text = c :: cs ∧ isIdentStart c ∧ ∀ d ∈ cs, isIdentPart d
  | .number => w.text ≠ [] ∧ ∀ d ∈ w.text, d.isDigit
  | l => w.text = l.name.toList

/-- The number that decimal digits stand for. -/
def decimal (ds : List Char) : Nat :=
  ds.foldl (fun n d => n * 10 + (d.toNat - '0'.toNat)) 0

/-! ## Ranks -/

/-- How tight an expression binds. -/
inductive Rank
  /-- Of sums and differences. -/
  | sum
  /-- Of products and quotients. -/
  | product
  /-- Of all others. -/
  | factor
  deriving DecidableEq

namespace BinaryOp

/-- The rank of an operation. -/
def rank : BinaryOp → Rank
  | add | sub => .sum
  | mul | div => .product

/-- The sign of an operation. -/
def lexeme : BinaryOp → Lexeme
  | add => .plus
  | sub => .minus
  | mul => .star
  | div => .slash

end BinaryOp

/-- The words write the expression down where an expression of the rank is asked for. Parentheses may stand anywhere; operations
of one rank are carried out from the left without them. -/
inductive Writes : Rank → Expr → List Word → Prop
  | literal {n : Fin 0x8000000000000000} {ds : List Char} : decimal ds = n → Writes .factor (.literal n) [⟨.number, ds⟩]
  | var (name : List Char) : Writes .factor (.var (.ofList name)) [⟨.ident, name⟩]
  | neg {e : Expr} {ws : List Word} : Writes .factor e ws → Writes .factor (.neg e) (Lexeme.minus.word :: ws)
  | paren {e : Expr} {ws : List Word} : Writes .sum e ws →
      Writes .factor e (Lexeme.lparen.word :: ws ++ [Lexeme.rparen.word])
  | factor {e : Expr} {ws : List Word} : Writes .factor e ws → Writes .product e ws
  | product {op : BinaryOp} {a b : Expr} {ws us : List Word} : op.rank = .product → Writes .product a ws →
      Writes .factor b us → Writes .product (.binary op a b) (ws ++ op.lexeme.word :: us)
  | term {e : Expr} {ws : List Word} : Writes .product e ws → Writes .sum e ws
  | sum {op : BinaryOp} {a b : Expr} {ws us : List Word} : op.rank = .sum → Writes .sum a ws → Writes .product b us →
      Writes .sum (.binary op a b) (ws ++ op.lexeme.word :: us)

/-- The words write the statement down. -/
inductive Statement.Writes : Statement → List Word → Prop
  | assign {name : List Char} {e : Expr} {ws : List Word} : Calculator.Writes .sum e ws →
      Writes (.assign (.ofList name) e) (⟨.ident, name⟩ :: Lexeme.assign.word :: ws ++ [Lexeme.semi.word])
  | print {e : Expr} {ws : List Word} : Calculator.Writes .sum e ws → Writes (.print e) (ws ++ [Lexeme.semi.word])

/-- The words write the statements down, one after another. -/
inductive WritesAll : List Statement → List Word → Prop
  | nil : WritesAll [] []
  | cons {s : Statement} {rest : List Statement} {ws us : List Word} : s.Writes ws → WritesAll rest us →
      WritesAll (s :: rest) (ws ++ us)

/-! ## Layout -/

/-- What may stand between words: blanks, and comments up to the ends of their lines. -/
inductive Gap : List Char → Prop
  | nil : Gap []
  | blank {c : Char} {cs : List Char} : isBlank c → Gap cs → Gap (c :: cs)
  | comment {body cs : List Char} : '\n' ∉ body → Gap cs → Gap ('#' :: body ++ '\n' :: cs)

/-- The character could go on with a word of the lexeme. -/
def Lexeme.continues : Lexeme → Char → Bool
  | ident, c => isIdentPart c
  | number, c => c.isDigit
  | _, _ => false

/-- The text has these words, with gaps that keep them apart. The last line may end with a comment. -/
inductive Laid : List Word → List Char → Prop
  | done {gap : List Char} : Gap gap → Laid [] gap
  | comment {gap body : List Char} : Gap gap → '\n' ∉ body → Laid [] (gap ++ '#' :: body)
  | word {w : Word} {ws : List Word} {gap rest : List Char} : Gap gap → w.Spelled →
      (∀ c ∈ rest.head?, w.lexeme.continues c = false) → Laid ws rest → Laid (w :: ws) (gap ++ w.text ++ rest)

/-- The source is a text of the program. -/
def Renders (program : List Statement) (source : String) : Prop :=
  ∃ ws, WritesAll program ws ∧ Laid ws source.toList

end PredictiveParser.Calculator
