import PredictiveParser.Grammar.Draft
import PredictiveParser.Tables.Build

/-!
# The language of the calculator

A program is a list of statements, each ended by a semicolon; a statement assigns an expression to a variable or prints
it. Multiplication and division bind tighter than addition and subtraction, the sign of a factor binds tightest, and
operations of one rank are carried out from the left. A statement that begins with a name may be of either kind, which the
second token tells, so the grammar needs two tokens of lookahead.
-/

namespace PredictiveParser.Calculator

/-- The kinds of lexemes. -/
inductive Lexeme
  | ident
  | number
  | assign
  | plus
  | minus
  | star
  | slash
  | lparen
  | rparen
  | semi
  deriving DecidableEq, Inhabited

namespace Lexeme

/-- All kinds, in the order of their terminals. -/
def all : List Lexeme :=
  [ident, number, assign, plus, minus, star, slash, lparen, rparen, semi]

/-- The name of the terminal. -/
def name : Lexeme → String
  | ident => "ident"
  | number => "number"
  | assign => "="
  | plus => "+"
  | minus => "-"
  | star => "*"
  | slash => "/"
  | lparen => "("
  | rparen => ")"
  | semi => ";"

/-- The name of the kind. -/
def display : Lexeme → String
  | ident => "Ident"
  | number => "Number"
  | assign => "Assign"
  | plus => "Plus"
  | minus => "Minus"
  | star => "Star"
  | slash => "Slash"
  | lparen => "LParen"
  | rparen => "RParen"
  | semi => "Semi"

end Lexeme

/-- The operations of the evaluator. -/
inductive Op
  /-- Assigns the last value to the target. -/
  | assign
  /-- Prints the last value. -/
  | print
  | add
  | sub
  | mul
  | div
  | neg
  /-- The value of a literal. -/
  | number
  /-- The value of a variable. -/
  | var
  deriving DecidableEq, Inhabited

namespace Op

/-- All operations, in the order of their actions. -/
def all : List Op :=
  [assign, print, add, sub, mul, div, neg, number, var]

/-- The name of the action. -/
def name : Op → String
  | assign => "assign"
  | print => "print"
  | add => "add"
  | sub => "sub"
  | mul => "mul"
  | div => "div"
  | neg => "neg"
  | number => "number"
  | var => "var"

/-- The operation of an action. -/
def ofIndex? (action : Nat) : Option Op :=
  all[action]?

end Op

/-- What the locators capture. -/
inductive Slot
  /-- A literal. -/
  | lit
  /-- A variable that is read. -/
  | var
  /-- A variable that is assigned. -/
  | target
  deriving DecidableEq, Inhabited

namespace Slot

/-- All slots, in the order of their locators. -/
def all : List Slot :=
  [lit, var, target]

/-- The name of the locator. -/
def name : Slot → String
  | lit => "lit"
  | var => "var"
  | target => "target"

/-- The number of the locator. -/
def index : Slot → Nat
  | lit => 0
  | var => 1
  | target => 2

end Slot

/-- The symbols of the grammar. -/
inductive Category
  | program
  | stat
  | expr
  | exprTail
  | term
  | termTail
  | factor
  deriving DecidableEq, Inhabited

namespace Category

/-- All symbols, in order. -/
def all : List Category :=
  [program, stat, expr, exprTail, term, termTail, factor]

/-- The name of the symbol. -/
def name : Category → String
  | program => "Program"
  | stat => "Stat"
  | expr => "Expr"
  | exprTail => "ExprTail"
  | term => "Term"
  | termTail => "TermTail"
  | factor => "Factor"

end Category

/-- A part of a rule. -/
inductive Part
  | category (c : Category)
  | lexeme (l : Lexeme)
  | op (o : Op)
  | slot (s : Slot)
  deriving DecidableEq, Inhabited

instance : Coe Category Part := ⟨Part.category⟩
instance : Coe Lexeme Part := ⟨Part.lexeme⟩
instance : Coe Op Part := ⟨Part.op⟩
instance : Coe Slot Part := ⟨Part.slot⟩

/-- The rules of the language. -/
def rules : List (Category × List Part) :=
  [(.program, [Category.stat, Category.program]),
    (.program, []),
    (.stat, [Slot.target, Lexeme.ident, Lexeme.assign, Category.expr, Lexeme.semi, Op.assign]),
    (.stat, [Category.expr, Lexeme.semi, Op.print]),
    (.expr, [Category.term, Category.exprTail]),
    (.exprTail, [Lexeme.plus, Category.term, Op.add, Category.exprTail]),
    (.exprTail, [Lexeme.minus, Category.term, Op.sub, Category.exprTail]),
    (.exprTail, []),
    (.term, [Category.factor, Category.termTail]),
    (.termTail, [Lexeme.star, Category.factor, Op.mul, Category.termTail]),
    (.termTail, [Lexeme.slash, Category.factor, Op.div, Category.termTail]),
    (.termTail, []),
    (.factor, [Slot.lit, Lexeme.number, Op.number]),
    (.factor, [Slot.var, Lexeme.ident, Op.var]),
    (.factor, [Lexeme.lparen, Category.expr, Lexeme.rparen]),
    (.factor, [Lexeme.minus, Category.factor, Op.neg])]

/-- The node of a part. -/
def Part.node : Part → Script Node
  | .category c => Script.symbol c.name
  | .lexeme l => Script.token l.name
  | .op o => Script.action o.name
  | .slot s => Script.beacon s.name

/-- Writes a rule down. -/
def writeRule (rule : Category × List Part) : Script Unit := do
  let symbol ← Part.node rule.1
  let production ← Script.seq (← rule.2.mapM Part.node)
  Script.alt symbol production

/-- Writes the grammar down. All parts are named first, so that their numbers follow the order of their lists. -/
def script : Script Unit := do
  Op.all.forM fun o => discard (Part.node o)
  Slot.all.forM fun s => discard (Part.node s)
  Lexeme.all.forM fun l => discard (Part.node l)
  Category.all.forM fun c => discard (Part.node c)
  rules.forM writeRule
  let program ← Part.node Category.program
  Script.start program
  Script.declareNullable program true
  Script.lookahead (← Part.node Category.stat) 2

/-- The grammar of the calculator. -/
def grammar : Except GrammarError Grammar :=
  script.grammar

/-- The tables of the calculator. -/
def tables (limits : Limits := {}) : Except GrammarError Tables := do
  (← grammar).build limits

/-- The notes on building the tables. -/
def tablesNotes (limits : Limits := {}) : List Note :=
  match grammar with
  | .ok g => g.note :: g.buildNotes limits
  | .error _ => []

end PredictiveParser.Calculator
