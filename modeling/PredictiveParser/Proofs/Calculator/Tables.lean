import Mathlib.Data.Fintype.Option
import PredictiveParser.Calculator.Evaluator
import PredictiveParser.Proofs.Decision.Limits

/-!
# The tables of the calculator

Whatever the limits are, there is only one way in which tables of a grammar can turn out (`Grammar.build_unique`). Those of the
calculator predict a rule from the next lexeme, and for a statement that begins with a name from the one behind it
(`Conforms`), and nothing else (`Refuses`).
-/

namespace PredictiveParser

/-- **All limits that build a grammar build the same tables.** -/
theorem Grammar.build_unique {g : Grammar} {limits limits' : Limits} {T T' : Tables} (hb : g.build limits = .ok T)
    (hb' : g.build limits' = .ok T') : T = T' := by
  obtain ⟨D, hD, rfl⟩ := build_eq_ok hb
  obtain ⟨D', hD', rfl⟩ := build_eq_ok hb'
  let upper : Limits := ⟨max limits.lookahead limits'.lookahead, max limits.conflictDepth limits'.conflictDepth⟩
  have h : Decisions.ofTable g upper (.fill g g.analyze) = .ok D :=
    ofTable_raise (Nat.le_max_left _ _) (Nat.le_max_left _ _) hD
  have h' : Decisions.ofTable g upper (.fill g g.analyze) = .ok D' :=
    ofTable_raise (Nat.le_max_right _ _) (Nat.le_max_right _ _) hD'
  cases h.symm.trans h'
  rfl

namespace Calculator

instance : Fintype Lexeme :=
  .ofList Lexeme.all fun l => by cases l <;> decide

instance : Fintype Op :=
  .ofList Op.all fun o => by cases o <;> decide

instance : Fintype Slot :=
  .ofList Slot.all fun s => by cases s <;> decide

instance : Fintype Category :=
  .ofList Category.all fun c => by cases c <;> decide

/-! ## Parts of the grammar in the tables -/

/-- The terminal of a lexeme. -/
def Lexeme.terminal (l : Lexeme) : Nat :=
  firstConcrete + all.idxOf l

theorem Lexeme.terminal_injective {l l' : Lexeme} (h : l.terminal = l'.terminal) : l = l' := by
  revert l l'
  decide

theorem Lexeme.terminal_ne_endToken (l : Lexeme) : l.terminal ≠ endToken := by
  cases l <;> decide

/-- The action of an operation. -/
def Op.index (o : Op) : Nat :=
  all.idxOf o

/-- The number of a symbol. -/
def Category.index (c : Category) : Nat :=
  all.idxOf c

/-- What the machine does for a part. -/
def Part.instruction : Part → Instruction
  | .category c => .symbol c.index
  | .lexeme l => .token l.terminal
  | .op o => .action o.index
  | .slot s => .beacon s.index

/-- The number of the node of a part. -/
def node (T : Tables) (p : Part) : Nat :=
  T.nodes.toList.idxOf p.instruction

/-- What the machine does for the parts of a rule. -/
def body (T : Tables) : List Part → Instruction
  | [] => .epsilon
  | p :: ps => .sequence ((p :: ps).map (node T))

/-! ## Predictions -/

/-- An expression can begin with the lexeme. -/
def Lexeme.begins : Lexeme → Bool
  | ident | number | minus | lparen => true
  | _ => false

/-- The terminal of the next lexeme, or of the end of the input. -/
def terminal : Option Lexeme → Nat
  | some l => l.terminal
  | none => endToken

/-- The parts of the rule that the next lexeme predicts for a category, if it predicts one. -/
def Category.rule? (c : Category) (next : Option Lexeme) : Option (List Part) :=
  match c, next with
  | program, none => some []
  | program, some l => if l.begins then some [stat, program] else none
  | stat, some .ident => none
  | stat, some l => if l.begins then some [expr, Lexeme.semi, Op.print] else none
  | expr, some l => if l.begins then some [term, exprTail] else none
  | exprTail, some .plus => some [Lexeme.plus, term, Op.add, exprTail]
  | exprTail, some .minus => some [Lexeme.minus, term, Op.sub, exprTail]
  | exprTail, some .rparen | exprTail, some .semi => some []
  | term, some l => if l.begins then some [factor, termTail] else none
  | termTail, some .star => some [Lexeme.star, factor, Op.mul, termTail]
  | termTail, some .slash => some [Lexeme.slash, factor, Op.div, termTail]
  | termTail, some .plus | termTail, some .minus | termTail, some .rparen | termTail, some .semi => some []
  | factor, some .number => some [Slot.lit, Lexeme.number, Op.number]
  | factor, some .ident => some [Slot.var, Lexeme.ident, Op.var]
  | factor, some .lparen => some [Lexeme.lparen, expr, Lexeme.rparen]
  | factor, some .minus => some [Lexeme.minus, factor, Op.neg]
  | _, _ => none

/-- The rules that are predicted where an expression begins. -/
theorem Lexeme.mem_rules {l : Lexeme} (hl : l.begins = true) :
    [(Category.factor : Part), Category.termTail] ∈ Category.term.rule? (some l) ∧
    [(Category.term : Part), Category.exprTail] ∈ Category.expr.rule? (some l) ∧
    [(Category.stat : Part), Category.program] ∈ Category.program.rule? (some l) := by
  cases l with
  | ident | number | minus | lparen => exact ⟨rfl, rfl, rfl⟩
  | _ => cases hl

theorem Lexeme.mem_rule_stat {l : Lexeme} (hl : l.begins = true) (hident : l ≠ .ident) :
    [(Category.expr : Part), Lexeme.semi, Op.print] ∈ Category.stat.rule? (some l) := by
  cases l with
  | ident => exact absurd rfl hident
  | number | minus | lparen => rfl
  | _ => cases hl

/-- The parts of the rule for a statement that begins with a name, from the lexeme behind it. -/
def Lexeme.statement? : Lexeme → Option (List Part)
  | assign => some [Slot.target, ident, assign, Category.expr, semi, Op.assign]
  | plus | minus | star | slash | semi => some [Category.expr, semi, Op.print]
  | _ => none

/-- Only an assignment is not printed. -/
theorem Lexeme.eq_of_mem_statement? {l : Lexeme} {parts : List Part} (hparts : parts ∈ l.statement?) (hl : l ≠ .assign) :
    parts = [(Category.expr : Part), Lexeme.semi, Op.print] := by
  revert l parts
  decide

/-- The tables predict the rules of the calculator. -/
structure Conforms (T : Tables) : Prop where
  terminal : ∀ l : Lexeme, T.token? l.name = some l.terminal
  start : T.program.symbolNode T.start = node T Category.program
  instruction : ∀ p, T.program.instruction (node T p) = p.instruction
  rule : ∀ c next, ∀ parts ∈ Category.rule? c next,
    (T.program.lookup c.index (Calculator.terminal next)).map T.program.instruction = some (body T parts)
  statement : ∃ d d', (T.program.lookup Category.stat.index Lexeme.ident.terminal).map T.program.instruction =
      some (.decision d) ∧ T.program.dfa d = .switch none ∧ T.program.transition d Lexeme.ident.terminal = some d' ∧
    T.program.dfa d' = .switch none ∧ ∀ l, ∀ parts ∈ Lexeme.statement? l, ∃ d'' n,
      T.program.transition d' l.terminal = some d'' ∧ T.program.dfa d'' = .leaf n ∧
        T.program.instruction n = body T parts

/-- The tables predict nothing but the rules of the calculator. -/
structure Refuses (T : Tables) : Prop where
  rule : ∀ c next, Category.rule? c next = none → ¬ (c = .stat ∧ next = some .ident) →
    T.program.lookup c.index (Calculator.terminal next) = none
  statement : ∀ d d', (T.program.lookup Category.stat.index Lexeme.ident.terminal).map T.program.instruction =
      some (.decision d) → T.program.transition d Lexeme.ident.terminal = some d' →
    ∀ next : Option Lexeme, next.bind Lexeme.statement? = none → T.program.transition d' (Calculator.terminal next) = none

/-- The tables that the default limits build predict the rules of the calculator, and nothing else. -/
theorem exists_conforms : ∃ g T, grammar = .ok g ∧ g.build = .ok T ∧ Conforms T ∧ Refuses T := by
  have h : (grammar.toOption.any fun g => g.build.toOption.any fun T =>
      (∀ l : Lexeme, T.token? l.name = some l.terminal) ∧ T.program.symbolNode T.start = node T Category.program ∧
      (∀ c : Category, T.program.instruction (node T c) = .symbol c.index) ∧
      (∀ l : Lexeme, T.program.instruction (node T l) = .token l.terminal) ∧
      (∀ o : Op, T.program.instruction (node T o) = .action o.index) ∧
      (∀ s : Slot, T.program.instruction (node T s) = .beacon s.index) ∧
      (∀ c next, ∀ parts ∈ Category.rule? c next,
        (T.program.lookup c.index (Calculator.terminal next)).map T.program.instruction = some (body T parts)) ∧
      (∀ c next, Category.rule? c next = none → ¬ (c = .stat ∧ next = some .ident) →
        T.program.lookup c.index (Calculator.terminal next) = none) ∧
      (T.program.lookup Category.stat.index Lexeme.ident.terminal).map T.program.instruction = some (.decision 0) ∧
      T.program.dfa 0 = .switch none ∧ T.program.transition 0 Lexeme.ident.terminal = some 1 ∧
      T.program.dfa 1 = .switch none ∧ (∀ l, ∀ parts ∈ Lexeme.statement? l, ((T.program.transition 1 l.terminal).any
        fun d => match T.program.dfa d with
          | .leaf n => T.program.instruction n = body T parts
          | _ => false) = true) ∧
      ∀ next : Option Lexeme, next.bind Lexeme.statement? = none →
        T.program.transition 1 (Calculator.terminal next) = none) = true := by
    decide +kernel
  obtain ⟨g, hg, h⟩ := exists_of_any_toOption h
  obtain ⟨T, hb, htest⟩ := exists_of_any_toOption h
  obtain ⟨hterminal, hstart, hcategory, hlexeme, hop, hslot, hrule, hnorule, hn, h₀, h₀₁, h₁, hstatement, hnostatement⟩ :=
    of_decide_eq_true htest
  refine ⟨g, T, hg, hb, ⟨hterminal, hstart, fun p => ?_, hrule, 0, 1, hn, h₀, h₀₁, h₁, fun l parts hp => ?_⟩,
    hnorule, fun d d' hd hdd' => ?_⟩
  · cases p with
    | category c => exact hcategory c
    | lexeme l => exact hlexeme l
    | op o => exact hop o
    | slot s => exact hslot s
  · obtain ⟨d, hd, hleaf⟩ := Option.any_eq_true _ _ |>.1 (hstatement l parts hp)
    split at hleaf
    · next n hn => exact ⟨d, n, hd, hn, of_decide_eq_true hleaf⟩
    · cases hleaf
  · cases hn.symm.trans hd
    cases h₀₁.symm.trans hdd'
    exact hnostatement

/-- Tables that conform have the terminals of all lexemes, so there is an engine with them. -/
theorem new_eq {limits : Limits} {g : Grammar} {T : Tables} (hg : grammar = .ok g) (hb : g.build limits = .ok T)
    (hT : Conforms T) : Engine.new limits = .ok ⟨T, ⟨fun l => (T.token? l.name).getD endToken⟩⟩ := by
  have hall : (Lexeme.all.all fun l => (T.token? l.name).isSome) = true :=
    List.all_eq_true.2 fun l _ => by rw [hT.terminal l]; rfl
  unfold Engine.new tables
  rw [hg]
  simp only [bind, Except.bind, hb, Except.mapError, Alphabet.ofTables]
  rw [if_pos hall]
  rfl

/-- Whatever the limits are, an engine has the tables that the default limits build. -/
theorem tables_of_new {limits : Limits} {C : Engine} {g : Grammar} {T : Tables} (hC : Engine.new limits = .ok C)
    (hg : grammar = .ok g) (hb : g.build = .ok T) (hT : Conforms T) :
    C = ⟨T, ⟨fun l => (T.token? l.name).getD endToken⟩⟩ := by
  cases hb' : g.build limits with
  | error e =>
    unfold Engine.new tables at hC
    rw [hg] at hC
    simp only [bind, Except.bind, hb', Except.mapError] at hC
    cases hC
  | ok T' =>
    obtain rfl := Grammar.build_unique hb hb'
    cases (new_eq hg hb' hT).symm.trans hC
    rfl

/-- **Whatever the limits are, an engine predicts the rules of the calculator.** -/
theorem conforms_of_new {limits : Limits} {C : Engine} (hC : Engine.new limits = .ok C) :
    Conforms C.tables ∧ ∀ l, C.alphabet.id l = l.terminal := by
  obtain ⟨g, T, hg, hb, hT, -⟩ := exists_conforms
  obtain rfl := tables_of_new hC hg hb hT
  exact ⟨hT, fun l => by dsimp only; rw [hT.terminal l]; rfl⟩

/-- **It predicts nothing else.** -/
theorem refuses_of_new {limits : Limits} {C : Engine} (hC : Engine.new limits = .ok C) : Refuses C.tables := by
  obtain ⟨g, T, hg, hb, hT, hrefuses⟩ := exists_conforms
  obtain rfl := tables_of_new hC hg hb hT
  exact hrefuses

end Calculator

end PredictiveParser
