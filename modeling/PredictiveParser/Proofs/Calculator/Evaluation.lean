import PredictiveParser.Proofs.Calculator.Lexing
import PredictiveParser.Proofs.Calculator.Steps

/-!
# Evaluating programs

A machine before the words of an expression computes its value or stops with its fault. What a program means does not depend on
where its tokens stand, so they are seen bare here. The steps that the machine may make are counted in advance: every word brings
some, and the marks that recursive rules leave on the stack are paid for when they are made (`Computes`).
-/

namespace PredictiveParser.Calculator

open Machine

variable {T : Tables} {view : View} {V : Variables} {s s' : State Token} {rest : List Frame} {t : Token} {ts : List Token}
  {slots : Slot → Option Token} {last : Option Token} {m : Nat} {h h' : Evaluation}

/-! ## Computations -/

/-- A run stops with the fault, and with the variables. -/
structure Faults (stop : Stop Evaluation Token) (fault : Fault) (V : Variables) : Prop where
  answer : ∃ message span, stop.answer = .error (.semantic message span)
  failure : ∃ error, stop.host.failure = some error ∧ error.fault? = some fault
  «variables» : stop.host.variables = V

/-- Within `n` steps the machine computes a value, with some of the steps left, or stops with a fault and the variables `V`. -/
def Computes (T : Tables) (V : Variables) (n : Nat) (s : State Token) (h : Evaluation) (r : Except Fault Int)
    (Q : (v : Value) → State Token → Evaluation → (left : Nat) → Prop) : Prop :=
  match r with
  | .ok x => ∃ v s' h' m left, v.toInt = x ∧ m + left ≤ n ∧ Gets T.program host m s h s' h' ∧ Q v s' h' left
  | .error fault => ∃ stop, run T.program host n s h = some stop ∧ Faults stop fault V

namespace Computes

variable {k m n left : Nat} {r : Except Fault Int} {Q Q' : Value → State Token → Evaluation → Nat → Prop}

theorem value {v : Value} (hgo : Gets T.program host m s h s' h') (hQ : Q v s' h' left) (hle : m + left ≤ n) :
    Computes T V n s h (.ok v.toInt) Q :=
  ⟨v, s', h', m, left, rfl, hle, hgo, hQ⟩

theorem fault {f : Fault} {stop : Stop Evaluation Token} (hr : run T.program host m s h = some stop) (hf : Faults stop f V)
    (hle : m ≤ n) : Computes T V n s h (.error f) Q :=
  ⟨stop, run_le hle hr, hf⟩

/-- Steps on the way are paid for. -/
theorem of_gets (hgo : Gets T.program host m s h s' h') (hc : Computes T V k s' h' r Q) (hle : m + k ≤ n) :
    Computes T V n s h r Q := by
  cases r with
  | ok x =>
    obtain ⟨v, s₂, h₂, j, left, hv, hj, hgo₂, hQ⟩ := hc
    exact ⟨v, s₂, h₂, m + j, left, hv, by omega, hgo.trans hgo₂, hQ⟩
  | error f =>
    obtain ⟨stop, hr, hf⟩ := hc
    exact ⟨stop, run_le hle (hgo _ _ hr), hf⟩

/-- The computation goes on with the value and the steps that are left. -/
theorem bind {f : Int → Except Fault Int} (hc : Computes T V m s h r Q)
    (hf : ∀ v s' h' left, Q v s' h' left → Computes T V (left + k) s' h' (f v.toInt) Q') (hle : m + k ≤ n) :
    Computes T V n s h (r >>= f) Q' := by
  cases r with
  | ok x =>
    obtain ⟨v, s₂, h₂, j, left, rfl, hj, hgo, hQ⟩ := hc
    exact of_gets hgo (hf v s₂ h₂ left hQ) (by omega)
  | error f =>
    obtain ⟨stop, hr, hf⟩ := hc
    exact ⟨stop, run_le (Nat.le_of_add_right_le hle) hr, hf⟩

/-- The machine goes on after the value is there. -/
theorem after (hc : Computes T V m s h r Q) (hQ : ∀ v s' h' left, Q v s' h' left →
    ∃ j s'' h'' left', Gets T.program host j s' h' s'' h'' ∧ Q' v s'' h'' left' ∧ j + left' ≤ left + k) (hle : m + k ≤ n) :
    Computes T V n s h r Q' := by
  have hbind : r >>= Except.ok = r := by cases r <;> rfl
  rw [← hbind]
  refine hc.bind (fun v s' h' left hq => ?_) hle
  obtain ⟨j, s'', h'', left', hgo, hq', hj⟩ := hQ v s' h' left hq
  exact .value hgo hq' hj

end Computes

/-! ## Words of expressions -/

/-- An expression begins with a lexeme that can begin one. -/
theorem Writes.exists_head {r : Rank} {e : Expr} {ws : List Word} (hw : Writes r e ws) :
    ∃ w us, ws = w :: us ∧ w.lexeme.begins = true := by
  induction hw with
  | literal | var | neg | paren => exact ⟨_, _, rfl, rfl⟩
  | factor _ ih | term _ ih => exact ih
  | product _ _ _ ih _ | sum _ _ _ ih _ =>
    obtain ⟨w, us, rfl, hb⟩ := ih
    exact ⟨w, _, rfl, hb⟩

/-- So does a statement. -/
theorem Statement.Writes.exists_head {st : Statement} {ws : List Word} (hw : st.Writes ws) :
    ∃ w us, ws = w :: us ∧ w.lexeme.begins = true := by
  cases hw with
  | assign => exact ⟨_, _, rfl, rfl⟩
  | print hw =>
    obtain ⟨w, us, rfl, hb⟩ := hw.exists_head
    exact ⟨w, _, rfl, hb⟩

/-- A name at the start of an expression is all of it, or an operation follows. -/
theorem Writes.after_ident {r : Rank} {e : Expr} {w : Word} {us : List Word} (hw : Writes r e (w :: us))
    (hl : w.lexeme = .ident) : us = [] ∨ ∃ (op : BinaryOp) (us' : List Word), us = op.lexeme.word :: us' := by
  generalize hws : w :: us = ws at hw
  induction hw generalizing us with
  | literal | neg | paren =>
    cases hws
    cases hl
  | var =>
    cases hws
    exact .inl rfl
  | factor _ ih | term _ ih => exact ih hws
  | product _ ha _ ih _ | sum _ ha _ ih _ =>
    obtain ⟨w', ws, rfl, -⟩ := ha.exists_head
    cases hws
    rcases ih rfl with rfl | ⟨op', us', rfl⟩
    · exact .inr ⟨_, _, rfl⟩
    · exact .inr ⟨op', _, rfl⟩

/-- The lexemes have the terminals of the tables. -/
def Alphabet.standard : Alphabet :=
  ⟨Lexeme.terminal⟩

/-- The tokens of words, apart from where they stand. -/
def tokensOf (ws : List Word) : List Token :=
  ws.map (Word.token .standard)

/-- Where a token stands is not seen. -/
def View.bare : View :=
  ⟨Token.bare, fun _ => rfl⟩

/-! ## Operations -/

/-- An operation leaves a value, if there is one, and fails otherwise. -/
theorem Placed.operated (hT : Conforms T) {o : Op} {v? : Option Value} {r : Except Fault Int} {vs us : List Value} {error : Error}
    {fault : Fault} (hs : Placed view s ⟨frame T o :: rest, ts, slots, last, m⟩) (hfault : error.fault? = some fault)
    (hrun : (r = match v? with
        | some v => .ok v.toInt
        | none => .error fault) ∧
      (Eval.apply (s.withStack rest) o).run h = match v? with
        | some v => (.ok [], { h with values := v :: vs })
        | none => (.error error, { h with values := us })) :
    Computes T h.variables 1 s h r fun v s' h' _ =>
      h' = { h with values := v :: vs } ∧ Placed view s' ⟨rest, ts, slots, last, m⟩ := by
  obtain ⟨rfl, hrun⟩ := hrun
  cases v? with
  | some v =>
    obtain ⟨s', hgo, hs'⟩ := hs.acted hT hrun
    exact .value hgo ⟨rfl, hs'⟩ (show 1 + 0 ≤ 1 from Nat.le_refl 1)
  | none =>
    obtain ⟨span, hr⟩ := hs.failed hT hrun
    exact .fault hr ⟨⟨_, span, rfl⟩, ⟨error, rfl, hfault⟩, rfl⟩ (Nat.le_refl 1)

/-- An operation on two values. -/
theorem Placed.combined (hT : Conforms T) {op : BinaryOp} {a b : Value} {vs : List Value}
    (hs : Placed view s ⟨frame T op.op :: rest, ts, slots, last, m⟩) (hvalues : h.values = b :: a :: vs) :
    Computes T h.variables 1 s h (op.apply a.toInt b.toInt) fun v s' h' _ =>
      h' = { h with values := v :: vs } ∧ Placed view s' ⟨rest, ts, slots, last, m⟩ := by
  by_cases hzero : op = .div ∧ b = 0
  · obtain ⟨rfl, rfl⟩ := hzero
    obtain ⟨span, hr⟩ := hs.failed hT (run_div_zero hvalues)
    exact .fault hr ⟨⟨_, span, rfl⟩, ⟨_, rfl, rfl⟩, rfl⟩ (Nat.le_refl 1)
  · have hb : op = .div → b ≠ 0 := fun hdiv hb => hzero ⟨hdiv, hb⟩
    exact hs.operated hT rfl ⟨op.apply_eq hb, run_op op hvalues hb⟩

/-- The sign of a value is changed. -/
theorem Placed.negated (hT : Conforms T) {a : Value} {vs : List Value}
    (hs : Placed view s ⟨frame T Op.neg :: rest, ts, slots, last, m⟩) (hvalues : h.values = a :: vs) :
    Computes T h.variables 1 s h (checked (-a.toInt)) fun v s' h' _ =>
      h' = { h with values := v :: vs } ∧ Placed view s' ⟨rest, ts, slots, last, m⟩ := by
  exact hs.operated hT rfl ⟨checked_eq _, run_neg hvalues⟩

/-- The value of a literal is left. -/
theorem Placed.read (hT : Conforms T) {ds : List Char} {n : Fin 0x8000000000000000} (hn : decimal ds = n)
    (hs : Placed .bare s ⟨frame T Op.number :: rest, ts, slots, last, m⟩)
    (hslot : slots .lit = some (Word.token .standard ⟨.number, ds⟩)) :
    Computes T h.variables 1 s h (.ok n) fun v s' h' _ =>
      h' = { h with values := v :: h.values } ∧ Placed .bare s' ⟨rest, ts, slots, last, m⟩ := by
  obtain ⟨x, hx, hbare⟩ := Option.map_eq_some_iff.1 ((hs.slots .lit).trans hslot)
  have hpayload : x.payload = .number (Int64.ofNat (decimal ds)) := congrArg Token.payload hbare
  have hint : (Int64.ofNat (decimal ds)).toInt = n := by
    rw [hn]
    exact Int64.toInt_ofNat_of_lt n.isLt
  obtain ⟨s', hgo, hs'⟩ := hs.acted hT (run_number (s := s.withStack rest) hx hpayload)
  rw [← hint]
  exact .value hgo ⟨rfl, hs'⟩ (show 1 + 0 ≤ 1 from Nat.le_refl 1)

/-- The value of a variable is looked up. -/
theorem Placed.lookedUp (hT : Conforms T) {name : List Char} (hs : Placed .bare s ⟨frame T Op.var :: rest, ts, slots, last, m⟩)
    (hslot : slots .var = some (Word.token .standard ⟨.ident, name⟩)) :
    Computes T h.variables 1 s h ((Expr.var (.ofList name)).eval h.variables.env) fun v s' h' _ =>
      h' = { h with values := v :: h.values } ∧ Placed .bare s' ⟨rest, ts, slots, last, m⟩ := by
  obtain ⟨x, hx, hbare⟩ := Option.map_eq_some_iff.1 ((hs.slots .var).trans hslot)
  have hpayload : x.payload = .ident (.ofList name) := congrArg Token.payload hbare
  rw [Expr.eval, lookup_env]
  cases hv : h.variables.get? (.ofList name) with
  | some v =>
    obtain ⟨s', hgo, hs'⟩ := hs.acted hT (run_var (s := s.withStack rest) hx hpayload hv)
    exact .value hgo ⟨rfl, hs'⟩ (show 1 + 0 ≤ 1 from Nat.le_refl 1)
  | none =>
    obtain ⟨span, hr⟩ := hs.failed hT (run_var_none (s := s.withStack rest) hx hpayload hv)
    exact .fault hr ⟨⟨_, span, rfl⟩, ⟨_, rfl, rfl⟩, rfl⟩ (Nat.le_refl 1)

/-! ## Expressions -/

/-- The value was computed, and the machine stands before the tokens `ts`. The target of an assignment is still there. -/
def Computed (h : Evaluation) (stack : List Frame) (ts : List Token) (slots : Slot → Option Token) (v : Value)
    (s : State Token) (h' : Evaluation) : Prop :=
  h' = { h with values := v :: h.values } ∧ ∃ slots' last m, slots' .target = slots .target ∧
    Placed .bare s ⟨stack, ts, slots', last, m⟩

/-- The value was computed, and the machine stands before the rest of a recursive rule, with marks that are paid for. -/
def Pending (T : Tables) (h : Evaluation) (c : Category) (rest : List Frame) (ts : List Token) (slots : Slot → Option Token)
    (v : Value) (s : State Token) (h' : Evaluation) (left : Nat) : Prop :=
  ∃ marks : List Nat, marks.length ≤ left ∧
    Computed h (frame T c :: (marks.map (.entered · false) ++ rest)) ts slots v s h'

/-- The machine computes the value of an expression, within 16 steps for each word. -/
def Evaluates (T : Tables) : Rank → Expr → List Word → Prop
  | .factor, e, ws => ∀ s h rest ts slots last m,
      Placed .bare s ⟨frame T Category.factor :: rest, tokensOf ws ++ ts, slots, last, m⟩ →
      Computes T h.variables (16 * ws.length) s h (e.eval h.variables.env) fun v s' h' _ => Computed h rest ts slots v s' h'
  -- the tail of a term is still to be parsed, and so is that of an expression, whose operands end with their own tails
  | .product, e, ws => ∀ s h rest ts slots last m,
      Placed .bare s ⟨frame T Category.factor :: frame T Category.termTail :: rest, tokensOf ws ++ ts, slots, last, m⟩ →
      Computes T h.variables (16 * ws.length) s h (e.eval h.variables.env) (Pending T h .termTail rest ts slots)
  | .sum, e, ws => ∀ s h rest l t ts slots last m, [] ∈ Category.termTail.rule? (some l) → t.id = l.terminal →
      Placed .bare s ⟨frame T Category.term :: frame T Category.exprTail :: rest, tokensOf ws ++ t :: ts, slots, last, m⟩ →
      Computes T h.variables (16 * ws.length + 6) s h (e.eval h.variables.env) (Pending T h .exprTail rest (t :: ts) slots)

/-- A category is left with the value. -/
theorem Placed.concluded {c : Category} {slots' : Slot → Option Token} {v : Value}
    (hs : Placed .bare s ⟨.entered c.index false :: rest, ts, slots', last, m⟩) (hh : h' = { h with values := v :: h.values })
    (hslots : slots' .target = slots .target) (left : Nat) :
    ∃ j s' h'' left', Gets T.program host j s h' s' h'' ∧ Computed h rest ts slots v s' h'' ∧ j + left' ≤ left + 1 := by
  obtain ⟨s', hgo, hs'⟩ := hs.left (h := h')
  exact ⟨1, s', h', left, hgo, ⟨hh, slots', last, m, hslots, hs'⟩, Nat.le_of_eq (Nat.add_comm 1 left)⟩

/-- A lexeme that goes on with nothing ends a recursive rule and the category around it. -/
theorem Pending.closed (hT : Conforms T) {c tail : Category} {l : Lexeme} {v : Value} {left : Nat}
    (hp : Pending T h tail (.entered c.index false :: rest) (t :: ts) slots v s h' left)
    (hl : [] ∈ tail.rule? (some l)) (ht : t.id = l.terminal) :
    ∃ j s' h'' left', Gets T.program host j s h' s' h'' ∧ Computed h rest (t :: ts) slots v s' h'' ∧
      j + left' ≤ left + 4 := by
  obtain ⟨marks, hmarks, hh, slots', last, m, hslots, hs⟩ := hp
  obtain ⟨s₁, hgo₁, hs₁⟩ := hs.entered (h := h') hT hl ht
  have hstack : ([] : List Part).map (frame T) ++ .entered tail.index false ::
      (marks.map (.entered · false) ++ .entered c.index false :: rest) =
      (tail.index :: marks ++ [c.index]).map (.entered · false) ++ rest := by
    rw [List.map_append, List.append_assoc]
    rfl
  rw [hstack] at hs₁
  obtain ⟨s₂, hgo₂, hs₂⟩ := hs₁.leftAll _ (h := h')
  refine ⟨_, s₂, h', 0, hgo₁.trans hgo₂, ⟨hh, slots', last, m, hslots, hs₂⟩, ?_⟩
  rw [List.length_append, List.length_cons, List.length_singleton]
  omega

/-- A term is evaluated as its product is. -/
theorem Evaluates.term (hT : Conforms T) {e : Expr} {ws : List Word} {l : Lexeme} (he : Evaluates T .product e ws)
    (hw : Writes .product e ws) (hl : [] ∈ Category.termTail.rule? (some l)) (ht : t.id = l.terminal)
    (hs : Placed .bare s ⟨frame T Category.term :: rest, tokensOf ws ++ t :: ts, slots, last, m⟩) :
    Computes T h.variables (16 * ws.length + 6) s h (e.eval h.variables.env) fun v s' h' _ =>
      Computed h rest (t :: ts) slots v s' h' := by
  obtain ⟨w, us, rfl, hb⟩ := hw.exists_head
  obtain ⟨s₁, hgo₁, hs₁⟩ := hs.entered (h := h) hT (Lexeme.mem_rules hb).1 rfl
  have hproduct := he s₁ h _ _ _ _ _ hs₁
  exact .of_gets hgo₁ (hproduct.after (fun v s' h' left hp => hp.closed hT hl ht) (Nat.le_refl _)) (by omega)

/-- So is an expression as its sum. -/
theorem Evaluates.expr (hT : Conforms T) {e : Expr} {ws : List Word} {l : Lexeme} (he : Evaluates T .sum e ws)
    (hw : Writes .sum e ws) (hl : l = .rparen ∨ l = .semi) (ht : t.id = l.terminal)
    (hs : Placed .bare s ⟨frame T Category.expr :: rest, tokensOf ws ++ t :: ts, slots, last, m⟩) :
    Computes T h.variables (16 * ws.length + 12) s h (e.eval h.variables.env) fun v s' h' _ =>
      Computed h rest (t :: ts) slots v s' h' := by
  obtain ⟨w, us, rfl, hb⟩ := hw.exists_head
  have hends : [] ∈ Category.termTail.rule? (some l) ∧ [] ∈ Category.exprTail.rule? (some l) := by
    rcases hl with rfl | rfl <;> exact ⟨rfl, rfl⟩
  obtain ⟨s₁, hgo₁, hs₁⟩ := hs.entered (h := h) hT (Lexeme.mem_rules hb).2.1 rfl
  have hsum := he s₁ h _ _ _ _ _ _ _ hends.1 ht hs₁
  exact .of_gets hgo₁ (hsum.after (fun v s' h' left hp => hp.closed hT hends.2 ht) (Nat.le_refl _)) (by omega)

/-- An operation in the tail of a rule takes the value before the tail and the one of the operand behind it. -/
theorem Pending.applied (hT : Conforms T) {op : BinaryOp} {c tail : Category} {b : Expr} {us : List Word} {v : Value}
    {k left : Nat} (hp : Pending T h tail rest (tokensOf (op.lexeme.word :: us) ++ ts) slots v s h' left)
    (hrule : [(op.lexeme : Part), c, op.op, tail] ∈ tail.rule? (some op.lexeme))
    (hb : ∀ s h rest slots last m, Placed .bare s ⟨frame T c :: rest, tokensOf us ++ ts, slots, last, m⟩ →
      Computes T h.variables k s h (b.eval h.variables.env) fun v s' h' _ => Computed h rest ts slots v s' h') :
    Computes T h.variables (left + (k + 5)) s h' (b.eval h.variables.env >>= op.apply v.toInt)
      (Pending T h tail rest ts slots) := by
  obtain ⟨marks, hmarks, rfl, slots₁, last₁, m₁, hslots₁, hs⟩ := hp
  obtain ⟨s₁, hgo₁, hs₁⟩ := hs.entered (h := { h with values := v :: h.values }) hT hrule rfl
  obtain ⟨s₂, hgo₂, hs₂⟩ := hs₁.matched (h := { h with values := v :: h.values }) hT rfl
  refine .of_gets (hgo₁.trans hgo₂) ((hb s₂ { h with values := v :: h.values } _ _ _ _ hs₂).bind (k := left + 2) ?_ (Nat.le_refl _))
    (by omega)
  rintro w s₃ _ left₃ ⟨rfl, slots₃, last₃, m₃, hslots₃, hs₃⟩
  refine (hs₃.combined hT rfl).after (k := marks.length + 1) ?_ (by omega)
  rintro x s₄ _ left₄ ⟨rfl, hs₄⟩
  exact ⟨0, s₄, _, marks.length + 1, .refl _ _,
    ⟨tail.index :: marks, Nat.le_refl _, rfl, slots₃, last₃, m₃, hslots₃.trans hslots₁, hs₄⟩, by omega⟩

/-- A factor of one word is captured, and the operation behind it leaves the value. -/
theorem Placed.captures (hT : Conforms T) {slot : Slot} {l : Lexeme} {o : Op} {w : Word} {r : Except Fault Int}
    (hrule : [(slot : Part), l, o] ∈ Category.factor.rule? (some l)) (hw : w.lexeme = l) (hslot : slot ≠ .target)
    (ho : ∀ s slots' last m,
      Placed .bare s ⟨frame T o :: .entered Category.factor.index false :: rest, ts, slots', last, m⟩ →
      slots' slot = some (w.token .standard) → Computes T h.variables 1 s h r fun v s' h' _ =>
        h' = { h with values := v :: h.values } ∧
          Placed .bare s' ⟨.entered Category.factor.index false :: rest, ts, slots', last, m⟩)
    (hs : Placed .bare s ⟨frame T Category.factor :: rest, tokensOf [w] ++ ts, slots, last, m⟩) :
    Computes T h.variables (16 * [w].length) s h r fun v s' h' _ => Computed h rest ts slots v s' h' := by
  have hid : (w.token .standard).id = l.terminal := congrArg Lexeme.terminal hw
  obtain ⟨s₁, hgo₁, hs₁⟩ := hs.entered (h := h) hT hrule hid
  obtain ⟨s₂, hgo₂, hs₂⟩ := hs₁.captured (h := h) hT hid
  refine .of_gets (hgo₁.trans hgo₂) ((ho s₂ _ _ _ hs₂ (Function.update_self ..)).after (k := 1) ?_ (Nat.le_refl _)) ?_
  · rintro v s' h' left ⟨hh, hs'⟩
    exact hs'.concluded hh (Function.update_of_ne hslot.symm _ slots) left
  · rw [List.length_singleton]
    omega

theorem BinaryOp.mem_rule_termTail {op : BinaryOp} (hop : op.rank = .product) :
    [(op.lexeme : Part), Category.factor, op.op, Category.termTail] ∈ Category.termTail.rule? (some op.lexeme) := by
  cases op with
  | add | sub => cases hop
  | mul | div => rfl

/-- A sum ends its last term. -/
theorem BinaryOp.mem_rule_exprTail {op : BinaryOp} (hop : op.rank = .sum) :
    [] ∈ Category.termTail.rule? (some op.lexeme) ∧
    [(op.lexeme : Part), Category.term, op.op, Category.exprTail] ∈ Category.exprTail.rule? (some op.lexeme) := by
  cases op with
  | add | sub => exact ⟨rfl, rfl⟩
  | mul | div => cases hop

theorem tokensOf_append (ws us : List Word) : tokensOf (ws ++ us) = tokensOf ws ++ tokensOf us :=
  List.map_append

/-- **The machine computes the value of every expression that is written down.** -/
theorem Writes.evaluates (hT : Conforms T) {r : Rank} {e : Expr} {ws : List Word} (hw : Writes r e ws) : Evaluates T r e ws := by
  induction hw with
  | @literal n ds hn =>
    intro s h rest ts slots last m hs
    exact hs.captures hT (o := .number) rfl rfl (by decide) fun s slots' last m hs hslot => hs.read hT hn hslot
  | @var name =>
    intro s h rest ts slots last m hs
    exact hs.captures hT (o := .var) rfl rfl (by decide) fun s slots' last m hs hslot => hs.lookedUp hT hslot
  | @neg e ws hw ih =>
    intro s h rest ts slots last m hs
    have hrule : [(Lexeme.minus : Part), Category.factor, Op.neg] ∈ Category.factor.rule? (some .minus) := rfl
    obtain ⟨s₁, hgo₁, hs₁⟩ := hs.entered (h := h) hT hrule rfl
    obtain ⟨s₂, hgo₂, hs₂⟩ := hs₁.matched (h := h) hT rfl
    refine .of_gets (hgo₁.trans hgo₂) ((ih s₂ h _ _ _ _ _ hs₂).bind (k := 2) ?_ (Nat.le_refl _)) ?_
    · rintro v s₃ _ left ⟨rfl, slots₃, last₃, m₃, hslots₃, hs₃⟩
      refine (hs₃.negated hT rfl).after (k := 1) ?_ (by omega)
      rintro x s₄ _ left₄ ⟨rfl, hs₄⟩
      exact hs₄.concluded (h := h) rfl hslots₃ left₄
    · rw [List.length_cons]
      omega
  | @paren e ws hw ih =>
    intro s h rest ts slots last m hs
    rw [tokensOf_append, List.append_assoc] at hs
    have hrule : [(Lexeme.lparen : Part), Category.expr, Lexeme.rparen] ∈ Category.factor.rule? (some .lparen) := rfl
    obtain ⟨s₁, hgo₁, hs₁⟩ := hs.entered (h := h) hT hrule rfl
    obtain ⟨s₂, hgo₂, hs₂⟩ := hs₁.matched (h := h) hT rfl
    refine .of_gets (hgo₁.trans hgo₂) ((ih.expr hT hw (.inl rfl) rfl hs₂).after (k := 2) ?_ (Nat.le_refl _)) ?_
    · rintro v s₃ h₃ left ⟨hh, slots₃, last₃, m₃, hslots₃, hs₃⟩
      obtain ⟨s₄, hgo₄, hs₄⟩ := hs₃.matched (h := h₃) hT rfl
      obtain ⟨j, s₅, h₅, left₅, hgo₅, hc, hj⟩ := hs₄.concluded hh hslots₃ left
      exact ⟨1 + j, s₅, h₅, left₅, hgo₄.trans hgo₅, hc, by omega⟩
    · rw [List.length_append, List.length_cons, List.length_singleton]
      omega
  | @factor e ws hw ih =>
    intro s h rest ts slots last m hs
    refine (ih s h _ ts slots last m hs).after (k := 0) ?_ (Nat.le_refl _)
    intro v s' h' left hc
    exact ⟨0, s', h', 0, .refl _ _, ⟨[], Nat.le_refl _, hc⟩, Nat.zero_le _⟩
  | @product op a b ws us hop ha hb iha ihb =>
    intro s h rest ts slots last m hs
    rw [tokensOf_append, List.append_assoc] at hs
    refine (iha s h rest _ slots last m hs).bind (k := 16 * us.length + 5) (fun v s₁ h₁ left hp => ?_) ?_
    · exact hp.applied hT (BinaryOp.mem_rule_termTail hop) fun s h rest slots last m hs => ihb s h rest ts slots last m hs
    · rw [List.length_append, List.length_cons]
      omega
  | @term e ws hw ih =>
    intro s h rest l t ts slots last m hl ht hs
    refine (ih.term hT hw hl ht hs).after (k := 0) ?_ (Nat.le_refl _)
    intro v s' h' left hc
    exact ⟨0, s', h', 0, .refl _ _, ⟨[], Nat.le_refl _, hc⟩, Nat.zero_le _⟩
  | @sum op a b ws us hop ha hb iha ihb =>
    intro s h rest l t ts slots last m hl ht hs
    obtain ⟨hend, hrule⟩ := BinaryOp.mem_rule_exprTail hop
    rw [tokensOf_append, List.append_assoc] at hs
    refine (iha s h rest _ _ _ slots last m hend rfl hs).bind (k := 16 * us.length + 6 + 5) (fun v s₁ h₁ left hp => ?_) ?_
    · exact hp.applied hT hrule fun s h rest slots last m hs => ihb.term hT hb hl ht hs
    · rw [List.length_append, List.length_cons]
      omega

end PredictiveParser.Calculator
