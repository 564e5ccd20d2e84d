import PredictiveParser.Calculator.Evaluator
import PredictiveParser.Proofs.Calculator.Semantics

/-!
# Operations on values and on integers

Values are integers of 64 bits, and an operation on values is the operation on integers as far as its result fits
(`checked_eq`). The actions of the grammar carry these operations out on the stack of values.
-/

namespace PredictiveParser.Calculator

/-- The fault that an error reports. -/
def Error.fault? : Error → Option Fault
  | .undefinedVariable name _ => some (.undefined name)
  | .divisionByZero _ => some .divisionByZero
  | .overflow _ => some .overflow
  | _ => none

/-! ## Values -/

/-- An integer fits into 64 bits exactly if there is a value for it. -/
theorem checked_eq (n : Int) : checked n = match Value.fit? n with
    | some v => .ok v.toInt
    | none => .error .overflow := by
  have hmin : Int64.minValue.toInt = -0x8000000000000000 := by decide
  have hmax : Int64.maxValue.toInt = 0x8000000000000000 - 1 := by decide
  by_cases hn : Value.InRange n
  · have hfit : Value.fit? n = some (Int64.ofInt n) := if_pos hn
    obtain ⟨hlo, hhi⟩ := hn
    rw [checked, if_pos (by omega), hfit]
    dsimp only
    rw [Value.toInt_of_fit? hfit]
  · have hfit : Value.fit? n = none := if_neg hn
    rw [checked, if_neg (fun h => hn (by unfold Value.InRange; omega)), hfit]

/-- The operation on values. -/
def BinaryOp.onValues : BinaryOp → Value → Value → Option Value
  | add => Value.add?
  | sub => Value.sub?
  | mul => Value.mul?
  | div => Value.div?

/-- The action of an operation. -/
def BinaryOp.op : BinaryOp → Op
  | add => .add
  | sub => .sub
  | mul => .mul
  | div => .div

theorem toInt_eq_zero_iff {v : Value} : v.toInt = 0 ↔ v = 0 :=
  ⟨fun h => Int64.toInt_inj.1 h, fun h => h ▸ rfl⟩

/-- What an operation on values gives, unless it divides by zero. -/
theorem BinaryOp.apply_eq (op : BinaryOp) {a b : Value} (hb : op = .div → b ≠ 0) :
    op.apply a.toInt b.toInt = match op.onValues a b with
      | some v => .ok v.toInt
      | none => .error .overflow := by
  cases op with
  | add => exact checked_eq _
  | sub => exact checked_eq _
  | mul => exact checked_eq _
  | div =>
    have hne : b ≠ 0 := hb rfl
    rw [apply, if_neg (fun h => hne (toInt_eq_zero_iff.1 h)), checked_eq]
    show _ = match (if b = 0 then none else Value.fit? (a.toInt.tdiv b.toInt)) with
      | some v => Except.ok v.toInt
      | none => .error Fault.overflow
    rw [if_neg hne]

/-! ## Variables -/

/-- The variables with their values as integers. -/
def Variables.env (V : Variables) : Env :=
  V.entries.map fun e => (e.1, e.2.toInt)

theorem lookup_env (V : Variables) (name : String) : V.env.lookup name = (V.get? name).map Int64.toInt := by
  unfold Variables.env Variables.get?
  induction V.entries with
  | nil => rfl
  | cons e rest ih =>
    rw [List.map_cons, List.lookup_cons, List.lookup_cons]
    cases name == e.1 with
    | true => rfl
    | false => exact ih

/-- Assigning keeps the places of the variables. -/
theorem env_set (V : Variables) (name : String) (v : Value) : (V.set name v).env = V.env.assign name v.toInt := by
  unfold Variables.set Variables.env
  dsimp only
  induction V.entries with
  | nil => rfl
  | cons e rest ih =>
    obtain ⟨n, w⟩ := e
    rw [Variables.setIn, List.map_cons, Env.assign, List.findIdx?_cons]
    by_cases hn : n = name
    · subst hn
      rw [if_pos rfl, beq_self_eq_true]
      rfl
    · have hbeq : (n == name) = false := beq_false_of_ne hn
      rw [if_neg hn, List.map_cons, ih, Env.assign]
      dsimp only
      rw [hbeq]
      cases (List.map (fun e : String × Value => (e.1, e.2.toInt)) rest).findIdx? (·.1 == name) <;> rfl

/-! ## Actions -/

section Actions

open Machine

variable {s : State Token} {e : Evaluation} {t : Token} {name : String} {a b v : Value} {vs : List Value}

/-- The value of a literal. -/
theorem run_number (ht : s.locator? Slot.lit.index = some t) (hv : t.payload = .number v) :
    (Eval.apply s .number).run e = (.ok [], { e with values := v :: e.values }) := by
  obtain ⟨id, payload, span⟩ := t
  obtain rfl : payload = _ := hv
  unfold Eval.apply
  dsimp only
  rw [ht]
  rfl

theorem run_identAt {slot : Slot} (ht : s.locator? slot.index = some t) (hname : t.payload = .ident name) :
    Eval.identAt s slot = pure (name, t.span) := by
  obtain ⟨id, payload, span⟩ := t
  obtain rfl : payload = _ := hname
  unfold Eval.identAt
  rw [ht]

theorem run_lookup (ht : s.locator? Slot.var.index = some t) (hname : t.payload = .ident name) :
    (Eval.apply s .var).run e = match e.variables.get? name with
      | some v => (.ok [], { e with values := v :: e.values })
      | none => (.error (.undefinedVariable name t.span), e) := by
  unfold Eval.apply
  dsimp only
  rw [run_identAt ht hname]
  show (match e.variables.get? name with
    | some v => (do Eval.push v; return [] : Eval (List Note))
    | none => throw (Error.undefinedVariable name t.span)).run e = _
  cases e.variables.get? name <;> rfl

/-- The value of a variable. -/
theorem run_var (ht : s.locator? Slot.var.index = some t) (hname : t.payload = .ident name)
    (hv : e.variables.get? name = some v) :
    (Eval.apply s .var).run e = (.ok [], { e with values := v :: e.values }) := by
  rw [run_lookup ht hname, hv]

theorem run_var_none (ht : s.locator? Slot.var.index = some t) (hname : t.payload = .ident name)
    (hv : e.variables.get? name = none) :
    (Eval.apply s .var).run e = (.error (.undefinedVariable name t.span), e) := by
  rw [run_lookup ht hname, hv]

theorem run_neg (hvalues : e.values = a :: vs) : (Eval.apply s .neg).run e = match a.neg? with
    | some v => (.ok [], { e with values := v :: vs })
    | none => (.error (.overflow (Eval.lastSpan s)), { e with values := vs }) := by
  obtain ⟨V, values, results, failure⟩ := e
  obtain rfl : values = _ := hvalues
  show (do Eval.push (← Eval.fitting s a.neg?); return [] : Eval (List Note)).run ⟨V, vs, results, failure⟩ = _
  cases a.neg? <;> rfl

theorem run_binary {f : Value → Value → Option Value} (hvalues : e.values = b :: a :: vs) :
    (do Eval.binary s f; return [] : Eval (List Note)).run e = match f a b with
      | some v => (.ok [], { e with values := v :: vs })
      | none => (.error (.overflow (Eval.lastSpan s)), { e with values := vs }) := by
  obtain ⟨V, values, results, failure⟩ := e
  obtain rfl : values = _ := hvalues
  show ((Eval.fitting s (f a b) >>= Eval.push) >>= fun _ => pure ([] : List Note)).run
    (⟨V, vs, results, failure⟩ : Evaluation) = _
  cases f a b <;> rfl

/-- The value of an operation, unless it divides by zero. -/
theorem run_op (op : BinaryOp) (hvalues : e.values = b :: a :: vs) (hb : op = .div → b ≠ 0) :
    (Eval.apply s op.op).run e = match op.onValues a b with
      | some v => (.ok [], { e with values := v :: vs })
      | none => (.error (.overflow (Eval.lastSpan s)), { e with values := vs }) := by
  cases op with
  | add | sub | mul => exact run_binary hvalues
  | div =>
    have hhead : e.values.head? ≠ some 0 := by
      rw [hvalues]
      exact fun h => hb rfl (Option.some.inj h)
    show (if e.values.head? = some 0 then throw (.divisionByZero (Eval.lastSpan s))
      else (do Eval.binary s Value.div?; return [] : Eval (List Note))).run e = _
    rw [if_neg hhead]
    exact run_binary hvalues

theorem run_div_zero (hvalues : e.values = 0 :: vs) :
    (Eval.apply s .div).run e = (.error (.divisionByZero (Eval.lastSpan s)), e) := by
  have hhead : e.values.head? = some 0 := by rw [hvalues]; rfl
  show (if e.values.head? = some 0 then throw (.divisionByZero (Eval.lastSpan s))
    else (do Eval.binary s Value.div?; return [] : Eval (List Note))).run e = _
  rw [if_pos hhead]
  rfl

/-- An assignment completes a statement. -/
theorem run_assign (hvalues : e.values = v :: vs) (ht : s.locator? Slot.target.index = some t)
    (hname : t.payload = .ident name) :
    (Eval.apply s .assign).run e = (.ok [.debug s!"{name} = {v.display}"], { e with
      «variables» := e.variables.set name v, values := vs, results := e.results.push v }) := by
  obtain ⟨V, values, results, failure⟩ := e
  obtain rfl : values = _ := hvalues
  unfold Eval.apply
  dsimp only
  rw [run_identAt ht hname]
  rfl

/-- So does printing. -/
theorem run_print (hvalues : e.values = v :: vs) : (Eval.apply s .print).run e =
    (.ok [], { e with values := vs, results := e.results.push v }) := by
  obtain ⟨V, values, results, failure⟩ := e
  obtain rfl : values = _ := hvalues
  rfl

end Actions

end PredictiveParser.Calculator
