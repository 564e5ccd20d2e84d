import PredictiveParser.Proofs.Calculator.Evaluation
import PredictiveParser.Proofs.Calculator.Feeding

/-!
# Carrying out programs

The statements of a program are carried out one after another, up to the first fault (`WritesAll.executes`). An engine feeds the
lexemes of a text one by one, which amounts to the same, so what it returns for a text of a program is what the program means
(`eval_eq_execute`).
-/

namespace PredictiveParser.Calculator

open Machine

variable {T : Tables} {view : View} {s s' : State Token} {rest : List Frame} {t : Token} {ts : List Token}
  {slots : Slot → Option Token} {last : Option Token} {m : Nat} {h h' : Evaluation}

/-! ## Statements -/

/-- The statement was carried out with the value, and the machine stands before the tokens `ts`. -/
structure Completed (h : Evaluation) (st : Statement) (stack : List Frame) (ts : List Token) (v : Value) (s : State Token)
    (h' : Evaluation) : Prop where
  values : h'.values = h.values
  results : h'.results = h.results.push v
  env : h'.variables.env = st.effect h.variables.env v.toInt
  state : ∃ slots last m, Placed .bare s ⟨stack, ts, slots, last, m⟩

/-- A statement that begins with an expression is entered with the rule for printing. -/
theorem Placed.printing (hT : Conforms T) {e : Expr} {ws : List Word} (hw : Writes .sum e ws)
    (hs : Placed view s ⟨frame T Category.stat :: rest, tokensOf (ws ++ [Lexeme.semi.word]) ++ ts, slots, last, m⟩) :
    ∃ s', Gets T.program host 6 s h s' h ∧ Placed view s' ⟨frame T Category.expr :: frame T Lexeme.semi :: frame T Op.print ::
      .entered Category.stat.index false :: rest, tokensOf (ws ++ [Lexeme.semi.word]) ++ ts, slots, last, m⟩ := by
  obtain ⟨w, us, rfl, hb⟩ := hw.exists_head
  by_cases hident : w.lexeme = .ident
  · -- the lexeme behind the name tells the rule
    obtain ⟨u, us', hus, hu⟩ : ∃ u us', us ++ [Lexeme.semi.word] = u :: us' ∧
        [(Category.expr : Part), Lexeme.semi, Op.print] ∈ u.lexeme.statement? := by
      rcases hw.after_ident hident with rfl | ⟨op, us', rfl⟩
      · exact ⟨_, _, rfl, rfl⟩
      · exact ⟨_, _, rfl, by cases op <;> rfl⟩
    rw [List.cons_append, hus] at hs ⊢
    exact hs.decided hT hu (congrArg Lexeme.terminal hident) rfl
  · obtain ⟨s', hgo, hs'⟩ := hs.entered (h := h) hT (Lexeme.mem_rule_stat hb hident) rfl
    exact ⟨s', hgo.mono (by decide), hs'⟩

/-- **The machine carries out every statement that is written down.** -/
theorem Statement.Writes.executes (hT : Conforms T) {st : Statement} {ws : List Word} (hw : st.Writes ws)
    (hs : Placed .bare s ⟨frame T Category.stat :: rest, tokensOf ws ++ ts, slots, last, m⟩) :
    Computes T h.variables (32 * ws.length) s h (st.expr.eval h.variables.env) fun v s' h' left =>
      3 ≤ left ∧ Completed h st rest ts v s' h' := by
  cases hw with
  | @print e ws hw =>
    obtain ⟨s₁, hgo₁, hs₁⟩ := hs.printing (h := h) hT hw
    rw [tokensOf_append, List.append_assoc] at hs₁
    refine .of_gets hgo₁ (((hw.evaluates hT).expr hT hw (.inr rfl) rfl hs₁).after (k := 10) ?_ (Nat.le_refl _)) ?_
    · rintro v s₂ _ left ⟨rfl, slots₂, last₂, m₂, -, hs₂⟩
      obtain ⟨s₃, hgo₃, hs₃⟩ := hs₂.matched (h := { h with values := v :: h.values }) hT rfl
      obtain ⟨s₄, hgo₄, hs₄⟩ := hs₃.acted hT (run_print (e := { h with values := v :: h.values }) rfl)
      obtain ⟨s₅, hgo₅, hs₅⟩ := hs₄.left
      exact ⟨_, s₅, _, 3, hgo₃.trans (hgo₄.trans hgo₅), ⟨Nat.le_refl 3, rfl, rfl, rfl, _, _, _, hs₅⟩, by omega⟩
    · rw [List.length_append, List.length_singleton]
      omega
  | @assign name e ws hw =>
    have hrule : [(Slot.target : Part), Lexeme.ident, Lexeme.assign, Category.expr, Lexeme.semi, Op.assign] ∈
        Lexeme.assign.statement? := rfl
    rw [tokensOf_append, List.append_assoc] at hs
    obtain ⟨s₁, hgo₁, hs₁⟩ := hs.decided (h := h) hT hrule rfl rfl
    obtain ⟨s₂, hgo₂, hs₂⟩ := hs₁.captured (h := h) hT rfl
    obtain ⟨s₃, hgo₃, hs₃⟩ := hs₂.matched (h := h) hT rfl
    refine .of_gets (hgo₁.trans (hgo₂.trans hgo₃)) (((hw.evaluates hT).expr hT hw (.inr rfl) rfl hs₃).after (k := 10) ?_
      (Nat.le_refl _)) ?_
    · rintro v s₄ _ left ⟨rfl, slots₄, last₄, m₄, hslots₄, hs₄⟩
      obtain ⟨s₅, hgo₅, hs₅⟩ := hs₄.matched (h := { h with values := v :: h.values }) hT rfl
      obtain ⟨x, hx, hbare⟩ := Option.map_eq_some_iff.1 ((hs₅.slots .target).trans (hslots₄.trans (Function.update_self ..)))
      have hname : x.payload = .ident (.ofList name) := congrArg Token.payload hbare
      obtain ⟨s₆, hgo₆, hs₆⟩ := hs₅.acted hT
        (run_assign (e := { h with values := v :: h.values }) rfl (s := s₅.withStack _) hx hname)
      obtain ⟨s₇, hgo₇, hs₇⟩ := hs₆.left
      exact ⟨_, s₇, _, 3, hgo₅.trans (hgo₆.trans hgo₇), ⟨Nat.le_refl 3, rfl, rfl, env_set _ _ v, _, _, _, hs₇⟩, by omega⟩
    · rw [List.length_append, List.length_cons, List.length_cons, List.length_singleton]
      omega

/-! ## Programs -/

/-- A run stops as the program does, whose values come behind those that are there. -/
def Executed (h : Evaluation) (stop : Stop Evaluation Token) : Except Fault (List Int) × Env → Prop
  | (.ok values, env) => stop.answer = .ok .done ∧
      stop.host.results.toList.map Int64.toInt = h.results.toList.map Int64.toInt ++ values ∧ stop.host.variables.env = env
  | (.error fault, env) => ∃ V : Variables, Faults stop fault V ∧ V.env = env

/-- **The machine carries out every program that is written down.** The marks are those of the statements before. -/
theorem WritesAll.executes (hT : Conforms T) {program : List Statement} {ws : List Word} (hw : WritesAll program ws)
    (marks : List Nat) (ht : t.id = endToken)
    (hs : Placed .bare s ⟨frame T Category.program :: (marks.map (.entered · false) ++ [.finish]), tokensOf ws ++ [t], slots,
      last, m⟩) :
    ∃ stop, run T.program host (32 * ws.length + (marks.length + 4)) s h = some stop ∧
      Executed h stop (execute program h.variables.env) := by
  induction hw generalizing s h marks slots last m with
  | nil =>
    have hrule : [] ∈ Category.program.rule? none := rfl
    obtain ⟨s₁, hgo₁, hs₁⟩ := hs.entered (h := h) hT hrule ht
    obtain ⟨s₂, hgo₂, hs₂⟩ := hs₁.leftAll (Category.program.index :: marks) (h := h)
    obtain ⟨s₃, hr⟩ := hs₂.accepted (T := T) ht h
    refine ⟨_, run_le ?_ (hgo₁.trans hgo₂ _ _ hr), rfl, (List.append_nil _).symm, rfl⟩
    rw [List.length_cons]
    omega
  | @cons st rest ws us hw hall ih =>
    obtain ⟨w, ws, rfl, hb⟩ := hw.exists_head
    rw [tokensOf_append, List.append_assoc] at hs
    obtain ⟨s₁, hgo₁, hs₁⟩ := hs.entered (h := h) hT (Lexeme.mem_rules hb).2.2 rfl
    have hc := hw.executes hT (h := h) hs₁
    rw [execute]
    cases hr : st.expr.eval h.variables.env with
    | error fault =>
      rw [hr] at hc
      obtain ⟨stop, hrun, hfaults⟩ := hc
      refine ⟨stop, run_le ?_ (hgo₁ _ _ hrun), h.variables, hfaults, rfl⟩
      rw [List.length_append]
      omega
    | ok x =>
      rw [hr] at hc
      obtain ⟨v, s₂, h₂, k, left, rfl, hk, hgo₂, hleft, -, hresults, henv, slots₂, last₂, m₂, hs₂⟩ := hc
      obtain ⟨stop, hrun, hexecuted⟩ := ih (Category.program.index :: marks) hs₂
      refine ⟨stop, run_le ?_ (hgo₁.trans hgo₂ _ _ hrun), ?_⟩
      · rw [List.length_append, List.length_cons]
        omega
      · rw [henv] at hexecuted
        dsimp only
        generalize execute rest (st.effect h.variables.env v.toInt) = outcome at hexecuted
        obtain ⟨result, env⟩ := outcome
        cases result with
        | error fault => exact hexecuted
        | ok values =>
          obtain ⟨hanswer, hvalues, henv'⟩ := hexecuted
          refine ⟨hanswer, ?_, henv'⟩
          rw [hvalues, hresults, Array.toList_push, List.map_append, List.append_assoc]
          rfl

/-- A program without a fault has a value for each statement. -/
theorem length_of_execute {program : List Statement} {env env' : Env} {values : List Int}
    (h : execute program env = (.ok values, env')) : values.length = program.length := by
  induction program generalizing env values with
  | nil =>
    cases h
    rfl
  | cons st program ih =>
    rw [execute] at h
    split at h
    · cases h
    · next v hv =>
      obtain ⟨r, env₁, hr⟩ : ∃ r env₁, execute program (st.effect env v) = (r, env₁) := ⟨_, _, rfl⟩
      rw [hr] at h
      cases r with
      | error fault => cases h
      | ok vs =>
        cases h
        exact congrArg (· + 1) (ih hr)

/-! ## Engines -/

/-- The numbers of an expression fit. -/
theorem Writes.fits {r : Rank} {e : Expr} {ws : List Word} (hw : Writes r e ws) : ∀ w ∈ ws, w.Fits := by
  induction hw with
  | @literal n ds hn =>
    intro w hw _
    rw [List.mem_singleton.1 hw, hn]
    exact n.isLt
  | var =>
    intro w hw hnumber
    rw [List.mem_singleton.1 hw] at hnumber
    cases hnumber
  | neg _ ih => exact List.forall_mem_cons.2 ⟨nofun, ih⟩
  | paren _ ih => exact List.forall_mem_cons.2 ⟨nofun, List.forall_mem_append.2 ⟨ih, List.forall_mem_singleton.2 nofun⟩⟩
  | factor _ ih | term _ ih => exact ih
  | @product op _ _ _ _ _ _ _ iha ihb | @sum op _ _ _ _ _ _ _ iha ihb =>
    refine List.forall_mem_append.2 ⟨iha, List.forall_mem_cons.2 ⟨fun hop => ?_, ihb⟩⟩
    cases op <;> cases hop

theorem WritesAll.fits {program : List Statement} {ws : List Word} (hw : WritesAll program ws) : ∀ w ∈ ws, w.Fits := by
  induction hw with
  | nil => exact List.forall_mem_nil _
  | cons hw _ ih =>
    refine List.forall_mem_append.2 ⟨?_, ih⟩
    cases hw with
    | assign hw =>
      exact List.forall_mem_cons.2 ⟨nofun, List.forall_mem_cons.2 ⟨nofun, List.forall_mem_append.2
        ⟨hw.fits, List.forall_mem_singleton.2 nofun⟩⟩⟩
    | print hw => exact List.forall_mem_append.2 ⟨hw.fits, List.forall_mem_singleton.2 nofun⟩

/-- An evaluation is a run of the machine on the tokens of the program's words. -/
theorem Engine.exists_executed {limits : Limits} {C : Engine} (hC : Engine.new limits = .ok C) {program : List Statement}
    {source : String} (hs : Renders program source) (V : Variables) :
    ∃ stop : Stop Evaluation Token, Executed { «variables» := V } stop (execute program V.env) ∧
      C.eval source V = ((answerOf stop (lex C.alphabet source)).map fun _ => stop.host.results.toList, stop.host.variables) := by
  obtain ⟨hT, hid⟩ := conforms_of_new hC
  obtain ⟨ws, hws, hlaid⟩ := hs
  have halphabet : C.alphabet = .standard := congrArg Alphabet.mk (funext hid)
  obtain ⟨ls, hlex, hls⟩ := hlaid.exists_lexed hws.fits C.alphabet ⟨0, 0⟩
  rw [halphabet] at hls
  have hfed := fed_map_ok (endSpan source) ls
  -- the run with all tokens at hand
  have hbegin := (placed_begin hT V (fed (endSpan source) (ls.map .ok))).seen .bare
  have hbare : (fed (endSpan source) (ls.map .ok)).map Token.bare =
      tokensOf ws ++ [(endTokenAt (endSpan source)).bare] := by
    rw [hfed, List.map_append, List.map_map]
    exact congrArg (· ++ _) hls
  obtain ⟨stop, hr, hexecuted⟩ := hws.executes (h := { «variables» := V }) hT [] rfl (hbare ▸ hbegin)
  have hlength : ws.length ≤ source.length := String.length_toList ▸ hlaid.length_le
  have hfuel : 32 * ws.length + (([] : List Nat).length + 4) ≤ stepBound source := by
    unfold stepBound
    rw [List.length_nil]
    omega
  -- the engine feeds them one by one
  have hends : ∀ l, .ok l ∈ ls.map (Except.ok (ε := Error)) → l.token.id ≠ endToken := by
    intro l hl
    have hmem : l.token.bare ∈ ws.map (Word.token .standard) :=
      hls ▸ List.mem_map_of_mem ((List.mem_map_of_injective fun _ _ h => Except.ok.inj h).1 hl)
    obtain ⟨w, -, hw⟩ := List.mem_map.1 hmem
    have hterminal : l.token.id = w.lexeme.terminal := (congrArg Token.id hw).symm
    rw [hterminal]
    exact w.lexeme.terminal_ne_endToken
  have hne : fed (endSpan source) (ls.map .ok) ≠ [] := by
    rw [hfed]
    exact List.concat_ne_nil _ _
  obtain ⟨q, hq, hhost, -⟩ := C.exists_feedAll V hne hends (run_le hfuel hr)
  have hlex' : lex C.alphabet source = ls.map .ok := hlex
  refine ⟨stop, hexecuted, ?_⟩
  rw [hlex', ← hhost]
  exact eval_of_feedAll (hlex' ▸ hq)

/-- **Evaluating a text of a program gives what the program means**, whatever the limits were within which the tables were built:
the values of the statements and the variables, or the first fault and the variables before the statement that has it. -/
theorem eval_eq_execute {limits : Limits} {C : Engine} (hC : Engine.new limits = .ok C) {program : List Statement}
    {source : String} (hs : Renders program source) (V : Variables) :
    match execute program V.env with
    | (.ok values, env) => ∃ results V', C.eval source V = (.ok results, V') ∧ results.map Int64.toInt = values ∧ V'.env = env
    | (.error fault, env) => ∃ e V', C.eval source V = (.error e, V') ∧ e.fault? = some fault ∧ V'.env = env := by
  obtain ⟨stop, hexecuted, heval⟩ := Engine.exists_executed hC hs V
  rw [heval]
  generalize execute program V.env = outcome at hexecuted
  obtain ⟨fault | values, env⟩ := outcome
  · obtain ⟨V', ⟨⟨message, span, hanswer⟩, ⟨error, hfailure, hfault⟩, hvariables⟩, henv⟩ := hexecuted
    refine ⟨error, V', ?_, hfault, henv⟩
    rw [Engine.answerOf, hanswer, hvariables]
    dsimp only
    rw [Engine.errorOf, hfailure]
    rfl
  · obtain ⟨hanswer, hvalues, henv⟩ := hexecuted
    refine ⟨stop.host.results.toList, stop.host.variables, ?_, hvalues, henv⟩
    rw [Engine.answerOf, hanswer]
    rfl

/-- Anything may stand behind a word that is a sign. -/
theorem Laid.sign {gap text : List Char} {ws : List Word} (l : Lexeme) (hl : l ≠ .ident ∧ l ≠ .number) (hg : Gap gap)
    (h : Laid ws text) : Laid (l.word :: ws) (gap ++ l.name.toList ++ text) := by
  refine .word (w := l.word) hg ?_ (fun c _ => ?_) h
  · unfold Word.Spelled Lexeme.word
    split
    · next h => exact absurd h hl.1
    · next h => exact absurd h hl.2
    · rfl
  · cases l with
    | ident => exact absurd rfl hl.1
    | number => exact absurd rfl hl.2
    | _ => rfl

/-- A variable is assigned the negative of three, times the difference of four and one, and is printed. -/
def assignment : List Statement :=
  [.assign "x" (.binary .mul (.neg (.literal ⟨3, by decide⟩))
    (.binary .sub (.literal ⟨4, by decide⟩) (.literal ⟨1, by decide⟩))), .print (.var "x")]

/-- The difference needs parentheses, and a comment goes before the second statement. -/
theorem eval_assignment : ∃ C, Engine.new {} = .ok C ∧ Renders assignment "x = -3*(4-1);#\nx;" ∧
    ∃ results V', C.eval "x = -3*(4-1);#\nx;" {} = (.ok results, V') ∧ results.map Int64.toInt = [-9, -9] ∧
      V'.env = [("x", -9)] := by
  have hproduct : Writes .sum (assignment.head (by decide)).expr [Lexeme.minus.word, ⟨.number, ['3']⟩, Lexeme.star.word,
      Lexeme.lparen.word, ⟨.number, ['4']⟩, Lexeme.minus.word, ⟨.number, ['1']⟩, Lexeme.rparen.word] :=
    .term (.product rfl (.factor (.neg (.literal rfl)))
      (.paren (.sum rfl (.term (.factor (.literal rfl))) (.factor (.literal rfl)))))
  have hwrites : WritesAll assignment _ :=
    .cons (.assign hproduct) (.cons (.print (.term (.factor (.var ['x'])))) .nil)
  have hblank : Gap [' '] := .blank rfl .nil
  have hident : Word.Spelled ⟨.ident, ['x']⟩ := ⟨'x', [], rfl, rfl, nofun⟩
  have hnumber : ∀ d, d.isDigit → Word.Spelled ⟨.number, [d]⟩ := fun d hd =>
    ⟨List.cons_ne_nil d [], List.forall_mem_singleton.2 hd⟩
  have hlaid : Laid _ _ :=
    .word .nil hident (by rintro c ⟨⟩; rfl) <| .sign .assign (by decide) hblank <| .sign .minus (by decide) hblank <|
    .word .nil (hnumber '3' rfl) (by rintro c ⟨⟩; rfl) <| .sign .star (by decide) .nil <| .sign .lparen (by decide) .nil <|
    .word .nil (hnumber '4' rfl) (by rintro c ⟨⟩; rfl) <| .sign .minus (by decide) .nil <|
    .word .nil (hnumber '1' rfl) (by rintro c ⟨⟩; rfl) <| .sign .rparen (by decide) .nil <| .sign .semi (by decide) .nil <|
    .word (.comment List.not_mem_nil .nil) hident (by rintro c ⟨⟩; rfl) <| .sign .semi (by decide) .nil <| .done .nil
  have hrenders : Renders assignment "x = -3*(4-1);#\nx;" := ⟨_, hwrites, hlaid⟩
  obtain ⟨g, T, hg, hb, hT, -⟩ := exists_conforms
  have hC := new_eq hg hb hT
  exact ⟨_, hC, hrenders, eval_eq_execute hC hrenders {}⟩

end PredictiveParser.Calculator
