import PredictiveParser.Proofs.Calculator.Execution
import PredictiveParser.Proofs.Calculator.Sources
import PredictiveParser.Proofs.Calculator.Statements

/-!
# Outcomes of evaluations

Whatever the source is, an engine carries out some statements from the beginning of it, and behind them it comes to the end of the
input or stops with an error (`Engine.exists_done`). In the first case it returns the values of the statements
(`Engine.exists_accepted`), in the second one the error (`Engine.exists_broken`), and the variables are those behind the statements
in both. The error is always one that says what is wrong with the source (`Engine.eval_documented`).
-/

namespace PredictiveParser.Calculator

open Machine

variable {C : Engine} {limits : Limits} {V : Variables} {ws us : List Word} {used rest ts : List Token}
  {rs : List (Except Error Lexed)} {span : Span} {n j k : Nat} {e? : Option Error}

/-! ## Runs of engines -/

namespace Engine

/-- What feeding comes to, also if there is nothing to be fed. -/
theorem exists_fed (hT : Conforms C.tables) (hends : ∀ l, .ok l ∈ rs → l.token.id ≠ endToken) {stop : Stop Evaluation Token}
    (hr : run C.tables.program host n ((fed span rs).foldl State.receive (C.begin V).state) { «variables» := V } = some stop) :
    ∃ q, C.feedAll n span rs (C.begin V) = some (answerOf stop rs, q) ∧ q.host.variables = stop.host.variables ∧
      q.state.stats.matched = stop.state.stats.matched ∧ (stop.answer = .ok .done → q.host = stop.host) := by
  by_cases hfed : fed span rs = []
  · obtain ⟨e, rs, rfl⟩ : ∃ e rs', rs = .error e :: rs' := by
      cases rs with
      | nil => cases hfed
      | cons r rs =>
        cases r with
        | error e => exact ⟨e, rs, rfl⟩
        | ok l => cases hfed
    have hs := placed_begin hT V []
    obtain ⟨stop', hr', hbreaks⟩ := Placed.starved (p := Category.program) (h := { «variables» := V }) hT nofun nofun hs
    have hn : 1 ≤ n := Nat.pos_of_ne_zero fun h => by rw [h] at hr; cases hr
    rw [hfed] at hr
    obtain rfl : stop' = stop := Option.some.inj ((run_le hn hr').symm.trans hr)
    have hanswer : stop'.answer = .ok .more := hbreaks.answer
    refine ⟨C.begin V, ?_, hbreaks.variables.symm, hbreaks.count.symm, fun h => ?_⟩
    · rw [feedAll, answerOf, hanswer]
      rfl
    · rw [hanswer] at h
      cases h
  · obtain ⟨q, hq, hhost, hcount⟩ := C.exists_feedAll V hfed hends hr
    exact ⟨q, hq, congrArg Evaluation.variables hhost, hcount, fun _ => hhost⟩

/-- In the beginning the machine stands before the tokens, which were not moved. -/
theorem placed_fed (hT : Conforms C.tables) (hfed : fed span rs = used ++ rest) :
    Placed .whole ((fed span rs).foldl State.receive (C.begin V).state)
      ⟨[frame C.tables Category.program, .finish], used.map (Token.move id) ++ rest, fun _ => none, none, 0⟩ := by
  rw [map_move_id, ← hfed]
  exact placed_begin hT V _

theorem length_fed_le (span : Span) (rs : List (Except Error Lexed)) : (fed span rs).length ≤ rs.length + 1 := by
  induction rs with
  | nil => exact Nat.le_refl 1
  | cons r rs ih =>
    cases r with
    | error e => exact Nat.zero_le _
    | ok l => exact Nat.succ_le_succ ih

theorem length_fed_source_le (C : Engine) (source : String) :
    (fed (endSpan source) (lex C.alphabet source)).length ≤ source.length + 1 := by
  refine Nat.le_trans (length_fed_le ..) (Nat.succ_le_succ ?_)
  rw [← String.length_toList]
  exact lexAt_length_le ..

variable {source : String} (hC : Engine.new limits = .ok C)

include hC

theorem alphabet_of_new : C.alphabet = .standard :=
  congrArg Alphabet.mk (funext (conforms_of_new hC).2)

theorem lexed_id_ne {l : Lexed} (hl : .ok l ∈ lex C.alphabet source) : l.token.id ≠ endToken := by
  rw [alphabet_of_new hC] at hl
  have hid : l.token.id = l.lexeme.terminal := congrArg Token.id (lexed_of_mem hl).2.2
  rw [hid]
  exact l.lexeme.terminal_ne_endToken

/-- If only the end of the input is left behind the statements, the evaluation succeeds. -/
theorem exists_accepted (D : Done C.tables V ws used) {t : Token} (ht : t.id = endToken)
    (hfed : fed (endSpan source) (lex C.alphabet source) = used ++ [t]) :
    ∃ q, C.feedAll (stepBound source) (endSpan source) (lex C.alphabet source) (C.begin V) = some (.ok (), q) ∧
      q.host = { «variables» := D.after, results := D.values.toArray } := by
  have hT := (conforms_of_new hC).1
  let h : Evaluation := { «variables» := D.after, results := #[] ++ D.values.toArray }
  obtain ⟨s₁, slots₁, last₁, hgo₁, hs₁⟩ := D.passes id _ { «variables» := V } _ _ _ _ _ (placed_fed hT hfed) rfl
  have hrule : [] ∈ Category.program.rule? none := rfl
  obtain ⟨s₂, hgo₂, hs₂⟩ := hs₁.entered (h := h) hT hrule ht
  obtain ⟨s₃, hgo₃, hs₃⟩ := hs₂.leftAll (Category.program.index :: List.replicate D.values.length Category.program.index) (h := h)
  obtain ⟨s₄, hr⟩ := hs₃.accepted (T := C.tables) ht h
  have hlength : (Category.program.index :: List.replicate D.values.length Category.program.index).length = D.values.length + 1 :=
    congrArg (· + 1) List.length_replicate
  rw [hlength] at hgo₃
  have hsteps : D.steps + (2 + (D.values.length + 1) + 1) ≤ stepBound source := by
    have hsource := length_fed_source_le C source
    rw [hfed, List.length_append] at hsource
    have := D.steps_le
    have := D.length_values
    have := D.length_words
    have := D.writes.length_le
    unfold stepBound
    omega
  obtain ⟨q, hq, -, -, hhost⟩ :=
    exists_fed hT (fun _ => lexed_id_ne hC) (run_le hsteps (hgo₁ _ _ ((hgo₂.trans hgo₃) _ _ hr)))
  refine ⟨q, hq, (hhost rfl).trans ?_⟩
  show ({ «variables» := D.after, results := #[] ++ D.values.toArray } : Evaluation) = _
  rw [Array.empty_append]

/-- If the machine stops behind the statements, so does the evaluation, with the error of the machine, or with the first one among
the lexemes. -/
theorem exists_broken (D : Done C.tables V ws used) (hhalts : Halts C.tables D.after [Category.program] rest j k e?)
    (hfed : fed (endSpan source) (lex C.alphabet source) = used ++ rest) (hj : j ≤ rest.length) (hk : k ≤ 20 * j + 24) {e : Error}
    (he : e?.or (unread? (lex C.alphabet source)) = some e) :
    ∃ q, C.feedAll (stepBound source) (endSpan source) (lex C.alphabet source) (C.begin V) = some (.error e, q) ∧
      q.host.variables = D.after ∧ q.state.stats.matched = used.length + j := by
  have hT := (conforms_of_new hC).1
  obtain ⟨s₁, slots₁, last₁, hgo₁, hs₁⟩ := D.passes id _ { «variables» := V } _ _ _ _ _ (placed_fed hT hfed) rfl
  rw [← map_move_id rest] at hs₁
  obtain ⟨stop, hrun, hbreaks⟩ := hhalts id _ { «variables» := D.after, results := #[] ++ D.values.toArray } _ _ _ _ hs₁ rfl
  have hsteps : D.steps + k ≤ stepBound source := by
    have hsource := length_fed_source_le C source
    rw [hfed, List.length_append] at hsource
    have := D.steps_le
    unfold stepBound
    omega
  obtain ⟨q, hq, hvariables, hcount, -⟩ := exists_fed hT (fun _ => lexed_id_ne hC) (run_le hsteps (hgo₁ _ _ hrun))
  refine ⟨q, ?_, hvariables.trans hbreaks.variables, hcount.trans ?_⟩
  · have hanswer := hbreaks.answer
    rw [hq, answerOf]
    cases e? with
    | none =>
      rw [show stop.answer = .ok .more from hanswer]
      rw [Option.none_or] at he
      rw [he]
      rfl
    | some e' =>
      cases he
      obtain ⟨error, herror, hof⟩ := hanswer
      rw [herror]
      dsimp only
      rw [hof, Error.move_id]
  · rw [hbreaks.count, Nat.zero_add]

/-- **Whatever the source is, some statements are carried out**, and behind them there is the end of the input or an error that says
what is wrong. Before that, no other semicolon is matched. -/
theorem exists_done (source : String) (V : Variables) : ∃ ws us used rest, ∃ D : Done C.tables V ws used,
    wordsOf (lex C.alphabet source) = ws ++ us ∧ fed (endSpan source) (lex C.alphabet source) = used ++ rest ∧
    (∀ t ∈ used, t.id ≠ endToken) ∧ ((us = [] ∧ ∃ t, rest = [t] ∧ t.id = endToken) ∨
      ∃ j k e? e, j ≤ us.length ∧ j ≤ rest.length ∧ (∀ w ∈ us.take j, w.lexeme ≠ .semi) ∧ k ≤ 20 * j + 24 ∧
        Halts C.tables D.after [Category.program] rest j k e? ∧ e?.or (unread? (lex C.alphabet source)) = some e ∧
        e.Documented) := by
  have hs : Spells (wordsOf (lex C.alphabet source)) (fed (endSpan source) (lex C.alphabet source)) :=
    spells_fed (alphabet_of_new hC) _
  obtain ⟨ws, us, used, rest, D, hws, hfed, hend⟩ := hs.exists_done (conforms_of_new hC).1 (refuses_of_new hC) V
  rw [hws, hfed] at hs
  have hused := hs.id_ne D.length_words
  have hleft := hs.of_append D.length_words
  refine ⟨ws, us, used, rest, D, hws, hfed, hused, ?_⟩
  rcases hend with haccepted | ⟨j, k, e?, hj, hsemi, hk, hhalts, hdocumented, hnone⟩
  · exact .inl haccepted
  · have hlength := hleft.length_le
    have herror : ∃ e, e?.or (unread? (lex C.alphabet source)) = some e ∧ e.Documented := by
      cases e? with
      | some e => exact ⟨e, rfl, hdocumented e rfl⟩
      | none =>
        have heq : us.length = rest.length := Nat.le_antisymm hlength (hnone rfl)
        have hleft' : Spells (us ++ []) (rest ++ []) := by rwa [List.append_nil, List.append_nil]
        have hne : ∀ t ∈ fed (endSpan source) (lex C.alphabet source), t.id ≠ endToken := by
          rw [hfed]
          exact List.forall_mem_append.2 ⟨hused, hleft'.id_ne heq⟩
        obtain ⟨e, he⟩ := exists_unread? hne
        exact ⟨e, he, documented_of_unread? he⟩
    obtain ⟨e, he, hdoc⟩ := herror
    exact .inr ⟨j, k, e?, e, hj, Nat.le_trans hj hlength, hsemi, hk, hhalts, he, hdoc⟩

/-- Nothing is wrong with the lexemes if the end of the input is fed. -/
theorem unread?_of_accepted {t : Token} (hfed : fed (endSpan source) (lex C.alphabet source) = used ++ [t])
    (ht : t.id = endToken) : unread? (lex C.alphabet source) = none := by
  have hmem : t ∈ fed (endSpan source) (lex C.alphabet source) := by
    rw [hfed]
    exact List.mem_append_right _ List.mem_cons_self
  exact unread?_eq_none hmem ht fun _ => lexed_id_ne hC

/-- The source of an evaluation that succeeds has the words of its statements. -/
theorem laid_of_accepted {t : Token} (hwords : wordsOf (lex C.alphabet source) = ws)
    (hfed : fed (endSpan source) (lex C.alphabet source) = used ++ [t]) (ht : t.id = endToken) : Laid ws source.toList := by
  rw [← hwords]
  exact laid_of_lexAt (unread?_of_accepted hC hfed ht)

end Engine

/-! ## Errors -/

/-- **An evaluation gives a documented error or all results.** If it succeeds, the source is a text of a program, there is a result
for each of its statements, and no value is left over. -/
theorem Engine.eval_documented (hC : Engine.new limits = .ok C) (source : String) (V : Variables) :
    match (C.eval source V).1 with
    | .error e => e.Documented
    | .ok results => ∃ q, C.feedAll (stepBound source) (endSpan source) (lex C.alphabet source) (C.begin V) = some (.ok (), q) ∧
        q.host.values = [] ∧ q.host.results.toList = results ∧ (∃ program, Renders program source) ∧
        ∀ program, Renders program source → results.length = program.length := by
  obtain ⟨ws, us, used, rest, D, hwords, hfed, -, ⟨rfl, t, rfl, ht⟩ | hstops⟩ := exists_done hC source V
  · obtain ⟨q, hq, hhost⟩ := exists_accepted hC D ht hfed
    have heval : C.eval source V = (.ok q.host.results.toList, q.host.variables) := eval_of_feedAll hq
    rw [heval]
    refine ⟨q, hq, by rw [hhost], rfl, ⟨D.program, ws, D.writes, ?_⟩, fun program hprogram => ?_⟩
    · exact laid_of_accepted hC (hwords.trans (List.append_nil ws)) hfed ht
    · obtain ⟨stop, hexecuted, heval'⟩ := exists_executed hC hprogram V
      have hresults := congrArg Prod.fst (heval.symm.trans heval')
      dsimp only at hresults
      obtain ⟨r, env, hr⟩ : ∃ r env, execute program V.env = (r, env) := ⟨_, _, rfl⟩
      rw [hr] at hexecuted
      cases r with
      | error fault =>
        obtain ⟨_, ⟨⟨message, span, hanswer⟩, -, -⟩, -⟩ := hexecuted
        rw [answerOf, hanswer] at hresults
        cases hresults
      | ok values =>
        obtain ⟨hanswer, hvalues, -⟩ := hexecuted
        rw [answerOf, hanswer] at hresults
        rw [Except.ok.inj hresults, ← length_of_execute hr]
        exact List.length_map .. ▸ congrArg List.length hvalues
  · obtain ⟨j, k, e?, e, -, hj, -, hk, hhalts, he, hdocumented⟩ := hstops
    obtain ⟨q, hq, -⟩ := exists_broken hC D hhalts hfed hj hk he
    rw [eval_of_feedAll hq]
    exact hdocumented

/-- The number one. -/
def Expr.one : Expr :=
  .literal 1

/-- A variable is assigned one. -/
def assignOne : Statement :=
  .assign "x" .one

theorem writes_assignOne : assignOne.Writes [⟨.ident, ['x']⟩, Lexeme.assign.word, ⟨.number, ['1']⟩, Lexeme.semi.word] :=
  @Statement.Writes.assign ['x'] _ _ (.term (.factor (.literal rfl)))

theorem laid_assignOne {ws : List Word} {text : List Char} (h : Laid ws text) :
    Laid (⟨.ident, ['x']⟩ :: Lexeme.assign.word :: ⟨.number, ['1']⟩ :: Lexeme.semi.word :: ws) ('x' :: '=' :: '1' :: ';' :: text) :=
  .word .nil ⟨'x', [], rfl, rfl, nofun⟩ (by rintro c ⟨⟩; rfl) <| .sign .assign (by decide) .nil <|
    .word .nil ⟨List.cons_ne_nil _ [], List.forall_mem_singleton.2 rfl⟩ (by rintro c ⟨⟩; rfl) <| .sign .semi (by decide) .nil h

theorem renders_assignOne : Renders [assignOne] "x=1;" :=
  ⟨_, .cons writes_assignOne .nil, laid_assignOne (.done .nil)⟩

/-- A statement has a value. -/
theorem eval_documented_assignOne : ∃ C, Engine.new {} = .ok C ∧ ∃ results, (C.eval "x=1;" {}).1 = .ok results ∧
    results.length = 1 := by
  obtain ⟨g, T, hg, hb, hT, -⟩ := exists_conforms
  have hC := new_eq hg hb hT
  refine ⟨_, hC, ?_⟩
  obtain ⟨stop, ⟨hanswer, -, -⟩, heval⟩ := Engine.exists_executed hC renders_assignOne {}
  have hdocumented := Engine.eval_documented hC "x=1;" {}
  rw [heval, Engine.answerOf, hanswer] at hdocumented ⊢
  obtain ⟨q, -, -, -, -, hlength⟩ := hdocumented
  exact ⟨_, rfl, hlength _ renders_assignOne⟩

end PredictiveParser.Calculator
