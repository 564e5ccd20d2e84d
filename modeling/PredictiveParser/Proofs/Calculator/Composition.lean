import PredictiveParser.Proofs.Calculator.Outcomes

/-!
# Evaluating parts of a source

Nothing but the variables is left of a statement when the next one begins. What an evaluation that fails leaves behind is therefore
what the evaluation of a beginning of the source leaves, the one up to the last semicolon that was matched
(`Engine.exists_cut_of_error`), and a source may be cut behind the lines of an evaluation that succeeds (`Engine.eval_append`).
-/

namespace PredictiveParser.Calculator

open Machine

variable {C : Engine} {limits : Limits} {V V' : Variables} {source p p' : String} {m m' : Nat} {ws : List Word}
  {rs rs' : List (Except Error Lexed)} {A : Alphabet}

/-! ## Cutting a source behind a semicolon -/

/-- The text `p` is the beginning of the source up to a semicolon, or it is empty. It has `m` pieces that are not passed over. -/
def Cut (source p : String) (m : Nat) : Prop :=
  ∃ ps qs, pieces ⟨0, 0⟩ source.toList = ps ++ qs ∧ p.toList = ps.flatMap (·.text) ∧ m = ps.countP (·.kind ≠ .blank) ∧
    ∀ x ∈ ps.getLast?, x.kind = .lexeme .semi

theorem length_filterMap_lexPiece? (A : Alphabet) (ps : List Piece) :
    (ps.filterMap (lexPiece? A)).length = ps.countP (·.kind ≠ .blank) := by
  rw [List.length_filterMap_eq_countP]
  refine List.countP_congr fun x _ => ?_
  obtain ⟨k, text, span⟩ := x
  cases k <;> simp [lexPiece?]

namespace Cut

theorem isPrefix (h : Cut source p m) : p.toList <+: source.toList := by
  obtain ⟨ps, qs, hpieces, hp, -⟩ := h
  rw [← text_pieces ⟨0, 0⟩ source.toList, hpieces, hp, List.flatMap_append]
  exact List.prefix_append ..

/-- Cutting a source behind fewer pieces gives a text that is not longer. -/
theorem length_le (h : Cut source p m) (h' : Cut source p' m') (hle : m' ≤ m) : p'.length ≤ p.length := by
  obtain ⟨ps, qs, hpieces, hp, rfl, -⟩ := h
  obtain ⟨ps', qs', hpieces', hp', rfl, hlast⟩ := h'
  rw [← String.length_toList, ← String.length_toList, hp, hp']
  have hprefix : ps' <+: ps := by
    rcases List.prefix_or_prefix_of_prefix ⟨qs', hpieces'.symm⟩ ⟨qs, hpieces.symm⟩ with hprefix | ⟨ts, rfl⟩
    · exact hprefix
    · rcases List.eq_nil_or_concat' ts with rfl | ⟨ts, x, rfl⟩
      · rw [List.append_nil]
      · -- the semicolon at the end is one more piece
        rw [← List.append_assoc] at hlast hle
        have hx : decide (x.kind ≠ .blank) = true := by
          rw [hlast x List.getLast?_concat]
          rfl
        rw [List.countP_append, List.countP_append, List.countP_singleton, if_pos hx] at hle
        omega
  obtain ⟨ts, rfl⟩ := hprefix
  rw [List.flatMap_append, List.length_append]
  exact Nat.le_add_right ..

/-- The last piece is read as a semicolon. -/
theorem exists_getElem? (h : Cut source p (m + 1)) (A : Alphabet) :
    ∃ l : Lexed, (lex A source)[m]? = some (.ok l) ∧ l.lexeme = .semi := by
  obtain ⟨ps, qs, hpieces, -, hm, hlast⟩ := h
  rcases List.eq_nil_or_concat' ps with rfl | ⟨ps, ⟨k, text, span⟩, rfl⟩
  · cases hm
  · obtain rfl : k = .lexeme .semi := hlast _ List.getLast?_concat
    have hlength : m = (ps.filterMap (lexPiece? A)).length := by
      rw [List.countP_append] at hm
      rw [length_filterMap_lexPiece?]
      exact Nat.succ.inj hm
    rw [lex, hpieces, List.filterMap_append, List.filterMap_append, List.append_assoc, hlength,
      List.getElem?_append_right (Nat.le_refl _), Nat.sub_self]
    exact ⟨_, rfl, rfl⟩

/-- Behind the words `ws`, the source cannot be cut before the next semicolon. -/
theorem le_length_of_words {us : List Word} {j : Nat} (h : Cut source p m) (hwords : wordsOf (lex A source) = ws ++ us)
    (hj : j ≤ us.length) (hsemi : ∀ w ∈ us.take j, w.lexeme ≠ .semi) (hm : m ≤ ws.length + j) : m ≤ ws.length := by
  refine Nat.le_of_not_lt fun hlt => ?_
  obtain ⟨m, rfl⟩ : ∃ k, m = k + 1 := ⟨m - 1, by omega⟩
  obtain ⟨l, hl, hlexeme⟩ := h.exists_getElem? A
  have hlength : m < (wordsOf (lex A source)).length := by
    rw [hwords, List.length_append]
    omega
  have hword := getElem?_wordsOf hl hlength
  rw [hwords, List.getElem?_append_right (Nat.le_of_lt_succ hlt)] at hword
  have hmem : ⟨l.lexeme, l.text.toList⟩ ∈ us.take j := by
    refine List.mem_of_getElem? (i := m - ws.length) ?_
    rw [List.getElem?_take_of_lt (by omega), hword]
  exact hsemi _ hmem hlexeme

end Cut

/-- A source can be cut behind any semicolon. -/
theorem exists_cut (h : lex A source = rs ++ rs') (hlast : ∀ r ∈ rs.getLast?, ∃ l : Lexed, r = .ok l ∧ l.lexeme = .semi) :
    ∃ p, Cut source p rs.length ∧ lex A p = rs := by
  have hcut : ∃ ps qs, pieces ⟨0, 0⟩ source.toList = ps ++ qs ∧ ps.filterMap (lexPiece? A) = rs ∧
      ∀ x ∈ ps.getLast?, x.kind = .lexeme .semi := by
    rcases List.eq_nil_or_concat' rs with rfl | ⟨rs, r, rfl⟩
    · exact ⟨[], _, rfl, rfl, nofun⟩
    · obtain ⟨l, rfl, hl⟩ := hlast r List.getLast?_concat
      rw [List.append_assoc] at h
      obtain ⟨ps, xs, hpieces, hps, hxs⟩ := List.filterMap_eq_append_iff.1 h
      obtain ⟨bs, x, qs, rfl, hbs, hx, -⟩ := List.filterMap_eq_cons_iff.1 hxs
      refine ⟨ps ++ bs ++ [x], qs, ?_, ?_, ?_⟩
      · rw [hpieces, List.append_assoc, List.append_assoc]
        rfl
      · rw [List.filterMap_append, List.filterMap_append, hps, List.filterMap_eq_nil_iff.2 hbs, List.append_nil,
          List.filterMap_cons_some hx]
        rfl
      · rw [List.getLast?_concat]
        rintro _ ⟨⟩
        rw [(eq_of_lexPiece? hx).1, hl]
  obtain ⟨ps, qs, hpieces, rfl, hsemi⟩ := hcut
  refine ⟨.ofList (ps.flatMap (·.text)), ⟨ps, qs, hpieces, String.toList_ofList, length_filterMap_lexPiece? A ps, hsemi⟩, ?_⟩
  rw [lex, String.toList_ofList, pieces_of_append hpieces]

/-! ## Statements in front of an error -/

/-- The last word of a program is a semicolon. -/
theorem WritesAll.lexeme_getLast? {program : List Statement} (hw : WritesAll program ws) :
    ∀ w ∈ ws.getLast?, w.lexeme = .semi := by
  induction hw with
  | nil => exact nofun
  | @cons st rest ws us hw hrest ih =>
    intro w hmem
    rw [List.getLast?_append] at hmem
    cases hlast : us.getLast? with
    | some x =>
      rw [hlast] at hmem
      cases hmem
      exact ih w hlast
    | none =>
      rw [hlast, Option.none_or] at hmem
      cases hw with
      | assign hw | print hw =>
        rw [List.getLast?_concat] at hmem
        cases hmem
        rfl

namespace Engine

/-- The source is cut behind the statements that are carried out, which succeed without what comes behind them. -/
theorem exists_cut_of_done (hC : Engine.new limits = .ok C) {us : List Word} {used rest : List Token} (D : Done C.tables V ws used)
    (hwords : wordsOf (lex C.alphabet source) = ws ++ us) (hfed : fed (endSpan source) (lex C.alphabet source) = used ++ rest)
    (hused : ∀ t ∈ used, t.id ≠ endToken) :
    ∃ p, Cut source p used.length ∧ Renders D.program p ∧ C.eval p V = (.ok D.values, D.after) := by
  obtain ⟨rs, rs', hlex, hlength, hunread, hfront⟩ := exists_append_of_fed hfed hused
  obtain ⟨-, hsplit, hrs⟩ := append_of_unread?_eq_none hunread rs'
  rw [← hlex, hwords] at hsplit
  obtain ⟨rfl, -⟩ := List.append_inj hsplit (D.length_words.trans (hlength.symm.trans hrs.symm))
  have hlast : ∀ r ∈ rs.getLast?, ∃ l : Lexed, r = .ok l ∧ l.lexeme = .semi := by
    intro r hr
    obtain ⟨l, rfl, hl⟩ := exists_getLast?_wordsOf hunread r hr
    exact ⟨l, rfl, D.writes.lexeme_getLast? _ hl⟩
  obtain ⟨p, hcut, hp⟩ := exists_cut hlex hlast
  have hfed' : fed (endSpan p) (lex C.alphabet p) = used ++ [endTokenAt (endSpan p)] := by
    rw [hp, ← List.append_nil rs, hfront]
    rfl
  obtain ⟨q, hq, hhost⟩ := exists_accepted hC D rfl hfed'
  refine ⟨p, hlength ▸ hcut, ⟨_, D.writes, laid_of_accepted hC (congrArg wordsOf hp) hfed' rfl⟩, ?_⟩
  rw [eval_of_feedAll hq, hhost]
  rfl

/-- **An evaluation that fails keeps exactly the statements that it completed.** Among the beginnings of the source up to a
semicolon that was matched, the longest one is a text of a program, and its evaluation leaves the same variables. -/
theorem exists_cut_of_error (hC : Engine.new limits = .ok C) {e : Error} (h : C.eval source V = (.error e, V')) :
    ∃ q p m, C.feedAll (stepBound source) (endSpan source) (lex C.alphabet source) (C.begin V) = some (.error e, q) ∧
      p.toList <+: source.toList ∧ Cut source p m ∧ m ≤ q.state.stats.matched ∧ (∃ program, Renders program p) ∧
      (∃ results, C.eval p V = (.ok results, V')) ∧
      ∀ p' m', Cut source p' m' → m' ≤ q.state.stats.matched → p'.length ≤ p.length := by
  obtain ⟨ws, us, used, rest, D, hwords, hfed, hused, ⟨rfl, t, rfl, ht⟩ | hstops⟩ := exists_done hC source V
  · obtain ⟨q, hq, -⟩ := exists_accepted hC D ht hfed
    rw [eval_of_feedAll hq] at h
    cases h
  · obtain ⟨j, k, e?, e', hj, hjrest, hsemi, hk, hhalts, he, -⟩ := hstops
    obtain ⟨q, hq, hvariables, hcount⟩ := exists_broken hC D hhalts hfed hjrest hk he
    rw [eval_of_feedAll hq] at h
    cases h
    obtain ⟨p, hcut, hrenders, heval⟩ := exists_cut_of_done hC D hwords hfed hused
    rw [hvariables]
    refine ⟨q, p, used.length, hq, hcut.isPrefix, hcut, ?_, ⟨_, hrenders⟩, ⟨_, heval⟩, fun p' m' hcut' hm' => ?_⟩
    · rw [hcount]
      exact Nat.le_add_right ..
    · rw [hcount, ← D.length_words] at hm'
      exact hcut.length_le hcut' (D.length_words ▸ hcut'.le_length_of_words hwords hj hsemi hm')

end Engine

/-- One is divided by zero. -/
def printQuotient : Statement :=
  .print (.binary .div .one (.literal ⟨0, by decide⟩))

theorem writes_printQuotient : printQuotient.Writes [⟨.number, ['1']⟩, Lexeme.slash.word, ⟨.number, ['0']⟩, Lexeme.semi.word] :=
  .print (.term (.product rfl (.factor (.literal rfl)) (.literal rfl)))

theorem laid_printQuotient :
    Laid [⟨.number, ['1']⟩, Lexeme.slash.word, ⟨.number, ['0']⟩, Lexeme.semi.word] ['1', '/', '0', ';'] :=
  .word .nil ⟨List.cons_ne_nil _ [], List.forall_mem_singleton.2 rfl⟩ (by rintro c ⟨⟩; rfl) <| .sign .slash (by decide) .nil <|
    .word .nil ⟨List.cons_ne_nil _ [], List.forall_mem_singleton.2 rfl⟩ (by rintro c ⟨⟩; rfl) <| .sign .semi (by decide) .nil <|
    .done .nil

/-- An assignment is kept in front of a division by zero. -/
theorem exists_cut_printQuotient : ∃ C, Engine.new {} = .ok C ∧ ∃ e V', C.eval "x=1;1/0;" {} = (.error e, V') ∧
    V'.env = [("x", 1)] ∧ ∃ p results, p.toList <+: "x=1;1/0;".toList ∧ C.eval p {} = (.ok results, V') := by
  obtain ⟨g, T, hg, hb, hT, -⟩ := exists_conforms
  have hC := new_eq hg hb hT
  refine ⟨_, hC, ?_⟩
  have hrenders : Renders [assignOne, printQuotient] "x=1;1/0;" :=
    ⟨_, .cons writes_assignOne (.cons writes_printQuotient .nil), laid_assignOne laid_printQuotient⟩
  obtain ⟨stop, ⟨V', ⟨⟨message, span, hanswer⟩, -, hvariables⟩, henv⟩, heval⟩ := Engine.exists_executed hC hrenders {}
  rw [Engine.answerOf, hanswer, hvariables] at heval
  obtain ⟨q, p, m, -, hprefix, -, -, -, ⟨results, hresults⟩, -⟩ := Engine.exists_cut_of_error hC heval
  exact ⟨_, V', heval, henv, p, results, hprefix, hresults⟩

/-! ## Sources one after another -/

theorem toList_append_newline (a b : String) : (a ++ "\n" ++ b).toList = a.toList ++ '\n' :: b.toList := by
  rw [String.toList_append, String.toList_append, List.append_assoc]
  rfl

/-- Behind the lines of a source, another one has the same lexemes, further down. -/
theorem lex_append (A : Alphabet) (a b : String) :
    lex A (a ++ "\n" ++ b) = lex A a ++ (lex A b).map (moveLexed (Span.down (a.toList.count '\n' + 1))) := by
  refine (congrArg (lexAt A ⟨0, 0⟩) (toList_append_newline a b)).trans ((lexAt_append ..).trans ?_)
  rw [positionAfter_newline, lexAt_down]
  rfl

theorem endSpan_append (a b : String) : endSpan (a ++ "\n" ++ b) = Span.down (a.toList.count '\n' + 1) (endSpan b) := by
  have hposition : positionAfter ⟨0, 0⟩ (a ++ "\n" ++ b).toList =
      (positionAfter ⟨0, 0⟩ b.toList).down (a.toList.count '\n' + 1) := by
    rw [← positionAfter_down, ← positionAfter_newline, toList_append_newline, List.append_cons]
    exact List.foldl_append ..
  exact congrArg Span.point hposition

/-- Behind the lines of a source without an error, the tokens of another one are fed, further down. -/
theorem fed_lex_append {a : String} {used : List Token} {t : Token} (hfed : Engine.fed (endSpan a) (lex A a) = used ++ [t])
    (hunread : Engine.unread? (lex A a) = none) (b : String) :
    Engine.fed (endSpan (a ++ "\n" ++ b)) (lex A (a ++ "\n" ++ b)) =
      used ++ (Engine.fed (endSpan b) (lex A b)).map (Token.move (Span.down (a.toList.count '\n' + 1))) := by
  obtain ⟨ts, hts⟩ := exists_fed_append hunread
  have hused := hts (endSpan a) []
  rw [List.append_nil, hfed] at hused
  rw [lex_append, endSpan_append, hts, fed_map, (List.append_inj' hused rfl).1]

/-- **Evaluating one source after another is evaluating the lines of both.** The spans of an error in the second one are further
down then. -/
theorem Engine.eval_append (hC : Engine.new limits = .ok C) {a : String} {ra : List Value} (ha : C.eval a V = (.ok ra, V'))
    (b : String) : C.eval (a ++ "\n" ++ b) V =
      match C.eval b V' with
      | (.ok rb, Vb) => (.ok (ra ++ rb), Vb)
      | (.error e, Vb) => (.error (e.move (Span.down (a.toList.count '\n' + 1))), Vb) := by
  obtain ⟨ws, us, used, rest, D, hwords, hfed, hused, ⟨rfl, t, rfl, ht⟩ | hstops⟩ := exists_done hC a V
  · obtain ⟨q, hq, hhost⟩ := exists_accepted hC D ht hfed
    rw [eval_of_feedAll hq, hhost] at ha
    cases ha
    have hunread := unread?_of_accepted hC hfed ht
    let g := Span.down (a.toList.count '\n' + 1)
    have hfed' := fed_lex_append hfed hunread b
    obtain ⟨ws', us', used', rest', D', -, hfedb, -, ⟨rfl, t', rfl, ht'⟩ | hstops⟩ := exists_done hC b D.after
    · obtain ⟨q', hq', hhost'⟩ := exists_accepted hC D' ht' hfedb
      rw [hfedb, List.map_append, ← List.append_assoc] at hfed'
      obtain ⟨q'', hq'', hhost''⟩ := exists_accepted hC (D.append (D'.moved g)) (t := t'.move g) ht' hfed'
      rw [eval_of_feedAll hq', eval_of_feedAll hq'', hhost', hhost'']
      rfl
    · obtain ⟨j, k, e?, e, -, hj, -, hk, hhalts, he, -⟩ := hstops
      obtain ⟨q', hq', hvariables, -⟩ := exists_broken hC D' hhalts hfedb hj hk he
      rw [hfedb, List.map_append, ← List.append_assoc] at hfed'
      have he' : (e?.map (Error.move g)).or (unread? (lex C.alphabet (a ++ "\n" ++ b))) = some (e.move g) := by
        rw [lex_append, (append_of_unread?_eq_none hunread _).1, unread?_map, ← Option.map_or, he]
        rfl
      obtain ⟨q'', hq'', hvariables', -⟩ :=
        exists_broken hC (D.append (D'.moved g)) (hhalts.moved g) hfed' (by rwa [List.length_map]) hk he'
      rw [eval_of_feedAll hq', eval_of_feedAll hq'', hvariables, hvariables']
      rfl
  · obtain ⟨j, k, e?, e, -, hj, -, hk, hhalts, he, -⟩ := hstops
    obtain ⟨q, hq, -⟩ := exists_broken hC D hhalts hfed hj hk he
    rw [eval_of_feedAll hq] at ha
    cases ha

/-- An error behind an assignment is one line further down. -/
theorem eval_append_printQuotient : ∃ C, Engine.new {} = .ok C ∧ ∃ ra V', C.eval "x=1;" {} = (.ok ra, V') ∧ ∃ e Vb,
    C.eval "1/0;" V' = (.error e, Vb) ∧ C.eval "x=1;\n1/0;" {} = (.error (e.move (Span.down 1)), Vb) := by
  obtain ⟨g, T, hg, hb, hT, -⟩ := exists_conforms
  have hC := new_eq hg hb hT
  refine ⟨_, hC, ?_⟩
  obtain ⟨stop, ⟨hanswer, -, -⟩, ha⟩ := Engine.exists_executed hC renders_assignOne {}
  rw [Engine.answerOf, hanswer] at ha
  have hrenders : Renders [printQuotient] "1/0;" := ⟨_, .cons writes_printQuotient .nil, laid_printQuotient⟩
  obtain ⟨stop', ⟨Vb, ⟨⟨message, span, hanswer'⟩, -, -⟩, -⟩, hb⟩ := Engine.exists_executed hC hrenders stop.host.variables
  rw [Engine.answerOf, hanswer'] at hb
  have hboth := Engine.eval_append hC ha "1/0;"
  rw [hb] at hboth
  exact ⟨_, _, ha, _, _, hb, hboth⟩

end PredictiveParser.Calculator
