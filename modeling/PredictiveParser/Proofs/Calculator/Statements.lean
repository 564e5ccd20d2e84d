import PredictiveParser.Proofs.Calculator.Descent

/-!
# Carrying out whatever comes

A machine before a statement carries it out up to its semicolon, and then nothing of it is left but its effect (`Carries`), or it
stops before there is one (`Halts`). Of any tokens, some are those of statements that are carried out one after another, and behind
them there is the end of the input, or the machine stops at a place from which on no semicolon is matched (`Spells.exists_done`).
-/

namespace PredictiveParser.Calculator

open Machine

variable {T : Tables} {V V' : Variables} {parts : List Part} {used ts : List Token} {t : Token} {v : Value} {n n' j : Nat}
  {e? : Option Error}

/-! ## Moving -/

theorem Token.map_move_map_move (ts : List Token) (g g' : Span → Span) :
    (ts.map (Token.move g)).map (Token.move g') = ts.map (Token.move (g' ∘ g)) := by
  rw [List.map_map]
  refine List.map_congr_left fun t _ => ?_
  rw [Function.comp_apply, move, move, move, Option.map_map]

theorem Error.move_move (e : Error) (g g' : Span → Span) : (e.move g).move g' = e.move (g' ∘ g) := by
  cases e with
  | parse e => cases e <;> simp only [move, ParseError.move, Option.map_map]
  | _ => simp only [move, Option.map_map]

theorem map_move_id (ts : List Token) : ts.map (Token.move id) = ts := by
  refine (List.map_congr_left fun t _ => ?_).trans (List.map_id ts)
  rw [Token.move, Option.map_id]
  rfl

theorem Error.move_id (e : Error) : e.move id = e := by
  cases e with
  | parse e => cases e <;> simp only [move, ParseError.move, Option.map_id_fun, id]
  | _ => simp only [move, Option.map_id_fun, id]

/-! ## Statements -/

/-- The machine leaves the value `v` for the parts, read from the tokens `used`, which stand anywhere, whatever comes behind
them. -/
def Yields (T : Tables) (V : Variables) (parts : List Part) (used : List Token) (v : Value) (n : Nat) : Prop :=
  ∀ (g : Span → Span) (s : State Token) (h : Evaluation) (rest : List Frame) (ts : List Token) (slots : Slot → Option Token)
    (last : Option Token) (m : Nat),
    Placed .whole s ⟨parts.map (frame T) ++ rest, used.map (Token.move g) ++ ts, slots, last, m⟩ → h.variables = V →
    ∃ s' slots' last', Gets T.program host n s h s' { h with values := v :: h.values } ∧ slots' .target = slots .target ∧
      Placed .whole s' ⟨rest, ts, slots', last', m + used.length⟩

/-- The machine carries out the parts of a statement with the value `v` from the tokens `used`, which stand anywhere, whatever comes
behind them. -/
def Carries (T : Tables) (V : Variables) (parts : List Part) (used : List Token) (v : Value) (V' : Variables) (n : Nat) : Prop :=
  ∀ (g : Span → Span) (s : State Token) (h : Evaluation) (rest : List Frame) (ts : List Token) (slots : Slot → Option Token)
    (last : Option Token) (m : Nat),
    Placed .whole s ⟨parts.map (frame T) ++ rest, used.map (Token.move g) ++ ts, slots, last, m⟩ → h.variables = V →
    ∃ s' slots' last', Gets T.program host n s h s' { h with «variables» := V', results := h.results.push v } ∧
      Placed .whole s' ⟨rest, ts, slots', last', m + used.length⟩

/-- The machine stops at the parts, with an error or for want of a token. It has matched `j` of the tokens, which stand anywhere. -/
def Halts (T : Tables) (V : Variables) (parts : List Part) (ts : List Token) (j n : Nat) (e? : Option Error) : Prop :=
  ∀ (g : Span → Span) (s : State Token) (h : Evaluation) (rest : List Frame) (slots : Slot → Option Token)
    (last : Option Token) (m : Nat),
    Placed .whole s ⟨parts.map (frame T) ++ rest, ts.map (Token.move g), slots, last, m⟩ → h.variables = V →
    ∃ stop, run T.program host n s h = some stop ∧ Breaks stop (e?.map (Error.move g)) V (m + j)

/-- A category is entered with the parts, within `k` steps, if the tokens begin in this way. -/
def Enters (T : Tables) (c : Category) (parts : List Part) (front : List Token) (k : Nat) : Prop :=
  ∀ (g : Span → Span) (s : State Token) (h : Evaluation) (rest : List Frame) (ts : List Token) (slots : Slot → Option Token)
    (last : Option Token) (m : Nat), front.map (Token.move g) <+: ts → Placed .whole s ⟨frame T c :: rest, ts, slots, last, m⟩ →
    ∃ s', Gets T.program host k s h s' h ∧
      Placed .whole s' ⟨parts.map (frame T) ++ .entered c.index false :: rest, ts, slots, last, m⟩

theorem Enters.entered (hT : Conforms T) {c : Category} {next : Option Lexeme} (hparts : parts ∈ c.rule? next)
    (ht : t.id = terminal next) : Enters T c parts [t] 2 := by
  rintro g s h rest _ slots last m ⟨ts, rfl⟩ hs
  exact hs.entered hT hparts ht

theorem Enters.decided (hT : Conforms T) {l : Lexeme} {u : Token} (hparts : parts ∈ l.statement?)
    (ht : t.id = Lexeme.ident.terminal) (hu : u.id = l.terminal) : Enters T .stat parts [t, u] 6 := by
  rintro g s h rest _ slots last m ⟨ts, rfl⟩ hs
  exact hs.decided hT hparts ht hu

/-- A category is left when its parts are carried out. -/
theorem Carries.of_enters {c : Category} {front : List Token} {k : Nat} (he : Enters T c parts front k) (hfront : front <+: used)
    (hc : Carries T V parts used v V' n) : Carries T V [c] used v V' (k + (n + 1)) := by
  intro g s h rest ts slots last m hs hV
  obtain ⟨s₁, hgo₁, hs₁⟩ := he g s h _ _ slots last m ((hfront.map _).trans (List.prefix_append ..)) hs
  obtain ⟨s₂, slots₂, last₂, hgo₂, hs₂⟩ := hc g s₁ h _ ts slots last m hs₁ hV
  obtain ⟨s₃, hgo₃, hs₃⟩ := hs₂.left (T := T)
  exact ⟨s₃, slots₂, last₂, hgo₁.trans (hgo₂.trans hgo₃), hs₃⟩

theorem Halts.of_enters {c : Category} {front : List Token} {k : Nat} (he : Enters T c parts front k) (hfront : front <+: ts)
    (hh : Halts T V parts ts j n e?) : Halts T V [c] ts j (k + n) e? := by
  intro g s h rest slots last m hs hV
  obtain ⟨s₁, hgo₁, hs₁⟩ := he g s h _ _ slots last m (hfront.map _) hs
  obtain ⟨stop, hrun, hbreaks⟩ := hh g s₁ h _ slots last m hs₁ hV
  exact ⟨stop, hgo₁ _ _ hrun, hbreaks⟩

/-- Parts behind those where the machine stops do not matter. -/
theorem Halts.append (hh : Halts T V parts ts j n e?) (parts' : List Part) : Halts T V (parts ++ parts') ts j n e? := by
  intro g s h rest slots last m hs hV
  rw [List.map_append, List.append_assoc] at hs
  exact hh g s h _ slots last m hs hV

/-- Wherever the tokens stand, the machine stops there. -/
theorem Halts.moved (hh : Halts T V parts ts j n e?) (g : Span → Span) :
    Halts T V parts (ts.map (Token.move g)) j n (e?.map (Error.move g)) := by
  intro g' s h rest slots last m hs hV
  rw [Token.map_move_map_move] at hs
  rw [Option.map_map, show Error.move g' ∘ Error.move g = Error.move (g' ∘ g) from funext fun e => e.move_move g g']
  exact hh (g' ∘ g) s h rest slots last m hs hV

/-- Where parts cannot be read, the machine stops. -/
theorem Reads.halts {rest : List Token} (hr : Reads T V none [] parts used rest.head? n (.error e?)) :
    Halts T V parts (used ++ rest) used.length n e? := by
  intro g s h frames slots last m hs hV
  rw [List.map_append] at hs
  exact hr g s h frames _ slots last m h.values (List.head?_map ..) nofun hs hV rfl

/-- Nothing that comes behind a lexeme matters for the parts before it. -/
theorem Reads.yields (hT : Conforms T) {l : Lexeme} (hr : Reads T V none [] parts used (some t) n (.ok [v]))
    (ht : t.id = l.terminal) : Yields T V (parts ++ [(l : Part)]) (used ++ [t]) v (n + 1) := by
  intro g s h rest ts slots last m hs hV
  rw [List.map_append, List.map_append, List.append_assoc, List.append_assoc] at hs
  obtain ⟨s₁, slots₁, hgo₁, hslots₁, hs₁⟩ := hr g s h _ _ slots last m h.values rfl nofun hs hV rfl
  obtain ⟨s₂, hgo₂, hs₂⟩ := hs₁.matched (h := { h with values := v :: h.values }) hT ht
  rw [List.length_append]
  exact ⟨s₂, slots₁, _, hgo₁.trans hgo₂, hslots₁, hs₂⟩

/-- The value is printed. -/
theorem Yields.prints (hT : Conforms T) (hy : Yields T V parts used v n) :
    Carries T V (parts ++ [(Op.print : Part)]) used v V (n + 1) := by
  intro g s h rest ts slots last m hs hV
  rw [List.map_append, List.append_assoc] at hs
  obtain ⟨s₁, slots₁, last₁, hgo₁, -, hs₁⟩ := hy g s h _ ts slots last m hs hV
  obtain ⟨s₂, hgo₂, hs₂⟩ := hs₁.acted hT (run_print (e := { h with values := v :: h.values }) rfl)
  subst hV
  exact ⟨s₂, slots₁, last₁, hgo₁.trans hgo₂, hs₂⟩

/-- The value is assigned. -/
theorem Yields.assigns (hT : Conforms T) {name : String} {t u : Token} (ht : t.id = Lexeme.ident.terminal)
    (hname : t.payload = .ident name) (hu : u.id = Lexeme.assign.terminal) (hy : Yields T V parts used v n) :
    Carries T V ([(Slot.target : Part), Lexeme.ident, Lexeme.assign] ++ parts ++ [(Op.assign : Part)]) (t :: u :: used) v
      (V.set name v) (3 + (n + 1)) := by
  intro g s h rest ts slots last m hs hV
  rw [List.append_assoc, List.map_append, List.append_assoc] at hs
  obtain ⟨s₁, hgo₁, hs₁⟩ := hs.captured (h := h) hT ht
  obtain ⟨s₂, hgo₂, hs₂⟩ := hs₁.matched (h := h) hT hu
  rw [List.map_append, List.append_assoc] at hs₂
  obtain ⟨s₃, slots₃, last₃, hgo₃, hslots₃, hs₃⟩ := hy g s₂ h _ ts _ _ _ hs₂ hV
  have hslot : (s₃.withStack rest).locator? Slot.target.index = some (t.move g) :=
    (hs₃.slot_eq .target).trans (hslots₃.trans (Function.update_self ..))
  obtain ⟨s₄, hgo₄, hs₄⟩ := hs₃.acted hT (run_assign (e := { h with values := v :: h.values }) rfl hslot hname)
  subst hV
  have hcount : m + (t :: u :: used).length = m + 1 + 1 + used.length := by
    rw [List.length_cons, List.length_cons]
    omega
  rw [hcount]
  exact ⟨s₄, slots₃, last₃, (hgo₁.trans hgo₂).trans (hgo₃.trans hgo₄), hs₄⟩

/-- Nothing is assigned if the machine stops before. -/
theorem Halts.assigning (hT : Conforms T) {t u : Token} (ht : t.id = Lexeme.ident.terminal)
    (hu : u.id = Lexeme.assign.terminal) (hh : Halts T V parts ts j n e?) :
    Halts T V ([(Slot.target : Part), Lexeme.ident, Lexeme.assign] ++ parts) (t :: u :: ts) (2 + j) (3 + n) e? := by
  intro g s h rest slots last m hs hV
  rw [List.map_append, List.append_assoc] at hs
  obtain ⟨s₁, hgo₁, hs₁⟩ := hs.captured (h := h) hT ht
  obtain ⟨s₂, hgo₂, hs₂⟩ := hs₁.matched (h := h) hT hu
  obtain ⟨stop, hrun, hbreaks⟩ := hh g s₂ h _ _ _ _ hs₂ hV
  rw [show m + (2 + j) = m + 1 + 1 + j by omega]
  exact ⟨stop, (hgo₁.trans hgo₂) _ _ hrun, hbreaks⟩

/-! ## Any words -/

/-- The machine stops at the parts before it matches a semicolon, with an error that says what is wrong, or for want of a token
behind all words. It takes 20 steps for each word, and `b` more. -/
def Stops (T : Tables) (V : Variables) (parts : List Part) (us : List Word) (ts : List Token) (b : Nat) : Prop :=
  ∃ j n e?, j ≤ us.length ∧ (∀ w ∈ us.take j, w.lexeme ≠ .semi) ∧ n ≤ 20 * j + b ∧ Halts T V parts ts j n e? ∧
    (∀ e ∈ e?, e.Documented) ∧ (e? = none → ts.length ≤ us.length)

/-- The machine carries out a statement from some of the words. -/
def Completes (T : Tables) (V : Variables) (us : List Word) (ts : List Token) : Prop :=
  ∃ (st : Statement) (ws us' : List Word) (used rest : List Token) (v : Value) (V' : Variables) (n : Nat), us = ws ++ us' ∧
    ts = used ++ rest ∧ ws.length = used.length ∧ st.Writes ws ∧ n ≤ 20 * used.length + 24 ∧
    Carries T V [Category.stat] used v V' n

variable {us : List Word} {b b' : Nat}

theorem Stops.of_enters {c : Category} {front : List Token} {k : Nat} (he : Enters T c parts front k) (hfront : front <+: ts)
    (hstops : Stops T V parts us ts b) (hle : k + b ≤ b') : Stops T V [c] us ts b' := by
  obtain ⟨j, n, e?, hj, hsemi, hn, hhalts, hend⟩ := hstops
  exact ⟨j, k + n, e?, hj, hsemi, by omega, hhalts.of_enters he hfront, hend⟩

theorem Stops.append (hstops : Stops T V parts us ts b) (parts' : List Part) : Stops T V (parts ++ parts') us ts b := by
  obtain ⟨j, n, e?, hj, hsemi, hn, hhalts, hend⟩ := hstops
  exact ⟨j, n, e?, hj, hsemi, hn, hhalts.append parts', hend⟩

/-- What is read of the words in front of a stop has no semicolon. -/
theorem Reads.stops {ws us' : List Word} {rest : List Token} (hr : Reads T V none [] parts used rest.head? n (.error e?))
    (hlength : ws.length = used.length) (hsemi : ∀ w ∈ ws, w.lexeme ≠ .semi) (hn : n ≤ 20 * used.length + b)
    (hdocumented : ∀ e ∈ e?, e.Documented) (hnil : e? = none → rest = []) :
    Stops T V parts (ws ++ us') (used ++ rest) b := by
  refine ⟨used.length, n, e?, ?_, ?_, hn, hr.halts, hdocumented, fun hnone => ?_⟩
  · rw [List.length_append, hlength]
    exact Nat.le_add_right ..
  · rwa [← hlength, List.take_left]
  · rw [hnil hnone, List.append_nil, List.length_append, hlength]
    exact Nat.le_add_right ..

/-- An expression is read with a semicolon behind it, or the machine stops before. -/
theorem Spells.closed (hT : Conforms T) (hR : Refuses T) (hs : Spells us ts) (V : Variables) :
    (∃ e ws us' used rest v n, us = ws ++ Lexeme.semi.word :: us' ∧ ts = used ++ rest ∧ used.length = ws.length + 1 ∧
      Writes .sum e ws ∧ n ≤ 20 * used.length ∧ Yields T V [Category.expr, Lexeme.semi] used v n) ∨
    Stops T V [Category.expr, Lexeme.semi] us ts 16 := by
  obtain ⟨ws, us', used, rest, n, r, rfl, rfl, hlength, hsemi, hn, hr, hend⟩ := (hs.determined hT hR).expr V none
  cases r with
  | error e? =>
    exact .inr (Reads.stops (hr.append_of_error [(Lexeme.semi : Part)]) hlength hsemi (by omega) hend.1 hend.2)
  | ok values =>
    obtain ⟨⟨v, rfl⟩, e, he⟩ := hend
    have hunread : ∀ {e? : Option Error}, Reads T V (used.getLast?.or none) [v] [Lexeme.semi] [] rest.head? 1 (.error e?) →
        Reads T V none [] [Category.expr, Lexeme.semi] used rest.head? (n + 1) (.error e?) := by
      intro e? hr'
      rw [← List.append_nil used]
      exact hr.append hr'
    have hs' := hs.of_append hlength
    cases rest with
    | nil => exact .inr ((hunread (.starved hT nofun nofun)).stops hlength hsemi (by omega) nofun fun _ => rfl)
    | cons t rest =>
      by_cases ht : t.id = Lexeme.semi.terminal
      · cases hs' with
        | stop hend => exact absurd (hend.symm.trans ht) (by decide)
        | @cons w _ us' _ hw _ hbare _ =>
          have hl : w.lexeme = .semi := Lexeme.terminal_injective ((congrArg Token.id hbare).symm.trans ht)
          obtain rfl := hw.eq_word hl (by decide) (by decide)
          refine .inl ⟨e, ws, us', used ++ [t], rest, v, n + 1, rfl, (List.append_assoc used [t] rest).symm, ?_, he, ?_,
            hr.yields hT ht⟩
          · rw [List.length_append, hlength, List.length_singleton]
          · rw [List.length_append, List.length_singleton]
            omega
      · have hmiss := hunread (.mismatched hT ht)
        exact .inr (hmiss.stops hlength hsemi (by omega) (by rintro _ ⟨⟩; trivial) nofun)

/-- What comes of a statement that is entered with the rule for printing. -/
theorem Spells.printed (hT : Conforms T) (hR : Refuses T) (hs : Spells us ts) (V : Variables) {front : List Token} {k : Nat}
    (he : Enters T .stat [Category.expr, Lexeme.semi, Op.print] front k) (hfront : front <+: ts) (hlength : front.length ≤ 2)
    (hk : k ≤ 6) : Completes T V us ts ∨ Stops T V [Category.stat] us ts 22 := by
  rcases hs.closed hT hR V with ⟨e, ws, us', used, rest, v, n, rfl, rfl, hused, hw, hn, hr⟩ | hstops
  · have hpos : 0 < ws.length := by
      obtain ⟨w, us, rfl, -⟩ := hw.exists_head
      exact Nat.succ_pos _
    have hfront' : front <+: used := List.prefix_of_prefix_length_le hfront (List.prefix_append ..) (by omega)
    refine .inl ⟨.print e, ws ++ [Lexeme.semi.word], us', used, rest, v, V, _, (List.append_assoc ws [_] us').symm, rfl, ?_,
      .print hw, ?_, (hr.prints hT).of_enters he hfront'⟩
    · rw [List.length_append, hused, List.length_singleton]
    · omega
  · exact .inr ((hstops.append [(Op.print : Part)]).of_enters he hfront (by omega))

/-- What comes of a statement that is an assignment. -/
theorem Spells.assigned (hT : Conforms T) (hR : Refuses T) (hs : Spells us ts) (V : Variables) {name : List Char} {t u : Token}
    (ht : t.bare = Word.token .standard ⟨.ident, name⟩) (hu : u.bare = Lexeme.assign.word.token .standard) :
    Completes T V (⟨.ident, name⟩ :: Lexeme.assign.word :: us) (t :: u :: ts) ∨
      Stops T V [Category.stat] (⟨.ident, name⟩ :: Lexeme.assign.word :: us) (t :: u :: ts) 22 := by
  have hrule : [(Slot.target : Part), Lexeme.ident, Lexeme.assign, Category.expr, Lexeme.semi, Op.assign] ∈
      Lexeme.assign.statement? := rfl
  have hid : t.id = Lexeme.ident.terminal := congrArg Token.id ht
  have hid' : u.id = Lexeme.assign.terminal := congrArg Token.id hu
  have he := Enters.decided hT hrule hid hid'
  rcases hs.closed hT hR V with ⟨e, ws, us', used, rest, v, n, rfl, rfl, hused, hw, hn, hr⟩ | hstops
  · have hname : t.payload = .ident (.ofList name) := congrArg Token.payload ht
    refine .inl ⟨.assign (.ofList name) e, _, us', t :: u :: used, rest, v, _, _, ?_, rfl, ?_, .assign hw, ?_,
      (hr.assigns hT hid hname hid').of_enters he (List.prefix_append [t, u] used)⟩
    · rw [List.cons_append, List.cons_append, List.append_assoc]
      rfl
    · rw [List.length_append, List.length_singleton, List.length_cons, List.length_cons, List.length_cons, List.length_cons, hused]
    · rw [List.length_cons, List.length_cons]
      omega
  · obtain ⟨j, n, e?, hj, hsemi, hn, hhalts, hdocumented, hnone⟩ := hstops
    have hh := ((hhalts.assigning hT hid hid').append [(Op.assign : Part)]).of_enters he (List.prefix_append [t, u] ts)
    refine .inr ⟨2 + j, _, e?, ?_, ?_, ?_, hh, hdocumented, fun h => ?_⟩
    · rw [List.length_cons, List.length_cons]
      omega
    · rw [Nat.add_comm 2 j]
      exact List.forall_mem_cons.2 ⟨nofun, List.forall_mem_cons.2 ⟨nofun, hsemi⟩⟩
    · omega
    · exact Nat.succ_le_succ (Nat.succ_le_succ (hnone h))

/-- **A statement is carried out, or the machine stops before its semicolon.** -/
theorem Spells.statement (hT : Conforms T) (hR : Refuses T) {w : Word} (hs : Spells (w :: us) ts) (V : Variables)
    (hb : w.lexeme.begins = true) : Completes T V (w :: us) ts ∨ Stops T V [Category.stat] (w :: us) ts 22 := by
  cases hs with
  | @cons _ t _ ts hw hfits ht hs' =>
    have hs : Spells (w :: us) (t :: ts) := .cons hw hfits ht hs'
    have hid : t.id = w.lexeme.terminal := congrArg Token.id ht
    by_cases hident : w.lexeme = .ident
    · obtain ⟨l, name⟩ := w
      obtain rfl : l = .ident := hident
      cases hnext : (us.head?.map Word.lexeme).bind Lexeme.statement? with
      | none =>
        obtain ⟨expected, hundecided⟩ := exists_undecided hT hR
        refine .inr ⟨0, 4, ts.head?.map (unexpected T expected), Nat.zero_le _, nofun, by decide, ?_, ?_, fun h => ?_⟩
        · intro g s h rest slots last m hp hV
          have hsecond : ∀ u ∈ (ts.map (Token.move g)).head?, ∃ next : Option Lexeme, u.id = terminal next ∧
              next.bind Lexeme.statement? = none := by
            rw [List.head?_map]
            intro u hu
            obtain ⟨x, hx, rfl⟩ := Option.map_eq_some_iff.1 hu
            exact ⟨_, hs'.head_id x hx, hnext⟩
          obtain ⟨stop, hrun, hbreaks⟩ := hundecided (h := h) hp hid hsecond
          refine ⟨stop, hrun, ?_⟩
          rw [List.head?_map, Option.map_map] at hbreaks
          rw [Option.map_map, ← hV]
          exact hbreaks
        · rintro _ he
          obtain ⟨u, -, rfl⟩ := Option.map_eq_some_iff.1 he
          trivial
        · rw [List.head?_eq_none_iff.1 (Option.map_eq_none_iff.1 h)]
          exact Nat.le_add_left ..
      | some parts =>
        cases hs' with
        | nil | stop => cases hnext
        | @cons w u us ts hw' hfits' hu hs'' =>
          have hparts : parts ∈ w.lexeme.statement? := hnext
          have hid' : u.id = w.lexeme.terminal := congrArg Token.id hu
          by_cases hassign : w.lexeme = .assign
          · rw [hw'.eq_word hassign (by decide) (by decide)] at hu ⊢
            exact hs''.assigned hT hR V ht hu
          · obtain rfl := Lexeme.eq_of_mem_statement? hparts hassign
            exact hs.printed hT hR V (.decided hT hparts hid hid') (List.prefix_append [t, u] ts) (Nat.le_refl 2) (Nat.le_refl 6)
    · exact hs.printed hT hR V (.entered hT (Lexeme.mem_rule_stat hb hident) hid) (List.prefix_append [t] ts)
        (Nat.le_succ 1) (by decide)

/-! ## Programs -/

/-- The marks that statements leave on the stack. -/
def marks (k : Nat) : List Frame :=
  (List.replicate k Category.program.index).map (.entered · false)

theorem marks_add (j k : Nat) (rest : List Frame) : marks j ++ (marks k ++ rest) = marks (k + j) ++ rest := by
  rw [marks, marks, marks, Nat.add_comm, List.replicate_add, List.map_append, List.append_assoc]

/-- The machine carries out statements with the values `vs` from the tokens `used`, which stand anywhere, whatever comes behind
them. -/
def Passes (T : Tables) (V : Variables) (used : List Token) (vs : List Value) (V' : Variables) (n : Nat) : Prop :=
  ∀ (g : Span → Span) (s : State Token) (h : Evaluation) (rest : List Frame) (ts : List Token) (slots : Slot → Option Token)
    (last : Option Token) (m : Nat),
    Placed .whole s ⟨frame T Category.program :: rest, used.map (Token.move g) ++ ts, slots, last, m⟩ → h.variables = V →
    ∃ s' slots' last', Gets T.program host n s h s' { h with «variables» := V', results := h.results ++ vs.toArray } ∧
      Placed .whole s' ⟨frame T Category.program :: (marks vs.length ++ rest), ts, slots', last', m + used.length⟩

namespace Passes

theorem nil : Passes T V [] [] V 0 := by
  intro g s h rest ts slots last m hs hV
  subst hV
  exact ⟨s, slots, last, .refl s h, hs⟩

/-- A statement is carried out. -/
theorem single (hT : Conforms T) {l : Lexeme} (ht : t.id = l.terminal) (hb : l.begins = true)
    (hc : Carries T V [Category.stat] (t :: used) v V' n) : Passes T V (t :: used) [v] V' (2 + n) := by
  intro g s h rest ts slots last m hs hV
  obtain ⟨s₁, hgo₁, hs₁⟩ := hs.entered (h := h) hT (Lexeme.mem_rules hb).2.2 ht
  obtain ⟨s₂, slots₂, last₂, hgo₂, hs₂⟩ := hc g s₁ h _ ts slots last m hs₁ hV
  have hresults : h.results.push v = h.results ++ [v].toArray := Array.push_eq_append
  rw [hresults] at hgo₂
  exact ⟨s₂, slots₂, last₂, hgo₁.trans hgo₂, hs₂⟩

/-- Statements are carried out one after another. -/
theorem append {used' : List Token} {vs vs' : List Value} {V₁ : Variables} (hp : Passes T V used vs V₁ n)
    (hp' : Passes T V₁ used' vs' V' n') : Passes T V (used ++ used') (vs ++ vs') V' (n + n') := by
  intro g s h rest ts slots last m hs hV
  rw [List.map_append, List.append_assoc] at hs
  obtain ⟨s₁, slots₁, last₁, hgo₁, hs₁⟩ := hp g s h rest _ slots last m hs hV
  obtain ⟨s₂, slots₂, last₂, hgo₂, hs₂⟩ := hp' g s₁ { h with «variables» := V₁, results := h.results ++ vs.toArray } _ ts slots₁
    last₁ _ hs₁ rfl
  have hresults : h.results ++ vs.toArray ++ vs'.toArray = h.results ++ (vs ++ vs').toArray := by
    rw [Array.append_assoc]
    exact congrArg (h.results ++ ·) (List.append_toArray vs vs')
  rw [marks_add, ← List.length_append, Nat.add_assoc, ← List.length_append] at hs₂
  dsimp only at hgo₂
  rw [hresults] at hgo₂
  exact ⟨s₂, slots₂, last₂, hgo₁.trans hgo₂, hs₂⟩

/-- The tokens may stand somewhere else. -/
theorem moved {vs : List Value} (hp : Passes T V used vs V' n) (g : Span → Span) :
    Passes T V (used.map (Token.move g)) vs V' n := by
  intro g' s h rest ts slots last m hs hV
  rw [Token.map_move_map_move] at hs
  rw [List.length_map]
  exact hp (g' ∘ g) s h rest ts slots last m hs hV

end Passes

/-- Every statement takes a word. -/
theorem WritesAll.length_le {program : List Statement} {ws : List Word} (hw : WritesAll program ws) :
    program.length ≤ ws.length := by
  induction hw with
  | nil => exact Nat.le_refl 0
  | cons hw _ ih =>
    obtain ⟨w, us, rfl, -⟩ := hw.exists_head
    rw [List.length_append, List.length_cons, List.length_cons]
    omega

theorem WritesAll.append {program program' : List Statement} {ws us : List Word} (hw : WritesAll program ws)
    (hu : WritesAll program' us) : WritesAll (program ++ program') (ws ++ us) := by
  induction hw with
  | nil => exact hu
  | cons hw _ ih =>
    rw [List.append_assoc]
    exact .cons hw ih

/-- The statements that these words are written as are carried out from these tokens. -/
structure Done (T : Tables) (V : Variables) (ws : List Word) (used : List Token) where
  program : List Statement
  values : List Value
  /-- The variables behind the statements. -/
  after : Variables
  steps : Nat
  length_words : ws.length = used.length
  length_values : values.length = program.length
  writes : WritesAll program ws
  passes : Passes T V used values after steps
  steps_le : steps ≤ 46 * used.length

namespace Done

/-- There are no statements. -/
def nil : Done T V [] [] where
  program := []
  values := []
  after := V
  steps := 0
  length_words := rfl
  length_values := rfl
  writes := .nil
  passes := .nil
  steps_le := Nat.zero_le _

/-- Statements are carried out one after another. -/
def append {ws us : List Word} {used used' : List Token} (D : Done T V ws used) (D' : Done T D.after us used') :
    Done T V (ws ++ us) (used ++ used') where
  program := D.program ++ D'.program
  values := D.values ++ D'.values
  after := D'.after
  steps := D.steps + D'.steps
  length_words := by rw [List.length_append, List.length_append, D.length_words, D'.length_words]
  length_values := by rw [List.length_append, List.length_append, D.length_values, D'.length_values]
  writes := WritesAll.append D.writes D'.writes
  passes := D.passes.append D'.passes
  steps_le := by
    have := D.steps_le
    have := D'.steps_le
    rw [List.length_append]
    omega

/-- The tokens may stand somewhere else. -/
def moved {ws : List Word} (D : Done T V ws used) (g : Span → Span) : Done T V ws (used.map (Token.move g)) where
  program := D.program
  values := D.values
  after := D.after
  steps := D.steps
  length_words := by rw [List.length_map, D.length_words]
  length_values := D.length_values
  writes := D.writes
  passes := D.passes.moved g
  steps_le := by
    rw [List.length_map]
    exact D.steps_le

end Done

/-- **Of any words, some are those of statements that are carried out.** Behind them there is the end of the input, or the machine
stops before another semicolon. -/
theorem Spells.exists_done (hT : Conforms T) (hR : Refuses T) (hs : Spells us ts) (V : Variables) :
    ∃ ws us' used rest, ∃ D : Done T V ws used, us = ws ++ us' ∧ ts = used ++ rest ∧
      ((us' = [] ∧ ∃ t, rest = [t] ∧ t.id = endToken) ∨ Stops T D.after [Category.program] us' rest 24) := by
  induction hlength : us.length using Nat.strong_induction_on generalizing us ts V with
  | _ k ih =>
    subst hlength
    cases hs with
    | nil =>
      have hr : Reads T V none [] [Category.program] [] ([] : List Token).head? 1 (.error none) := .starved hT nofun nofun
      exact ⟨[], [], [], [], .nil, rfl, rfl,
        .inr ⟨0, 1, none, Nat.zero_le _, nofun, by decide, hr.halts, nofun, fun _ => Nat.le_refl 0⟩⟩
    | @stop t ht => exact ⟨[], [], [], [t], .nil, rfl, rfl, .inl ⟨rfl, t, rfl, ht⟩⟩
    | @cons w t us ts hw hfits ht hs' =>
      have hs : Spells (w :: us) (t :: ts) := .cons hw hfits ht hs'
      have hid : t.id = w.lexeme.terminal := congrArg Token.id ht
      by_cases hb : w.lexeme.begins = true
      · rcases hs.statement hT hR V hb with ⟨st, ws, us', used, rest, v, V', n, hus, hts, hlength, hst, hn, hcarries⟩ | hstops
        · obtain ⟨x, ws, rfl, -⟩ := hst.exists_head
          obtain ⟨y, used, rfl⟩ := List.exists_cons_of_length_eq_add_one hlength.symm
          obtain ⟨rfl, rfl⟩ := List.cons.inj hus
          obtain ⟨rfl, rfl⟩ := List.cons.inj hts
          let D : Done T V (w :: ws) (t :: used) :=
            { program := [st], values := [v], after := V', steps := 2 + n, length_words := hlength, length_values := rfl
              writes := by
                rw [← List.append_nil (w :: ws)]
                exact .cons hst .nil
              passes := .single hT hid hb hcarries
              steps_le := by
                rw [List.length_cons] at hn ⊢
                omega }
          have hlt : us'.length < (w :: (ws ++ us')).length := by
            rw [List.length_cons, List.length_append]
            omega
          have hs : Spells (w :: ws ++ us') (t :: used ++ rest) := hs
          obtain ⟨ws', us'', used', rest', D', rfl, rfl, hend⟩ := ih _ hlt (hs.of_append hlength) V' rfl
          exact ⟨w :: ws ++ ws', us'', t :: used ++ used', rest', D.append D', (List.append_assoc (w :: ws) ws' us'').symm,
            (List.append_assoc (t :: used) used' rest').symm, hend⟩
        · exact ⟨[], w :: us, [], t :: ts, .nil, rfl, rfl, .inr ((hstops.append [(Category.program : Part)]).of_enters
            (.entered hT (Lexeme.mem_rules hb).2.2 hid) (List.prefix_append [t] ts) (Nat.le_refl 24))⟩
      · have hrule : Category.program.rule? (some w.lexeme) = none := if_neg hb
        have hlookup := hR.rule .program _ hrule fun h => nomatch h.1
        rw [Calculator.terminal, ← hid] at hlookup
        have hr : Reads T V none [] [Category.program] [] (t :: ts).head? 1 (.error _) := .refused hT hlookup
        exact ⟨[], w :: us, [], t :: ts, .nil, rfl, rfl,
          .inr ⟨0, 1, _, Nat.zero_le _, nofun, by decide, hr.halts, by rintro _ ⟨⟩; trivial, nofun⟩⟩

end PredictiveParser.Calculator
