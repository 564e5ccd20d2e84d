import PredictiveParser.Proofs.Calculator.Evaluation

/-!
# Reading whatever comes

Programs need not be well-formed. A machine before a category either reads it, and then the words that it read are a piece of an
expression, or it stops with an error that says what is wrong, or it runs out of tokens (`Spells.determined`). What it does depends
on the variables, the words and the tokens behind them, but not on where they stand: moving their spans moves those of the error
and changes nothing else (`Reads`).
-/

namespace PredictiveParser

/-- The error, with its span moved. -/
def ParseError.move (g : Span → Span) : ParseError → ParseError
  | unexpectedToken found expected span => unexpectedToken found expected (span.map g)
  | noViableAlternative symbol found span => noViableAlternative symbol found (span.map g)
  | semantic message span => semantic message (span.map g)
  | notStarted => notStarted
  | finished => finished

namespace Calculator

open Machine

/-- The token, with its span moved. -/
def Token.move (g : Span → Span) (t : Token) : Token :=
  { t with span := t.span.map g }

namespace Error

/-- The error, with its span moved. -/
def move (g : Span → Span) : Error → Error
  | grammar e => grammar e
  | parse e => parse (e.move g)
  | literal e => literal e
  | unrecognized text span => unrecognized text (span.map g)
  | undefinedVariable name span => undefinedVariable name (span.map g)
  | divisionByZero span => divisionByZero (span.map g)
  | overflow span => overflow (span.map g)
  | internal reason => internal reason

/-- The error says what is wrong with a program. -/
def Documented : Error → Prop
  | parse (.unexpectedToken ..) | literal _ | unrecognized .. | undefinedVariable .. | divisionByZero _ | overflow _ => True
  | _ => False

end Error

variable {T : Tables} {V : Variables} {last : Option Token} {pre values : List Value} {parts parts' : List Part}
  {used used' ts : List Token} {next next' : Option Token} {n n' : Nat} {r : Except (Option Error) (List Value)}

/-! ## Reading parts of rules -/

/-- With the values `pre` on top, the machine reads the parts from the tokens `used` in front of `next` within `n` steps. It puts
other values in the place of `pre`, or stops with an error or for want of a token. The tokens may stand anywhere, and may be
followed by any others behind `next`; the last one before them is `last`, or any if there is none. -/
def Reads (T : Tables) (V : Variables) (last : Option Token) (pre : List Value) (parts : List Part) (used : List Token)
    (next : Option Token) (n : Nat) (r : Except (Option Error) (List Value)) : Prop :=
  ∀ (g : Span → Span) (s : State Token) (h : Evaluation) (rest : List Frame) (ts : List Token) (slots : Slot → Option Token)
    (before : Option Token) (m : Nat) (vs : List Value),
    ts.head? = next.map (Token.move g) → (∀ t ∈ last, before = some (t.move g)) →
    Placed .whole s ⟨parts.map (frame T) ++ rest, used.map (Token.move g) ++ ts, slots, before, m⟩ →
    h.variables = V → h.values = pre ++ vs →
    match r with
    | .ok values => ∃ s' slots', Gets T.program host n s h s' { h with values := values ++ vs } ∧ slots' .target = slots .target ∧
        Placed .whole s' ⟨rest, ts, slots', (used.getLast?.map (Token.move g)).or before, m + used.length⟩
    | .error e? => ∃ stop, run T.program host n s h = some stop ∧ Breaks stop (e?.map (Error.move g)) V (m + used.length)

namespace Reads

/-- There may be more values below. -/
theorem below (hr : Reads T V last pre parts used next n r) (below : List Value) :
    Reads T V last (pre ++ below) parts used next n (r.map (· ++ below)) := by
  intro g s h rest ts slots before m vs hnext hbefore hs hV hvalues
  rw [List.append_assoc] at hvalues
  have := hr g s h rest ts slots before m _ hnext hbefore hs hV hvalues
  cases r with
  | ok values =>
    dsimp only [Except.map]
    rw [List.append_assoc]
    exact this
  | error e? => exact this

/-- Nothing is read as no parts. -/
theorem nil : Reads T V last pre [] [] next 0 (.ok pre) := by
  intro g s h rest ts slots before m vs hnext hbefore hs hV hvalues
  refine ⟨s, slots, ?_, rfl, hs⟩
  rw [← hvalues]
  exact .refl s h

/-- Parts are read one after another. -/
theorem append (hr : Reads T V last pre parts used (used'.head?.or next) n (.ok values))
    (hr' : Reads T V (used.getLast?.or last) values parts' used' next n' r) :
    Reads T V last pre (parts ++ parts') (used ++ used') next (n + n') r := by
  intro g s h rest ts slots before m vs hnext hbefore hs hV hvalues
  rw [List.map_append, List.map_append, List.append_assoc, List.append_assoc] at hs
  have hhead : (used'.map (Token.move g) ++ ts).head? = (used'.head?.or next).map (Token.move g) := by
    rw [List.head?_append, List.head?_map, hnext, Option.map_or]
  obtain ⟨s₁, slots₁, hgo₁, hslots₁, hs₁⟩ := hr g s h _ _ slots before m vs hhead hbefore hs hV hvalues
  have hbetween : ∀ t ∈ used.getLast?.or last, (used.getLast?.map (Token.move g)).or before = some (t.move g) := by
    intro t ht
    cases hlast : used.getLast? with
    | some x =>
      rw [hlast] at ht
      cases ht
      rfl
    | none =>
      rw [hlast] at ht
      exact hbefore t ht
  have := hr' g s₁ { h with values := values ++ vs } rest ts slots₁ _ _ vs hnext hbetween hs₁ hV rfl
  cases r with
  | ok values' =>
    obtain ⟨s₂, slots₂, hgo₂, hslots₂, hs₂⟩ := this
    refine ⟨s₂, slots₂, hgo₁.trans hgo₂, hslots₂.trans hslots₁, ?_⟩
    rw [List.getLast?_append, Option.map_or, Option.or_assoc, List.length_append, ← Nat.add_assoc]
    exact hs₂
  | error e? =>
    obtain ⟨stop, hrun, hbreaks⟩ := this
    refine ⟨stop, hgo₁ _ _ hrun, ?_⟩
    rw [List.length_append, ← Nat.add_assoc]
    exact hbreaks

/-- Nothing is read behind an error. -/
theorem append_of_error {e? : Option Error} (hr : Reads T V last pre parts used next n (.error e?)) (parts' : List Part) :
    Reads T V last pre (parts ++ parts') used next n (.error e?) := by
  intro g s h rest ts slots before m vs hnext hbefore hs hV hvalues
  rw [List.map_append, List.append_assoc] at hs
  exact hr g s h _ ts slots before m vs hnext hbefore hs hV hvalues

theorem lexeme (hT : Conforms T) {l : Lexeme} {t : Token} (ht : t.id = l.terminal) :
    Reads T V last pre [l] [t] next 1 (.ok pre) := by
  intro g s h rest ts slots before m vs hnext hbefore hs hV hvalues
  obtain ⟨s', hgo, hs'⟩ := hs.matched (h := h) hT ht
  refine ⟨s', slots, ?_, rfl, hs'⟩
  rw [← hvalues]
  exact hgo

theorem mismatched (hT : Conforms T) {l : Lexeme} {t : Token} (ht : t.id ≠ l.terminal) :
    Reads T V last pre [l] [] (some t) 1 (.error (some (unexpected T [l.terminal] t))) := by
  intro g s h rest ts slots before m vs hnext hbefore hs hV hvalues
  obtain ⟨ts, rfl⟩ : ∃ us, ts = t.move g :: us := List.head?_eq_some_iff.1 hnext
  obtain ⟨stop, hrun, hbreaks⟩ := hs.mismatched (h := h) hT ht
  exact ⟨stop, hrun, hV ▸ hbreaks⟩

theorem starved (hT : Conforms T) {p : Part} (hp : ∀ o, p ≠ .op o) (hp' : ∀ slot, p ≠ .slot slot) :
    Reads T V last pre [p] [] none 1 (.error none) := by
  intro g s h rest ts slots before m vs hnext hbefore hs hV hvalues
  obtain rfl := List.head?_eq_none_iff.1 hnext
  obtain ⟨stop, hrun, hbreaks⟩ := hs.starved (h := h) hT hp hp'
  exact ⟨stop, hrun, hV ▸ hbreaks⟩

theorem refused (hT : Conforms T) {c : Category} {t : Token} (ht : T.program.lookup c.index t.id = none) :
    Reads T V last pre [c] [] (some t) 1 (.error (some (unexpected T (T.program.expected c.index) t))) := by
  intro g s h rest ts slots before m vs hnext hbefore hs hV hvalues
  obtain ⟨ts, rfl⟩ : ∃ us, ts = t.move g :: us := List.head?_eq_some_iff.1 hnext
  obtain ⟨stop, hrun, hbreaks⟩ := hs.refused (h := h) hT ht
  exact ⟨stop, hrun, hV ▸ hbreaks⟩

/-- A category is read as the rule that the next token predicts. -/
theorem category (hT : Conforms T) {c : Category} {l : Option Lexeme} {t : Token} (hparts : parts ∈ c.rule? l)
    (ht : used.head?.or next = some t) (hl : t.id = terminal l) (hr : Reads T V last pre parts used next n r) :
    Reads T V last pre [c] used next (n + 3) r := by
  intro g s h rest ts slots before m vs hnext hbefore hs hV hvalues
  obtain ⟨us, hus⟩ : ∃ us, used.map (Token.move g) ++ ts = t.move g :: us := by
    apply List.head?_eq_some_iff.1
    rw [List.head?_append, List.head?_map, hnext, ← Option.map_or, ht]
    rfl
  rw [hus] at hs
  obtain ⟨s₁, hgo₁, hs₁⟩ := hs.entered (h := h) hT hparts hl
  rw [← hus] at hs₁
  have := hr g s₁ h _ ts slots before m vs hnext hbefore hs₁ hV hvalues
  cases r with
  | ok values =>
    obtain ⟨s₂, slots₂, hgo₂, hslots₂, hs₂⟩ := this
    obtain ⟨s₃, hgo₃, hs₃⟩ := hs₂.left (T := T) (h := { h with values := values ++ vs })
    exact ⟨s₃, slots₂, (hgo₁.trans (hgo₂.trans hgo₃)).mono (by omega), hslots₂, hs₃⟩
  | error e? =>
    obtain ⟨stop, hrun, hbreaks⟩ := this
    exact ⟨stop, run_le (by omega) (hgo₁ _ _ hrun), hbreaks⟩

/-- What reading an operand or an operation comes to. -/
def valued (r : Except Error Value) : Except (Option Error) (List Value) :=
  (r.map ([·])).mapError some

/-- An operation takes the values on top, and may report the span of the last token. -/
theorem operated (hT : Conforms T) {o : Op} {t : Token} {r : Except Error Value}
    (hrun : ∀ (g : Span → Span) (s : State Token) (h : Evaluation) (vs : List Value), s.last = some (t.move g) →
      h.values = pre ++ vs → match r with
        | .ok v => (Eval.apply s o).run h = (.ok [], { h with values := v :: vs })
        | .error e => ∃ us, (Eval.apply s o).run h = (.error (e.move g), { h with values := us })) :
    Reads T V (some t) pre [o] [] next 1 (valued r) := by
  intro g s h rest ts slots before m vs hnext hbefore hs hV hvalues
  have := hrun g (s.withStack rest) h vs (hs.last_eq.trans (hbefore t rfl)) hvalues
  cases r with
  | ok v =>
    obtain ⟨s', hgo, hs'⟩ := hs.acted hT this
    exact ⟨s', slots, hgo, rfl, hs'⟩
  | error e =>
    obtain ⟨us, hrun⟩ := this
    obtain ⟨stop, hrun, hbreaks⟩ := hs.breaks_failed hT hrun
    exact ⟨stop, hrun, hV ▸ hbreaks⟩

/-- An operand is captured in a slot and left as a value. -/
theorem captured (hT : Conforms T) {slot : Slot} {l : Lexeme} {o : Op} {t : Token} {r : Except Error Value}
    (ht : t.id = l.terminal) (hslot : slot ≠ .target)
    (hrun : ∀ (g : Span → Span) (s : State Token) (h : Evaluation), s.locator? slot.index = some (t.move g) →
      h.variables = V → match r with
        | .ok v => (Eval.apply s o).run h = (.ok [], { h with values := v :: h.values })
        | .error e => (Eval.apply s o).run h = (.error (e.move g), h)) :
    Reads T V last [] [slot, l, o] [t] next 3 (valued r) := by
  intro g s h rest ts slots before m vs hnext hbefore hs hV hvalues
  obtain ⟨s₁, hgo₁, hs₁⟩ := hs.captured (h := h) hT ht
  have := hrun g (s₁.withStack rest) h ((hs₁.slot_eq slot).trans (Function.update_self ..)) hV
  cases r with
  | ok v =>
    obtain ⟨s₂, hgo₂, hs₂⟩ := hs₁.acted hT this
    refine ⟨s₂, _, ?_, Function.update_of_ne hslot.symm .., hs₂⟩
    rw [show v :: h.values = [v] ++ vs by rw [hvalues]; rfl] at hgo₂
    exact hgo₁.trans hgo₂
  | error e =>
    obtain ⟨stop, hrun, hbreaks⟩ := hs₁.breaks_failed hT this
    exact ⟨stop, hgo₁ _ _ hrun, hV ▸ hbreaks⟩

end Reads

/-! ## Words and the end of the input -/

/-- The tokens are those of the words, which are spelled as their lexemes demand, and perhaps the end of the input. -/
inductive Spells : List Word → List Token → Prop
  | nil : Spells [] []
  | stop {t : Token} : t.id = endToken → Spells [] [t]
  | cons {w : Word} {t : Token} {us : List Word} {ts : List Token} : w.Spelled → w.Fits → t.bare = w.token .standard →
      Spells us ts → Spells (w :: us) (t :: ts)

theorem Spells.of_append {ws us : List Word} (hs : Spells (ws ++ us) (used ++ ts)) (hlength : ws.length = used.length) :
    Spells us ts := by
  induction ws generalizing used with
  | nil =>
    obtain rfl := List.length_eq_zero_iff.1 hlength.symm
    exact hs
  | cons w ws ih =>
    cases used with
    | nil => cases hlength
    | cons t used =>
      cases hs with
      | cons _ _ _ hs => exact ih hs (Nat.succ.inj hlength)

theorem Spells.length_le {us : List Word} (hs : Spells us ts) : us.length ≤ ts.length := by
  induction hs with
  | nil => exact Nat.le_refl 0
  | stop => exact Nat.zero_le 1
  | cons _ _ _ _ ih => exact Nat.succ_le_succ ih

/-- The tokens of words are not the end of the input. -/
theorem Spells.id_ne {ws us : List Word} {rest : List Token} (hs : Spells (ws ++ us) (used ++ rest))
    (hlength : ws.length = used.length) : ∀ t ∈ used, t.id ≠ endToken := by
  induction ws generalizing used with
  | nil =>
    obtain rfl := List.length_eq_zero_iff.1 hlength.symm
    exact nofun
  | cons w ws ih =>
    obtain ⟨t, used, rfl⟩ := List.exists_cons_of_length_eq_add_one hlength.symm
    cases hs with
    | cons _ _ ht hs =>
      have hid : t.id = w.lexeme.terminal := congrArg Token.id ht
      refine List.forall_mem_cons.2 ⟨?_, ih hs (Nat.succ.inj hlength)⟩
      rw [hid]
      exact w.lexeme.terminal_ne_endToken

theorem Spells.head_id {us : List Word} (hs : Spells us ts) : ∀ t ∈ ts.head?, t.id = terminal (us.head?.map Word.lexeme) := by
  cases hs with
  | nil => exact nofun
  | stop ht =>
    rintro _ ⟨⟩
    exact ht
  | cons _ _ ht =>
    rintro _ ⟨⟩
    exact congrArg Token.id ht

/-! ## What comes of parts -/

/-- The machine reads the parts from some of the words, and the values and the words are as demanded, or it stops with an error that
says what is wrong, or for want of a token behind all words. It takes 20 steps for each word, and `b` more. -/
def Comes (T : Tables) (V : Variables) (last : Option Token) (pre : List Value) (parts : List Part) (us : List Word)
    (ts : List Token) (b : Nat) (Q : List Value → List Word → Prop) : Prop :=
  ∃ ws us' used rest n r, us = ws ++ us' ∧ ts = used ++ rest ∧ ws.length = used.length ∧ (∀ w ∈ ws, w.lexeme ≠ .semi) ∧
    n ≤ 20 * used.length + b ∧ Reads T V last pre parts used rest.head? n r ∧
    match r with
    | .ok values => Q values ws
    | .error e? => (∀ e ∈ e?, e.Documented) ∧ (e? = none → rest = [])

namespace Comes

variable {us : List Word} {b b' : Nat} {Q Q' : List Value → List Word → Prop}

theorem mono (hc : Comes T V last pre parts us ts b Q) (hle : b ≤ b') (hQ : ∀ values ws, Q values ws → Q' values ws) :
    Comes T V last pre parts us ts b' Q' := by
  obtain ⟨ws, us', used, rest, n, r, hus, hts, hlength, hsemi, hn, hr, hend⟩ := hc
  refine ⟨ws, us', used, rest, n, r, hus, hts, hlength, hsemi, by omega, hr, ?_⟩
  cases r with
  | ok values => exact hQ _ _ hend
  | error e? => exact hend

/-- There may be more values below. -/
theorem below (hc : Comes T V last pre parts us ts b Q) (below : List Value) :
    Comes T V last (pre ++ below) parts us ts b fun values ws => ∃ vs, values = vs ++ below ∧ Q vs ws := by
  obtain ⟨ws, us', used, rest, n, r, hus, hts, hlength, hsemi, hn, hr, hend⟩ := hc
  refine ⟨ws, us', used, rest, n, _, hus, hts, hlength, hsemi, hn, hr.below below, ?_⟩
  cases r with
  | ok values => exact ⟨values, rfl, hend⟩
  | error e? => exact hend

/-- The next parts are read from the words that are left, with a last token before them. -/
theorem bind (hs : Spells us ts) (hc : Comes T V last pre parts us ts b Q)
    (hlast : last ≠ none ∨ ∀ values ws, Q values ws → ws ≠ [])
    (hc' : ∀ values ws us' last' rest, us = ws ++ us' → Spells us' rest → Q values ws →
      Comes T V (some last') values parts' us' rest b' fun values' ws' => Q' values' (ws ++ ws')) :
    Comes T V last pre (parts ++ parts') us ts (b + b') Q' := by
  obtain ⟨ws, us', used, rest, n, r, rfl, rfl, hlength, hsemi, hn, hr, hend⟩ := hc
  cases r with
  | error e? => exact ⟨ws, us', used, rest, n, _, rfl, rfl, hlength, hsemi, by omega, hr.append_of_error parts', hend⟩
  | ok values =>
    obtain ⟨last', hlast'⟩ : ∃ last', used.getLast?.or last = some last' := by
      refine Option.ne_none_iff_exists'.1 fun hnone => ?_
      obtain ⟨hused, hnone⟩ := Option.or_eq_none_iff.1 hnone
      rcases hlast with hlast | hne
      · exact hlast hnone
      · rw [List.getLast?_eq_none_iff.1 hused] at hlength
        exact hne values ws hend (List.length_eq_zero_iff.1 hlength)
    obtain ⟨ws', us'', used', rest', n', r', rfl, rfl, hlength', hsemi', hn', hr', hend'⟩ :=
      hc' values ws us' last' rest rfl (hs.of_append hlength) hend
    rw [List.head?_append] at hr
    rw [← hlast'] at hr'
    refine ⟨ws ++ ws', us'', used ++ used', rest', n + n', r', (List.append_assoc ..).symm, (List.append_assoc ..).symm, ?_,
      List.forall_mem_append.2 ⟨hsemi, hsemi'⟩, ?_, hr.append hr', hend'⟩
    · rw [List.length_append, List.length_append, hlength, hlength']
    · rw [List.length_append]
      omega

/-- A lexeme that is there pays for what is read behind it. -/
theorem cons (hT : Conforms T) {w : Word} {t : Token} {l : Lexeme} (hl : w.lexeme = l) (hsemi : l ≠ .semi)
    (ht : t.bare = w.token .standard) (hb : b ≤ 19)
    (hc : Comes T V (some t) pre parts us ts b fun values ws => Q values (w :: ws)) :
    Comes T V last pre (l :: parts) (w :: us) (t :: ts) 0 Q := by
  obtain ⟨ws, us', used, rest, n, r, rfl, rfl, hlength, hsemi', hn, hr, hend⟩ := hc
  have hid : t.id = l.terminal := (congrArg Token.id ht).trans (congrArg Lexeme.terminal hl)
  have hlexeme : Reads T V last pre [l] [t] (used.head?.or rest.head?) 1 (.ok pre) := .lexeme hT hid
  refine ⟨w :: ws, us', t :: used, rest, 1 + n, r, rfl, rfl, congrArg (· + 1) hlength,
    List.forall_mem_cons.2 ⟨hl ▸ hsemi, hsemi'⟩, ?_, hlexeme.append hr, hend⟩
  rw [List.length_cons]
  omega

/-- There are no parts. -/
theorem nil (hQ : Q pre []) : Comes T V last pre [] us ts 0 Q :=
  ⟨[], us, [], ts, 0, _, rfl, rfl, rfl, nofun, Nat.le_refl 0, .nil, hQ⟩

/-- Nothing is read before the error. -/
theorem stopped {e? : Option Error} (hr : Reads T V last pre parts [] ts.head? n (.error e?)) (hn : n ≤ b)
    (hdocumented : ∀ e ∈ e?, e.Documented) (hnil : e? = none → ts = []) : Comes T V last pre parts us ts b Q :=
  ⟨[], us, [], ts, n, _, rfl, rfl, rfl, nofun, Nat.le_trans hn (Nat.le_add_left ..), hr, hdocumented, hnil⟩

/-- A lexeme is read if it is there. -/
theorem lexeme (hT : Conforms T) (hs : Spells us ts) {l : Lexeme} (hsemi : l ≠ .semi) :
    Comes T V last pre [l] us ts 1 fun values ws => values = pre ∧ ∃ w : Word, w.lexeme = l ∧ w.Spelled ∧ ws = [w] := by
  cases ts with
  | nil => exact .stopped (.starved hT nofun nofun) (Nat.le_refl 1) nofun fun _ => rfl
  | cons t ts =>
    by_cases ht : t.id = l.terminal
    · cases hs with
      | stop hend => exact absurd (hend.symm.trans ht) l.terminal_ne_endToken.symm
      | @cons w _ us _ hw _ hbare _ =>
        have hl : w.lexeme = l := Lexeme.terminal_injective ((congrArg Token.id hbare).symm.trans ht)
        exact ⟨[w], us, [t], ts, 1, _, rfl, rfl, rfl, List.forall_mem_singleton.2 (hl ▸ hsemi), by simp,
          .lexeme hT ht, rfl, w, hl, hw, rfl⟩
    · exact .stopped (.mismatched hT ht) (Nat.le_refl 1) (by rintro _ ⟨⟩; trivial) nofun

/-- A category is read as the rule that the next word predicts. -/
theorem category (hT : Conforms T) (hR : Refuses T) (hs : Spells us ts) {c : Category} (hstat : c ≠ .stat)
    (h : ∀ parts ∈ c.rule? (us.head?.map Word.lexeme), Comes T V last pre parts us ts b Q) :
    Comes T V last pre [c] us ts (b + 3) Q := by
  cases ts with
  | nil => exact .stopped (.starved hT nofun nofun) (Nat.le_add_left 1 (b + 2)) nofun fun _ => rfl
  | cons t ts =>
    have hid := hs.head_id t rfl
    cases hrule : c.rule? (us.head?.map Word.lexeme) with
    | none =>
      have hlookup := hR.rule c _ hrule fun h => hstat h.1
      rw [← hid] at hlookup
      exact .stopped (.refused hT hlookup) (Nat.le_add_left 1 (b + 2)) (by rintro _ ⟨⟩; trivial) nofun
    | some parts =>
      obtain ⟨ws, us', used, rest, n, r, hus, hts, hlength, hsemi, hn, hr, hend⟩ := h parts hrule
      have hhead : used.head?.or rest.head? = some t := by rw [← List.head?_append, ← hts]; rfl
      exact ⟨ws, us', used, rest, n + 3, r, hus, hts, hlength, hsemi, by omega,
        hr.category hT hrule hhead hid, hend⟩

end Comes

/-! ## Operations -/

/-- The parts leave one value, and the words that they are read from are these. -/
def Leaves (ws : List Word) (values : List Value) (ws' : List Word) : Prop :=
  (∃ v, values = [v]) ∧ ws' = ws

/-- An operation leaves a value, or fails. -/
theorem Comes.operated (hT : Conforms T) {o : Op} {t : Token} (r : Except Error Value)
    (hrun : ∀ (g : Span → Span) (s : State Token) (h : Evaluation) (vs : List Value), s.last = some (t.move g) →
      h.values = pre ++ vs → match r with
        | .ok v => (Eval.apply s o).run h = (.ok [], { h with values := v :: vs })
        | .error e => ∃ us, (Eval.apply s o).run h = (.error (e.move g), { h with values := us }))
    (hdocumented : ∀ e, r = .error e → e.Documented) (us : List Word) : Comes T V (some t) pre [o] us ts 1 (Leaves []) := by
  refine ⟨[], us, [], ts, 1, _, rfl, rfl, rfl, nofun, Nat.le_refl 1, .operated hT hrun, ?_⟩
  cases r with
  | ok v => exact ⟨⟨v, rfl⟩, rfl⟩
  | error e => exact ⟨by rintro _ ⟨⟩; exact hdocumented e rfl, nofun⟩

/-- An operand leaves a value, or fails. -/
theorem Comes.captured (hT : Conforms T) {slot : Slot} {l : Lexeme} {o : Op} {w : Word} {t : Token} (r : Except Error Value)
    (hl : w.lexeme = l) (hsemi : l ≠ .semi) (ht : t.bare = w.token .standard) (hslot : slot ≠ .target)
    (hrun : ∀ (g : Span → Span) (s : State Token) (h : Evaluation), s.locator? slot.index = some (t.move g) →
      h.variables = V → match r with
        | .ok v => (Eval.apply s o).run h = (.ok [], { h with values := v :: h.values })
        | .error e => (Eval.apply s o).run h = (.error (e.move g), h))
    (hdocumented : ∀ e, r = .error e → e.Documented) (us : List Word) :
    Comes T V last [] [slot, l, o] (w :: us) (t :: ts) 0 (Leaves [w]) := by
  have hid : t.id = l.terminal := (congrArg Token.id ht).trans (congrArg Lexeme.terminal hl)
  refine ⟨[w], us, [t], ts, 3, _, rfl, rfl, rfl, List.forall_mem_singleton.2 (hl ▸ hsemi), Nat.le_add_left 3 17,
    .captured hT hid hslot hrun, ?_⟩
  cases r with
  | ok v => exact ⟨⟨v, rfl⟩, rfl⟩
  | error e => exact ⟨by rintro _ ⟨⟩; exact hdocumented e rfl, nofun⟩

theorem lastSpan_move {g : Span → Span} {s : State Token} {t : Token} (hlast : s.last = some (t.move g)) :
    Eval.lastSpan s = t.span.map g := by
  rw [Eval.lastSpan, hlast]
  rfl

/-- An operation on two values. -/
theorem Comes.combined (hT : Conforms T) (op : BinaryOp) (t : Token) (a b : Value) (us : List Word) :
    Comes T V (some t) [b, a] [op.op] us ts 1 (Leaves []) := by
  by_cases hzero : op = .div ∧ b = 0
  · obtain ⟨rfl, rfl⟩ := hzero
    refine .operated hT (.error (.divisionByZero t.span)) (fun g s h vs hlast hvalues => ⟨h.values, ?_⟩)
      (by rintro _ ⟨⟩; trivial) us
    show (Eval.apply s .div).run h = _
    rw [run_div_zero hvalues, lastSpan_move hlast]
    rfl
  · have hb : op = .div → b ≠ 0 := fun hdiv hb => hzero ⟨hdiv, hb⟩
    cases hv : op.onValues a b with
    | some v =>
      refine .operated hT (.ok v) (fun g s h vs hlast hvalues => ?_) nofun us
      show (Eval.apply s op.op).run h = _
      rw [run_op op hvalues hb, hv]
      rfl
    | none =>
      refine .operated hT (.error (.overflow t.span)) (fun g s h vs hlast hvalues => ⟨vs, ?_⟩)
        (by rintro _ ⟨⟩; trivial) us
      rw [run_op op hvalues hb, hv, lastSpan_move hlast]
      rfl

/-- The sign of a value is changed. -/
theorem Comes.negated (hT : Conforms T) (t : Token) (a : Value) (us : List Word) :
    Comes T V (some t) [a] [Op.neg] us ts 1 (Leaves []) := by
  cases hv : a.neg? with
  | some v =>
    refine .operated hT (.ok v) (fun g s h vs hlast hvalues => ?_) nofun us
    show (Eval.apply s .neg).run h = _
    rw [run_neg hvalues, hv]
    rfl
  | none =>
    refine .operated hT (.error (.overflow t.span)) (fun g s h vs hlast hvalues => ⟨vs, ?_⟩)
      (by rintro _ ⟨⟩; trivial) us
    rw [run_neg hvalues, hv, lastSpan_move hlast]
    rfl

/-- A literal is read. -/
theorem Comes.literal (hT : Conforms T) {ds : List Char} {t : Token} (ht : t.bare = Word.token .standard ⟨.number, ds⟩)
    (us : List Word) : Comes T V last [] [Slot.lit, Lexeme.number, Op.number] (⟨.number, ds⟩ :: us) (t :: ts) 0
      (Leaves [⟨.number, ds⟩]) := by
  have hpayload : t.payload = .number (Int64.ofNat (decimal ds)) := congrArg Token.payload ht
  exact .captured hT (.ok (Int64.ofNat (decimal ds))) rfl (by exact nofun) ht (by decide)
    (fun g s h hslot _ => run_number hslot hpayload) nofun us

/-- A variable is looked up. -/
theorem Comes.variable (hT : Conforms T) {name : List Char} {t : Token} (ht : t.bare = Word.token .standard ⟨.ident, name⟩)
    (us : List Word) : Comes T V last [] [Slot.var, Lexeme.ident, Op.var] (⟨.ident, name⟩ :: us) (t :: ts) 0
      (Leaves [⟨.ident, name⟩]) := by
  have hpayload : t.payload = .ident (.ofList name) := congrArg Token.payload ht
  cases hv : V.get? (.ofList name) with
  | some v =>
    exact .captured hT (.ok v) rfl (by exact nofun) ht (by decide)
      (fun g s h hslot hV => run_var hslot hpayload (hV ▸ hv)) nofun us
  | none =>
    exact .captured hT (.error (.undefinedVariable (.ofList name) t.span)) rfl (by exact nofun) ht (by decide)
      (fun g s h hslot hV => run_var_none hslot hpayload (hV ▸ hv)) (by rintro _ ⟨⟩; trivial) us

/-! ## Expressions -/

/-- The words are a piece of an expression that is read as the category: of a tail, what goes on with an expression. -/
def Category.Written : Category → List Word → Prop
  | .factor, us => ∃ e, Writes .factor e us
  | .term, us => ∃ e, Writes .product e us
  | .expr, us => ∃ e, Writes .sum e us
  | .termTail, us => ∀ e ws, Writes .product e ws → ∃ e', Writes .product e' (ws ++ us)
  | .exprTail, us => ∀ e ws, Writes .sum e ws → ∃ e', Writes .sum e' (ws ++ us)
  | _, _ => False

/-- One value is left, and the words are a piece of an expression. -/
def Category.Gives (c : Category) (values : List Value) (ws : List Word) : Prop :=
  (∃ v, values = [v]) ∧ c.Written ws

/-- Whatever the words are, it is determined what comes of every category of expressions before them. -/
structure Determined (T : Tables) (us : List Word) (ts : List Token) : Prop where
  factor : ∀ V last, Comes T V last [] [Category.factor] us ts 3 Category.factor.Gives
  termTail : ∀ V t v, Comes T V (some t) [v] [Category.termTail] us ts 3 Category.termTail.Gives
  term : ∀ V last, Comes T V last [] [Category.term] us ts 9 Category.term.Gives
  exprTail : ∀ V t v, Comes T V (some t) [v] [Category.exprTail] us ts 3 Category.exprTail.Gives
  expr : ∀ V last, Comes T V last [] [Category.expr] us ts 15 Category.expr.Gives

/-- The word of a lexeme that has only one text. -/
theorem Word.Spelled.eq_word {w : Word} (hw : w.Spelled) {l : Lexeme} (hl : w.lexeme = l) (hident : l ≠ .ident)
    (hnumber : l ≠ .number) : w = l.word := by
  obtain ⟨lexeme, text⟩ := w
  obtain rfl : lexeme = l := hl
  exact congrArg (Word.mk lexeme) (hw.text_eq hident hnumber)

/-- A category of expressions takes words. -/
theorem Category.Written.ne_nil {c : Category} {ws : List Word} (hc : c.Written ws) (htail : c ≠ .termTail ∧ c ≠ .exprTail) :
    ws ≠ [] := by
  have hne : ∀ {r e}, Writes r e ws → ws ≠ [] := by
    intro r e hw
    obtain ⟨w, us, rfl, -⟩ := hw.exists_head
    exact List.cons_ne_nil w us
  cases c with
  | factor | term | expr => exact hne hc.choose_spec
  | termTail => exact absurd rfl htail.1
  | exprTail => exact absurd rfl htail.2
  | program | stat => exact absurd hc id

namespace BinaryOp

/-- The category of the operand behind an operation. -/
def operand : BinaryOp → Category
  | add | sub => .term
  | mul | div => .factor

/-- The category of the tails that an operation stands in. -/
def tail : BinaryOp → Category
  | add | sub => .exprTail
  | mul | div => .termTail

theorem mem_rule_tail {tail : Category} (htail : tail = .termTail ∨ tail = .exprTail) {next : Option Lexeme} {parts : List Part}
    (hparts : parts ∈ tail.rule? next) : parts = [] ∨
      ∃ op : BinaryOp, op.tail = tail ∧ next = some op.lexeme ∧ parts = [(op.lexeme : Part), op.operand, op.op, op.tail] := by
  cases next with
  | none => rcases htail with rfl | rfl <;> cases hparts
  | some l =>
    rcases htail with rfl | rfl
    · cases l with
      | star => exact .inr ⟨mul, rfl, rfl, (Option.some.inj hparts).symm⟩
      | slash => exact .inr ⟨div, rfl, rfl, (Option.some.inj hparts).symm⟩
      | plus | minus | rparen | semi => exact .inl (Option.some.inj hparts).symm
      | _ => cases hparts
    · cases l with
      | plus => exact .inr ⟨add, rfl, rfl, (Option.some.inj hparts).symm⟩
      | minus => exact .inr ⟨sub, rfl, rfl, (Option.some.inj hparts).symm⟩
      | rparen | semi => exact .inl (Option.some.inj hparts).symm
      | _ => cases hparts

theorem ranked (op : BinaryOp) : op.rank = .sum ∧ op.operand = .term ∧ op.tail = .exprTail ∨
    op.rank = .product ∧ op.operand = .factor ∧ op.tail = .termTail := by
  cases op <;> decide

/-- An operation goes on with an expression. -/
theorem written_tail {op : BinaryOp} {ws us : List Word} (hws : op.operand.Written ws) (hus : op.tail.Written us) :
    op.tail.Written (op.lexeme.word :: (ws ++ us)) := by
  rcases op.ranked with ⟨hop, hoperand, htail⟩ | ⟨hop, hoperand, htail⟩
  · rw [hoperand] at hws
    rw [htail] at hus ⊢
    obtain ⟨b, hb⟩ := hws
    intro a vs ha
    obtain ⟨e, he⟩ := hus _ _ (.sum hop ha hb)
    exact ⟨e, by rwa [List.append_assoc] at he⟩
  · rw [hoperand] at hws
    rw [htail] at hus ⊢
    obtain ⟨b, hb⟩ := hws
    intro a vs ha
    obtain ⟨e, he⟩ := hus _ _ (.product hop ha hb)
    exact ⟨e, by rwa [List.append_assoc] at he⟩

end BinaryOp

/-- An operation in a tail takes the value before it and the one of the operand behind it. -/
theorem Comes.applied (hT : Conforms T) {us : List Word} (hs : Spells us ts) {op : BinaryOp} {t : Token}
    (ht : t.bare = op.lexeme.word.token .standard)
    (hoperand : Comes T V (some t) [] [op.operand] us ts 9 op.operand.Gives)
    (htail : ∀ us' ts' t v, us'.length ≤ us.length → Spells us' ts' → Comes T V (some t) [v] [op.tail] us' ts' 3 op.tail.Gives)
    (v : Value) :
    Comes T V last [v] [op.lexeme, op.operand, op.op, op.tail] (op.lexeme.word :: us) (t :: ts) 0 op.tail.Gives := by
  have hsemi : op.lexeme ≠ .semi := by cases op <;> decide
  refine .cons hT rfl hsemi ht (show 9 + (1 + 3) ≤ 19 by decide)
    (.bind hs (hoperand.below [v]) (.inl (Option.some_ne_none t)) ?_)
  rintro _ ws us' last₁ rest rfl hs' ⟨_, rfl, ⟨w, rfl⟩, hws⟩
  refine .bind hs' (Comes.combined hT op last₁ v w us') (.inl (Option.some_ne_none last₁)) ?_
  rintro _ _ us' last₂ rest' rfl hs'' ⟨⟨x, rfl⟩, rfl⟩
  refine (htail us' rest' last₂ x ?_ hs'').mono (Nat.le_refl 3) ?_
  · rw [List.nil_append, List.length_append]
    exact Nat.le_add_left ..
  · rintro values us ⟨hvalues, hus⟩
    exact ⟨hvalues, BinaryOp.written_tail hws hus⟩

section Expressions

variable {us : List Word} (hT : Conforms T) (hR : Refuses T) (hs : Spells us ts)
  (ih : ∀ us' ts', us'.length < us.length → Spells us' ts' → Determined T us' ts')

include hT hR hs ih

theorem Determined.exists_factor (V : Variables) (last : Option Token) :
    Comes T V last [] [Category.factor] us ts 3 Category.factor.Gives := by
  refine .category hT hR hs nofun fun parts hparts => ?_
  cases hs with
  | nil | stop => cases hparts
  | @cons w t us ts hw hfits ht hs =>
    have hdetermined := ih us ts (Nat.lt_succ_self _) hs
    obtain ⟨l, text⟩ := w
    cases l with
    | number =>
      cases hparts
      refine (Comes.literal hT ht us).mono (Nat.le_refl 0) ?_
      rintro values _ ⟨hvalues, rfl⟩
      exact ⟨hvalues, _, .literal (n := ⟨_, hfits rfl⟩) rfl⟩
    | ident =>
      cases hparts
      refine (Comes.variable hT ht us).mono (Nat.le_refl 0) ?_
      rintro values _ ⟨hvalues, rfl⟩
      exact ⟨hvalues, _, .var text⟩
    | minus =>
      cases hparts
      rw [hw.eq_word rfl nofun nofun] at ht ⊢
      refine .cons hT rfl (by decide) ht (show 3 + 1 ≤ 19 by decide)
        (.bind hs (hdetermined.factor V (some t)) (.inl (Option.some_ne_none t)) ?_)
      rintro _ ws us' last' rest rfl hs' ⟨⟨v, rfl⟩, e, he⟩
      refine (Comes.negated hT last' v us').mono (Nat.le_refl 1) ?_
      rintro values _ ⟨hvalues, rfl⟩
      exact ⟨hvalues, _, .neg (by rwa [List.append_nil])⟩
    | lparen =>
      cases hparts
      rw [hw.eq_word rfl nofun nofun] at ht ⊢
      refine .cons hT rfl (by decide) ht (show 15 + 1 ≤ 19 by decide)
        (.bind hs (hdetermined.expr V (some t)) (.inl (Option.some_ne_none t)) ?_)
      rintro _ ws us' last' rest rfl hs' ⟨hvalues, e, he⟩
      refine (Comes.lexeme hT hs' (by decide)).mono (Nat.le_refl 1) ?_
      rintro values _ ⟨rfl, w, hl, hw', rfl⟩
      rw [hw'.eq_word hl (by decide) (by decide)]
      exact ⟨hvalues, _, .paren he⟩
    | _ => cases hparts

/-- A tail is an operation with its operand and another tail, or nothing. -/
theorem Determined.exists_tail (tail : Category) (htail : tail = .termTail ∨ tail = .exprTail) (V : Variables)
    (t : Token) (v : Value) : Comes T V (some t) [v] [tail] us ts 3 tail.Gives := by
  have hstat : tail ≠ .stat := by rcases htail with rfl | rfl <;> decide
  refine .category hT hR hs hstat fun parts hparts => ?_
  rcases BinaryOp.mem_rule_tail htail hparts with rfl | ⟨op, rfl, hnext, rfl⟩
  · refine .nil ⟨⟨v, rfl⟩, ?_⟩
    rcases htail with rfl | rfl
    · exact fun e ws he => ⟨e, by rwa [List.append_nil]⟩
    · exact fun e ws he => ⟨e, by rwa [List.append_nil]⟩
  · cases hs with
    | nil | stop => cases hnext
    | @cons w t us ts hw hfits ht hs =>
      have hl : w.lexeme = op.lexeme := Option.some.inj hnext
      rw [hw.eq_word hl (by cases op <;> decide) (by cases op <;> decide)] at ht ⊢
      have hdetermined := ih us ts (Nat.lt_succ_self _) hs
      refine .applied hT hs ht ?_ (fun us' ts' last' v hle hs' => ?_) v
      · cases op with
        | add | sub => exact hdetermined.term V (some t)
        | mul | div => exact (hdetermined.factor V (some t)).mono (by decide) fun _ _ h => h
      · have hdetermined' := ih us' ts' (Nat.lt_succ_of_le hle) hs'
        cases op with
        | add | sub => exact hdetermined'.exprTail V last' v
        | mul | div => exact hdetermined'.termTail V last' v

/-- A term is a factor with a tail, and an expression is a term with one. -/
theorem Determined.exists_headed (c head tail : Category) {b : Nat} (hstat : c ≠ .stat)
    (hhead : head ≠ .termTail ∧ head ≠ .exprTail) (hrule : ∀ next, ∀ parts ∈ c.rule? next, parts = [(head : Part), tail])
    (hwritten : ∀ ws us, head.Written ws → tail.Written us → c.Written (ws ++ us)) (V : Variables) (last : Option Token)
    (hc : Comes T V last [] [head] us ts b head.Gives)
    (htail : ∀ us' ts' t v, Determined T us' ts' → Comes T V (some t) [v] [tail] us' ts' 3 tail.Gives) :
    Comes T V last [] [c] us ts (b + 3 + 3) c.Gives := by
  refine .category hT hR hs hstat fun parts hparts => ?_
  rw [hrule _ parts hparts]
  refine .bind hs hc (.inr fun _ ws h => h.2.ne_nil hhead) ?_
  rintro _ ws us' last' rest rfl hs' ⟨⟨v, rfl⟩, hws⟩
  have hlength : us'.length < (ws ++ us').length := by
    have hpos : 0 < ws.length := List.length_pos_of_ne_nil (hws.ne_nil hhead)
    rw [List.length_append]
    omega
  refine (htail us' rest last' v (ih us' rest hlength hs')).mono (Nat.le_refl 3) ?_
  rintro values us ⟨hvalues, hus⟩
  exact ⟨hvalues, hwritten ws us hws hus⟩

theorem Determined.exists_term (V : Variables) (last : Option Token) :
    Comes T V last [] [Category.term] us ts 9 Category.term.Gives :=
  exists_headed hT hR hs ih .term .factor .termTail nofun ⟨nofun, nofun⟩ (by decide)
    (fun ws us ⟨e, he⟩ hus => hus e ws (.factor he)) V last (exists_factor hT hR hs ih V last)
    fun us' ts' t v h => h.termTail V t v

theorem Determined.exists_expr (V : Variables) (last : Option Token) :
    Comes T V last [] [Category.expr] us ts 15 Category.expr.Gives :=
  exists_headed hT hR hs ih .expr .term .exprTail nofun ⟨nofun, nofun⟩ (by decide)
    (fun ws us ⟨e, he⟩ hus => hus e ws (.term he)) V last (exists_term hT hR hs ih V last)
    fun us' ts' t v h => h.exprTail V t v

end Expressions

/-- **Whatever the words are, it is determined what comes of an expression before them.** -/
theorem Spells.determined (hT : Conforms T) (hR : Refuses T) {us : List Word} (hs : Spells us ts) : Determined T us ts := by
  induction hlength : us.length using Nat.strong_induction_on generalizing us ts with
  | _ k ih =>
    have ih' : ∀ us' ts', us'.length < us.length → Spells us' ts' → Determined T us' ts' := fun us' ts' hlt hs' =>
      ih us'.length (hlength ▸ hlt) hs' rfl
    exact {
      factor := Determined.exists_factor hT hR hs ih'
      termTail := Determined.exists_tail hT hR hs ih' .termTail (.inl rfl)
      term := Determined.exists_term hT hR hs ih'
      exprTail := Determined.exists_tail hT hR hs ih' .exprTail (.inr rfl)
      expr := Determined.exists_expr hT hR hs ih' }

end Calculator

end PredictiveParser
