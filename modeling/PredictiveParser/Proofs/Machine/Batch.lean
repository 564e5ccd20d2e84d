import PredictiveParser.Proofs.Machine.Resumption

/-!
# Token by token or all at once

A machine that is given its tokens one by one stops at the first one that is missing, forgets old ones and is resumed by the
next. Beside it there goes a machine that has all tokens from the start and forgets none (`Beside`): where the one waits the
other goes on with the same step. So both make the same callbacks, which see the same (`Host.observing`), and both end
alike (`whole_of_feeds`).
-/

namespace PredictiveParser.Machine

variable {σ τ : Type}

/-! ## What callbacks see -/

/-- What a callback sees of a parse, apart from how many tokens there are. -/
structure Glimpse (τ : Type) where
  current : Option τ
  last : Option τ
  locators : List (Nat × τ)
  depth : Nat
  symbols : List Nat
  resolvers : Nat
  deriving DecidableEq

/-- What a callback sees in a state. -/
def State.glimpse (s : State τ) : Glimpse τ where
  current := s.current?
  last := s.last
  locators := s.locators
  depth := s.predictionDepth
  symbols := s.symbolPath
  resolvers := s.episodeDepth

/-- The host, keeping a record of its callbacks, what they saw and whether they complied. -/
def Host.observing (H : Host σ τ) : Host (σ × List (Event × Glimpse τ × Bool)) τ :=
  H.keeping fun event s failure => [(event, s.glimpse, failure.isNone)]

theorem Host.Oblivious.observing {H : Host σ τ} (hH : H.Oblivious) : H.observing.Oblivious := by
  intro event s w n h hs
  have hglimpse : (s.onWindow w n).glimpse = s.glimpse := by
    have hcurrent : (s.onWindow w n).current? = s.current? := hs
    unfold State.glimpse
    rw [hcurrent]
    rfl
  unfold Host.observing Host.keeping
  dsimp only
  rw [hH event s w n h.1 hs, hglimpse]

/-! ## All tokens at once -/

section Whole

variable [Terminal τ]

/-- Runs the machine once with all of the tokens at hand, none of which is released. Without a token nothing is run. -/
def Parser.feedWhole (P : Program) (H : Host σ τ) (fuel : Nat) (ts : List τ) (p : Parser σ τ) : Option (Stop σ τ) :=
  if ts.isEmpty then some ⟨.ok .more, p.state, p.host⟩
  else (run P H fuel (ts.foldl State.receive p.state) p.host).map fun stop =>
    { stop with state := { stop.state with status := stop.state.status.after stop.answer } }

/-- The outcome of a parse: the first answer but to go on. -/
def outcome : List (Except ParseError Feed) → Except ParseError Feed
  | [] => .ok .more
  | .ok .more :: as => outcome as
  | a :: _ => a

/-- When it is fed the tokens one by one, the parser comes to the state `g` of the host. -/
def Parser.Reaches (P : Program) (H : Host σ τ) (p : Parser σ τ) (ts : List τ) (g : σ) : Prop :=
  ∃ t past trace cs s, t :: past <+: ts ∧ Moves P H (p.state.receive t) p.host past trace cs s g

/-- When it runs once with all of the tokens, the parser comes to the state `g` of the host. -/
def Parser.ReachesWhole (P : Program) (H : Host σ τ) (p : Parser σ τ) (ts : List τ) (g : σ) : Prop :=
  ts ≠ [] ∧ ∃ s, Steps P H (ts.foldl State.receive p.state) p.host s g

omit [Terminal τ] in
/-- Taking in tokens changes the window and the count only. -/
theorem exists_onWindow_of_foldl (s : State τ) (ts : List τ) :
    ∃ w n, ts.foldl State.receive s = s.onWindow w n ∧ w.base = s.window.base ∧
      ∀ past, s.window.Shows past → w.Shows (past ++ ts) := by
  induction ts generalizing s with
  | nil => exact ⟨s.window, s.stats.tokens, rfl, rfl, fun past hw => by rwa [List.append_nil]⟩
  | cons t ts ih =>
    obtain ⟨w, n, heq, hbase, hshows⟩ := ih (s.receive t)
    refine ⟨w, n, heq, hbase, fun past hw => ?_⟩
    have := hshows _ (hw.push t)
    rwa [List.append_assoc] at this

end Whole

/-! ## Two machines side by side -/

variable [Terminal τ] {P : Program} {H : Host σ τ}

theorem Moves.trans {s s' s'' : State τ} {h h' h'' : σ} {ts ts' : List τ} {trace trace' : List (State τ)}
    {cs cs' : List (Event × Bool)} (hm : Moves P H s h ts trace cs s' h') (hm' : Moves P H s' h' ts' trace' cs' s'' h'') :
    Moves P H s h (ts ++ ts') (trace ++ trace') (cs ++ cs') s'' h'' := by
  induction hm with
  | refl => exact hm'
  | step hv _ ih =>
    rw [List.append_assoc]
    exact .step hv (ih hm')
  | feed hv _ ih =>
    rw [List.append_assoc]
    exact .feed hv (ih hm')

/-- Beside a machine in the state `s`, which got the tokens `past`, there is a machine in the state `w` that has all tokens:
its next step is that of `s`, with the tokens it has. -/
structure Beside (P : Program) (H : Host σ τ) (all : List τ) (s : State τ) (h : σ) (past : List τ) (w : State τ) :
    Prop where
  visits : Visits P H s h past
  before : past <+: all
  shows : w.window.Shows all
  base : w.window.base = 0
  step : ∀ g, step P H w g = step P H (s.onWindow w.window w.stats.tokens) g

namespace Beside

variable {all past : List τ} {s w : State τ} {h : σ}

/-- Tokens that were fed and are retained are shown alike. -/
theorem get?_eq (hb : Beside P H all s h past w) {p : Nat} (hbase : s.window.base ≤ p) (hlt : p < s.window.stop) :
    w.window.get? p = s.window.get? p := by
  have hshows := hb.visits.shows
  obtain ⟨rest, rfl⟩ := hb.before
  rw [hshows.stop] at hlt
  rw [hb.shows.get? p (hb.base ▸ Nat.zero_le p), hshows.get? p hbase, List.getElem?_append_left hlt]

theorem shownBy (hb : Beside P H all s h past w) : s.ShownBy w.window := by
  have hr := (invariant_retains P H).within_of_visits hb.visits
  have hs := (invariant_before P H).within_of_visits hb.visits
  have hcursor : s.window.base ≤ s.cursor := hr.base_le _ (.inl rfl)
  refine ⟨fun h => hb.get?_eq hcursor (hs.here h), fun {t} ht => ?_, fun e he => ?_⟩
  · rw [← ht]
    exact hb.get?_eq (Nat.le_trans hcursor (Nat.le_add_right _ _)) (position_lt_stop hb.visits.shows ht)
  · exact hb.get?_eq (hr.base_le _ (.inr (.inl ⟨e, he, rfl⟩))) (hs.waiting e he)

/-- The steps are the same if the first machine does not wait, or waits for more than all tokens. -/
theorem step_eq (hH : H.Oblivious) (hb : Beside P H all s h past w)
    (hv : (Machine.step P H s h).verdict ≠ .await ∨ past = all) :
    Machine.step P H w h = (Machine.step P H s h).onWindow w.window w.stats.tokens := by
  rw [hb.step]
  refine step_onWindow hH hb.shownBy fun f rest hstack hf => ?_
  cases hnext : s.next? with
  | some t => exact hb.shownBy.next hnext
  | none =>
    have hall : past = all := hv.resolve_left (absurd (congrArg Turn.verdict (step_of_looks hstack hf hnext h)))
    have hr := (invariant_retains P H).within_of_visits hb.visits
    have hbase : s.window.base ≤ s.position := Nat.le_trans (hr.base_le _ (.inl rfl)) (Nat.le_add_right _ _)
    rw [hb.shows.get? _ (hb.base ▸ Nat.zero_le _), ← hall, ← hb.visits.shows.get? _ hbase]
    exact hnext

theorem proceed (hH : H.Oblivious) (hb : Beside P H all s h past w) (hv : (Machine.step P H s h).verdict = .proceed) :
    (Machine.step P H w h).verdict = .proceed ∧ (Machine.step P H w h).host = (Machine.step P H s h).host ∧
      Beside P H all (Machine.step P H s h).state (Machine.step P H s h).host past (Machine.step P H w h).state := by
  have heq := hb.step_eq hH (.inl (by rw [hv]; exact nofun))
  rw [heq]
  exact ⟨hv, rfl, hb.visits.step hv, hb.before, hb.shows, hb.base, fun _ => rfl⟩

/-- While the first machine waits and gets the next token, the second one stays where it is. -/
theorem feed (hb : Beside P H all s h past w) (hv : (Machine.step P H s h).verdict = .await) {t : τ}
    (ht : past ++ [t] <+: all) :
    Beside P H all (((Machine.step P H s h).state.settle (.ok .more)).receive t) (Machine.step P H s h).host
      (past ++ [t]) w := by
  obtain ⟨f, rest, hstack, hf⟩ := exists_looks_of_await hv
  refine ⟨hb.visits.feed hv t, ht, hb.shows, hb.base, fun g => ?_⟩
  rw [hb.step, ← step_advance (s := s.onWindow w.window w.stats.tokens) hstack hf, advance_onWindow, fed_eq hv,
    advance_eq]
  rfl

theorem moves (hH : H.Oblivious) (hb : Beside P H all s h past w) {ts : List τ} {trace : List (State τ)}
    {cs : List (Event × Bool)} {s' : State τ} {h' : σ} (hm : Moves P H s h ts trace cs s' h') (hts : past ++ ts <+: all) :
    ∃ w', Steps P H w h w' h' ∧ Beside P H all s' h' (past ++ ts) w' := by
  induction hm generalizing past w with
  | refl s h =>
    rw [List.append_nil]
    exact ⟨w, .refl w h, hb⟩
  | step hv _ ih =>
    obtain ⟨hv', hhost, hb'⟩ := hb.proceed hH hv
    obtain ⟨w', hsteps, hb''⟩ := ih hb' hts
    rw [← hhost] at hsteps
    exact ⟨w', .head hv' hsteps, hb''⟩
  | @feed s s' h h' t ts trace cs hv _ ih =>
    have hassoc : past ++ t :: ts = past ++ [t] ++ ts := by rw [List.append_assoc]; rfl
    rw [hassoc] at hts ⊢
    obtain ⟨w', hsteps, hb'⟩ := ih (hb.feed hv ((List.prefix_append _ _).trans hts)) hts
    rw [(effect_of_verdict hv).waited.2.1] at hsteps
    exact ⟨w', hsteps, hb'⟩

/-- Before the second machine goes on, the first one gets the tokens that it waits for. -/
theorem exists_proceed (hH : H.Oblivious) (hb : Beside P H all s h past w) {rest : List τ} (hall : past ++ rest = all)
    (hv : (Machine.step P H w h).verdict = .proceed) :
    ∃ ts trace cs s', past ++ ts <+: all ∧ Moves P H s h ts trace cs s' h ∧ Beside P H all s' h (past ++ ts) w ∧
      (Machine.step P H s' h).verdict = .proceed := by
  induction rest generalizing s past with
  | nil =>
    rw [List.append_nil] at hall
    rw [hb.step_eq hH (.inr hall)] at hv
    exact ⟨[], [], [], s, by rw [List.append_nil]; exact hb.before, .refl s h, by rwa [List.append_nil], hv⟩
  | cons t rest ih =>
    by_cases hw : (Machine.step P H s h).verdict = .await
    · have hassoc : past ++ t :: rest = past ++ [t] ++ rest := by rw [List.append_assoc]; rfl
      rw [hassoc] at hall
      have hb' := hb.feed hw (t := t) (hall ▸ List.prefix_append _ _)
      rw [(effect_of_verdict hw).waited.2.1] at hb'
      obtain ⟨ts, trace, cs, s', hts, hm, hb'', hv'⟩ := ih hb' hall
      refine ⟨t :: ts, s :: trace, calls P H s h ++ cs, s', ?_, .feed hw ?_, ?_, hv'⟩
      · rwa [List.append_assoc] at hts
      · rwa [(effect_of_verdict hw).waited.2.1]
      · rwa [List.append_assoc] at hb''
    · rw [hb.step_eq hH (.inl hw)] at hv
      exact ⟨[], [], [], s, by rw [List.append_nil]; exact hb.before, .refl s h, by rwa [List.append_nil], hv⟩

/-- Wherever the second machine gets to, the first one gets as it is fed. -/
theorem exists_moves (hH : H.Oblivious) (hb : Beside P H all s h past w) {rest : List τ} (hall : past ++ rest = all)
    {w' : State τ} {h' : σ} (hs : Steps P H w h w' h') :
    ∃ ts trace cs s', past ++ ts <+: all ∧ Moves P H s h ts trace cs s' h' := by
  induction hs generalizing s past rest with
  | refl w h => exact ⟨[], [], [], s, by rw [List.append_nil]; exact hb.before, .refl s h⟩
  | @head w w' h h' hv _ ih =>
    obtain ⟨ts, trace, cs, s', ⟨rest', hts⟩, hm, hb', hv'⟩ := hb.exists_proceed hH hall hv
    obtain ⟨-, hhost, hb''⟩ := hb'.proceed hH hv'
    rw [← hhost] at hb''
    obtain ⟨ts', trace', cs', s'', hts', hm'⟩ := ih hb'' hts
    rw [hhost] at hm'
    exact ⟨ts ++ ts', _, _, s'', by rwa [← List.append_assoc], hm.trans (.step hv' hm')⟩

end Beside

/-! ## The answers -/

omit [Terminal τ] in
theorem outcome_cons {a : Except ParseError Feed} (ha : a ≠ .ok .more) (as : List (Except ParseError Feed)) :
    outcome (a :: as) = a := by
  rcases a with _ | _ | _
  · rfl
  · exact absurd rfl ha
  · rfl

omit [Terminal τ] in
theorem outcome_singleton (a : Except ParseError Feed) : outcome [a] = a := by
  rcases a with _ | _ | _ <;> rfl

omit [Terminal τ] in
/-- An answer but to go on ends the parse. -/
theorem status_settle {s : State τ} {a : Except ParseError Feed} (ha : a ≠ .ok .more) :
    (s.settle a).status = .done ∨ (s.settle a).status = .failed := by
  rcases a with _ | _ | _
  · exact .inr rfl
  · exact absurd rfl ha
  · exact .inl rfl

/-- A step that answers is a run. -/
theorem run_of_answer {s : State τ} {h : σ} {a : Except ParseError Feed} (ha : (step P H s h).verdict.answer? = some a) :
    run P H 1 s h = some ⟨a, (step P H s h).state, (step P H s h).host⟩ := by
  rw [run]
  cases hv : (step P H s h).verdict with
  | proceed =>
    rw [hv] at ha
    cases ha
  | _ =>
    rw [hv] at ha
    cases ha
    rfl

theorem Steps.moves {s s' : State τ} {h h' : σ} (hs : Steps P H s h s' h') :
    ∃ trace cs, Moves P H s h [] trace cs s' h' := by
  induction hs with
  | refl s h => exact ⟨[], [], .refl s h⟩
  | head hv _ ih =>
    obtain ⟨trace, cs, hm⟩ := ih
    exact ⟨_, _, .step hv hm⟩

/-- The whole run stops as the calls end: with the same answer, the same host and the same state but for the tokens. -/
def Stop.EndsAs (stop : Stop σ τ) (a : Except ParseError Feed) (q : Parser σ τ) : Prop :=
  stop.answer = a ∧ stop.host = q.host ∧
    { stop.state with status := stop.state.status.after stop.answer } =
      q.state.onWindow stop.state.window stop.state.stats.tokens

namespace Beside

variable {all past : List τ} {s w : State τ} {h : σ}

/-- A step of the first machine that answers, and does not wait for a token that comes, is the answer of the second. -/
theorem exists_stop (hH : H.Oblivious) (hb : Beside P H all s h past w) {a : Except ParseError Feed}
    (ha : (Machine.step P H s h).verdict.answer? = some a) (hmore : a = .ok .more → past = all) :
    ∃ stop, run P H 1 w h = some stop ∧
      stop.EndsAs a ⟨(Machine.step P H s h).state.settle a, (Machine.step P H s h).host⟩ := by
  have hv : (Machine.step P H s h).verdict ≠ .await ∨ past = all := by
    by_cases hawait : (Machine.step P H s h).verdict = .await
    · rw [hawait] at ha
      exact .inr (hmore (Option.some.inj ha).symm)
    · exact .inl hawait
  have heq := hb.step_eq hH hv
  have ha' : (Machine.step P H w h).verdict.answer? = some a := by
    rw [heq]
    exact ha
  exact ⟨_, run_of_answer ha', rfl, by rw [heq]; rfl, by rw [heq]; rfl⟩

/-- The second machine goes along with a call. -/
theorem exists_call (hH : H.Oblivious) {p r : Parser σ τ} {t : τ} {fuel : Nat} {a : Except ParseError Feed}
    (hp : p.state.status = .running) (hb : Beside P H all (p.state.receive t) p.host past w)
    (hf : p.feed P H fuel t = some (a, r)) :
    ∃ s' h' w', Steps P H w p.host w' h' ∧ Beside P H all s' h' past w' ∧
      (Machine.step P H s' h').verdict.answer? = some a ∧
      r = ⟨(Machine.step P H s' h').state.settle a, (Machine.step P H s' h').host⟩ := by
  obtain ⟨s', h', hsteps, ha, rfl⟩ := Parser.exists_steps_of_feed hp hf
  obtain ⟨trace, cs, hm⟩ := hsteps.moves
  obtain ⟨w', hsteps', hb'⟩ := hb.moves hH hm (by rw [List.append_nil]; exact hb.before)
  rw [List.append_nil] at hb'
  exact ⟨s', h', w', hsteps', hb', ha, rfl⟩

/-- If the call ends with the first machine waiting, the next call begins with both side by side. -/
theorem next (hb : Beside P H all s h past w) (ha : (Machine.step P H s h).verdict.answer? = some (.ok .more)) {t : τ}
    {ts : List τ} (hall : past ++ t :: ts = all) :
    ((Machine.step P H s h).state.settle (.ok .more)).status = .running ∧ (Machine.step P H s h).host = h ∧
      past ++ [t] ++ ts = all ∧
      Beside P H all (((Machine.step P H s h).state.settle (.ok .more)).receive t) (Machine.step P H s h).host
        (past ++ [t]) w := by
  have hv : (Machine.step P H s h).verdict = .await := Verdict.answer?_eq_more ha
  have hall' : past ++ [t] ++ ts = all := by rw [← hall, List.append_assoc]; rfl
  exact ⟨(step_frame s h).2.trans hb.visits.status, (effect_of_verdict hv).waited.2.1, hall',
    hb.feed hv (hall' ▸ List.prefix_append _ _)⟩

/-- **The second machine stops as the calls of the first one end.** -/
theorem run_of_feeds (hH : H.Oblivious) {p q : Parser σ τ} {t : τ} {ts : List τ} {as : List (Except ParseError Feed)}
    (hp : p.state.status = .running) (hb : Beside P H all (p.state.receive t) p.host past w) (hall : past ++ ts = all)
    (hf : p.Feeds P H (t :: ts) as q) :
    ∃ fuel stop, run P H fuel w p.host = some stop ∧ stop.EndsAs (outcome as) q := by
  induction ts generalizing p t past w as with
  | nil =>
    cases hf with
    | cons hfeed hrest =>
      cases hrest
      obtain ⟨s', h', w', hsteps, hb', ha, rfl⟩ := hb.exists_call hH hp hfeed
      obtain ⟨stop, hr, hstop⟩ := hb'.exists_stop hH ha fun _ => by rw [← hall, List.append_nil]
      obtain ⟨fuel, hr'⟩ := hsteps.run hr
      exact ⟨fuel, stop, hr', by rwa [outcome_singleton]⟩
  | cons t' ts ih =>
    cases hf with
    | @cons _ r _ _ _ _ a as hfeed hrest =>
      obtain ⟨s', h', w', hsteps, hb', ha, rfl⟩ := hb.exists_call hH hp hfeed
      by_cases hmore : a = .ok .more
      · subst hmore
        obtain ⟨hstatus, hhost, hall', hb''⟩ := hb'.next ha hall
        obtain ⟨fuel, stop, hr, hstop⟩ := ih hstatus hb'' hall' hrest
        rw [hhost] at hr
        obtain ⟨fuel', hr'⟩ := hsteps.run hr
        exact ⟨fuel', stop, hr', hstop⟩
      · -- the parse has ended, and the tokens that are left are refused
        have hended := status_settle (s := (Machine.step P H s' h').state) hmore
        obtain ⟨-, rfl⟩ := hrest.unique (Parser.feeds_finished hended _)
        obtain ⟨stop, hr, hstop⟩ := hb'.exists_stop hH ha fun h => absurd h hmore
        obtain ⟨fuel, hr'⟩ := hsteps.run hr
        exact ⟨fuel, stop, hr', by rwa [outcome_cons hmore]⟩

/-- If the second machine stops within some number of steps, the first one comes to the end of a call within that number, and the
second one is beside it or stops with it. -/
theorem exists_run (hH : H.Oblivious) (hb : Beside P H all s h past w) {n : Nat} {stop : Stop σ τ}
    (hr : run P H n w h = some stop) :
    ∃ s' h' w' a, run P H n s h = some ⟨a, (Machine.step P H s' h').state, (Machine.step P H s' h').host⟩ ∧
      (Machine.step P H s' h').verdict.answer? = some a ∧ Beside P H all s' h' past w' ∧ run P H n w' h' = some stop := by
  induction n generalizing s w h with
  | zero => cases hr
  | succ n ih =>
    cases ha : (Machine.step P H s h).verdict.answer? with
    | some a => exact ⟨s, h, w, a, run_le (Nat.succ_le_succ (Nat.zero_le n)) (run_of_answer ha), ha, hb, hr⟩
    | none =>
      have hv := Verdict.answer?_eq_none ha
      obtain ⟨hv', hhost, hb'⟩ := hb.proceed hH hv
      rw [run, hv'] at hr
      dsimp only at hr
      rw [hhost] at hr
      obtain ⟨s', h', w', a, hrun, ha', hb'', hr'⟩ := ih hb' hr
      refine ⟨s', h', w', a, ?_, ha', hb'', run_succ hr'⟩
      rw [run, hv]
      exact hrun

/-- **The calls return if the second machine stops.** -/
theorem feeds_of_run (hH : H.Oblivious) {p : Parser σ τ} {t : τ} {ts : List τ} {fuel : Nat} {stop : Stop σ τ}
    (hp : p.state.status = .running) (hb : Beside P H all (p.state.receive t) p.host past w) (hall : past ++ ts = all)
    (hr : run P H fuel w p.host = some stop) : ∃ as q, p.Feeds P H (t :: ts) as q := by
  induction ts generalizing p t past w fuel with
  | nil =>
    obtain ⟨s', h', w', a, hrun, -⟩ := hb.exists_run hH hr
    exact ⟨_, _, .cons ((Parser.feed_eq_some_iff hp).2 ⟨_, hrun, rfl, rfl⟩) (.nil _)⟩
  | cons t' ts ih =>
    obtain ⟨s', h', w', a, hrun, ha, hb', hr'⟩ := hb.exists_run hH hr
    have hfeed := (Parser.feed_eq_some_iff hp).2 ⟨_, hrun, rfl, rfl⟩
    by_cases hmore : a = .ok .more
    · subst hmore
      obtain ⟨hstatus, hhost, hall', hb''⟩ := hb'.next ha hall
      rw [← hhost] at hr'
      obtain ⟨as, q, hq⟩ := ih (p := ⟨(Machine.step P H s' h').state.settle (.ok .more), (Machine.step P H s' h').host⟩)
        hstatus hb'' hall' hr'
      exact ⟨_, q, .cons hfeed hq⟩
    · exact ⟨_, _, .cons hfeed (Parser.feeds_finished (status_settle hmore) _)⟩

end Beside

/-- In the beginning both machines are side by side. -/
theorem beside_start (P : Program) (H : Host σ τ) (p : Parser σ τ) (symbol : Nat) (buildTree : Bool) (t : τ) (ts : List τ) :
    Beside P H (t :: ts) ((p.start P symbol buildTree).state.receive t) p.host [t]
      ((t :: ts).foldl State.receive (p.start P symbol buildTree).state) := by
  obtain ⟨w, n, heq, hbase, hshows⟩ := exists_onWindow_of_foldl (p.start P symbol buildTree).state (t :: ts)
  rw [heq]
  exact ⟨.intro ((Parser.Reachable.new p.host).start symbol buildTree) rfl (.refl _ _), ⟨ts, rfl⟩,
    hshows [] TokenWindow.shows_empty, hbase, fun _ => rfl⟩

/-- **Feeding tokens one by one is parsing with all of them at hand.** For every program, every host that does not count
tokens and all tokens: both ways of parsing make the same callbacks, in the same order, and these see the same; one ends if
and only if the other does, and then with the same outcome and in the same state, but for the tokens. -/
theorem whole_of_feeds (P : Program) {H : Host σ τ} (hH : H.Oblivious)
    (p : Parser (σ × List (Event × Glimpse τ × Bool)) τ) (symbol : Nat) (buildTree : Bool) (ts : List τ) :
    (∀ g, (p.start P symbol buildTree).Reaches P H.observing ts g ↔
      (p.start P symbol buildTree).ReachesWhole P H.observing ts g) ∧
    (∀ {as q}, (p.start P symbol buildTree).Feeds P H.observing ts as q →
      ∃ fuel stop, (p.start P symbol buildTree).feedWhole P H.observing fuel ts = some stop ∧
        stop.answer = outcome as ∧ stop.host = q.host ∧
        stop.state = q.state.onWindow stop.state.window stop.state.stats.tokens) ∧
    ∀ {fuel stop}, (p.start P symbol buildTree).feedWhole P H.observing fuel ts = some stop →
      ∃ as q, (p.start P symbol buildTree).Feeds P H.observing ts as q := by
  cases ts with
  | nil =>
    refine ⟨fun g => ⟨?_, fun h => absurd rfl h.1⟩, fun {as q} hf => ?_, fun _ => ⟨_, _, .nil _⟩⟩
    · rintro ⟨t, past, _, _, _, ⟨rest, h⟩, -⟩
      cases h
    · cases hf
      exact ⟨0, _, rfl, rfl, rfl, rfl⟩
  | cons t ts =>
    have hb := beside_start P H.observing p symbol buildTree t ts
    have hO := hH.observing
    have hrun : (p.start P symbol buildTree).state.status = .running := rfl
    refine ⟨fun g => ⟨?_, ?_⟩, fun {as q} hf => ?_, fun {fuel stop} hr => ?_⟩
    · rintro ⟨t', past, trace, cs, s, ⟨rest, h⟩, hm⟩
      obtain ⟨rfl, rfl⟩ := List.cons.inj h
      obtain ⟨w', hsteps, -⟩ := hb.moves hO hm ⟨rest, rfl⟩
      exact ⟨List.cons_ne_nil _ _, w', hsteps⟩
    · rintro ⟨-, w', hsteps⟩
      obtain ⟨past, trace, cs, s, hpast, hm⟩ := hb.exists_moves hO rfl hsteps
      exact ⟨t, past, trace, cs, s, hpast, hm⟩
    · obtain ⟨fuel, stop, hr, hanswer, hhost, hstate⟩ := hb.run_of_feeds hO hrun rfl hf
      refine ⟨fuel, { stop with state := { stop.state with status := stop.state.status.after stop.answer } }, ?_, hanswer,
        hhost, hstate⟩
      unfold Parser.feedWhole
      exact congrArg (Option.map _) hr
    · obtain ⟨stop', hr', -⟩ := Option.map_eq_some_iff.1 hr
      exact hb.feeds_of_run hO hrun rfl hr'

/-- With only the token `2` the resolver `2 3` of the small program is tried in vain, whether the end of the input is there
from the start or not. -/
theorem probing_whole : Host.Oblivious (Host.silent (τ := Nat)) ∧ ∃ fuel stop,
    (Parser.start probing 0 false ⟨{}, ((), [])⟩).feedWhole probing Host.silent.observing fuel [2, endToken] = some stop ∧
      stop.answer = .ok .done ∧ stop.state.stats.rollbacks = 1 := by
  have hsilent : Host.Oblivious (Host.silent (τ := Nat)) := fun _ _ _ _ _ _ => rfl
  have h : ((Parser.start probing 0 false ⟨{}, ((), [])⟩).feedAll probing Host.silent.observing 20 [2, endToken]).map
      (fun r => (r.1, r.2.state.stats.rollbacks)) = some ([.ok .more, .ok .done], 1) := by decide
  obtain ⟨⟨as, q⟩, hf, e⟩ := Option.map_eq_some_iff.1 h
  obtain ⟨rfl, hrollbacks⟩ := Prod.mk.inj e
  obtain ⟨fuel, stop, hr, hanswer, -, hstate⟩ :=
    (whole_of_feeds probing hsilent ⟨{}, ((), [])⟩ 0 false [2, endToken]).2.1 (Parser.feeds_of_feedAll hf)
  exact ⟨hsilent, fuel, stop, hr, hanswer, by rw [hstate]; exact hrollbacks⟩

end PredictiveParser.Machine
