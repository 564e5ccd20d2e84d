import PredictiveParser.Proofs.Decision.Limits
import PredictiveParser.Proofs.Decision.Reading
import PredictiveParser.Proofs.Machine.Resumption

/-!
# Where a decision stands

A decision on top of the stack, and one that waits for a resolver, has come to its state by a walk that follows the tokens
from where the decision began up to where it stands (`Places.tracked`). Every step keeps that (`lasts_tracked`), also where the
decision goes on after a failed resolver. So a bound on the walks through the automata bounds how far the cursor is from the
beginning of a decision, and with it what is retained outside of episodes (`bounded_of_build`).
-/

namespace PredictiveParser

/-- A list that some other begins with goes on with the next element of that. -/
theorem prefix_append_of_getElem? {α : Type} {xs ys : List α} {y : α} (h : xs <+: ys) (hy : ys[xs.length]? = some y) :
    xs ++ [y] <+: ys := by
  obtain ⟨zs, rfl⟩ := h
  cases zs with
  | nil => simp at hy
  | cons z zs =>
    obtain rfl : z = y := by simpa using hy
    exact ⟨zs, by simp⟩

namespace Machine

variable {σ τ : Type} [Terminal τ] {P : Program} {H : Host σ τ} {s : State τ} {h : σ} {past : List τ}

/-! ## Walks over the tokens that were fed -/

/-- A decision that began at the position `entry` gets to the state `d` at the position `k`: a walk from its first state
follows the tokens in between. -/
def Arrives (P : Program) (past : List τ) (entry d k : Nat) : Prop :=
  ∃ n d₀ ts, P.instruction n = .decision d₀ ∧ P.Reads d₀ ts d ∧ k = entry + ts.length ∧
    ts <+: (past.drop entry).map Terminal.id

theorem Arrives.begin {n d : Nat} (past : List τ) (k : Nat) (hn : P.instruction n = .decision d) :
    Arrives P past k d k :=
  ⟨n, d, [], hn, .refl d, rfl, List.nil_prefix⟩

/-- One more token is followed. -/
theorem Arrives.follow {entry d d' k : Nat} {t : τ} {default? : Option Nat} (ha : Arrives P past entry d k)
    (hd : P.dfa d = .switch default?) (hk : past[k]? = some t) (ht : P.transition d (Terminal.id t) = some d') :
    Arrives P past entry d' (k + 1) := by
  obtain ⟨n, d₀, ts, hn, hr, rfl, hts⟩ := ha
  refine ⟨n, d₀, ts ++ [Terminal.id t], hn, hr.trans (.follow hd ht (.refl d')), by simp [Nat.add_assoc], ?_⟩
  exact prefix_append_of_getElem? hts (by simp [hk])

/-- A resolver is passed on from. -/
theorem Arrives.onward {entry d d' k n p : Nat} (ha : Arrives P past entry d k)
    (hd : P.dfa d = .resolver n p (some (.dfa d'))) : Arrives P past entry d' k := by
  obtain ⟨m, d₀, ts, hm, hr, hk, hts⟩ := ha
  refine ⟨m, d₀, ts, hm, ?_, hk, hts⟩
  rw [← List.append_nil ts]
  exact hr.trans (.onward hd (.refl d'))

/-- More tokens leave a walk as it is. -/
theorem Arrives.append {entry d k : Nat} (ha : Arrives P past entry d k) (more : List τ) :
    Arrives P (past ++ more) entry d k := by
  obtain ⟨n, d₀, ts, hn, hr, hk, hts⟩ := ha
  refine ⟨n, d₀, ts, hn, hr, hk, hts.trans ?_⟩
  rw [List.drop_append, List.map_append]
  exact List.prefix_append _ _

/-- The decision on top, and those that wait for a resolver, stand where a walk over the tokens gets to. -/
def Places.tracked (P : Program) (past : List τ) : Places where
  here _ _ := True
  deciding d entry cursor := Arrives P past entry d cursor
  waiting e := ∀ d, e.otherwise = some (.dfa d) → Arrives P past e.entry d e.resume

/-- **Decisions stay on the tokens that they follow.** -/
theorem lasts_tracked (P : Program) (past : List τ) : (Places.tracked P past).Lasts P past fun _ => True where
  entered _ h := h
  matched _ _ _ _ h := h
  began hn _ _ := .begin past _ hn
  followed hd ht htransition h := h.follow hd ht htransition
  decided _ := trivial
  attempted hd h _ hd' := h.onward (hd.trans (congrArg _ hd'))
  returned _ := trivial
  resumed hotherwise h := h _ hotherwise

/-- In a running parse decisions stand where the tokens lead them. -/
theorem invariant_tracked (P : Program) (H : Host σ τ) :
    Invariant P H (fun past s => s.status = .running → (Places.tracked P past).Holds s) fun past s =>
      (Places.tracked P past).Holds s where
  new h := by cases h
  start _ _ _ := ⟨fun _ => trivial, nofun, nofun⟩
  receive := by
    intro past s t hrunning hs
    exact (hs hrunning).imp ⟨rfl, rfl, rfl, rfl⟩ id (fun h => h.append [t]) fun h d hd => (h d hd).append [t]
  step hv hp hs := (lasts_tracked P _).step (effect_of_verdict hp) hv.balanced hv.shows (fun _ _ => trivial) hs
  settle := by
    intro past s h a hv ha hs hrunning
    obtain ⟨rfl, hwaits⟩ := await_of_running ha hrunning
    rw [(effect_of_verdict hwaits).waited.1]
    exact (hs.advance id).congr ⟨rfl, rfl, rfl, rfl⟩
  takeTree hs hrunning := (hs hrunning).congr ⟨rfl, rfl, rfl, rfl⟩

theorem Visits.tracked (hv : Visits P H s h past) : (Places.tracked P past).Holds s :=
  (invariant_tracked P H).within_of_visits hv

/-! ## What is retained outside of episodes -/

omit [Terminal τ] in
/-- Where the machine waits it has come to the end of what was fed. -/
theorem State.Retains.position_eq (hr : s.Retains) (hw : s.window.Shows past) (hnext : s.next? = none) :
    s.position = s.window.stop := by
  have hbase : s.window.base ≤ s.position := Nat.le_trans (hr.base_le _ (.inl rfl)) (Nat.le_add_right _ _)
  have hget : past[s.position]? = none := (hw.get? _ hbase).symm.trans hnext
  refine Nat.le_antisymm hr.position_le ?_
  rw [hw.stop]
  exact List.getElem?_eq_none_iff.1 hget

/-- **Outside of episodes the machine retains, while it waits, the tokens that the decision on top has followed,** and
nothing without one. -/
theorem buffered_of_await (hv : Visits P H s h past) (hwaits : (step P H s h).verdict = .await) (hepisodes : s.episodes = []) :
    ((step P H s h).state.settle (.ok .more)).buffered = 0 ∨
      ∃ n d d' ts default?, P.instruction n = .decision d ∧ P.Reads d ts d' ∧ P.dfa d' = .switch default? ∧
        ((step P H s h).state.settle (.ok .more)).buffered = ts.length := by
  obtain ⟨f, rest, hstack, hlooks⟩ := exists_looks_of_await hwaits
  obtain ⟨hstate, -, hnext⟩ := (effect_of_verdict hwaits).waited
  have hr := (invariant_retains P H).within_of_visits hv
  have hposition := hr.position_eq hv.shows hnext
  obtain ⟨-, hbase⟩ := hr.advance.settle (.ok .more)
  rw [hstate]
  have hstop : (s.advance.settle (.ok .more)).window.stop = s.position := by
    rw [hposition, ← window_advance s]
    exact TokenWindow.stop_release _ _
  have hbuffered : (s.advance.settle (.ok .more)).buffered = s.position - s.advance.lowWater := by
    rw [← hstop, ← hbase]
    exact (Nat.add_sub_cancel_left _ _).symm
  rw [hbuffered]
  unfold State.lowWater
  rw [episodes_advance, hepisodes, stack_advance, hstack, cursor_advance, List.foldl_nil]
  by_cases hdeciding : ∃ d entry, f = .lookahead d entry
  · obtain ⟨d, entry, rfl⟩ := hdeciding
    obtain ⟨default?, hd⟩ := hlooks
    obtain ⟨hm, n, d₀, ts, hn, hreads, hcursor, -⟩ := hv.tracked.deciding hstack
    have hlength : s.position = entry + ts.length := by rw [State.position, hm]; exact hcursor
    exact .inr ⟨n, d₀, d, ts, default?, hn, hreads, hd, by dsimp only; omega⟩
  · refine .inl ?_
    split
    · next e => exact absurd ⟨_, _, (List.cons.inj e).1⟩ hdeciding
    · exact Nat.sub_self _

end Machine

theorem Conflict.limit_le_lookahead (g : Grammar) (limits : Limits) (c : Conflict) : c.limit g limits ≤ limits.lookahead := by
  unfold limit
  cases c.lookahead? g with
  | none => exact Nat.le_refl _
  | some k => exact Nat.min_le_right _ _

namespace Machine

variable {σ τ : Type} [Terminal τ] {g : Grammar} {limits : Limits} {T : Tables}

/-- **Buffering is bounded outside of speculation.** Where a call asks for more tokens and no episode is open, fewer tokens
are retained than the limit on the lookahead, and none without automata. A decision inspects at most as many tokens as its
conflict allows, also across the else branches of resolvers; and wherever a decision is on top of the stack, it has followed
the tokens from where it began. -/
theorem bounded_of_build (hb : g.build limits = .ok T) (H : Host σ τ) :
    (∀ {p q : Parser σ τ} {past : List τ} {fuel : Nat} {t : τ}, p.Reachable T.program H past →
      p.feed T.program H fuel t = some (.ok .more, q) → q.state.isSpeculating = false →
        q.state.buffered < max 1 limits.lookahead ∧ (T.dfas = #[] → q.state.buffered = 0)) ∧
    (∀ {n d : Nat}, T.program.instruction n = .decision d →
      ∃ s t c, (PredictionTable.fill g g.analyze).cell s t = .conflict c ∧ T.program.lookup s t = some n ∧
        ∀ ts d', T.program.Reads d ts d' → ts.length ≤ c.limit g limits ∧
          ∀ default?, T.program.dfa d' = .switch default? → ts.length < c.limit g limits) ∧
    ∀ {s : State τ} {h : σ} {past : List τ} {d entry : Nat} {rest : List Frame}, Visits T.program H s h past →
      s.stack = .lookahead d entry :: rest → s.matched = false ∧ ∃ n d₀ ts, T.program.instruction n = .decision d₀ ∧
        T.program.Reads d₀ ts d ∧ s.cursor = entry + ts.length ∧ ts <+: (past.drop entry).map Terminal.id := by
  refine ⟨fun {p q past fuel t} hp hf hspec => ?_, fun hn => Tables.length_le_of_reads hb hn,
    fun hv hstack => hv.tracked.deciding hstack⟩
  have hrunning : p.state.status = .running := by
    by_contra hnot
    rcases (Parser.feed_refused hnot hf).2 with e | e <;> cases e
  obtain ⟨s, h, hv, ha, rfl⟩ := hp.exists_visits hrunning hf
  have hwaits := Verdict.answer?_eq_more ha
  have hepisodes : s.episodes = [] := by
    have hnone : (step T.program H s h).state.episodes = [] := by
      by_contra hne
      have hspec' : ((step T.program H s h).state.settle (.ok .more)).isSpeculating = true := isSpeculating_iff.2 hne
      rw [hspec] at hspec'
      cases hspec'
    rwa [(effect_of_verdict hwaits).waited.1, episodes_advance] at hnone
  rcases buffered_of_await hv hwaits hepisodes with hzero | ⟨n, d, d', ts, default?, hn, hreads, hd', hlength⟩
  · exact ⟨by dsimp only; omega, fun _ => hzero⟩
  · obtain ⟨_, _, c, -, -, hbound⟩ := Tables.length_le_of_reads hb hn
    have hlt := (hbound ts d' hreads).2 default? hd'
    have hle := c.limit_le_lookahead g limits
    refine ⟨by dsimp only; omega, fun hnone => ?_⟩
    rw [Tables.dfa_eq_leaf (by rw [hnone]; rfl)] at hd'
    cases hd'

/-- With three tokens of lookahead two may be retained. -/
theorem forking_bounded : ∃ T, Grammar.forking.build ⟨3, 1⟩ = .ok T ∧ ∃ p q : Parser Unit Nat,
    p.Reachable T.program Host.silent [2] ∧ p.feed T.program Host.silent 20 2 = some (.ok .more, q) ∧
      q.state.isSpeculating = false ∧ q.state.buffered = 2 ∧ q.state.buffered < max 1 3 := by
  have h : (Grammar.forking.build ⟨3, 1⟩).toOption.any fun T =>
      ((Parser.start T.program 0 false ⟨{}, ()⟩ : Parser Unit Nat).feed T.program Host.silent 20 2).any fun r =>
        (r.2.feed T.program Host.silent 20 2).any fun r' =>
          r'.1 = .ok .more ∧ r'.2.state.isSpeculating = false ∧ r'.2.state.buffered = 2 := by decide +kernel
  obtain ⟨T, hT, h⟩ := exists_of_any_toOption h
  obtain ⟨⟨a, p⟩, hp, h⟩ := Option.any_eq_true _ _ |>.1 h
  obtain ⟨⟨a', q⟩, hq, h⟩ := Option.any_eq_true _ _ |>.1 h
  obtain ⟨rfl, hspec, hbuffered⟩ := of_decide_eq_true h
  have hreach : p.Reachable T.program Host.silent [2] := ((Parser.Reachable.new ()).start 0 false).feed rfl hp
  exact ⟨T, hT, p, q, hreach, hq, hspec, hbuffered, ((bounded_of_build hT Host.silent).1 hreach hq hspec).1⟩

end Machine

end PredictiveParser
