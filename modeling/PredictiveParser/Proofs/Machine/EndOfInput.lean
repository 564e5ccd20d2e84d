import PredictiveParser.Proofs.Machine.Region
import PredictiveParser.Proofs.Machine.Tracking

/-!
# The end of the input settles a parse

No production and no resolver takes the end of the input, so the machine does not move past it, except to inspect it for a
decision that began before (`Places.upTo`, `lasts_upTo`). A decision that has inspected the end of the input inspects nothing
behind it. So a call that feeds the end of the input never asks for more (`settled_of_feed`).
-/

namespace PredictiveParser

/-! ## The part of a grammar that parses come to -/

namespace Grammar

/-- The end of the input does not occur in the node. -/
def Endless (g : Grammar) (x : Node) : Prop :=
  g.HasNode x ∧ .token endToken ∉ g.items x

/-- No production and no resolver takes the end of the input. -/
structure WithoutEnd (g : Grammar) : Prop where
  productions : ¬ g.Mentions endToken
  resolvers : ∀ x ∈ g.symbols, ∀ r, x.resolver = some r → .token endToken ∉ g.items r.node

variable {g : Grammar}

theorem WithoutEnd.endless_alt (hg : g.WellFormed) (hend : g.WithoutEnd) {s : Nat} {p : Node} (hp : p ∈ (g.symbol s).alts) :
    g.Endless p :=
  ⟨hg.hasNode_alt hp, fun h => hend.productions ⟨s, p, hp, h⟩⟩

theorem WithoutEnd.endless_resolver (hg : g.WellFormed) (hend : g.WithoutEnd) {s : Nat} {r : Resolver}
    (hr : (g.symbol s).resolver = some r) : g.Endless r.node := by
  refine ⟨hg.hasNode_resolver hr, ?_⟩
  have hs := symbol_lt_of_resolver hr
  have e : g.symbol s = g.symbols[s] := by
    rw [symbol, Array.getElem?_eq_getElem hs]
    rfl
  exact hend.resolvers _ (Array.getElem_mem hs) r (e ▸ hr)

/-- The parts of a sequence without the end of the input are without it. -/
theorem Endless.of_mem (hg : g.WellFormed) {q : Nat} (hx : g.Endless (.sequence q)) {i : Item} (hi : i ∈ g.sequence q) :
    g.Endless i := by
  refine ⟨hg.hasItem_items hx.1 hi, fun h => hx.2 ?_⟩
  rw [List.mem_singleton.1 h]
  exact hi

end Grammar

namespace Tables

variable {g : Grammar} {limits : Limits} {T : Tables}

/-- Whatever the decision in the state comes to, and whatever it tries, is without the end of the input. -/
def EndlessState (T : Tables) (g : Grammar) (d : Nat) : Prop :=
  (∀ p, T.program.Decides d p → ∃ x, g.Endless x ∧ p = g.number x) ∧
    ∀ n, T.program.Asks d n → ∃ x, g.Endless x ∧ n = g.number x

/-- The node is one without the end of the input, or a decision between such. -/
def EndlessNode (T : Tables) (g : Grammar) (n : Nat) : Prop :=
  (∃ x, g.Endless x ∧ n = g.number x) ∨ ∃ d, T.program.instruction n = .decision d ∧ T.EndlessState g d

/-- **What a parse comes to in tables is without the end of the input.** -/
def endless (hg : g.WellFormed) (hend : g.WithoutEnd) (hb : g.build limits = .ok T) : T.program.Region where
  node := T.EndlessNode g
  state := T.EndlessState g
  symbol _ := True
  part := by
    rintro n m parts (⟨x, hx, rfl⟩ | ⟨d, hd, -⟩) hn hm
    · rw [instruction_of_build hb hx.1] at hn
      obtain ⟨q, rfl, rfl⟩ := Grammar.eq_sequence_of_instructionOf hn
      obtain ⟨i, hi, rfl⟩ := List.mem_map.1 hm
      exact .inl ⟨i, hx.of_mem hg hi, rfl⟩
    · cases hd.symm.trans hn
  called _ _ := trivial
  predicted := by
    intro s t p _ hp
    rcases decision_of_lookup hb hp with ⟨x, hx, rfl⟩ | ⟨d, hd, hdecides, hasks⟩
    · exact .inl ⟨x, hend.endless_alt hg hx, rfl⟩
    · refine .inr ⟨d, hd, fun m hm => ?_, fun m hm => ?_⟩
      · obtain ⟨x, hx, rfl⟩ := hdecides m hm
        exact ⟨x, hend.endless_alt hg hx, rfl⟩
      · obtain ⟨b, r, -, hr, rfl⟩ := hasks m hm
        exact ⟨r.node, hend.endless_resolver hg hr, rfl⟩
  fallback := by
    intro s p _ hp
    obtain ⟨x, hx, rfl⟩ := alternative_of_empty hb hp
    exact .inl ⟨x, hend.endless_alt hg hx, rfl⟩
  decision := by
    rintro n d (⟨x, hx, rfl⟩ | ⟨d', hd', hstate⟩) hn
    · rw [instruction_of_build hb hx.1] at hn
      exact absurd hn (Grammar.instructionOf_ne_decision x d)
    · cases hd'.symm.trans hn
      exact hstate
  leaf hd h := .inl (hd.1 _ (.leaf h))
  default hd h := .inl (hd.1 _ (.default h))
  transition hd h ht := ⟨fun p hp => hd.1 p (.transition h ht hp), fun n hn => hd.2 n (.transition h ht hn)⟩
  resolver hd h := ⟨.inl (hd.2 _ (.resolver h)), .inl (hd.1 _ (.accept h))⟩
  otherwiseState hd h := ⟨fun p hp => hd.1 p (.otherwise h hp), fun n hn => hd.2 n (.otherwise h hn)⟩
  otherwiseNode hd h := .inl (hd.1 _ (.node h))

/-- No node of it matches the end of the input. -/
theorem EndlessNode.instruction_ne (hb : g.build limits = .ok T) {n : Nat} (hn : T.EndlessNode g n) :
    T.program.instruction n ≠ .token endToken := by
  rintro h
  rcases hn with ⟨x, hx, rfl⟩ | ⟨d, hd, -⟩
  · rw [instruction_of_build hb hx.1] at h
    rcases x with _ | (t | _ | _ | _ | _) | _ <;> cases h
    exact hx.2 (List.mem_singleton_self _)
  · cases hd.symm.trans h

end Tables

namespace Machine

variable {σ τ : Type} [Terminal τ] {P : Program} {H : Host σ τ} {s : State τ} {h : σ} {past : List τ}

/-! ## The machine heeds the end of the input -/

/-- The machine has not moved past the position `e`, except within a decision that began before, and goes back before it
wherever it goes back to. -/
def Places.upTo (e : Nat) : Places where
  here _ position := position ≤ e
  deciding _ entry _ := entry ≤ e
  waiting ep := ep.entry ≤ e

/-- A terminal that is not the end of the input does not accept it. -/
theorem accepts_endToken {expected : Nat} (h : expected ≠ endToken) : accepts expected endToken = false := by
  unfold accepts
  split
  · simp
  · exact beq_eq_false_iff_ne.2 h.symm

/-- **Every step heeds the end of the input,** where no node matches it. -/
theorem lasts_upTo (P : Program) {e : Nat} {x : τ} (hx : past[e]? = some x) (hid : Terminal.id x = endToken) :
    (Places.upTo e).Lasts P past fun n => P.instruction n ≠ .token endToken where
  entered _ h := h
  matched := by
    intro n expected c p t hnode hn ht haccepts h
    have hne : p ≠ e := by
      rintro rfl
      cases hx.symm.trans ht
      have hexpected : expected ≠ endToken := fun he => hnode (he ▸ hn)
      rw [hid, accepts_endToken hexpected] at haccepts
      cases haccepts
    exact Nat.lt_of_le_of_ne h hne
  began _ _ h := h
  followed _ _ _ h := h
  decided h := h
  attempted _ h := h
  returned h := h
  resumed _ h := h

/-- The machine heeds the end of the input wherever it was fed. -/
def State.HeedsEnds (past : List τ) (s : State τ) : Prop :=
  ∀ e x, past[e]? = some x → Terminal.id x = endToken → (Places.upTo e).Holds s

/-- **In a region whose nodes do not match the end of the input a parse heeds it.** -/
theorem kept_heeds (R : P.Region) (hR : ∀ n, R.node n → P.instruction n ≠ .token endToken) (H : Host σ τ) :
    Kept P H (fun past s => s.status = .running → s.Stays R ∧ s.Retains ∧ s.window.Shows past ∧ s.HeedsEnds past)
      fun past s => s.Stays R ∧ s.HeedsEnds past where
  receive := by
    intro past s t hrunning hs
    obtain ⟨hstays, hr, hw, hs⟩ := hs hrunning
    refine ⟨hstays.congr rfl rfl, fun e x hx hid => ?_⟩
    rcases Nat.lt_or_ge e past.length with hlt | hge
    · rw [List.getElem?_append_left hlt] at hx
      exact (hs e x hx hid).congr ⟨rfl, rfl, rfl, rfl⟩
    · -- the machine goes back to nothing that was not fed yet
      rw [← hw.stop] at hge
      exact Places.Holds.imp hr ⟨rfl, rfl, rfl, rfl⟩ (fun h => Nat.le_trans h.2.2 hge)
        (fun h => Nat.le_trans (Nat.le_trans h.2.1 h.2.2) hge) fun h => Nat.le_trans (Nat.le_trans h.2.1 h.2.2) hge
  step := by
    intro past s h hv hp hs
    have he := effect_of_verdict hp
    refine ⟨he.stays hv.balanced hs.1, fun e x hx hid => ?_⟩
    exact (lasts_upTo P hx hid).step he hv.balanced hv.shows (fun n hn => hR n (hs.1.frames _ hn)) (hs.2 e x hx hid)
  settle := by
    intro past s h a hv ha hs hrunning
    obtain ⟨rfl, hwaits⟩ := await_of_running ha hrunning
    have hr := (invariant_retains P H).within_of_visits hv
    rw [(effect_of_verdict hwaits).waited.1]
    refine ⟨hs.1.congr (stack_advance s) (episodes_advance s), (hr.advance.settle _).1, ?_, fun e x hx hid => ?_⟩
    · have hw := hv.shows
      rw [← window_advance s] at hw
      exact hw.release _
    · exact ((hs.2 e x hx hid).advance id).congr ⟨rfl, rfl, rfl, rfl⟩
  takeTree := by
    intro past s hs hrunning
    obtain ⟨hstays, hr, hw, hs⟩ := hs hrunning
    exact ⟨hstays.congr rfl rfl, hr.congr ⟨rfl, rfl, rfl, rfl⟩, hw, fun e x hx hid =>
      (hs e x hx hid).congr ⟨rfl, rfl, rfl, rfl⟩⟩

/-- A machine that heeds the end of the input waits behind it only within a decision that has inspected it. -/
theorem exists_reads_of_await {e : Nat} {x : τ} (hv : Visits P H s h past) (hwaits : (step P H s h).verdict = .await)
    (hx : past[e]? = some x) (hid : Terminal.id x = endToken) (hs : (Places.upTo e).Holds s) :
    ∃ n d d' ts default?, P.instruction n = .decision d ∧ P.Reads d ts d' ∧ P.dfa d' = .switch default? ∧ endToken ∈ ts := by
  obtain ⟨f, rest, hstack, hlooks⟩ := exists_looks_of_await hwaits
  obtain ⟨-, -, hnext⟩ := (effect_of_verdict hwaits).waited
  have hr := (invariant_retains P H).within_of_visits hv
  have hposition := hr.position_eq hv.shows hnext
  have hlt : e < s.position := by
    rw [hposition, hv.shows.stop]
    exact (List.getElem?_eq_some_iff.1 hx).1
  by_cases hdeciding : ∃ d entry, f = .lookahead d entry
  · obtain ⟨d, entry, rfl⟩ := hdeciding
    obtain ⟨default?, hd⟩ := hlooks
    obtain ⟨hm, n, d₀, ts, hn, hreads, hcursor, hts⟩ := hv.tracked.deciding hstack
    have hlength : s.position = entry + ts.length := by rw [State.position, hm]; exact hcursor
    have hentry : entry ≤ e := (hs.deciding hstack).2
    have hi : e - entry < ts.length := by omega
    refine ⟨n, d₀, d, ts, default?, hn, hreads, hd, List.mem_iff_getElem.2 ⟨e - entry, hi, ?_⟩⟩
    have hget : ((past.drop entry).map Terminal.id)[e - entry]? = some endToken := by
      rw [List.getElem?_map, List.getElem?_drop, Nat.add_sub_cancel' hentry, hx, Option.map_some, hid]
    obtain ⟨rest, e⟩ := hts
    rw [← e, List.getElem?_append_left hi, List.getElem?_eq_getElem hi] at hget
    exact Option.some.inj hget
  · have hle : s.position ≤ e := hs.here fun d entry rest' h => hdeciding ⟨d, entry, (List.cons.inj (hstack.symm.trans h)).1⟩
    omega

end Machine

namespace Machine

variable {σ τ : Type} [Terminal τ] {g : Grammar} {limits : Limits} {T : Tables}

/-- **The end of the input always settles a parse.** If no production and no resolver of a grammar takes the end of the
input, then in a parse of any of its symbols a call that feeds it, if it returns, accepts the input or fails, whatever was fed
before. -/
theorem settled_of_feed (hg : g.WellFormed) (hend : g.WithoutEnd) (hb : g.build limits = .ok T) {H : Host σ τ} {symbol : Nat}
    (hsymbol : symbol < g.symbolCount) {p q : Parser σ τ} {past : List τ} {fuel : Nat} {t : τ} {a : Except ParseError Feed}
    (hp : p.Parses T.program H symbol past) (hrunning : p.state.status = .running) (ht : Terminal.id t = endToken)
    (hf : p.feed T.program H fuel t = some (a, q)) : a = .ok .done ∨ ∃ error, a = .error error := by
  have hroot : (Tables.endless hg hend hb).node (T.program.symbolNode symbol) := by
    rw [Tables.symbolNode_of_build hb hsymbol]
    exact .inl ⟨Item.symbol symbol, ⟨hsymbol, by simp [Grammar.items]⟩, rfl⟩
  have hkept := kept_heeds (Tables.endless hg hend hb) (fun n hn => Tables.EndlessNode.instruction_ne hb hn) H
  have hbetween := hkept.between_of_parses (fun buildTree _ => ⟨State.stays_initial hroot buildTree, ?_⟩) hp
  · obtain ⟨-, s, h, hv, ⟨-, hs⟩, ha⟩ := hkept.exists_visits hp.reachable hrunning hbetween hf
    rcases a with error | (_ | _)
    · exact .inr ⟨error, rfl⟩
    · exfalso
      have hlast : (past ++ [t])[past.length]? = some t := by simp
      obtain ⟨n, d, d', ts, default?, hn, hreads, hd, hmem⟩ :=
        exists_reads_of_await hv (Verdict.answer?_eq_more ha) hlast ht (hs _ t hlast ht)
      exact Tables.endToken_notMem_of_reads hb hend.productions hn hreads hd hmem
    · exact .inl rfl
  · have hstart := ((invariant_retains T.program H).start symbol buildTree).1
    exact ⟨hstart, TokenWindow.shows_empty, fun i t hget => by cases hget⟩

/-- On an `a` a resolver looks for a `b` behind it: `S → P | Q`, `P → a`, `Q → a`, with the resolver `a b` of `P`. -/
def guarded : Grammar where
  tokens := .letters
  symbols := #[{ name := "S", alts := [Item.symbol 1, Item.symbol 2] },
    { name := "P", alts := [Item.token 2], resolver := some ⟨.sequence 0, 1⟩ }, { name := "Q", alts := [Item.token 2] }]
  sequences := #[[.token 2, .token 3]]
  actions := {}
  arguments := {}
  beacons := {}
  start := 0

/-- The resolver waits for the `b`, and the end of the input comes. -/
theorem guarded_settled : ∃ T, guarded.build = .ok T ∧ ∃ p q : Parser Unit Nat, ∃ a, p.Parses T.program Host.silent 0 [2] ∧
    p.state.isSpeculating = true ∧ p.feed T.program Host.silent 20 0 = some (a, q) ∧
      (a = .ok .done ∨ ∃ error, a = .error error) := by
  have h : guarded.build.toOption.any fun T =>
      ((Parser.start T.program 0 false ⟨{}, ()⟩ : Parser Unit Nat).feed T.program Host.silent 20 2).any fun r =>
        r.2.state.status = .running ∧ r.2.state.isSpeculating = true ∧ (r.2.feed T.program Host.silent 20 0).isSome := by
    decide +kernel
  obtain ⟨T, hT, h⟩ := exists_of_any_toOption h
  obtain ⟨⟨a, p⟩, hfeed, h⟩ := Option.any_eq_true _ _ |>.1 h
  obtain ⟨hrunning, hspec, hsome⟩ := of_decide_eq_true h
  obtain ⟨⟨a', q⟩, hf⟩ := Option.isSome_iff_exists.1 hsome
  have hp : p.Parses T.program Host.silent 0 [2] := (Parser.Parses.start ⟨{}, ()⟩ false).feed rfl hfeed
  have hend : guarded.WithoutEnd := ⟨by decide, by decide⟩
  exact ⟨T, hT, p, q, a', hp, hspec, hf, settled_of_feed (by decide) hend hT (by decide) hp hrunning rfl hf⟩

end Machine

end PredictiveParser
