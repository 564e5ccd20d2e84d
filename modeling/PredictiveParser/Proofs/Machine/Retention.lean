import Mathlib.Order.Bounds.Defs
import PredictiveParser.Proofs.Machine.Cursor

/-!
# Retained tokens

The cursor goes back to where an open episode or the decision on top began, and to where a resolver was reached. All these
places are retained (`State.Retains`), since a resolver is reached behind the beginning of its decision; every step keeps
that (`Effect.retains`). So the machine only looks at tokens that were fed and not released, and between calls the oldest
retained position is the least that may be gone back to (`retained_of_calls`).
-/

namespace PredictiveParser.Machine

variable {σ τ : Type}

/-! ## The lowest position -/

/-- The current position, and the positions where open episodes and a decision on top began. -/
def State.anchors (s : State τ) : Set Nat :=
  {p | p = s.cursor ∨ (∃ e ∈ s.episodes, e.entry = p) ∨ ∃ d rest, s.stack = .lookahead d p :: rest}

theorem cursor_mem_anchors (s : State τ) : s.cursor ∈ s.anchors :=
  .inl rfl

theorem entry_mem_anchors {s : State τ} {e : Episode} (he : e ∈ s.episodes) : e.entry ∈ s.anchors :=
  .inr (.inl ⟨e, he, rfl⟩)

theorem deciding_mem_anchors {s : State τ} {d entry : Nat} {rest : List Frame}
    (hs : s.stack = .lookahead d entry :: rest) : entry ∈ s.anchors :=
  .inr (.inr ⟨d, rest, hs⟩)

theorem isLeast_foldl_entry (es : List Episode) (low : Nat) :
    IsLeast {p | p = low ∨ ∃ e ∈ es, e.entry = p} (es.foldl (fun low e => min low e.entry) low) := by
  induction es generalizing low with
  | nil => exact ⟨.inl rfl, fun p hp => Nat.le_of_eq (hp.resolve_right (by simp)).symm⟩
  | cons e es ih =>
    obtain ⟨hmem, hle⟩ := ih (min low e.entry)
    have hmin : es.foldl (fun low e => min low e.entry) (min low e.entry) ≤ min low e.entry := hle (.inl rfl)
    rw [List.foldl_cons]
    refine ⟨?_, ?_⟩
    · rcases hmem with h | ⟨i, hi, h⟩
      · rw [h]
        rcases Nat.le_total low e.entry with hlow | hlow
        · exact .inl (Nat.min_eq_left hlow)
        · exact .inr ⟨e, List.mem_cons_self, (Nat.min_eq_right hlow).symm⟩
      · exact .inr ⟨i, List.mem_cons_of_mem _ hi, h⟩
    · rintro p (rfl | ⟨i, hi, rfl⟩)
      · exact Nat.le_trans hmin (Nat.min_le_left _ _)
      · rcases List.mem_cons.1 hi with rfl | hi
        · exact Nat.le_trans hmin (Nat.min_le_right _ _)
        · exact hle (.inr ⟨i, hi, rfl⟩)

theorem isLeast_lowWater (s : State τ) : IsLeast s.anchors s.lowWater := by
  obtain ⟨hmem, hle⟩ := isLeast_foldl_entry s.episodes s.cursor
  unfold State.lowWater
  dsimp only
  generalize s.episodes.foldl (fun low e => min low e.entry) s.cursor = low at hmem hle ⊢
  have hanchor : low ∈ s.anchors := hmem.imp_right .inl
  split
  · next d entry rest hs =>
    refine ⟨?_, ?_⟩
    · rcases Nat.le_total low entry with h | h
      · rwa [Nat.min_eq_left h]
      · rw [Nat.min_eq_right h]
        exact deciding_mem_anchors hs
    · rintro p (hp | hp | ⟨d', rest', hs'⟩)
      · exact Nat.le_trans (Nat.min_le_left _ _) (hle (.inl hp))
      · exact Nat.le_trans (Nat.min_le_left _ _) (hle (.inr hp))
      · rw [hs] at hs'
        cases hs'
        exact Nat.min_le_right _ _
  · next hs =>
    refine ⟨hanchor, ?_⟩
    rintro p (hp | hp | ⟨d, rest, hs'⟩)
    · exact hle (.inl hp)
    · exact hle (.inr hp)
    · exact absurd hs' (hs d p rest)

/-! ## What is retained -/

/-- All that the cursor may go back to is between the positions `low` and `high`, and a resolver is reached behind the
beginning of its decision. -/
def Places.between (low high : Nat) : Places where
  here cursor position := low ≤ cursor ∧ cursor ≤ position ∧ position ≤ high
  deciding _ entry cursor := low ≤ entry ∧ entry ≤ cursor ∧ cursor ≤ high
  waiting e := low ≤ e.entry ∧ e.entry ≤ e.resume ∧ e.resume ≤ high

/-- All that the cursor may go back to is retained. -/
def State.Retains (s : State τ) : Prop :=
  (Places.between s.window.base s.window.stop).Holds s

namespace State.Retains

variable {s : State τ}

theorem cursor_mem (hr : s.Retains) :
    s.window.base ≤ s.cursor ∧ s.cursor ≤ s.position ∧ s.position ≤ s.window.stop := by
  rcases s.noDecision_or with hd | ⟨d, entry, rest, hs⟩
  · exact hr.here hd
  · obtain ⟨hm, hlow, hle, hhigh⟩ := hr.deciding hs
    rw [State.position_of_not_matched hm]
    exact ⟨Nat.le_trans hlow hle, Nat.le_refl _, hhigh⟩

theorem base_le (hr : s.Retains) : ∀ p ∈ s.anchors, s.window.base ≤ p := by
  rintro p (rfl | ⟨e, he, rfl⟩ | ⟨d, rest, hs⟩)
  · exact hr.cursor_mem.1
  · exact (hr.waiting e he).1
  · exact (hr.deciding hs).2.1

theorem position_le (hr : s.Retains) : s.position ≤ s.window.stop :=
  hr.cursor_mem.2.2

/-- What the cursor may go back to was fed. -/
theorem le_stop (hr : s.Retains) : ∀ p ∈ s.anchors, p ≤ s.window.stop := by
  rintro p (rfl | ⟨e, he, rfl⟩ | ⟨d, rest, hs⟩)
  · exact Nat.le_trans hr.cursor_mem.2.1 hr.position_le
  · exact Nat.le_trans (hr.waiting e he).2.1 (hr.waiting e he).2.2
  · exact Nat.le_trans (hr.deciding hs).2.2.1 (hr.deciding hs).2.2.2

/-- Moving past a matched token. -/
theorem advance (hr : s.Retains) : s.advance.Retains := by
  unfold State.Retains
  rw [window_advance]
  exact Places.Holds.advance hr fun h => ⟨Nat.le_trans h.1 h.2.1, Nat.le_refl _, h.2.2⟩

end State.Retains

variable [Terminal τ] {P : Program} {H : Host σ τ} {s : State τ} {h : σ}

omit [Terminal τ] in
/-- A token that is found is not behind the end of the window. -/
theorem position_lt_stop {past : List τ} {t : τ} (hw : s.window.Shows past) (hnext : s.next? = some t) :
    s.position < s.window.stop := by
  rw [hw.stop]
  exact (List.getElem?_eq_some_iff.1 (hw.getElem? hnext)).1

/-- The cursor does not leave what it may go back to, except for tokens that were fed. -/
theorem lasts_between (P : Program) (past : List τ) (low : Nat) :
    (Places.between low past.length).Lasts P past fun _ => True where
  entered _ h := ⟨Nat.le_trans h.1 h.2.1, Nat.le_refl _, h.2.2⟩
  matched _ _ ht _ h := ⟨Nat.le_trans h.1 h.2.1, Nat.le_succ _, (List.getElem?_eq_some_iff.1 ht).1⟩
  began _ _ h := ⟨Nat.le_trans h.1 h.2.1, Nat.le_refl _, h.2.2⟩
  followed _ ht _ h := ⟨h.1, Nat.le_succ_of_le h.2.1, (List.getElem?_eq_some_iff.1 ht).1⟩
  decided h := ⟨h.1, Nat.le_refl _, Nat.le_trans h.2.1 h.2.2⟩
  attempted _ h := h
  returned h := ⟨h.1, Nat.le_refl _, Nat.le_trans h.2.1 h.2.2⟩
  resumed _ h := h

theorem Misses.retains {b : State τ} {h' : σ} {error : ParseError} (hm : Misses P H s h b h' error) (hb : s.Balanced)
    (hr : s.Retains) : b.Retains := by
  cases hm with
  | action hs => exact hr.moved (hb.noDecision hs rfl) (List.Subset.refl _) hr.cursor_mem
  | _ => exact hr.advance

/-- **Every step keeps what the cursor may go back to.** -/
theorem Effect.retains {v : Verdict} {s' : State τ} {h' : σ} {past : List τ} (he : Effect P H s h v s' h')
    (hb : s.Balanced) (hw : s.window.Shows past) (hr : s.Retains) : s'.Retains := by
  by_cases hv : v = .proceed
  · subst hv
    unfold State.Retains at hr ⊢
    rw [he.frame.1]
    rw [hw.stop] at hr ⊢
    exact (lasts_between P past s.window.base).step he hb hw (fun _ _ => trivial) hr
  have hsame : s.episodes ⊆ s.episodes := List.Subset.refl _
  obtain ⟨hbase, hle, hstop⟩ := hr.cursor_mem
  obtain ⟨k, ht, -⟩ := id hb
  cases he with
  | empty | underflow => exact hr
  | waits | unfinished => exact hr.advance
  | accepted hs | enterRefused hs =>
    rw [advance_eq]
    exact hr.moved (hb.noDecision hs rfl) hsame ⟨Nat.le_trans hbase hle, Nat.le_refl _, hstop⟩
  | leaveRefused hs => exact hr.moved (hb.noDecision hs rfl) hsame ⟨hbase, hle, hstop⟩
  | missed hm => exact hm.retains hb hr
  | exhausted hm hes hu =>
    obtain ⟨e, hmem, hnot, hstate⟩ := hm.exhausted_eq ht hes hu
    obtain ⟨hbase, hle, hstop⟩ := hr.waiting e hmem
    have hd : s'.NoDecision := fun d entry rest hs => hnot d entry (hs ▸ List.mem_cons_self)
    rw [hstate] at hd ⊢
    exact hr.moved hd (List.nil_subset _) ⟨hbase, Nat.le_refl _, Nat.le_trans hle hstop⟩
  | _ => exact absurd rfl hv

/-! ## Calls -/

omit [Terminal τ] in
/-- Exactly what the cursor may go back to is retained. -/
theorem State.Retains.settle (hr : s.Retains) (a : Except ParseError Feed) :
    (s.settle a).Retains ∧ (s.settle a).window.base = s.lowWater := by
  obtain ⟨hmem, hle⟩ := isLeast_lowWater s
  have hbase : (s.settle a).window.base = s.lowWater := by
    have hlow := hr.base_le _ hmem
    have hstop := hr.le_stop _ hmem
    show (s.window.release s.lowWater).base = _
    rw [TokenWindow.base_release]
    omega
  have hstop : (s.settle a).window.stop = s.window.stop := TokenWindow.stop_release _ _
  refine ⟨?_, hbase⟩
  unfold State.Retains
  rw [hbase, hstop]
  exact ⟨fun hd => ⟨hle (cursor_mem_anchors s), (hr.here hd).2⟩,
    fun hs => ⟨(hr.deciding hs).1, hle (deciding_mem_anchors hs), (hr.deciding hs).2.2⟩,
    fun e he => ⟨hle (entry_mem_anchors he), (hr.waiting e he).2⟩⟩

theorem invariant_retains (P : Program) (H : Host σ τ) :
    Invariant P H (fun _ s => s.Retains ∧ s.window.base = s.lowWater) fun _ s => s.Retains where
  new := ⟨⟨fun _ => ⟨Nat.le_refl _, Nat.le_refl _, Nat.le_refl _⟩, nofun, nofun⟩, rfl⟩
  start _ _ := ⟨⟨fun _ => ⟨Nat.le_refl _, Nat.le_refl _, Nat.le_refl _⟩, nofun, nofun⟩, rfl⟩
  receive := by
    rintro past s t - ⟨hr, -⟩
    have hstop : (s.receive t).window.stop = s.window.stop + 1 := TokenWindow.stop_push _ _
    unfold State.Retains
    rw [hstop]
    exact Places.Holds.imp hr ⟨rfl, rfl, rfl, rfl⟩ (fun h => ⟨h.1, h.2.1, Nat.le_succ_of_le h.2.2⟩)
      (fun h => ⟨h.1, h.2.1, Nat.le_succ_of_le h.2.2⟩) fun h => ⟨h.1, h.2.1, Nat.le_succ_of_le h.2.2⟩
  step hv hp hr := (effect_of_verdict hp).retains hv.balanced hv.shows hr
  settle := by
    intro past s h a hv _ hr
    have hr' := (effect_step P H s h).retains hv.balanced hv.shows hr
    obtain ⟨hsettle, hbase⟩ := hr'.settle a
    refine ⟨hsettle, hbase⟩
  takeTree hr := ⟨hr.1.congr ⟨rfl, rfl, rfl, rfl⟩, hr.2⟩

/-- **Exactly the tokens that may be looked at again are retained.** Between calls the oldest retained position is the least
of the current position and those where open episodes and a decision on top began; the tokens from there on are retained and
no older ones, and all these positions, and those where resolvers were reached, are among them. Within a call the cursor
stays there, and the token at a position is the one that was fed as that. -/
theorem retained_of_calls (P : Program) (H : Host σ τ) :
    (∀ {p : Parser σ τ} {past : List τ}, p.Reachable P H past →
      IsLeast p.state.anchors p.state.window.base ∧ p.state.window.stop = past.length ∧
        (∀ i, p.state.window.get? i = if i < p.state.window.base then none else past[i]?) ∧
        (∀ i ∈ p.state.anchors, i ≤ p.state.window.stop) ∧
        ∀ e ∈ p.state.episodes, p.state.window.base ≤ e.resume ∧ e.resume ≤ p.state.window.stop) ∧
    ∀ {s : State τ} {h : σ} {past : List τ}, Visits P H s h past →
      s.window.base ≤ s.cursor ∧ s.window.base ≤ (step P H s h).state.cursor ∧
        (∀ e ∈ s.episodes, s.window.base ≤ e.entry ∧ s.window.base ≤ e.resume) ∧
        s.current? = past[s.cursor]? ∧ s.next? = past[s.position]? := by
  refine ⟨fun {p past} hp => ?_, fun {s h past} hv => ?_⟩
  · obtain ⟨hr, hbase⟩ := (invariant_retains P H).between_of_reachable hp
    have hw := (invariant_shows P H).between_of_reachable hp
    refine ⟨hbase ▸ isLeast_lowWater _, hw.stop, fun i => ?_, hr.le_stop, fun e he => ⟨?_, (hr.waiting e he).2.2⟩⟩
    · split
      · next hi => rw [TokenWindow.get?, if_pos hi]
      · next hi => exact hw.get? i (Nat.le_of_not_lt hi)
    · exact Nat.le_trans (hr.waiting e he).1 (hr.waiting e he).2.1
  · have hr := (invariant_retains P H).within_of_visits hv
    have hr' := (effect_step P H s h).retains hv.balanced hv.shows hr
    have hcursor : s.window.base ≤ s.cursor := hr.base_le _ (.inl rfl)
    have hcursor' : (step P H s h).state.window.base ≤ (step P H s h).state.cursor := hr'.base_le _ (.inl rfl)
    rw [(step_frame s h).1] at hcursor'
    refine ⟨hcursor, hcursor', fun e he => ?_, hv.shows.get? _ hcursor, hv.shows.get? _ ?_⟩
    · have hentry := (hr.waiting e he).1
      exact ⟨hentry, Nat.le_trans hentry (hr.waiting e he).2.1⟩
    · exact Nat.le_trans hcursor (Nat.le_add_right _ _)

/-- The resolver has moved on to the second token, but the decision may go back to the first. -/
theorem probing_retained : ∃ p : Parser Unit Nat, p.Reachable probing Host.silent [2] ∧ p.state.cursor = 1 ∧
    IsLeast p.state.anchors 0 ∧ p.state.window.get? 0 = some 2 := by
  have h : ((Parser.start probing 0 false ⟨{}, ()⟩).feedAll probing Host.silent 20 [2]).map (fun r =>
      (r.1, r.2.state.cursor, r.2.state.window.base)) = some ([.ok .more], 1, 0) := by decide
  obtain ⟨⟨as, p⟩, hf, e⟩ := Option.map_eq_some_iff.1 h
  simp only [Prod.mk.injEq] at e
  obtain ⟨rfl, hcursor, hbase⟩ := e
  obtain ⟨hp, -⟩ := ((Parser.Reachable.new ()).start 0 false).feedAll rfl hf (by decide)
  obtain ⟨hleast, -, hget, -⟩ := (retained_of_calls probing Host.silent).1 hp
  rw [hbase] at hleast hget
  exact ⟨p, hp, hcursor, hleast, hget 0⟩

end PredictiveParser.Machine
