import PredictiveParser.Proofs.Analysis.Closure
import PredictiveParser.Proofs.Grammar.Resolvers

/-!
# What resolvers add to the facts

The analysis goes through all sequences, those of resolvers included. So a terminal that stands behind an item in the
subgrammar of a resolver follows that item everywhere (`Grammar.Gained`), also where the item is a symbol that the rest of
the grammar uses. Everything else a node has from the grammar without its resolvers: the facts of one grammar can be turned
into closed facts of the other (`closed_unfollowed`, `closed_reassembled`), and the analysis finds the least ones.

So a symbol that can be reached from the start symbol keeps what it begins with, and its row of the prediction table grows
by what it gains (`mem_candidates_iff_gained`). It is disturbed if and only if it gains a terminal that does not follow it
anyway (`undisturbed_iff`).
-/

namespace PredictiveParser

namespace Grammar

variable {g : Grammar} {n : Node} {t : Nat}

/-- The facts of a node. -/
abbrev facts (g : Grammar) (n : Node) : NodeFacts :=
  g.analyze.of g n

/-! ## What is gained -/

/-- The node gains the terminal from resolvers. -/
inductive Gained (g : Grammar) : Node → Nat → Prop
  /-- The terminal stands behind an item of a sequence that only occurs in subgrammars of resolvers. -/
  | behind {q : Nat} {pre : List Item} {i : Item} {post js : List Item} {t : Nat} : g.OnlyInResolvers (.sequence q) →
      g.sequence q = pre ++ i :: post → g.Leads post [] (.token t :: js) → Gained g i t
  /-- What follows a symbol follows its alternatives. -/
  | alternative {s : Nat} {p : Node} {t : Nat} : Gained g (Item.symbol s) t → p ∈ (g.symbol s).alts → Gained g p t
  /-- What follows a sequence follows an item behind which it can end. -/
  | last {q : Nat} {pre : List Item} {i : Item} {post : List Item} {t : Nat} : Gained g (.sequence q) t →
      g.sequence q = pre ++ i :: post → g.Derives post [] → Gained g i t

/-- What is gained follows. -/
theorem Gained.mem_follow (hg : g.WellFormed) (h : g.Gained n t) : (g.facts n).follow.mem t = true := by
  have hlt : ∀ {q pre i post}, g.sequence q = pre ++ i :: post → q < g.sequences.size := fun {_ pre i _} e =>
    sequence_lt_of_mem (i := i) (e ▸ List.mem_append_right pre List.mem_cons_self)
  induction h with
  | @behind q pre i post js t _ e hl =>
    refine (hg.closed.behind (.sequence q) (hlt e) pre i post e).1 t ?_
    exact hg.closed.mem_firstOf hg (hg.hasItem_behind (n := .sequence q) (hlt e) e).2 hl
  | alternative _ hp ih => exact (hg.closed.alternative _ _ hp).2.2.1 _ ih
  | @last q pre i post t _ e hd ih =>
    refine ((hg.closed.behind (.sequence q) (hlt e) pre i post e).2 ?_).1 t ih
    exact hg.closed.nullable_firstOf hg (hg.hasItem_behind (n := .sequence q) (hlt e) e).2 hd

/-! ## The grammar without resolvers has no more facts -/

open Classical in
/-- The facts of the grammar, with nothing behind what occurs in subgrammars of resolvers only. -/
noncomputable def unfollowed (g : Grammar) : Facts :=
  Facts.tabulate g fun n =>
    if g.OnlyInResolvers n then { first := (g.facts n).first, nullable := true } else g.facts n

section

variable (hn : g.HasNode n)

include hn

theorem of_unfollowed (h : ¬ g.OnlyInResolvers n) : g.unfollowed.of g.withoutResolvers n = g.facts n := by
  rw [(sameParts_withoutResolvers g).of, unfollowed, Facts.of_tabulate hn, if_neg h]

theorem of_unfollowed_only (h : g.OnlyInResolvers n) :
    g.unfollowed.of g.withoutResolvers n = { first := (g.facts n).first, nullable := true } := by
  rw [(sameParts_withoutResolvers g).of, unfollowed, Facts.of_tabulate hn, if_pos h]

theorem first_unfollowed : (g.unfollowed.of g.withoutResolvers n).first = (g.facts n).first := by
  by_cases h : g.OnlyInResolvers n
  · rw [of_unfollowed_only hn h]
  · rw [of_unfollowed hn h]

theorem nullable_unfollowed (h : (g.facts n).nullable = true) :
    (g.unfollowed.of g.withoutResolvers n).nullable = true := by
  by_cases ho : g.OnlyInResolvers n
  · rw [of_unfollowed_only hn ho]
  · rw [of_unfollowed hn ho, h]

end

theorem closedAt_unfollowed (hg : g.WellFormed) {q : Nat} (hn : g.HasNode (.sequence q)) :
    g.unfollowed.ClosedAt g.withoutResolvers (.sequence q) := by
  by_cases ho : g.OnlyInResolvers (.sequence q)
  · -- the sequence is removed
    have hitems : g.withoutResolvers.items (.sequence q) = [] := items_withoutResolvers_of_removed ⟨q, rfl, ho⟩
    refine ⟨fun t ht => ?_, fun _ => ?_, fun pre i post e => ?_⟩
    · simp [hitems] at ht
    · rw [of_unfollowed_only hn ho]
    · simp [hitems] at e
  · refine (hg.closed.at hn).congr (items_withoutResolvers (not_removed ho)) (of_unfollowed hn ho) fun i hi => ?_
    exact of_unfollowed (hg.hasItem_sequence hi) fun h => ho (h.of_refers (.item hi))

theorem closed_unfollowed (hg : g.WellFormed) : g.unfollowed.Closed g.withoutResolvers := by
  have hF := hg.closed
  have hparts := sameParts_withoutResolvers g
  refine Facts.closed_of_sequences (fun t ht => ?_) (fun i hi htr => ?_) ?_
    (fun q hq => closedAt_unfollowed hg ((hparts.hasNode (.sequence q)).1 hq)) (fun s p hp => ?_) ?_
  · have hn : g.HasNode (Item.token t) := ht
    rw [first_unfollowed hn]
    exact hF.token t ht
  · exact nullable_unfollowed ((hparts.hasItem i).1 hi) (hF.silent i ((hparts.hasItem i).1 hi) htr)
  · exact nullable_unfollowed trivial (hF.nullable .epsilon trivial rfl)
  · obtain ⟨hp, -⟩ := mem_alts_withoutResolvers.1 hp
    have hs : g.HasNode (Item.symbol s) := symbol_lt_of_mem_alts hp
    have hp' := hg.hasNode_alt hp
    obtain ⟨hfirst, hnull, hfollow, hfinal⟩ := hF.alternative s p hp
    by_cases ho : g.OnlyInResolvers (Item.symbol s)
    · rw [of_unfollowed_only hs ho, first_unfollowed hp']
      exact ⟨hfirst, fun _ => rfl, fun t ht => by simp at ht, fun hf => by cases hf⟩
    · have hop : ¬ g.OnlyInResolvers p := fun h => ho (h.of_refers (.alternative hp))
      rw [of_unfollowed hs ho, of_unfollowed hp' hop]
      exact ⟨hfirst, hnull, hfollow, hfinal⟩
  · have hs : g.HasNode (Item.symbol g.start) := hg.start
    rw [show g.withoutResolvers.start = g.start from rfl, of_unfollowed hs (not_onlyInResolvers_of_reaches .refl)]
    exact hF.start

section

variable (hg : g.WellFormed) (hn : g.HasNode n)

include hg hn

/-- What does not only occur in subgrammars of resolvers has no more facts without them. -/
theorem facts_withoutResolvers_le (h : ¬ g.OnlyInResolvers n) : (g.withoutResolvers.facts n).Le (g.facts n) := by
  have hle := (closed_unfollowed hg).analyze_below hg.withoutResolvers n
    (((sameParts_withoutResolvers g).hasNode n).2 hn)
  rwa [of_unfollowed hn h] at hle

/-- What only occurs in subgrammars of resolvers is followed by nothing without them. -/
theorem facts_withoutResolvers_only (h : g.OnlyInResolvers n) :
    (∀ t, (g.withoutResolvers.facts n).follow.mem t = false) ∧ (g.withoutResolvers.facts n).final = false := by
  have hle := (closed_unfollowed hg).analyze_below hg.withoutResolvers n
    (((sameParts_withoutResolvers g).hasNode n).2 hn)
  rw [of_unfollowed_only hn h] at hle
  refine ⟨fun t => Bool.eq_false_iff.2 fun ht => ?_, Bool.eq_false_iff.2 fun hf => ?_⟩
  · have := hle.follow t ht
    simp at this
  · cases hle.final hf

end

/-! ## The facts put together -/

open Classical in
/-- The facts of the grammar without resolvers, together with what is gained. What only occurs in subgrammars of resolvers
keeps its beginnings. -/
noncomputable def reassembled (g : Grammar) : Facts :=
  Facts.tabulate g fun n =>
    { (if g.OnlyInResolvers n then g.facts n else g.withoutResolvers.facts n) with
      follow := .setOf g.tokenCount fun t => (g.withoutResolvers.facts n).follow.mem t = true ∨ g.Gained n t
      final := (g.withoutResolvers.facts n).final }

section

variable (hn : g.HasNode n)

include hn

theorem mem_follow_reassembled : (g.reassembled.of g n).follow.mem t = true ↔
    t < g.tokenCount ∧ ((g.withoutResolvers.facts n).follow.mem t = true ∨ g.Gained n t) := by
  rw [reassembled, Facts.of_tabulate hn]
  exact TokenSet.mem_setOf

theorem final_reassembled : (g.reassembled.of g n).final = (g.withoutResolvers.facts n).final := by
  rw [reassembled, Facts.of_tabulate hn]

theorem begins_reassembled (h : ¬ g.OnlyInResolvers n) :
    (g.reassembled.of g n).first = (g.withoutResolvers.facts n).first ∧
      (g.reassembled.of g n).nullable = (g.withoutResolvers.facts n).nullable := by
  rw [reassembled, Facts.of_tabulate hn, if_neg h]
  exact ⟨rfl, rfl⟩

theorem begins_reassembled_only (h : g.OnlyInResolvers n) :
    (g.reassembled.of g n).first = (g.facts n).first ∧ (g.reassembled.of g n).nullable = (g.facts n).nullable := by
  rw [reassembled, Facts.of_tabulate hn, if_pos h]
  exact ⟨rfl, rfl⟩

theorem first_reassembled (h : (g.facts n).first.mem t = true) (h₀ : (g.withoutResolvers.facts n).first.mem t = true) :
    (g.reassembled.of g n).first.mem t = true := by
  by_cases ho : g.OnlyInResolvers n
  · rwa [(begins_reassembled_only hn ho).1]
  · rwa [(begins_reassembled hn ho).1]

theorem nullable_reassembled (h : (g.facts n).nullable = true) (h₀ : (g.withoutResolvers.facts n).nullable = true) :
    (g.reassembled.of g n).nullable = true := by
  by_cases ho : g.OnlyInResolvers n
  · rwa [(begins_reassembled_only hn ho).2]
  · rwa [(begins_reassembled hn ho).2]

/-- What only occurs in subgrammars of resolvers is followed by what it gains. -/
theorem follow_reassembled_only (hg : g.WellFormed) (h : g.OnlyInResolvers n) :
    (∀ t, (g.reassembled.of g n).follow.mem t = true → t < g.tokenCount ∧ g.Gained n t) ∧
      (g.reassembled.of g n).final = false := by
  obtain ⟨hnone, hfinal⟩ := facts_withoutResolvers_only hg hn h
  refine ⟨fun t ht => ?_, (final_reassembled hn).trans hfinal⟩
  obtain ⟨hlt, ht | ht⟩ := (mem_follow_reassembled hn).1 ht
  · rw [hnone t] at ht
    cases ht
  · exact ⟨hlt, ht⟩

end

theorem reassembled_below (hg : g.WellFormed) : g.reassembled.Below g g.analyze := by
  intro n hn
  by_cases ho : g.OnlyInResolvers n
  · obtain ⟨efirst, enull⟩ := begins_reassembled_only hn ho
    obtain ⟨hfollow, hfinal⟩ := follow_reassembled_only hn hg ho
    refine ⟨fun t ht => efirst ▸ ht, fun t ht => (hfollow t ht).2.mem_follow hg, fun hnull => enull ▸ hnull,
      fun hf => ?_⟩
    rw [hfinal] at hf
    cases hf
  · obtain ⟨efirst, enull⟩ := begins_reassembled hn ho
    have hle := facts_withoutResolvers_le hg hn ho
    refine ⟨fun t ht => hle.first t (efirst ▸ ht), fun t ht => ?_, fun hnull => hle.nullable (enull ▸ hnull),
      fun hf => hle.final (final_reassembled hn ▸ hf)⟩
    exact ((mem_follow_reassembled hn).1 ht).2.elim (hle.follow t) fun h => h.mem_follow hg

/-- What a sequence gains, each item gains behind which it can end. -/
theorem Gained.last_of_reassembled (hg : g.WellFormed) {q : Nat} (hn : g.HasNode (.sequence q))
    (h : g.Gained (.sequence q) t) {pre : List Item} {i : Item} {post : List Item} (e : g.sequence q = pre ++ i :: post)
    (hnull : (g.reassembled.firstOf g post).2 = true) : g.Gained i t := by
  have hpost := (hg.hasItem_behind hn e).2
  exact h.last e (hg.sound.nullable_firstOf hpost (((reassembled_below hg).firstOf hpost).2 hnull))

/-- In a sequence that only occurs in subgrammars of resolvers all that stands behind an item is gained. -/
theorem closedAt_reassembled_only (hg : g.WellFormed) {q : Nat} (hn : g.HasNode (.sequence q))
    (ho : g.OnlyInResolvers (.sequence q)) : g.reassembled.ClosedAt g (.sequence q) := by
  have hclosed := hg.closed.at hn
  have hbelow := reassembled_below hg
  obtain ⟨efirst, enull⟩ := begins_reassembled_only hn ho
  obtain ⟨hfollow, hfinal⟩ := follow_reassembled_only hn hg ho
  obtain ⟨hle, hle'⟩ := hbelow.firstOf fun i (hi : i ∈ g.items (.sequence q)) => hg.hasItem_items hn hi
  refine ⟨fun t ht => efirst ▸ hclosed.first t (hle t ht), fun h => enull ▸ hclosed.nullable (hle' h),
    fun pre i post e => ?_⟩
  obtain ⟨hi, hpost⟩ := hg.hasItem_behind hn e
  refine ⟨fun t ht => ?_, fun hnull => ⟨fun t ht => ?_, fun hf => ?_⟩⟩
  · have ht' := (hbelow.firstOf hpost).1 t ht
    obtain ⟨js, hl⟩ := hg.sound.mem_firstOf hpost ht'
    exact (mem_follow_reassembled (n := i) hi).2 ⟨(Facts.within_analyze hg).firstOf post ht', .inr (.behind ho e hl)⟩
  · obtain ⟨hlt, hgain⟩ := hfollow t ht
    exact (mem_follow_reassembled (n := i) hi).2 ⟨hlt, .inr (hgain.last_of_reassembled hg hn e hnull)⟩
  · rw [hfinal] at hf
    cases hf

/-- In any other sequence what stands behind an item follows it without resolvers as well. -/
theorem closedAt_reassembled (hg : g.WellFormed) {q : Nat} (hn : g.HasNode (.sequence q))
    (ho : ¬ g.OnlyInResolvers (.sequence q)) : g.reassembled.ClosedAt g (.sequence q) := by
  have hparts := sameParts_withoutResolvers g
  have hclosed := hg.withoutResolvers.closed.at ((hparts.hasNode _).2 hn)
  have hitems : g.withoutResolvers.items (.sequence q) = g.items (.sequence q) := items_withoutResolvers (not_removed ho)
  have hfirstOf : ∀ is, (∀ i ∈ is, i ∈ g.sequence q) →
      g.reassembled.firstOf g is = g.withoutResolvers.analyze.firstOf g.withoutResolvers is := fun is his =>
    Facts.firstOf_congr fun i hi =>
      begins_reassembled (hg.hasItem_sequence (his i hi)) fun h => ho (h.of_refers (.item (his i hi)))
  obtain ⟨efirst, enull⟩ := begins_reassembled hn ho
  refine ⟨?_, ?_, fun pre i post e => ?_⟩
  · rw [hfirstOf (g.items (.sequence q)) fun _ h => h, efirst, ← hitems]
    exact hclosed.first
  · rw [hfirstOf (g.items (.sequence q)) fun _ h => h, enull, ← hitems]
    exact hclosed.nullable
  · obtain ⟨hbehind, hend⟩ := hclosed.behind pre i post (hitems.trans e)
    have hi : g.HasNode i := (hg.hasItem_behind hn e).1
    have epost := hfirstOf post fun j hj =>
      (show g.sequence q = _ from e) ▸ List.mem_append_right pre (List.mem_cons_of_mem i hj)
    refine ⟨fun t ht => ?_, fun hnull => ⟨fun t ht => ?_, ?_⟩⟩
    · rw [epost] at ht
      have hlt : t < g.tokenCount := hparts.tokenCount ▸ (Facts.within_analyze hg.withoutResolvers).firstOf post ht
      exact (mem_follow_reassembled hi).2 ⟨hlt, .inl (hbehind t ht)⟩
    · obtain ⟨hlt, ht | ht⟩ := (mem_follow_reassembled hn).1 ht
      · exact (mem_follow_reassembled hi).2 ⟨hlt, .inl ((hend (epost ▸ hnull)).1 t ht)⟩
      · exact (mem_follow_reassembled hi).2 ⟨hlt, .inr (ht.last_of_reassembled hg hn e hnull)⟩
    · rw [final_reassembled hn, final_reassembled hi]
      exact (hend (epost ▸ hnull)).2

theorem closed_reassembled (hg : g.WellFormed) : g.reassembled.Closed g := by
  have hF := hg.closed
  have hF₀ := hg.withoutResolvers.closed
  have hparts := sameParts_withoutResolvers g
  have hbelow := reassembled_below hg
  refine Facts.closed_of_sequences (fun t ht => ?_) (fun i hi htr => ?_) ?_ (fun q hq => ?_) (fun s p hp => ?_) ?_
  · exact first_reassembled (n := Item.token t) ht (hF.token t ht) (hF₀.token t (hparts.tokenCount ▸ ht))
  · exact nullable_reassembled (n := i) hi (hF.silent i hi htr) (hF₀.silent i ((hparts.hasItem i).2 hi) htr)
  · exact nullable_reassembled (n := .epsilon) trivial (hF.nullable .epsilon trivial rfl)
      (hF₀.nullable .epsilon trivial rfl)
  · by_cases ho : g.OnlyInResolvers (.sequence q)
    · exact closedAt_reassembled_only hg hq ho
    · exact closedAt_reassembled hg hq ho
  · have hs : g.HasNode (Item.symbol s) := symbol_lt_of_mem_alts hp
    have hp' := hg.hasNode_alt hp
    by_cases ho : g.OnlyInResolvers (Item.symbol s)
    · obtain ⟨hfirst, hnull, -, -⟩ := hF.alternative s p hp
      obtain ⟨efirst, enull⟩ := begins_reassembled_only hs ho
      obtain ⟨hfollow, hfinal⟩ := follow_reassembled_only hs hg ho
      refine ⟨fun t ht => efirst ▸ hfirst t ((hbelow p hp').first t ht),
        fun h => enull ▸ hnull ((hbelow p hp').nullable h), fun t ht => ?_, fun hf => ?_⟩
      · obtain ⟨hlt, hgain⟩ := hfollow t ht
        exact (mem_follow_reassembled hp').2 ⟨hlt, .inr (hgain.alternative hp)⟩
      · rw [hfinal] at hf
        cases hf
    · have hop : ¬ g.OnlyInResolvers p := fun h => ho (h.of_refers (.alternative hp))
      obtain ⟨hfirst, hnull, hfollow, hfinal⟩ :=
        hF₀.alternative s p (mem_alts_withoutResolvers.2 ⟨hp, not_removed hop⟩)
      obtain ⟨efirst, enull⟩ := begins_reassembled hs ho
      obtain ⟨efirst', enull'⟩ := begins_reassembled hp' hop
      rw [efirst, enull, efirst', enull', final_reassembled hs, final_reassembled hp']
      refine ⟨hfirst, hnull, fun t ht => ?_, hfinal⟩
      obtain ⟨hlt, ht⟩ := (mem_follow_reassembled hs).1 ht
      exact (mem_follow_reassembled hp').2 ⟨hlt, ht.imp (hfollow t) (·.alternative hp)⟩
  · rw [final_reassembled (n := Item.symbol g.start) hg.start]
    exact hF₀.start

/-- **The facts of a grammar are put together from those without resolvers and from what is gained.** -/
theorem facts_eq_reassembled (hg : g.WellFormed) (hn : g.HasNode n) : g.facts n = g.reassembled.of g n :=
  ((closed_reassembled hg).analyze_below hg n hn).antisymm (reassembled_below hg n hn)

/-- **Resolvers add what is gained to what follows a node, and nothing else.** -/
theorem mem_follow_iff_gained (hg : g.WellFormed) (hn : g.HasNode n) : (g.facts n).follow.mem t = true ↔
    (g.withoutResolvers.facts n).follow.mem t = true ∨ g.Gained n t := by
  constructor
  · intro ht
    rw [facts_eq_reassembled hg hn] at ht
    exact ((mem_follow_reassembled hn).1 ht).2
  · rintro (ht | ht)
    · by_cases ho : g.OnlyInResolvers n
      · rw [(facts_withoutResolvers_only hg hn ho).1 t] at ht
        cases ht
      · exact (facts_withoutResolvers_le hg hn ho).follow t ht
    · exact ht.mem_follow hg

/-! ## Rows of the prediction table -/

/-- The prediction table of the grammar. -/
abbrev predictions (g : Grammar) : PredictionTable :=
  .fill g g.analyze

/-- The symbol has the same facts and the same row of the prediction table as without resolvers. -/
def Undisturbed (g : Grammar) (s : Nat) : Prop :=
  g.facts (Item.symbol s) = g.withoutResolvers.facts (Item.symbol s) ∧
    g.predictions.rows[s]? = g.withoutResolvers.predictions.rows[s]?

section

variable (hg : g.WellFormed)

include hg

/-- What does not only occur in subgrammars of resolvers begins as it does without them, and the input ends after it where
it does without them. -/
theorem begins_withoutResolvers (hn : g.HasNode n) (ho : ¬ g.OnlyInResolvers n) :
    (g.facts n).first = (g.withoutResolvers.facts n).first ∧
      (g.facts n).nullable = (g.withoutResolvers.facts n).nullable ∧
      (g.facts n).final = (g.withoutResolvers.facts n).final := by
  obtain ⟨efirst, enull⟩ := begins_reassembled hn ho
  rw [facts_eq_reassembled hg hn]
  exact ⟨efirst, enull, final_reassembled hn⟩

variable {s : Nat} (ho : ¬ g.OnlyInResolvers (Item.symbol s))

include ho

/-- The alternatives of a symbol are those without resolvers, and they begin in the same way. -/
theorem alternative_withoutResolvers {p : Node} (hp : p ∈ (g.symbol s).alts) :
    (g.facts p).first = (g.withoutResolvers.facts p).first ∧
      (g.facts p).nullable = (g.withoutResolvers.facts p).nullable := by
  have hop : ¬ g.OnlyInResolvers p := fun h => ho (h.of_refers (.alternative hp))
  obtain ⟨efirst, enull, -⟩ := begins_withoutResolvers hg (hg.hasNode_alt hp) hop
  exact ⟨efirst, enull⟩

theorem mayFollow_iff_gained (hs : s < g.symbolCount) {a : Nat} : g.analyze.MayFollow g (Item.symbol s) a ↔
    g.withoutResolvers.analyze.MayFollow g.withoutResolvers (Item.symbol s) a ∨
      ∃ t, g.Gained (Item.symbol s) t ∧ accepts t a = true := by
  have hn : g.HasNode (Item.symbol s) := hs
  obtain ⟨-, -, efinal⟩ := begins_withoutResolvers hg hn ho
  simp only [Facts.MayFollow, efinal, mem_follow_iff_gained hg hn, or_and_right, exists_or]
  exact or_right_comm

/-- **The row of a symbol grows by what the symbol gains**, in the cells of its alternatives that can match nothing. -/
theorem mem_candidates_iff_gained {a : Nat} (ha : a < g.tokenCount) (hany : a ≠ anyToken) {p : Node} :
    p ∈ (g.predictions.cell s a).candidates ↔ p ∈ (g.withoutResolvers.predictions.cell s a).candidates ∨
      p ∈ (g.symbol s).alts ∧ (g.facts p).nullable = true ∧ ∃ t, g.Gained (Item.symbol s) t ∧ accepts t a = true := by
  rw [PredictionTable.mem_candidates ha, PredictionTable.mem_candidates (g := g.withoutResolvers) ha,
    alts_withoutResolvers ho, ← and_or_left]
  refine and_congr_right fun hp => ?_
  obtain ⟨efirst, enull⟩ := alternative_withoutResolvers hg ho hp
  rw [Facts.mem_selection_iff ha hany, Facts.mem_selection_iff (g := g.withoutResolvers) ha hany, efirst, enull,
    mayFollow_iff_gained hg ho (symbol_lt_of_mem_alts hp), and_or_left, or_assoc]

/-- Where nothing new follows a symbol its row is the one without resolvers. -/
theorem row_withoutResolvers (hfacts : g.facts (Item.symbol s) = g.withoutResolvers.facts (Item.symbol s)) :
    PredictionTable.row g g.analyze s = PredictionTable.row g.withoutResolvers g.withoutResolvers.analyze s := by
  have e : g.selections g.analyze s = g.withoutResolvers.selections g.withoutResolvers.analyze s := by
    rw [selections, selections, alts_withoutResolvers ho]
    refine List.map_congr_left fun p hp => ?_
    obtain ⟨efirst, enull⟩ := alternative_withoutResolvers hg ho hp
    rw [selection, selection, efirst, enull, show g.analyze.of g (Item.symbol s) = _ from hfacts]
    rfl
  rw [PredictionTable.row, PredictionTable.row, e]
  rfl

/-- **A symbol is disturbed if and only if it gains a terminal that does not follow it without resolvers.** -/
theorem undisturbed_iff (hs : s < g.symbolCount) : g.Undisturbed s ↔
    ∀ t, g.Gained (Item.symbol s) t → (g.withoutResolvers.facts (Item.symbol s)).follow.mem t = true := by
  have hn : g.HasNode (Item.symbol s) := hs
  constructor
  · rintro ⟨hfacts, -⟩ t ht
    exact hfacts ▸ ht.mem_follow hg
  · intro h
    obtain ⟨efirst, enull, efinal⟩ := begins_withoutResolvers hg hn ho
    have hfacts : g.facts (Item.symbol s) = g.withoutResolvers.facts (Item.symbol s) := by
      refine NodeFacts.Le.antisymm ⟨fun t ht => efirst ▸ ht, fun t ht => ?_, fun hnull => enull ▸ hnull,
        fun hf => efinal ▸ hf⟩ (facts_withoutResolvers_le hg hn ho)
      exact ((mem_follow_iff_gained hg hn).1 ht).elim id (h t)
    refine ⟨hfacts, ?_⟩
    have hs₀ : s < g.withoutResolvers.symbolCount := hs.trans_eq (sameParts_withoutResolvers g).symbols.symm
    simp [PredictionTable.fill, hs, hs₀, row_withoutResolvers hg ho hfacts]

end

/-- **What resolvers do to the main grammar.** A symbol that can be reached from the start symbol begins as it does without
resolvers, and the input ends after it where it does without them. What follows it, and the candidates of its cells, grow
by what it gains; so it keeps its facts and its row if and only if it gains nothing new. -/
theorem resolvers_add_gained (hg : g.WellFormed) {s : Nat} (hs : g.IsReachable s) :
    (g.facts (Item.symbol s)).first = (g.withoutResolvers.facts (Item.symbol s)).first ∧
      (g.facts (Item.symbol s)).nullable = (g.withoutResolvers.facts (Item.symbol s)).nullable ∧
      (g.facts (Item.symbol s)).final = (g.withoutResolvers.facts (Item.symbol s)).final ∧
      (∀ t, (g.facts (Item.symbol s)).follow.mem t = true ↔
        (g.withoutResolvers.facts (Item.symbol s)).follow.mem t = true ∨ g.Gained (Item.symbol s) t) ∧
      (∀ a < g.tokenCount, a ≠ anyToken → ∀ p, p ∈ (g.predictions.cell s a).candidates ↔
        p ∈ (g.withoutResolvers.predictions.cell s a).candidates ∨
          p ∈ (g.symbol s).alts ∧ (g.facts p).nullable = true ∧
            ∃ t, g.Gained (Item.symbol s) t ∧ accepts t a = true) ∧
      (g.Undisturbed s ↔
        ∀ t, g.Gained (Item.symbol s) t → (g.withoutResolvers.facts (Item.symbol s)).follow.mem t = true) := by
  have ho := not_onlyInResolvers_of_reaches hs.reaches
  have hn : g.HasNode (Item.symbol s) := hg.hasNode_of_reaches (m := Item.symbol g.start) hg.start hs.reaches
  obtain ⟨efirst, enull, efinal⟩ := begins_withoutResolvers hg hn ho
  exact ⟨efirst, enull, efinal, fun t => mem_follow_iff_gained hg hn,
    fun a ha hany p => mem_candidates_iff_gained hg ho ha hany, undisturbed_iff hg ho hn⟩

/-! ## A symbol that is disturbed -/

/-- A symbol of an alternative and of a resolver: `S → P | Q`, `P → a U`, `Q → a`, `U → b | ε`, with the resolver `U a` of
`P`. -/
def shared : Grammar where
  tokens := .letters
  symbols := #[{ name := "S", alts := [Item.symbol 1, Item.symbol 2] },
    { name := "P", alts := [.sequence 0], resolver := some ⟨.sequence 1, 1⟩ }, { name := "Q", alts := [Item.token 2] },
    { name := "U", alts := [Item.token 3, .epsilon] }]
  sequences := #[[.token 2, .symbol 3], [.symbol 3, .token 2]]
  actions := {}
  arguments := {}
  beacons := {}
  start := 0

theorem shared_isReachable : shared.IsReachable 3 := by
  have hp : shared.Uses 0 1 := ⟨Item.symbol 1, by decide, by decide⟩
  have hu : shared.Uses 1 3 := ⟨.sequence 0, by decide, by decide⟩
  exact .tail (.single hp) hu

theorem shared_onlyInResolvers : shared.OnlyInResolvers (.sequence 1) := by
  have halts : ∀ s < 4, .sequence 1 ∉ (shared.symbol s).alts := by decide
  exact onlyInResolvers_of_resolver (s := 1) (r := ⟨.sequence 1, 1⟩) rfl rfl fun s h =>
    halts s (symbol_lt_of_mem_alts h) h

/-- Without its resolver it has the same alternatives, and the sequence `U a` is removed. -/
theorem withoutResolvers_shared : shared.withoutResolvers = { shared with
    symbols := shared.symbols.map ({ · with resolver := none })
    sequences := #[[.token 2, .symbol 3], []] } := by
  have h₁ : shared.Removed (.sequence 1) := removed_sequence.2 shared_onlyInResolvers
  have h₀ : ¬ shared.Removed (.sequence 0) := by
    refine not_removed (not_onlyInResolvers_of_reaches ?_)
    exact .tail (.tail .refl (.alternative (p := Item.symbol 1) (by decide))) (.alternative (by decide))
  have hitem : ∀ i : Item, ¬ shared.Removed i := not_removed_item
  have hepsilon : ¬ shared.Removed .epsilon := not_removed_epsilon
  unfold withoutResolvers
  generalize shared.Removed = R at h₀ h₁ hitem hepsilon ⊢
  simp [shared, h₀, h₁, hitem, hepsilon]

/-- **The resolver disturbs `U`:** without it there is nothing in the cell of `U` on `a`, and with it the empty alternative. -/
theorem shared_disturbed : shared.WellFormed ∧ shared.IsReachable 3 ∧ ¬ shared.Undisturbed 3 ∧
    shared.predictions.cell 3 2 = .production .epsilon ∧ shared.withoutResolvers.predictions.cell 3 2 = .empty := by
  have hcell : shared.predictions.cell 3 2 = .production .epsilon := by decide +kernel
  have hcell₀ : shared.withoutResolvers.predictions.cell 3 2 = .empty := by
    rw [withoutResolvers_shared]
    decide +kernel
  refine ⟨by decide, shared_isReachable, fun h => ?_, hcell, hcell₀⟩
  rw [PredictionTable.cell, h.2, ← PredictionTable.cell, hcell₀] at hcell
  cases hcell

/-- `U` gains `a`, so `a` follows it, and its empty alternative is a candidate on `a`. -/
theorem shared_gained : shared.Gained (Item.symbol 3) 2 ∧ (shared.facts (Item.symbol 3)).follow.mem 2 = true ∧
    .epsilon ∈ (shared.predictions.cell 3 2).candidates ∧ ¬ shared.Undisturbed 3 := by
  have e : shared.sequence 1 = [] ++ .symbol 3 :: [.token 2] := rfl
  have hgain : shared.Gained (Item.symbol 3) 2 := .behind shared_onlyInResolvers e (.refl _)
  obtain ⟨-, -, -, hfollow, hcandidates, hdisturbed⟩ := resolvers_add_gained (g := shared) (by decide) shared_isReachable
  refine ⟨hgain, (hfollow 2).2 (.inr hgain), ?_, fun h => ?_⟩
  · exact (hcandidates 2 (by decide) (by decide) .epsilon).2 (.inr ⟨by decide, by decide +kernel, 2, hgain, by decide⟩)
  · have h₀ := hdisturbed.1 h 2 hgain
    rw [withoutResolvers_shared] at h₀
    exact absurd h₀ (by decide +kernel)

end Grammar

end PredictiveParser
