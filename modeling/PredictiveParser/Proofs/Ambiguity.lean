import PredictiveParser.Proofs.Decision.Automaton

/-!
# How ambiguous a grammar with tables can be

Two parse trees of one text part where they first take different alternatives for a symbol. If both alternatives end
together there, then no lookahead can tell them apart, and building fails: whenever tables are built for a grammar without
resolvers and wildcard, one of the two alternatives is left before the other (`parts_of_build`). Such an ambiguity is not
refused, because the alternative that goes on is preferred (`overlapping_ambiguous`).
-/

namespace PredictiveParser

/-! ## Where parse trees part -/

/-- The first place where two forests take different alternatives: for one symbol the first takes `p` with the trees `c`
below it, and the second takes `q` with the trees `d`. -/
inductive Forest.PartsAt {τ : Type} (p : Node) (c : Forest τ) (q : Node) (d : Forest τ) : Forest τ → Forest τ → Prop
  | here {s : Nat} {r r' : Forest τ} : p ≠ q → PartsAt p c q d (.node s p c r) (.node s q d r')
  | inside {s : Nat} {b : Node} {f f' r r' : Forest τ} : PartsAt p c q d f f' →
      PartsAt p c q d (.node s b f r) (.node s b f' r')
  | after {s : Nat} {b : Node} {f r r' : Forest τ} : PartsAt p c q d r r' →
      PartsAt p c q d (.node s b f r) (.node s b f r')
  | leaf {t : τ} {r r' : Forest τ} : PartsAt p c q d r r' → PartsAt p c q d (.leaf t r) (.leaf t r')

/-- Two matches that begin together also end together: with the same number of tokens, and both or neither of them with a
token as the last part. -/
def Forest.EndTogether {τ : Type} (c d : Forest τ) : Prop :=
  c.leaves.length = d.leaves.length ∧ c.endsWithToken = d.endsWithToken

namespace Grammar

variable {g : Grammar} {limits : Limits} {T : Tables}

/-- **Alternatives that compete and end together make building fail.** -/
theorem not_endTogether_of_build (hg : g.WellFormed) (hres : ∀ x ∈ g.symbols, x.resolver = none)
    (hany : ¬ g.Mentions anyToken) (hb : g.build limits = .ok T) {s : Nat} {p q : Node} {rest : List Item}
    {c d : Forest Nat} {v v' : List Nat} (hrest : ∀ i ∈ rest, g.HasItem i ∧ i ≠ .token anyToken)
    (hch : g.analyze.Chained g (.symbol s :: rest)) (hp : p ∈ (g.symbol s).alts) (hq : q ∈ (g.symbol s).alts)
    (hc : g.Grows (g.items p) c) (hd : g.Grows (g.items q) d) (hv : g.Derives rest v) (hv' : g.Derives rest v')
    (hin : c.leaves ++ v = d.leaves ++ v') (hne : p ≠ q) : ¬ c.EndTogether d := by
  rintro ⟨hlen, hend⟩
  have hs := symbol_lt_of_mem_alts hp
  have hw : ∀ x ∈ c.leaves ++ v, x < g.tokenCount ∧ x ≠ anyToken := by
    exact (Leads.derives_append hc.leads hv).terminals hg hany (List.forall_mem_append.2 ⟨hg.proper_alt hany hp, hrest⟩)
  -- both alternatives compete for the first token
  obtain ⟨a, ha⟩ : ∃ a, (c.leaves ++ v).headD endToken = a := ⟨_, rfl⟩
  have hlt : a < g.tokenCount ∧ a ≠ anyToken := ha ▸ hg.head_lt hw
  have hrest' : ∀ i ∈ rest, g.HasItem i := fun i hi => (hrest i hi).1
  have hcp := hch.mem_candidates hg.closed hg hrest' hp hc.leads hv ha hlt.1 hlt.2
  have hcq := hch.mem_candidates hg.closed hg hrest' hq hd.leads hv' (by rw [← hin]; exact ha) hlt.1 hlt.2
  have hpred := Tables.predicts_of_build hb hs hlt.1
  rcases Cell.production_or_conflict hcp with hcell | ⟨conflict, hcell⟩
  · rw [hcell] at hcq
    exact hne (List.mem_singleton.1 hcq).symm
  · rw [hcell] at hcp hcq hpred
    obtain ⟨start, resolution, asked, hr, -⟩ := hpred
    obtain ⟨-, -, -, htoken⟩ := PredictionTable.conflict_fill hcell
    -- so the conflict was decided
    let Q := g.problem limits conflict
    have hQ : Decision.Plain Q := Decision.plain_problem hg limits conflict hany hres
    have hdec : Decision.Decided Q Q.limit Q.root := Decision.decided_of_resolve hr
    refine Decision.Carries.not_decided hQ (Decision.carries_root hQ hcp hrest hp hch hc hv)
      (Decision.carries_root hQ hcq hrest hq hch hd hv') hne hin ?_ hend hw ?_ _ hdec
    · rw [Forest.span, Forest.span, hlen, hend]
    · rw [ha, ← htoken]
      exact List.mem_singleton_self _

/-- Forests of the same items with the same text are the same, or part where one alternative is left before the other. -/
theorem Grows.parts (hg : g.WellFormed) (hres : ∀ x ∈ g.symbols, x.resolver = none) (hany : ¬ g.Mentions anyToken)
    (hb : g.build limits = .ok T) {is rest : List Item} {f f' : Forest Nat} {v v' : List Nat} (hf : g.Grows is f)
    (hf' : g.Grows is f') (hv : g.Derives rest v) (hv' : g.Derives rest v')
    (hproper : ∀ i ∈ is ++ rest, g.HasItem i ∧ i ≠ .token anyToken) (hch : g.analyze.Chained g (is ++ rest))
    (hin : f.leaves ++ v = f'.leaves ++ v') (hne : f ≠ f') :
    ∃ p c q d, Forest.PartsAt p c q d f f' ∧ ¬ c.EndTogether d := by
  induction hf generalizing rest f' v v' with
  | nil =>
    cases hf'
    exact absurd rfl hne
  | @silent i is f hi _ ih =>
    rw [List.cons_append, List.forall_mem_cons] at hproper
    exact ih (hf'.of_silent hi) hv hv' hproper.2 hch.2 hin hne
  | @leaf t x is f hacc _ ih =>
    rw [List.cons_append, List.forall_mem_cons] at hproper
    cases hf' with
    | silent hi => cases hi
    | leaf _ hf' =>
      rw [Forest.leaves, Forest.leaves, List.cons_append, List.cons_append, List.cons.injEq] at hin
      obtain ⟨rfl, hin⟩ := hin
      obtain ⟨p, c, q, d, h, hend⟩ := ih hf' hv hv' hproper.2 hch.2 hin fun e => hne (e ▸ rfl)
      exact ⟨p, c, q, d, .leaf h, hend⟩
  | @node s p is c r hp hc hr ihc ihr =>
    rw [List.cons_append] at hproper hch
    have hrest := (List.forall_mem_cons.1 hproper).2
    cases hf' with
    | silent hi => cases hi
    | @node _ q _ d r' hq hd hr' =>
      rw [Forest.leaves, Forest.leaves, List.append_assoc, List.append_assoc] at hin
      have hrv := Leads.derives_append hr.leads hv
      have hrv' := Leads.derives_append hr'.leads hv'
      by_cases hpq : p = q
      · subst hpq
        by_cases hcd : c = d
        · subst hcd
          obtain ⟨p', c', q', d', h, hend⟩ := ihr hr' hv hv' hrest hch.2 (List.append_cancel_left hin)
            fun e => hne (e ▸ rfl)
          exact ⟨p', c', q', d', .after h, hend⟩
        · have hproper' : ∀ i ∈ g.items p ++ (is ++ rest), g.HasItem i ∧ i ≠ .token anyToken :=
            List.forall_mem_append.2 ⟨hg.proper_alt hany hp, hrest⟩
          obtain ⟨p', c', q', d', h, hend⟩ := ihc hd hrv hrv' hproper' (hch.expand hg.closed hg hp) hin hcd
          exact ⟨p', c', q', d', .inside h, hend⟩
      · exact ⟨p, c, q, d, .here hpq, not_endTogether_of_build hg hres hany hb hrest hch hp hq hc hd hrv hrv' hin hpq⟩

/-- **Two parse trees of one text part at alternatives that do not end together.** -/
theorem parts_of_build (hg : g.WellFormed) (hres : ∀ x ∈ g.symbols, x.resolver = none) (hany : ¬ g.Mentions anyToken)
    (hb : g.build limits = .ok T) {f f' : Forest Nat} (hf : g.Grows [.symbol g.start] f)
    (hf' : g.Grows [.symbol g.start] f') (hleaves : f.leaves = f'.leaves) (hne : f ≠ f') :
    ∃ p c q d, Forest.PartsAt p c q d f f' ∧ ¬ c.EndTogether d := by
  refine hf.parts hg hres hany hb hf' (.refl []) (.refl []) ?_ hg.closed.chained_start (by rw [hleaves]) hne
  rw [List.append_nil, List.forall_mem_cons]
  exact ⟨⟨hg.start, by simp⟩, fun _ h => absurd h List.not_mem_nil⟩

/-! ## An ambiguity that is not refused -/

/-- An optional `b` ends the first symbol of the start symbol and begins the second: `S → A B`, `A → a | a b`,
`B → b | ε`. -/
def overlapping : Grammar where
  tokens := .letters
  symbols := #[{ name := "S", alts := [.sequence 0] }, { name := "A", alts := [Item.token 2, .sequence 1] },
    { name := "B", alts := [Item.token 3, .epsilon] }]
  sequences := #[[.symbol 1, .symbol 2], [.token 2, .token 3]]
  actions := {}
  arguments := {}
  beacons := {}
  start := 0

/-- The first symbol takes the `b`. -/
def overlapping.first : Forest Nat :=
  .node 0 (.sequence 0) (.node 1 (.sequence 1) (.leaf 2 (.leaf 3 .nil)) (.node 2 .epsilon .nil .nil)) .nil

/-- The second symbol takes the `b`. -/
def overlapping.second : Forest Nat :=
  .node 0 (.sequence 0) (.node 1 (Item.token 2) (.leaf 2 .nil) (.node 2 (Item.token 3) (.leaf 3 .nil) .nil)) .nil

theorem overlapping.grows_first : overlapping.Grows [.symbol 0] overlapping.first :=
  .node (by decide) (.node (by decide) (.leaf rfl (.leaf rfl .nil)) (.node (by decide) .nil .nil)) .nil

theorem overlapping.grows_second : overlapping.Grows [.symbol 0] overlapping.second :=
  .node (by decide) (.node (by decide) (.leaf rfl .nil) (.node (by decide) (.leaf rfl .nil) .nil)) .nil

/-- Tables are built for a grammar with two parse trees of one text. -/
theorem overlapping_ambiguous : overlapping.WellFormed ∧ (∀ x ∈ overlapping.symbols, x.resolver = none) ∧
    ¬ overlapping.Mentions anyToken ∧ (∃ T, overlapping.build = .ok T) ∧
    ∃ f f', overlapping.Grows [.symbol overlapping.start] f ∧ overlapping.Grows [.symbol overlapping.start] f' ∧
      f.leaves = f'.leaves ∧ f ≠ f' :=
  ⟨by decide, by decide, by decide, exists_build (by decide +kernel), overlapping.first, overlapping.second,
    overlapping.grows_first, overlapping.grows_second, by decide, by decide⟩

/-- The two parse trees part at an alternative that goes on where the other ends. -/
theorem overlapping_parts :
    ∃ p c q d, Forest.PartsAt p c q d overlapping.first overlapping.second ∧ ¬ c.EndTogether d := by
  obtain ⟨T, hT⟩ : ∃ T, overlapping.build = .ok T := exists_build (by decide +kernel)
  exact parts_of_build (by decide) (by decide) (by decide) hT overlapping.grows_first overlapping.grows_second
    (by decide) (by decide)

end Grammar

end PredictiveParser
