import PredictiveParser.Analysis
import PredictiveParser.Proofs.Grammar.WellFormed

/-!
# Rounds of propagation

Facts are ordered by what they claim (`Facts.Le`), and a round only adds facts (`le_round`). What its steps through alternatives
and sequences keep is kept by a round, and what rounds keep of the facts at the outset holds of what the analysis finds
(`analyze_induction`).
-/

namespace PredictiveParser

/-! ## The order of facts -/

namespace NodeFacts

/-- The facts `f'` claim whatever the facts `f` claim. -/
structure Le (f f' : NodeFacts) : Prop where
  first : ∀ t, f.first.mem t = true → f'.first.mem t = true
  follow : ∀ t, f.follow.mem t = true → f'.follow.mem t = true
  nullable : f.nullable = true → f'.nullable = true
  final : f.final = true → f'.final = true

theorem Le.refl (f : NodeFacts) : Le f f :=
  ⟨fun _ h => h, fun _ h => h, id, id⟩

theorem Le.trans {f f' f'' : NodeFacts} (h : Le f f') (h' : Le f' f'') : Le f f'' :=
  ⟨fun t ht => h'.first t (h.first t ht), fun t ht => h'.follow t (h.follow t ht), fun hn => h'.nullable (h.nullable hn),
    fun hf => h'.final (h.final hf)⟩

theorem Le.antisymm {f f' : NodeFacts} (h : Le f f') (h' : Le f' f) : f = f' := by
  obtain ⟨first, follow, nullable, final⟩ := f
  obtain ⟨first', follow', nullable', final'⟩ := f'
  have e₁ : first = first' := TokenSet.ext_mem fun t => Bool.eq_iff_iff.2 ⟨h.first t, h'.first t⟩
  have e₂ : follow = follow' := TokenSet.ext_mem fun t => Bool.eq_iff_iff.2 ⟨h.follow t, h'.follow t⟩
  have e₃ : nullable = nullable' := Bool.eq_iff_iff.2 ⟨h.nullable, h'.nullable⟩
  have e₄ : final = final' := Bool.eq_iff_iff.2 ⟨h.final, h'.final⟩
  rw [e₁, e₂, e₃, e₄]

theorem addFirst_le_iff {f f' : NodeFacts} {S : TokenSet} {b : Bool} :
    (f.addFirst S b).Le f' ↔ f.Le f' ∧ (∀ t, S.mem t = true → f'.first.mem t = true) ∧ (b = true → f'.nullable = true) := by
  constructor
  · rintro ⟨hfirst, hfollow, hnull, hfinal⟩
    simp only [addFirst, TokenSet.mem_union, Bool.or_eq_true] at hfirst hnull
    exact ⟨⟨fun t ht => hfirst t (.inl ht), hfollow, fun hn => hnull (.inl hn), hfinal⟩, fun t ht => hfirst t (.inr ht),
      fun hb => hnull (.inr hb)⟩
  · rintro ⟨h, hS, hb⟩
    refine ⟨fun t ht => ?_, h.follow, fun hn => ?_, h.final⟩
    · rw [addFirst, TokenSet.mem_union, Bool.or_eq_true] at ht
      exact ht.elim (h.first t) (hS t)
    · exact (Bool.or_eq_true_iff.1 hn).elim h.nullable hb

theorem addFollow_le_iff {f f' : NodeFacts} {S : TokenSet} {b : Bool} :
    (f.addFollow S b).Le f' ↔ f.Le f' ∧ (∀ t, S.mem t = true → f'.follow.mem t = true) ∧ (b = true → f'.final = true) := by
  constructor
  · rintro ⟨hfirst, hfollow, hnull, hfinal⟩
    simp only [addFollow, TokenSet.mem_union, Bool.or_eq_true] at hfollow hfinal
    exact ⟨⟨hfirst, fun t ht => hfollow t (.inl ht), hnull, fun hf => hfinal (.inl hf)⟩, fun t ht => hfollow t (.inr ht),
      fun hb => hfinal (.inr hb)⟩
  · rintro ⟨h, hS, hb⟩
    refine ⟨h.first, fun t ht => ?_, h.nullable, fun hf => ?_⟩
    · rw [addFollow, TokenSet.mem_union, Bool.or_eq_true] at ht
      exact ht.elim (h.follow t) (hS t)
    · exact (Bool.or_eq_true_iff.1 hf).elim h.final hb

theorem le_addFirst (f : NodeFacts) (S : TokenSet) (b : Bool) : Le f (f.addFirst S b) :=
  (addFirst_le_iff.1 (.refl _)).1

theorem le_addFollow (f : NodeFacts) (S : TokenSet) (b : Bool) : Le f (f.addFollow S b) :=
  (addFollow_le_iff.1 (.refl _)).1

end NodeFacts

namespace Facts

/-- The facts with a number. -/
def atNumber (F : Facts) (k : Nat) : NodeFacts :=
  F[k]?.getD {}

/-- The facts `G` claim whatever the facts `F` claim of the same nodes. -/
structure Le (F G : Facts) : Prop where
  size : F.size = G.size
  claims : ∀ k, (F.atNumber k).Le (G.atNumber k)

theorem Le.refl (F : Facts) : Le F F :=
  ⟨rfl, fun _ => .refl _⟩

theorem Le.trans {F G H : Facts} (h : Le F G) (h' : Le G H) : Le F H :=
  ⟨h.size.trans h'.size, fun k => (h.claims k).trans (h'.claims k)⟩

/-- Facts are equal if they have the same size and the same entries. -/
theorem ext_atNumber {F G : Facts} (hs : F.size = G.size) (h : ∀ k < F.size, F.atNumber k = G.atNumber k) : F = G := by
  refine Array.ext hs fun k hk hk' => ?_
  have e := h k hk
  simpa only [atNumber, Array.getElem?_eq_getElem hk, Array.getElem?_eq_getElem hk', Option.getD_some] using e

theorem Le.antisymm {F G : Facts} (h : Le F G) (h' : Le G F) : F = G :=
  ext_atNumber h.size fun k _ => (h.claims k).antisymm (h'.claims k)

variable (g : Grammar)

@[simp] theorem size_update (F : Facts) (n : Node) (change : NodeFacts → NodeFacts) :
    (F.update g n change).size = F.size :=
  Array.size_modify ..

theorem atNumber_update (F : Facts) (n : Node) (change : NodeFacts → NodeFacts) (k : Nat) :
    (F.update g n change).atNumber k = if g.number n = k ∧ k < F.size then change (F.atNumber k) else F.atNumber k := by
  simp only [atNumber, update, Array.getElem?_modify]
  by_cases hn : g.number n = k
  · by_cases hk : k < F.size
    · simp [hn, hk]
    · simp [hn, hk]
  · simp [hn]

/-- A change that only adds facts leads to more facts. -/
theorem le_update (F : Facts) (n : Node) {change : NodeFacts → NodeFacts} (h : ∀ f : NodeFacts, f.Le (change f)) :
    F.Le (F.update g n change) := by
  refine ⟨by simp, fun k => ?_⟩
  rw [atNumber_update]
  split
  · exact h _
  · exact .refl _

/-! ## Rounds only add facts -/

theorem le_throughAlternative (symbol : Node) (F : Facts) (alt : Node) : F.Le (throughAlternative g symbol F alt) :=
  (le_update g F symbol fun f => f.le_addFirst _ _).trans (le_update g _ alt fun f => f.le_addFollow _ _)

theorem le_throughItems (is : List Item) (trailing : TokenSet) (final : Bool) (F : Facts) :
    F.Le (throughItems g is trailing final F) := by
  induction is generalizing trailing final F with
  | nil => exact .refl F
  | cons i is ih =>
    rw [throughItems]
    have h := le_update g F i fun f => f.le_addFollow trailing final
    split
    · exact h.trans (ih _ _ _)
    · exact h.trans (ih _ _ _)

theorem le_throughSequence (F : Facts) (q : Nat) : F.Le (throughSequence g F q) :=
  (le_update g F (.sequence q) fun f => f.le_addFirst _ _).trans (le_throughItems g _ _ _ _)

/-- A fold of steps that only add facts only adds facts. -/
theorem le_foldl {α : Type} {step : Facts → α → Facts} (h : ∀ (F : Facts) (a : α), F.Le (step F a))
    (as : List α) (F : Facts) :
    F.Le (as.foldl step F) := by
  induction as generalizing F with
  | nil => exact .refl F
  | cons a as ih => exact (h F a).trans (ih _)

/-- If a fold of steps that only add facts changes nothing, then no step does. -/
theorem eq_of_foldl_eq {α : Type} {step : Facts → α → Facts} (h : ∀ (F : Facts) (a : α), F.Le (step F a))
    {as : List α} {F : Facts} (e : as.foldl step F = F) {a : α} (ha : a ∈ as) : step F a = F := by
  induction as with
  | nil => exact absurd ha List.not_mem_nil
  | cons b as ih =>
    rw [List.foldl_cons] at e
    have hb : step F b = F := by
      refine Le.antisymm ?_ (h F b)
      have hle := le_foldl h as (step F b)
      rwa [e] at hle
    rw [hb] at e
    rcases List.mem_cons.1 ha with rfl | ha
    · exact hb
    · exact ih e ha

/-- The alternatives of a symbol in a round. -/
theorem le_alternatives (F : Facts) (s : Nat) :
    F.Le ((g.symbol s).alts.foldl (throughAlternative g (Item.symbol s)) F) :=
  le_foldl (le_throughAlternative g _) _ F

/-- **A round only adds facts.** -/
theorem le_round (F : Facts) : F.Le (round g F) :=
  (le_foldl (le_alternatives g) _ F).trans (le_foldl (le_throughSequence g) _ _)

/-! ## Invariants of the rounds -/

/-- What the steps through alternatives and sequences keep is kept by a round. -/
theorem round_induction {P : Facts → Prop}
    (halt : ∀ s < g.symbolCount, ∀ p ∈ (g.symbol s).alts, ∀ F, P F → P (throughAlternative g (Item.symbol s) F p))
    (hseq : ∀ q < g.sequences.size, ∀ F, P F → P (throughSequence g F q)) {F : Facts} (h : P F) : P (round g F) := by
  have h' : P ((List.range g.symbolCount).foldl
      (fun F s => (g.symbol s).alts.foldl (throughAlternative g (Item.symbol s)) F) F) :=
    List.foldlRecOn _ _ h fun F hF s hs =>
      List.foldlRecOn _ _ hF fun F hF p hp => halt s (List.mem_range.1 hs) p hp F hF
  exact List.foldlRecOn _ _ h' fun F hF q hq => hseq q (List.mem_range.1 hq) F hF

/-- What holds at the outset and is kept by a round holds in the end. -/
theorem analyze_induction {P : Facts → Prop} (hinitial : P (initial g)) (hround : ∀ F, P F → P (round g F)) :
    P g.analyze := by
  have h : ∀ (fuel rounds : Nat) (F : Facts), P F → P (iterate g fuel rounds F).1 := by
    intro fuel
    induction fuel with
    | zero => exact fun _ _ hF => hF
    | succ fuel ih =>
      intro rounds F hF
      rw [iterate]
      split
      · exact hF
      · exact ih _ _ (hround F hF)
  exact h _ _ _ hinitial

/-- The analysis keeps what is known at the outset. -/
theorem le_analyze (g : Grammar) : (initial g).Le g.analyze :=
  analyze_induction g (.refl _) fun F hF => hF.trans (le_round g F)

theorem size_analyze (g : Grammar) : g.analyze.size = g.nodeCount := by
  rw [← (le_analyze g).size]
  simp [initial]

end Facts

end PredictiveParser
