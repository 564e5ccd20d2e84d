import Mathlib.Algebra.Order.BigOperators.Group.Finset
import PredictiveParser.Proofs.Analysis.Least

/-!
# The analysis ends in a fixed point

A round that changes something raises the number of facts (`weight_lt`), which is bounded (`Facts.weight_le`), since only terminals
of the grammar are ever known (`Below.within`). So the analysis stops because a round changes nothing (`round_analyze`), and not
because it runs out of rounds.
-/

namespace PredictiveParser

/-! ## The number of facts of a node -/

namespace NodeFacts

/-- The terminals of the facts are below `n`. -/
structure Within (n : Nat) (f : NodeFacts) : Prop where
  first : ∀ t, f.first.mem t = true → t < n
  follow : ∀ t, f.follow.mem t = true → t < n

theorem Within.default (n : Nat) : Within n {} :=
  ⟨fun t ht => by simp at ht, fun t ht => by simp at ht⟩

/-- The number of claims. -/
def weight (n : Nat) (f : NodeFacts) : Nat :=
  (f.first.toList n).length + (f.follow.toList n).length + f.nullable.toNat + f.final.toNat

end NodeFacts

namespace TokenSet

/-- A larger set has a longer list. -/
theorem toList_sublist {S T : TokenSet} (n : Nat) (h : ∀ t, S.mem t = true → T.mem t = true) :
    (S.toList n).Sublist (T.toList n) :=
  List.monotone_filter_right _ h

theorem length_toList_le (S : TokenSet) (n : Nat) : (S.toList n).length ≤ n :=
  Nat.le_trans (List.length_filter_le _ _) (by simp)

/-- A larger set with a list that is not longer has no further member below the bound. -/
theorem mem_of_length_le {S T : TokenSet} {n : Nat} (h : ∀ t, S.mem t = true → T.mem t = true)
    (hl : (T.toList n).length ≤ (S.toList n).length) {t : Nat} (ht : t < n) (hm : T.mem t = true) : S.mem t = true := by
  have e := (toList_sublist n h).eq_of_length (Nat.le_antisymm (toList_sublist n h).length_le hl)
  have hmem : t ∈ S.toList n := e ▸ mem_toList.2 ⟨ht, hm⟩
  exact (mem_toList.1 hmem).2

end TokenSet

namespace NodeFacts

theorem weight_le (n : Nat) (f : NodeFacts) : f.weight n ≤ 2 * n + 2 := by
  have h₁ := f.first.length_toList_le n
  have h₂ := f.follow.length_toList_le n
  have h₃ := Bool.toNat_le f.nullable
  have h₄ := Bool.toNat_le f.final
  unfold weight
  omega

/-- Facts that claim more claim no less of any kind. -/
theorem Le.counts {f f' : NodeFacts} (h : Le f f') (n : Nat) : (f.first.toList n).length ≤ (f'.first.toList n).length ∧
    (f.follow.toList n).length ≤ (f'.follow.toList n).length ∧ f.nullable.toNat ≤ f'.nullable.toNat ∧
      f.final.toNat ≤ f'.final.toNat :=
  ⟨(TokenSet.toList_sublist n h.first).length_le, (TokenSet.toList_sublist n h.follow).length_le,
    Bool.toNat_le_toNat h.nullable, Bool.toNat_le_toNat h.final⟩

theorem Le.weight_le {f f' : NodeFacts} (h : Le f f') (n : Nat) : f.weight n ≤ f'.weight n := by
  obtain ⟨h₁, h₂, h₃, h₄⟩ := h.counts n
  unfold weight
  omega

/-- Facts that claim more, but not in number, are the same. -/
theorem Le.eq_of_weight {f f' : NodeFacts} {n : Nat} (h : Le f f') (hw : f'.Within n) (e : f'.weight n ≤ f.weight n) :
    f = f' := by
  obtain ⟨h₁, h₂, h₃, h₄⟩ := h.counts n
  unfold weight at e
  refine h.antisymm ⟨fun t ht => ?_, fun t ht => ?_, fun hn => ?_, fun hf => ?_⟩
  · exact TokenSet.mem_of_length_le h.first (by omega) (hw.first t ht) ht
  · exact TokenSet.mem_of_length_le h.follow (by omega) (hw.follow t ht) ht
  · rw [hn] at h₃ e
    cases hn' : f.nullable with
    | true => rfl
    | false => rw [hn'] at h₃ e; simp at h₃ e; omega
  · rw [hf] at h₄ e
    cases hf' : f.final with
    | true => rfl
    | false => rw [hf'] at h₄ e; simp at h₄ e; omega

end NodeFacts

namespace Facts

/-! ## Facts of the terminals of the grammar -/

/-- The terminals of all facts are below `n`. -/
def Within (n : Nat) (F : Facts) : Prop :=
  ∀ k, (F.atNumber k).Within n

variable {g : Grammar} {n : Nat}

theorem Within.of {F : Facts} (h : F.Within n) (m : Node) : (F.of g m).Within n :=
  h (g.number m)

theorem Within.firstOf {F : Facts} (h : F.Within n) (is : List Item) {t : Nat} (ht : (F.firstOf g is).1.mem t = true) :
    t < n := by
  induction is with
  | nil => simp [Facts.firstOf] at ht
  | cons i is ih =>
    rw [Facts.firstOf] at ht
    dsimp only at ht
    split at ht
    · rcases Bool.or_eq_true_iff.1 ((TokenSet.mem_union _ _ t).symm.trans ht) with ht | ht
      · exact (h.of i).first t ht
      · exact ih ht
    · exact (h.of i).first t ht

/-- Facts that claim no more than derivations do are about terminals of the grammar. -/
theorem Below.within {F : Facts} (h : F.Below g (derived g)) (hsize : F.size = g.nodeCount) : F.Within g.tokenCount := by
  intro k
  by_cases hk : k < g.nodeCount
  · obtain ⟨m, hn, rfl, -⟩ := Grammar.nodeAt?_of_lt hk
    have hle := h m hn
    exact ⟨fun t ht => ((mem_first_derived hn).1 (hle.first t ht)).1, fun t ht => (mem_follow_derived hn).1 (hle.follow t ht)⟩
  · rw [atNumber, Array.getElem?_eq_none (by omega)]
    exact .default _

theorem within_analyze (hg : g.WellFormed) : g.analyze.Within g.tokenCount :=
  ((closed_derived hg).analyze_below hg).within (size_analyze g)

/-! ## The number of facts -/

/-- The number of claims of all facts. -/
def weight (n : Nat) (F : Facts) : Nat :=
  ∑ k ∈ Finset.range F.size, (F.atNumber k).weight n

theorem weight_le (F : Facts) : F.weight n ≤ F.size * (2 * n + 2) := by
  have h := Finset.sum_le_card_nsmul (Finset.range F.size) (fun k => (F.atNumber k).weight n) (2 * n + 2)
    fun k _ => (F.atNumber k).weight_le n
  simpa [weight] using h

/-- **A change that only adds facts raises their number.** -/
theorem Le.weight_lt {F G : Facts} (h : F.Le G) (hG : G.Within n) (hne : G ≠ F) : F.weight n < G.weight n := by
  have hle : ∀ k ∈ Finset.range F.size, (F.atNumber k).weight n ≤ (G.atNumber k).weight n :=
    fun k _ => (h.claims k).weight_le n
  rw [weight, weight, ← h.size]
  refine Finset.sum_lt_sum hle ?_
  by_contra hcon
  simp only [not_exists, not_and, not_lt, Finset.mem_range] at hcon
  exact hne (ext_atNumber h.size fun k hk => (h.claims k).eq_of_weight (hG k) (hcon k hk)).symm

/-- A round that changes something raises the number of facts. -/
theorem weight_lt_round (hg : g.WellFormed) {F : Facts} (hF : F.Below g (derived g)) (hsize : F.size = g.nodeCount)
    (hne : round g F ≠ F) : F.weight g.tokenCount < (round g F).weight g.tokenCount :=
  (le_round g F).weight_lt ((hF.round (closed_derived hg) hg).within ((le_round g F).size.symm.trans hsize)) hne

/-- Enough rounds reach a fixed point. -/
theorem round_iterate (hg : g.WellFormed) (fuel rounds : Nat) {F : Facts} (hF : F.Below g (derived g))
    (hsize : F.size = g.nodeCount) (hfuel : F.size * (2 * g.tokenCount + 2) < F.weight g.tokenCount + fuel) :
    round g (iterate g fuel rounds F).1 = (iterate g fuel rounds F).1 := by
  induction fuel generalizing F rounds with
  | zero => exact absurd hfuel (Nat.not_lt.2 F.weight_le)
  | succ fuel ih =>
    rw [iterate]
    split
    · next h => exact h
    · next h =>
      have hlt := weight_lt_round hg hF hsize h
      have hsize' := (le_round g F).size
      exact ih _ (hF.round (closed_derived hg) hg) (hsize'.symm.trans hsize) (by rw [← hsize']; omega)

/-! ## What a fixed point says -/

/-- A round that changes nothing changes nothing on its way. -/
theorem eq_of_round_eq {F : Facts} (h : round g F = F) :
    (∀ s < g.symbolCount, ∀ p ∈ (g.symbol s).alts, throughAlternative g (Item.symbol s) F p = F) ∧
      ∀ q < g.sequences.size, throughSequence g F q = F := by
  have h₁ := le_foldl (le_alternatives g) (List.range g.symbolCount) F
  have h₂ := le_foldl (le_throughSequence g) (List.range g.sequences.size)
    ((List.range g.symbolCount).foldl (fun F s => (g.symbol s).alts.foldl (throughAlternative g (Item.symbol s)) F) F)
  change Le _ (round g F) at h₂
  rw [h] at h₂
  have e := h₂.antisymm h₁
  refine ⟨fun s hs p hp => ?_, fun q hq => ?_⟩
  · have h' := eq_of_foldl_eq (le_alternatives g) e (List.mem_range.2 hs)
    exact eq_of_foldl_eq (le_throughAlternative g _) h' hp
  · unfold round at h
    dsimp only at h
    rw [e] at h
    exact eq_of_foldl_eq (le_throughSequence g) h (List.mem_range.2 hq)

end Facts

/-- **The analysis ends in a fixed point.** -/
theorem Grammar.round_analyze {g : Grammar} (hg : g.WellFormed) : Facts.round g g.analyze = g.analyze := by
  have hsize : (Facts.initial g).size = g.nodeCount := by simp [Facts.initial]
  refine Facts.round_iterate hg _ _ (Facts.Below.initial (Facts.closed_derived hg) hg) hsize ?_
  rw [hsize, Facts.bound]
  omega

end PredictiveParser
