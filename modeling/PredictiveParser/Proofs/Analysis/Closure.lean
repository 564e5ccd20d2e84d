import PredictiveParser.Proofs.Analysis.Fixpoint

/-!
# What the analysis knows

A fixed point of the rounds is closed (`Grammar.WellFormed.closed`), since none of its steps changes anything. So the facts are
complete: if some items derive a terminal first, then the analysis knows it (`Closed.mem_firstOf`, `Closed.nullable_firstOf`).
-/

namespace PredictiveParser

namespace Facts

variable {g : Grammar} {F : Facts}

/-! ## A fixed point is closed -/

/-- A change that changes nothing adds nothing to the facts of its node. -/
theorem le_of_update_eq {n : Node} {change : NodeFacts → NodeFacts} (h : F.update g n change = F)
    (hn : g.number n < F.size) : (change (F.of g n)).Le (F.of g n) := by
  have e := congrArg (fun G => G.atNumber (g.number n)) h
  simp only [atNumber_update, hn, and_self, if_true] at e
  change change (F.of g n) = F.of g n at e
  rw [e]
  exact .refl _

/-- If a change and more of them change nothing, then neither does the first. -/
theorem update_eq_of_le {n : Node} {change : NodeFacts → NodeFacts} (hc : ∀ f : NodeFacts, f.Le (change f))
    (h : (F.update g n change).Le F) : F.update g n change = F :=
  h.antisymm (le_update g F n hc)

/-- An alternative through which nothing more propagates. -/
theorem closed_alternative {symbol alt : Node} (h : throughAlternative g symbol F alt = F)
    (hs : g.number symbol < F.size) (ha : g.number alt < F.size) :
    (∀ t, (F.of g alt).first.mem t = true → (F.of g symbol).first.mem t = true) ∧
      ((F.of g alt).nullable = true → (F.of g symbol).nullable = true) ∧
      (∀ t, (F.of g symbol).follow.mem t = true → (F.of g alt).follow.mem t = true) ∧
      ((F.of g symbol).final = true → (F.of g alt).final = true) := by
  unfold throughAlternative at h
  dsimp only at h
  have e : F.update g symbol (·.addFirst (F.of g alt).first (F.of g alt).nullable) = F := by
    refine update_eq_of_le (fun f => f.le_addFirst _ _) ?_
    conv => rhs; rw [← h]
    exact le_update g _ alt fun f => f.le_addFollow _ _
  rw [e] at h
  obtain ⟨-, h₁, h₂⟩ := NodeFacts.addFirst_le_iff.1 (le_of_update_eq e hs)
  obtain ⟨-, h₃, h₄⟩ := NodeFacts.addFollow_le_iff.1 (le_of_update_eq h ha)
  exact ⟨h₁, h₂, h₃, h₄⟩

/-- Items through which nothing more propagates: `passed` are those that were visited already, and `trailing` and `final`
are what follows the item to be visited next. -/
theorem closed_items {reversed passed : List Item} {trailing behind : TokenSet} {final last : Bool}
    (ht : ∀ t, trailing.mem t = true ↔
      (F.firstOf g passed).1.mem t = true ∨ (F.firstOf g passed).2 = true ∧ behind.mem t = true)
    (hf : final = true ↔ (F.firstOf g passed).2 = true ∧ last = true)
    (h : throughItems g reversed trailing final F = F) (hn : ∀ i ∈ reversed, g.itemNumber i < F.size)
    {pre post : List Item} {i : Item} (e : reversed.reverse = pre ++ i :: post) :
    (∀ t, (F.firstOf g (post ++ passed)).1.mem t = true → (F.of g i).follow.mem t = true) ∧
      ((F.firstOf g (post ++ passed)).2 = true →
        (∀ t, behind.mem t = true → (F.of g i).follow.mem t = true) ∧ (last = true → (F.of g i).final = true)) := by
  induction reversed generalizing passed trailing final post with
  | nil => simp at e
  | cons j js ih =>
    rw [throughItems] at h
    have hj : F.update g j (·.addFollow trailing final) = F := by
      refine update_eq_of_le (fun f => f.le_addFollow _ _) ?_
      conv => rhs; rw [← h]
      split
      · exact le_throughItems g _ _ _ _
      · exact le_throughItems g _ _ _ _
    rw [hj] at h
    obtain ⟨-, h₁, h₂⟩ := NodeFacts.addFollow_le_iff.1 (le_of_update_eq hj (hn j List.mem_cons_self))
    rw [List.reverse_cons] at e
    rcases List.eq_nil_or_concat post with rfl | ⟨post, k, rfl⟩
    · -- the item is the one that is visited now
      obtain ⟨-, e⟩ := List.append_inj' e rfl
      cases e
      refine ⟨fun t hm => h₁ t ((ht t).2 (.inl hm)), fun hnull => ⟨fun t hm => h₁ t ((ht t).2 (.inr ⟨hnull, hm⟩)), ?_⟩⟩
      exact fun hlast => h₂ (hf.2 ⟨hnull, hlast⟩)
    · have e' : js.reverse ++ [j] = (pre ++ i :: post) ++ [k] := by simpa using e
      obtain ⟨e₁, e₂⟩ := List.append_inj' e' rfl
      cases e₂
      rw [List.concat_eq_append, List.append_assoc, List.singleton_append]
      by_cases hnull : (F.of g j).nullable = true
      · rw [if_pos hnull] at h
        refine ih (fun t => ?_) ?_ h (fun i hi => hn i (List.mem_cons_of_mem _ hi)) e₁
        · rw [TokenSet.mem_union, Bool.or_eq_true, ht, mem_firstOf_cons, nullable_firstOf_cons]
          tauto
        · rw [hf, nullable_firstOf_cons]
          tauto
      · rw [if_neg hnull] at h
        refine ih (fun t => ?_) ?_ h (fun i hi => hn i (List.mem_cons_of_mem _ hi)) e₁
        · rw [mem_firstOf_cons, nullable_firstOf_cons]
          tauto
        · rw [nullable_firstOf_cons]
          simp [hnull]

/-- A sequence through which nothing more propagates. -/
theorem closed_sequence (hg : g.WellFormed) (hsize : F.size = g.nodeCount) {q : Nat} (hq : q < g.sequences.size)
    (h : throughSequence g F q = F) : F.ClosedAt g (.sequence q) := by
  have hlt : ∀ n, g.HasNode n → g.number n < F.size := fun n hn => hsize ▸ Grammar.number_lt hn
  unfold throughSequence at h
  dsimp only at h
  have e : F.update g (.sequence q) (·.addFirst (F.firstOf g (g.sequence q)).1 (F.firstOf g (g.sequence q)).2) = F := by
    refine update_eq_of_le (fun f => f.le_addFirst _ _) ?_
    conv => rhs; rw [← h]
    exact le_throughItems g _ _ _ _
  rw [e] at h
  obtain ⟨-, h₁, h₂⟩ := NodeFacts.addFirst_le_iff.1 (le_of_update_eq e (hlt (.sequence q) hq))
  refine ⟨h₁, h₂, fun pre i post hs => ?_⟩
  have hitems : ∀ i ∈ (g.sequence q).reverse, g.itemNumber i < F.size := fun i hi =>
    hlt (.item i) (hg.hasItem_sequence (List.mem_reverse.1 hi))
  have hc := @closed_items g F _ [] _ (F.of g (.sequence q)).follow _ (F.of g (.sequence q)).final
    (by simp) (by simp) h hitems pre post i (by rw [List.reverse_reverse]; exact hs)
  rwa [List.append_nil] at hc

/-- Terminals begin with themselves from the outset. -/
theorem analyze_token {t : Nat} (ht : t < g.tokenCount) : (g.analyze.of g (Item.token t)).first.mem t = true := by
  refine ((le_analyze g).claims _).first t ?_
  have hn : g.HasNode (Item.token t) := ht
  rw [initial, atNumber_update]
  split <;> simp [atNumber, Grammar.getElem?_nodes_number hn]

/-- Transparent nodes derive the empty text from the outset. -/
theorem analyze_silent {n : Node} (hn : g.HasNode n) (h : n.isTransparent = true) :
    (g.analyze.of g n).nullable = true := by
  refine ((le_analyze g).claims _).nullable ?_
  have hne : ∀ t, n ≠ Item.token t := fun t e => by rw [e] at h; cases h
  rw [initial, atNumber_update]
  simp only [atNumber, List.getElem?_toArray, List.getElem?_map, Grammar.getElem?_nodes_number hn, Option.map_some,
    Option.getD_some]
  split <;> exact h

/-- The input can end after the start symbol from the outset. -/
theorem analyze_start (hg : g.WellFormed) : (g.analyze.of g (Item.symbol g.start)).final = true := by
  have hn : g.number (Item.symbol g.start) < g.nodeCount := Grammar.number_lt (n := Item.symbol g.start) hg.start
  refine ((le_analyze g).claims _).final ?_
  rw [initial, atNumber_update, if_pos ⟨rfl, by simpa using hn⟩]

end Facts

open Facts

/-- **The facts of a well-formed grammar are closed.** -/
theorem Grammar.WellFormed.closed {g : Grammar} (hg : g.WellFormed) : Facts.Closed g g.analyze := by
  obtain ⟨halt, hseq⟩ := eq_of_round_eq (round_analyze hg)
  have hlt : ∀ n, g.HasNode n → g.number n < g.analyze.size := fun n hn => size_analyze g ▸ number_lt hn
  refine closed_of_sequences (fun t ht => analyze_token ht) (fun i hi htr => analyze_silent hi htr)
    (analyze_silent trivial rfl) (fun q hq => closed_sequence hg (size_analyze g) hq (hseq q hq)) (fun s p hp => ?_)
    (analyze_start hg)
  have hs := symbol_lt_of_mem_alts hp
  exact closed_alternative (halt s hs p hp) (hlt (Item.symbol s) hs) (hlt p (hg.hasNode_alt hp))

namespace Facts

variable {g : Grammar} {F : Facts}

/-! ## Complete facts -/

namespace Closed

variable (hF : F.Closed g)

include hF

theorem alternative_items (hg : g.WellFormed) {s : Nat} {p : Node} (hp : p ∈ (g.symbol s).alts) :
    (∀ t, (F.firstOf g (g.items p)).1.mem t = true → (F.of g (Item.symbol s)).first.mem t = true) ∧
      ((F.firstOf g (g.items p)).2 = true → (F.of g (Item.symbol s)).nullable = true) :=
  ⟨fun t ht => (hF.alternative s p hp).1 t (hF.first p (hg.hasNode_alt hp) t ht),
    fun h => (hF.alternative s p hp).2.1 (hF.nullable p (hg.hasNode_alt hp) h)⟩

/-- **If items derive the empty text, then the analysis knows it.** -/
theorem nullable_firstOf (hg : g.WellFormed) {is : List Item} (hi : ∀ i ∈ is, g.HasItem i) (h : g.Derives is []) :
    (F.firstOf g is).2 = true := by
  unfold Grammar.Derives at h
  generalize hu : ([] : List Nat) = u at h
  generalize hj : ([] : List Item) = js at h
  induction h with
  | refl is => simp [← hj]
  | @silent i is js u htr _ ih =>
    rw [List.forall_mem_cons] at hi
    exact nullable_firstOf_cons.2 ⟨hF.silent i hi.1 htr, ih hi.2 hu hj⟩
  | token => cases hu
  | @symbol s p is js u hp _ ih =>
    rw [List.forall_mem_cons] at hi
    have hi' := List.forall_mem_append.2 ⟨fun _ => hg.hasItem_alt hp, hi.2⟩
    obtain ⟨h₁, h₂⟩ := nullable_firstOf_append.1 (ih hi' hu hj)
    exact nullable_firstOf_cons.2 ⟨(hF.alternative_items hg hp).2 h₁, h₂⟩

/-- **If items derive a terminal first, then the analysis knows it.** -/
theorem mem_firstOf (hg : g.WellFormed) {is js : List Item} {t : Nat} (hi : ∀ i ∈ is, g.HasItem i)
    (h : g.Leads is [] (.token t :: js)) : (F.firstOf g is).1.mem t = true := by
  generalize hu : ([] : List Nat) = u at h
  generalize hk : Item.token t :: js = ks at h
  induction h with
  | refl is =>
    subst hk
    exact mem_firstOf_cons.2 (.inl (hF.token t (hi _ List.mem_cons_self)))
  | @silent i is ks u htr _ ih =>
    rw [List.forall_mem_cons] at hi
    exact mem_firstOf_cons.2 (.inr ⟨hF.silent i hi.1 htr, ih hi.2 hu hk⟩)
  | token => cases hu
  | @symbol s p is ks u hp _ ih =>
    rw [List.forall_mem_cons] at hi
    have hi' := List.forall_mem_append.2 ⟨fun _ => hg.hasItem_alt hp, hi.2⟩
    rcases mem_firstOf_append.1 (ih hi' hu hk) with h | ⟨h₁, h₂⟩
    · exact mem_firstOf_cons.2 (.inl ((hF.alternative_items hg hp).1 t h))
    · exact mem_firstOf_cons.2 (.inr ⟨(hF.alternative_items hg hp).2 h₁, h₂⟩)

end Closed

end Facts

end PredictiveParser
