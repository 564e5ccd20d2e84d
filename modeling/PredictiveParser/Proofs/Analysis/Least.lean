import Mathlib.Tactic.Tauto
import PredictiveParser.Proofs.Analysis.Rounds
import PredictiveParser.Proofs.Grammar.Forest

/-!
# Closed facts

Facts are closed (`Facts.Closed`) if a node begins as its items do, an alternative is followed by what follows its symbol, and an
item by what the items behind it begin with. No step of a round claims more than closed facts do (`Below.throughAlternative`,
`Below.throughSequence`), so the facts of a grammar are below all closed facts (`Closed.analyze_below`). To bound what the analysis
finds it is enough to write down closed facts, node by node (`Facts.tabulate`). So the facts of a grammar are sound, since what
derivations say of the beginnings of nodes is closed (`closed_derived`).
-/

namespace PredictiveParser

open Classical in
/-- The terminals below `n` with a property. -/
noncomputable def TokenSet.setOf (n : Nat) (P : Nat → Prop) : TokenSet :=
  ofList ((List.range n).filter fun t => P t)

@[simp] theorem TokenSet.mem_setOf {n : Nat} {P : Nat → Prop} {t : Nat} :
    (setOf n P).mem t = true ↔ t < n ∧ P t := by
  simp [setOf]

namespace Facts

/-! ## Closed facts -/

/-- The facts are closed under propagation through alternatives and sequences. -/
structure Closed (g : Grammar) (F : Facts) : Prop where
  token : ∀ t < g.tokenCount, (F.of g (Item.token t)).first.mem t = true
  silent : ∀ i, g.HasItem i → i.isTransparent = true → (F.of g i).nullable = true
  first : ∀ n, g.HasNode n → ∀ t, (F.firstOf g (g.items n)).1.mem t = true → (F.of g n).first.mem t = true
  nullable : ∀ n, g.HasNode n → (F.firstOf g (g.items n)).2 = true → (F.of g n).nullable = true
  alternative : ∀ s, ∀ p ∈ (g.symbol s).alts,
    (∀ t, (F.of g p).first.mem t = true → (F.of g (Item.symbol s)).first.mem t = true) ∧
      ((F.of g p).nullable = true → (F.of g (Item.symbol s)).nullable = true) ∧
      (∀ t, (F.of g (Item.symbol s)).follow.mem t = true → (F.of g p).follow.mem t = true) ∧
      ((F.of g (Item.symbol s)).final = true → (F.of g p).final = true)
  behind : ∀ n, g.HasNode n → ∀ pre i post, g.items n = pre ++ i :: post →
    (∀ t, (F.firstOf g post).1.mem t = true → (F.of g i).follow.mem t = true) ∧
      ((F.firstOf g post).2 = true → (∀ t, (F.of g n).follow.mem t = true → (F.of g i).follow.mem t = true) ∧
        ((F.of g n).final = true → (F.of g i).final = true))
  start : (F.of g (Item.symbol g.start)).final = true

/-- The facts are closed under propagation through the items of a node. -/
structure ClosedAt (g : Grammar) (F : Facts) (n : Node) : Prop where
  first : ∀ t, (F.firstOf g (g.items n)).1.mem t = true → (F.of g n).first.mem t = true
  nullable : (F.firstOf g (g.items n)).2 = true → (F.of g n).nullable = true
  behind : ∀ pre i post, g.items n = pre ++ i :: post →
    (∀ t, (F.firstOf g post).1.mem t = true → (F.of g i).follow.mem t = true) ∧
      ((F.firstOf g post).2 = true → (∀ t, (F.of g n).follow.mem t = true → (F.of g i).follow.mem t = true) ∧
        ((F.of g n).final = true → (F.of g i).final = true))

variable {g : Grammar} {F : Facts}

@[simp] theorem firstOf_nil : F.firstOf g [] = (.empty, true) := rfl

theorem mem_firstOf_cons {i : Item} {is : List Item} {t : Nat} : (F.firstOf g (i :: is)).1.mem t = true ↔
    (F.of g i).first.mem t = true ∨ (F.of g i).nullable = true ∧ (F.firstOf g is).1.mem t = true := by
  rw [firstOf]
  by_cases h : (F.of g i).nullable = true
  · simp [h]
  · simp [h]

theorem nullable_firstOf_cons {i : Item} {is : List Item} :
    (F.firstOf g (i :: is)).2 = true ↔ (F.of g i).nullable = true ∧ (F.firstOf g is).2 = true := by
  rw [firstOf]
  by_cases h : (F.of g i).nullable = true
  · simp [h]
  · simp [h]

/-- What two lists of items begin with, one after the other. -/
theorem mem_firstOf_append {is js : List Item} {t : Nat} : (F.firstOf g (is ++ js)).1.mem t = true ↔
    (F.firstOf g is).1.mem t = true ∨ (F.firstOf g is).2 = true ∧ (F.firstOf g js).1.mem t = true := by
  induction is with
  | nil => simp
  | cons i is ih =>
    rw [List.cons_append, mem_firstOf_cons, mem_firstOf_cons, nullable_firstOf_cons, ih]
    tauto

theorem nullable_firstOf_append {is js : List Item} :
    (F.firstOf g (is ++ js)).2 = true ↔ (F.firstOf g is).2 = true ∧ (F.firstOf g js).2 = true := by
  induction is with
  | nil => simp
  | cons i is ih => rw [List.cons_append, nullable_firstOf_cons, nullable_firstOf_cons, ih, and_assoc]

/-- What a list of items begins with only depends on what its items begin with. -/
theorem firstOf_congr {g' : Grammar} {F' : Facts} {is : List Item}
    (h : ∀ i ∈ is, (F.of g i).first = (F'.of g' i).first ∧ (F.of g i).nullable = (F'.of g' i).nullable) :
    F.firstOf g is = F'.firstOf g' is := by
  induction is with
  | nil => rfl
  | cons i is ih =>
    rw [List.forall_mem_cons] at h
    rw [firstOf, firstOf, ih h.2, h.1.1, h.1.2]

theorem Closed.at (hF : F.Closed g) {n : Node} (hn : g.HasNode n) : F.ClosedAt g n :=
  ⟨hF.first n hn, hF.nullable n hn, hF.behind n hn⟩

theorem closedAt_epsilon (h : (F.of g .epsilon).nullable = true) : F.ClosedAt g .epsilon :=
  ⟨fun t ht => by simp [Grammar.items] at ht, fun _ => h, fun pre i post e => by simp [Grammar.items] at e⟩

/-- An item is all that it consists of. -/
theorem closedAt_item (i : Item) : F.ClosedAt g i := by
  refine ⟨fun t ht => ?_, fun h => (nullable_firstOf_cons.1 h).1, fun pre j post e => ?_⟩
  · rcases mem_firstOf_cons.1 ht with h | ⟨-, h⟩
    · exact h
    · simp at h
  · -- the item is its own last one
    rw [Grammar.items, List.singleton_eq_append_iff] at e
    rcases e with ⟨rfl, e⟩ | ⟨rfl, e⟩
    · cases e
      exact ⟨fun t ht => by simp at ht, fun _ => ⟨fun _ h => h, id⟩⟩
    · cases e

/-- Facts that say the same of a node and of its items are closed there as well. -/
theorem ClosedAt.congr {g' : Grammar} {F' : Facts} {n : Node} (h : F.ClosedAt g n) (hitems : g'.items n = g.items n)
    (hn : F'.of g' n = F.of g n) (hi : ∀ i ∈ g.items n, F'.of g' i = F.of g i) : F'.ClosedAt g' n := by
  have hfirstOf : ∀ is, (∀ i ∈ is, i ∈ g.items n) → F'.firstOf g' is = F.firstOf g is := fun is his =>
    firstOf_congr fun i hmem => by rw [hi i (his i hmem)]; exact ⟨rfl, rfl⟩
  refine ⟨?_, ?_, fun pre i post e => ?_⟩
  · rw [hitems, hfirstOf _ fun _ h => h, hn]
    exact h.first
  · rw [hitems, hfirstOf _ fun _ h => h, hn]
    exact h.nullable
  · rw [hitems] at e
    obtain ⟨hmem, hpost⟩ := List.forall_mem_cons.1 fun j hj =>
      show j ∈ g.items n from e ▸ List.mem_append_right pre hj
    rw [hn, hi i hmem, hfirstOf post hpost]
    exact h.behind pre i post e

/-- Facts are closed if they are so at the sequences, and under propagation through alternatives. -/
theorem closed_of_sequences (token : ∀ t < g.tokenCount, (F.of g (Item.token t)).first.mem t = true)
    (silent : ∀ i, g.HasItem i → i.isTransparent = true → (F.of g i).nullable = true)
    (epsilon : (F.of g .epsilon).nullable = true) (sequence : ∀ q < g.sequences.size, F.ClosedAt g (.sequence q))
    (alternative : ∀ s, ∀ p ∈ (g.symbol s).alts,
      (∀ t, (F.of g p).first.mem t = true → (F.of g (Item.symbol s)).first.mem t = true) ∧
        ((F.of g p).nullable = true → (F.of g (Item.symbol s)).nullable = true) ∧
        (∀ t, (F.of g (Item.symbol s)).follow.mem t = true → (F.of g p).follow.mem t = true) ∧
        ((F.of g (Item.symbol s)).final = true → (F.of g p).final = true))
    (start : (F.of g (Item.symbol g.start)).final = true) : F.Closed g := by
  have h : ∀ n, g.HasNode n → F.ClosedAt g n := fun n hn => by
    cases n with
    | epsilon => exact closedAt_epsilon epsilon
    | item i => exact closedAt_item i
    | sequence q => exact sequence q hn
  exact ⟨token, silent, fun n hn => (h n hn).first, fun n hn => (h n hn).nullable, alternative,
    fun n hn => (h n hn).behind, start⟩

variable {G : Facts}

/-! ## Facts below closed facts -/

/-- Of the nodes of the grammar the facts `F` claim no more than the facts `G` do. -/
def Below (g : Grammar) (F G : Facts) : Prop :=
  ∀ n, g.HasNode n → (F.of g n).Le (G.of g n)

namespace Below

theorem update (h : F.Below g G) {m : Node} {change : NodeFacts → NodeFacts} (hm : g.HasNode m)
    (hc : (change (F.of g m)).Le (G.of g m)) : (F.update g m change).Below g G := by
  intro n hn
  change ((F.update g m change).atNumber (g.number n)).Le (G.of g n)
  rw [atNumber_update]
  split
  · next e =>
    rw [← Grammar.number_injective hm hn e.1]
    exact hc
  · exact h n hn

theorem addFirst (h : F.Below g G) {m : Node} (hm : g.HasNode m) {S : TokenSet} {b : Bool}
    (hS : ∀ t, S.mem t = true → (G.of g m).first.mem t = true) (hb : b = true → (G.of g m).nullable = true) :
    (F.update g m (·.addFirst S b)).Below g G :=
  h.update hm (NodeFacts.addFirst_le_iff.2 ⟨h m hm, hS, hb⟩)

theorem addFollow (h : F.Below g G) {m : Node} (hm : g.HasNode m) {S : TokenSet} {b : Bool}
    (hS : ∀ t, S.mem t = true → (G.of g m).follow.mem t = true) (hb : b = true → (G.of g m).final = true) :
    (F.update g m (·.addFollow S b)).Below g G :=
  h.update hm (NodeFacts.addFollow_le_iff.2 ⟨h m hm, hS, hb⟩)

/-- What a list of items begins with is below what it begins with according to the facts above. -/
theorem firstOf (h : F.Below g G) {is : List Item} (hi : ∀ i ∈ is, g.HasItem i) :
    (∀ t, (F.firstOf g is).1.mem t = true → (G.firstOf g is).1.mem t = true) ∧
      ((F.firstOf g is).2 = true → (G.firstOf g is).2 = true) := by
  induction is with
  | nil => exact ⟨fun _ => id, id⟩
  | cons i is ih =>
    rw [List.forall_mem_cons] at hi
    obtain ⟨hfirst, hnull⟩ := ih hi.2
    have hle := h i hi.1
    refine ⟨fun t ht => mem_firstOf_cons.2 ?_, fun hn => nullable_firstOf_cons.2 ?_⟩
    · rcases mem_firstOf_cons.1 ht with ht | ⟨hn, ht⟩
      · exact .inl (hle.first t ht)
      · exact .inr ⟨hle.nullable hn, hfirst t ht⟩
    · obtain ⟨hn, hns⟩ := nullable_firstOf_cons.1 hn
      exact ⟨hle.nullable hn, hnull hns⟩

variable (hG : G.Closed g)

include hG

theorem throughAlternative (h : F.Below g G) {s : Nat} {p : Node} (hs : s < g.symbolCount) (hp : p ∈ (g.symbol s).alts)
    (hp' : g.HasNode p) : (throughAlternative g (Item.symbol s) F p).Below g G := by
  obtain ⟨hfirst, hnull, hfollow, hfinal⟩ := hG.alternative s p hp
  have hle := h p hp'
  have h' := h.addFirst (m := Item.symbol s) (S := (F.of g p).first) (b := (F.of g p).nullable) hs
    (fun t ht => hfirst t (hle.first t ht)) (fun hn => hnull (hle.nullable hn))
  have hle' := h' (Item.symbol s) hs
  exact h'.addFollow hp' (fun t ht => hfollow t (hle'.follow t ht)) (fun hf => hfinal (hle'.final hf))

/-- From the last item of a node to its first: `passed` are the items that were visited already, and `trailing` and `final`
say what follows the item to be visited next. -/
theorem throughItems (h : F.Below g G) {n : Node} (hn : g.HasNode n) (reversed passed : List Item) {trailing : TokenSet}
    {final : Bool} (e : g.items n = reversed.reverse ++ passed) (hi : ∀ i ∈ reversed, g.HasItem i)
    (ht : ∀ t, trailing.mem t = true →
      (G.firstOf g passed).1.mem t = true ∨ (G.firstOf g passed).2 = true ∧ (G.of g n).follow.mem t = true)
    (hf : final = true → (G.firstOf g passed).2 = true ∧ (G.of g n).final = true) :
    (throughItems g reversed trailing final F).Below g G := by
  induction reversed generalizing passed trailing final F with
  | nil => exact h
  | cons i is ih =>
    rw [List.forall_mem_cons] at hi
    rw [List.reverse_cons, List.append_assoc, List.singleton_append] at e
    obtain ⟨hfirst, hend⟩ := hG.behind n hn _ i passed e
    rw [Facts.throughItems]
    have h' : (F.update g i (·.addFollow trailing final)).Below g G := by
      refine h.addFollow (m := i) hi.1 (fun t hm => ?_) (fun hfin => ?_)
      · rcases ht t hm with hm | ⟨hnull, hm⟩
        · exact hfirst t hm
        · exact (hend hnull).1 t hm
      · exact (hend (hf hfin).1).2 (hf hfin).2
    have hle := h' i hi.1
    split
    · next hnull =>
      have hnull' := hle.nullable hnull
      refine ih h' _ e hi.2 (fun t hm => ?_) fun hfin => ?_
      · rw [mem_firstOf_cons, nullable_firstOf_cons]
        rcases Bool.or_eq_true_iff.1 ((TokenSet.mem_union _ _ t).symm.trans hm) with hm | hm
        · rcases ht t hm with hm | ⟨hns, hm⟩
          · exact .inl (.inr ⟨hnull', hm⟩)
          · exact .inr ⟨⟨hnull', hns⟩, hm⟩
        · exact .inl (.inl (hle.first t hm))
      · exact ⟨nullable_firstOf_cons.2 ⟨hnull', (hf hfin).1⟩, (hf hfin).2⟩
    · exact ih h' _ e hi.2 (fun t hm => .inl (mem_firstOf_cons.2 (.inl (hle.first t hm)))) (fun hfin => by cases hfin)

theorem throughSequence (hg : g.WellFormed) (h : F.Below g G) {q : Nat} (hq : q < g.sequences.size) :
    (throughSequence g F q).Below g G := by
  have hi : ∀ i ∈ g.sequence q, g.HasItem i := fun i => hg.hasItem_sequence
  have hn : g.HasNode (.sequence q) := hq
  obtain ⟨hfirst, hnull⟩ := h.firstOf hi
  have h' := h.addFirst (m := .sequence q) (S := (F.firstOf g (g.sequence q)).1) (b := (F.firstOf g (g.sequence q)).2) hq
    (fun t ht => hG.first _ hn t (hfirst t ht)) (fun hn' => hG.nullable _ hn (hnull hn'))
  have hle := h' (.sequence q) hn
  refine h'.throughItems hG hn _ [] ?_ (fun i hi' => hi i (List.mem_reverse.1 hi'))
    (fun t ht => .inr ⟨rfl, hle.follow t ht⟩) fun hf => ⟨rfl, hle.final hf⟩
  rw [List.reverse_reverse, List.append_nil]
  rfl

theorem round (hg : g.WellFormed) (h : F.Below g G) : (round g F).Below g G :=
  round_induction (P := fun F => F.Below g G) g
    (fun _ hs _ hp _ hF => hF.throughAlternative hG hs hp (hg.hasNode_alt hp))
    (fun _ hq _ hF => hF.throughSequence hG hg hq) h

theorem initial (hg : g.WellFormed) : (initial g).Below g G := by
  unfold Facts.initial
  have start : ∀ F : Facts, F.Below g G → (F.update g (Item.symbol g.start) ({ · with final := true })).Below g G :=
    fun F h => by
      have hle := h (Item.symbol g.start) hg.start
      exact h.update (m := Item.symbol g.start) hg.start ⟨hle.first, hle.follow, hle.nullable, fun _ => hG.start⟩
  refine start _ fun n hn => ?_
  simp only [of, List.getElem?_toArray, List.getElem?_map, Grammar.getElem?_nodes_number hn, Option.map_some,
    Option.getD_some]
  split
  · next t =>
    refine ⟨fun u hu => ?_, fun u hu => by simp at hu, fun hnull => (by cases hnull), fun hf => (by cases hf)⟩
    rw [TokenSet.mem_single, decide_eq_true_eq] at hu
    exact hu ▸ hG.token t hn
  · refine ⟨fun u hu => by simp at hu, fun u hu => by simp at hu, fun hnull => ?_, fun hf => by cases hf⟩
    cases n with
    | epsilon => exact hG.nullable .epsilon hn rfl
    | item i => exact hG.silent i hn hnull
    | sequence q => cases hnull

end Below

/-- **The facts of a grammar are the least closed ones.** -/
theorem Closed.analyze_below (hG : G.Closed g) (hg : g.WellFormed) : g.analyze.Below g G :=
  analyze_induction (P := fun F => F.Below g G) g (Below.initial hG hg) fun _ => Below.round hG hg

/-! ## Facts written down node by node -/

/-- The facts that a function gives for the nodes of the grammar. -/
def tabulate (g : Grammar) (f : Node → NodeFacts) : Facts :=
  (g.nodes.map f).toArray

theorem of_tabulate {f : Node → NodeFacts} {n : Node} (hn : g.HasNode n) : (tabulate g f).of g n = f n := by
  simp [tabulate, of, Grammar.getElem?_nodes_number hn]

/-! ## Sound facts -/

/-- What the facts say of the beginning of a node is witnessed by a derivation. -/
structure Sound (g : Grammar) (F : Facts) : Prop where
  first : ∀ n, g.HasNode n → ∀ t, (F.of g n).first.mem t = true → ∃ js, g.Leads (g.items n) [] (.token t :: js)
  nullable : ∀ n, g.HasNode n → (F.of g n).nullable = true → g.Derives (g.items n) []

namespace Sound

/-- What the facts say of the beginning of a list of items is witnessed by a derivation. -/
theorem mem_firstOf (h : F.Sound g) {is : List Item} (hi : ∀ i ∈ is, g.HasItem i) {t : Nat}
    (ht : (F.firstOf g is).1.mem t = true) : ∃ js, g.Leads is [] (.token t :: js) := by
  induction is with
  | nil => simp at ht
  | cons i is ih =>
    rw [List.forall_mem_cons] at hi
    rcases mem_firstOf_cons.1 ht with ht | ⟨hn, ht⟩
    · obtain ⟨js, hl⟩ := h.first i hi.1 t ht
      exact ⟨js ++ is, hl.append is⟩
    · obtain ⟨js, hl⟩ := ih hi.2 ht
      exact ⟨js, ((h.nullable i hi.1 hn).append is).trans hl⟩

theorem nullable_firstOf (h : F.Sound g) {is : List Item} (hi : ∀ i ∈ is, g.HasItem i)
    (hn : (F.firstOf g is).2 = true) : g.Derives is [] := by
  induction is with
  | nil => exact .refl []
  | cons i is ih =>
    rw [List.forall_mem_cons] at hi
    obtain ⟨h₁, h₂⟩ := nullable_firstOf_cons.1 hn
    exact ((h.nullable i hi.1 h₁).append is).trans (ih hi.2 h₂)

end Sound

open Classical in
/-- What derivations say of the beginnings of nodes; anything can follow. -/
noncomputable def derived (g : Grammar) : Facts :=
  tabulate g fun n =>
    { first := .setOf g.tokenCount fun t => ∃ js, g.Leads (g.items n) [] (.token t :: js)
      follow := .setOf g.tokenCount fun _ => True
      nullable := decide (g.Derives (g.items n) [])
      final := true }

section Derived

variable {n : Node} {t : Nat} (hn : g.HasNode n)

include hn

theorem mem_first_derived : ((derived g).of g n).first.mem t = true ↔
    t < g.tokenCount ∧ ∃ js, g.Leads (g.items n) [] (.token t :: js) := by
  rw [derived, of_tabulate hn]
  exact TokenSet.mem_setOf

theorem mem_follow_derived : ((derived g).of g n).follow.mem t = true ↔ t < g.tokenCount := by
  rw [derived, of_tabulate hn]
  exact TokenSet.mem_setOf.trans (and_iff_left trivial)

theorem nullable_derived : ((derived g).of g n).nullable = true ↔ g.Derives (g.items n) [] := by
  simp only [derived, of_tabulate hn, decide_eq_true_eq]

theorem final_derived : ((derived g).of g n).final = true := by
  rw [derived, of_tabulate hn]

end Derived

theorem sound_derived (g : Grammar) : (derived g).Sound g :=
  ⟨fun _ hn _ ht => ((mem_first_derived hn).1 ht).2, fun _ hn h => (nullable_derived hn).1 h⟩

/-- **What derivations say is closed.** -/
theorem closed_derived (hg : g.WellFormed) : (derived g).Closed g := by
  have hlt : ∀ {is : List Item} {t : Nat}, (∀ i ∈ is, g.HasItem i) → ((derived g).firstOf g is).1.mem t = true →
      t < g.tokenCount := fun hi ht => by
    obtain ⟨js, hl⟩ := (sound_derived g).mem_firstOf hi ht
    exact hl.forall_mem (fun _ _ hp _ => hg.hasItem_alt hp) hi (.token _) List.mem_cons_self
  refine closed_of_sequences (fun t ht => ?_) (fun i hi htr => ?_) ?_ (fun q hq => ?_) (fun s p hp => ?_) ?_
  · exact (mem_first_derived (n := Item.token t) ht).2 ⟨ht, [], .refl _⟩
  · exact (nullable_derived (n := .item i) hi).2 (.silent htr (.refl []))
  · exact (nullable_derived (n := .epsilon) trivial).2 (.refl [])
  · have hn : g.HasNode (.sequence q) := hq
    have hitems : ∀ i ∈ g.items (.sequence q), g.HasItem i := fun i => hg.hasItem_items hn
    refine ⟨fun t ht => ?_, fun hnull => ?_, fun pre i post e => ?_⟩
    · exact (mem_first_derived hn).2 ⟨hlt hitems ht, (sound_derived g).mem_firstOf hitems ht⟩
    · exact (nullable_derived hn).2 ((sound_derived g).nullable_firstOf hitems hnull)
    · rw [e, List.forall_mem_append, List.forall_mem_cons] at hitems
      obtain ⟨-, hi, hpost⟩ := hitems
      refine ⟨fun t ht => (mem_follow_derived (n := .item i) hi).2 (hlt hpost ht), fun _ => ⟨fun t ht => ?_, fun _ => ?_⟩⟩
      · exact (mem_follow_derived (n := .item i) hi).2 ((mem_follow_derived hn).1 ht)
      · exact final_derived (n := .item i) hi
  · have hs : g.HasNode (Item.symbol s) := Grammar.symbol_lt_of_mem_alts hp
    have hp' := hg.hasNode_alt hp
    have derive : ∀ {ks}, g.Leads (g.items p) [] ks → g.Leads (g.items (Item.symbol s)) [] ks := fun hl =>
      .symbol hp (by rwa [List.append_nil])
    refine ⟨fun t ht => ?_, fun hnull => ?_, fun t ht => ?_, fun _ => final_derived hp'⟩
    · obtain ⟨hlt, js, hl⟩ := (mem_first_derived hp').1 ht
      exact (mem_first_derived hs).2 ⟨hlt, js, derive hl⟩
    · exact (nullable_derived hs).2 (derive ((nullable_derived hp').1 hnull))
    · exact (mem_follow_derived hp').2 ((mem_follow_derived hs).1 ht)
  · exact final_derived (n := Item.symbol g.start) hg.start

end Facts

/-- **The facts of a well-formed grammar are sound.** -/
theorem Grammar.WellFormed.sound {g : Grammar} (hg : g.WellFormed) : Facts.Sound g g.analyze := by
  have hle := (Facts.closed_derived hg).analyze_below hg
  have hsound := Facts.sound_derived g
  exact ⟨fun n hn t ht => hsound.first n hn t ((hle n hn).first t ht), fun n hn h => hsound.nullable n hn ((hle n hn).nullable h)⟩

/-- Grammars with the same parts have the same places for facts. -/
theorem Grammar.SameParts.of {g g' : Grammar} (h : g.SameParts g') (F : Facts) (n : Node) : F.of g' n = F.of g n := by
  rw [Facts.of, Facts.of, h.number]

end PredictiveParser
