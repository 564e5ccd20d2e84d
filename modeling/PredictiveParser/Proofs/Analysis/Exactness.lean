import Mathlib.Logic.Relation
import PredictiveParser.Proofs.Analysis.Resolvers
import PredictiveParser.Proofs.Fallible

/-!
# The analysis finds exactly the right facts

A sentential form is a list of items, and a step of derivation rewrites it at any place (`Grammar.Rewrites`). What a node
begins with according to the analysis is what the sentential forms of the node begin with (`nullable_iff_vanishes`,
`mem_first_iff_begins`): read backwards, a step keeps what closed facts say of a form, and the facts are sound. What follows
a node according to the analysis is in all families that are closed under the positions of items in alternatives and in
sequences (`Framed.follow`). `analysis_exact` puts this together with the end of the loop of rounds and with the check of
the declarations.
-/

namespace PredictiveParser

namespace Grammar

variable (g : Grammar)

/-! ## Sentential forms -/

/-- One step of derivation, at any place of a sentential form. -/
inductive Rewrites : List Item → List Item → Prop
  /-- An item that matches nothing is left out. -/
  | silent (pre post : List Item) {i : Item} : i.isTransparent = true → Rewrites (pre ++ i :: post) (pre ++ post)
  /-- An alternative takes the place of its symbol. -/
  | symbol (pre post : List Item) {s : Nat} {p : Node} : p ∈ (g.symbol s).alts →
      Rewrites (pre ++ .symbol s :: post) (pre ++ (g.items p ++ post))

/-- The second sentential form is derived from the first. -/
def Rewritten (is js : List Item) : Prop :=
  Relation.ReflTransGen g.Rewrites is js

/-- The items derive the empty text. -/
def Vanishes (is : List Item) : Prop :=
  g.Rewritten is []

/-- The items derive a sentential form that begins with the terminal. -/
def CanBegin (is : List Item) (t : Nat) : Prop :=
  ∃ js, g.Rewritten is (.token t :: js)

variable {g}

/-- A leftmost derivation rewrites a sentential form. -/
theorem Leads.rewritten {is js : List Item} (h : g.Leads is [] js) : g.Rewritten is js := by
  generalize hu : ([] : List Nat) = u at h
  induction h with
  | refl is => exact .refl
  | silent hi _ ih => exact .head (.silent [] _ hi) (ih hu)
  | token => cases hu
  | symbol hp _ ih => exact .head (.symbol [] _ hp) (ih hu)

namespace Rewrites

variable {is js : List Item}

/-- A step only leads to items of the grammar. -/
theorem hasItem (hg : g.WellFormed) (h : g.Rewrites is js) (hi : ∀ i ∈ is, g.HasItem i) : ∀ i ∈ js, g.HasItem i := by
  cases h with
  | silent pre post _ =>
    rw [List.forall_mem_append, List.forall_mem_cons] at hi
    exact List.forall_mem_append.2 ⟨hi.1, hi.2.2⟩
  | symbol pre post hp =>
    rw [List.forall_mem_append, List.forall_mem_cons] at hi
    exact List.forall_mem_append.2 ⟨hi.1, List.forall_mem_append.2 ⟨fun _ => hg.hasItem_alt hp, hi.2.2⟩⟩

/-- **Read backwards, a step keeps what closed facts say of a sentential form.** -/
theorem firstOf {F : Facts} (hF : F.Closed g) (hg : g.WellFormed) (h : g.Rewrites is js) (hi : ∀ i ∈ is, g.HasItem i) :
    (∀ t, (F.firstOf g js).1.mem t = true → (F.firstOf g is).1.mem t = true) ∧
      ((F.firstOf g js).2 = true → (F.firstOf g is).2 = true) := by
  cases h with
  | @silent pre post i htr =>
    have hnull := hF.silent i (hi i (by simp)) htr
    simp only [Facts.mem_firstOf_append, Facts.nullable_firstOf_append, Facts.mem_firstOf_cons, Facts.nullable_firstOf_cons]
    tauto
  | @symbol pre post s p hp =>
    obtain ⟨hfirst, hnull⟩ := hF.alternative_items hg hp
    simp only [Facts.mem_firstOf_append, Facts.nullable_firstOf_append, Facts.mem_firstOf_cons, Facts.nullable_firstOf_cons]
    constructor
    · intro t ht
      have := hfirst t
      tauto
    · tauto

end Rewrites

/-- So do many steps. -/
theorem Rewritten.firstOf {F : Facts} {is js : List Item} (hF : F.Closed g) (hg : g.WellFormed) (h : g.Rewritten is js)
    (hi : ∀ i ∈ is, g.HasItem i) : (∀ t, (F.firstOf g js).1.mem t = true → (F.firstOf g is).1.mem t = true) ∧
      ((F.firstOf g js).2 = true → (F.firstOf g is).2 = true) := by
  induction h using Relation.ReflTransGen.head_induction_on with
  | refl => exact ⟨fun _ => id, id⟩
  | head hstep _ ih =>
    obtain ⟨hfirst, hnull⟩ := ih (hstep.hasItem hg hi)
    obtain ⟨hfirst', hnull'⟩ := hstep.firstOf hF hg hi
    exact ⟨fun t ht => hfirst' t (hfirst t ht), fun h => hnull' (hnull h)⟩

/-- A derivation only leads to items of the grammar. -/
theorem Rewritten.hasItem {is js : List Item} (hg : g.WellFormed) (h : g.Rewritten is js) (hi : ∀ i ∈ is, g.HasItem i) :
    ∀ i ∈ js, g.HasItem i := by
  induction h with
  | refl => exact hi
  | tail _ hstep ih => exact hstep.hasItem hg ih

section

variable (hg : g.WellFormed)

include hg

/-- **A node is nullable exactly if it derives the empty text.** -/
theorem nullable_iff_vanishes {n : Node} (hn : g.HasNode n) : (g.facts n).nullable = true ↔ g.Vanishes (g.items n) := by
  refine ⟨fun h => (hg.sound.nullable n hn h).rewritten, fun h => hg.closed.nullable n hn ?_⟩
  exact (h.firstOf hg.closed hg fun _ => hg.hasItem_items hn).2 rfl

/-- **A node begins with exactly the terminals that its sentential forms begin with.** -/
theorem mem_first_iff_begins {n : Node} (hn : g.HasNode n) {t : Nat} :
    (g.facts n).first.mem t = true ↔ g.CanBegin (g.items n) t := by
  constructor
  · intro h
    obtain ⟨js, hl⟩ := hg.sound.first n hn t h
    exact ⟨js, hl.rewritten⟩
  · rintro ⟨js, h⟩
    have hi : ∀ i ∈ g.items n, g.HasItem i := fun _ => hg.hasItem_items hn
    have ht : t < g.tokenCount := h.hasItem hg hi (.token t) List.mem_cons_self
    have hfirst := (h.firstOf hg.closed hg hi).1 t (Facts.mem_firstOf_cons.2 (.inl (hg.closed.token t ht)))
    exact hg.closed.first n hn t hfirst

end

/-! ## Families of what follows nodes -/

variable (g)

/-- Families of the terminals that follow a node, and of the nodes after which the input can end, that are closed under the
places of nodes in the grammar. -/
structure Framed (follow : Node → Nat → Prop) (final : Node → Prop) : Prop where
  /-- The input can end after the start symbol. -/
  start : final (Item.symbol g.start)
  /-- What follows a symbol follows its alternatives. -/
  alternative : ∀ s, ∀ p ∈ (g.symbol s).alts,
    (∀ t, follow (Item.symbol s) t → follow p t) ∧ (final (Item.symbol s) → final p)
  /-- An item is followed by what begins a later one, if all items between the two can match nothing. -/
  sibling : ∀ q < g.sequences.size, ∀ pre i mid j post, g.sequence q = pre ++ i :: (mid ++ j :: post) →
    (∀ m ∈ mid, g.Vanishes [m]) → ∀ t, g.CanBegin [j] t → follow (.item i) t
  /-- An item is followed by what follows its sequence, if all later items can match nothing. -/
  last : ∀ q < g.sequences.size, ∀ pre i post, g.sequence q = pre ++ i :: post → (∀ m ∈ post, g.Vanishes [m]) →
    (∀ t, follow (.sequence q) t → follow (.item i) t) ∧ (final (.sequence q) → final (.item i))

end Grammar

namespace Facts

variable {g : Grammar} {F : Facts}

/-- A list of items begins with what begins one of them behind items that can match nothing. -/
theorem mem_firstOf_iff {is : List Item} {t : Nat} : (F.firstOf g is).1.mem t = true ↔
    ∃ (mid : List Item) (j : Item) (post : List Item), is = mid ++ j :: post ∧
      (∀ m ∈ mid, (F.of g m).nullable = true) ∧ (F.of g j).first.mem t = true := by
  induction is with
  | nil => simp
  | cons i is ih =>
    rw [mem_firstOf_cons, ih]
    constructor
    · rintro (h | ⟨hnull, mid, j, post, rfl, hmid, h⟩)
      · exact ⟨[], i, is, rfl, by simp, h⟩
      · exact ⟨i :: mid, j, post, rfl, List.forall_mem_cons.2 ⟨hnull, hmid⟩, h⟩
    · rintro ⟨mid, j, post, e, hmid, h⟩
      rw [List.cons_eq_append_iff] at e
      rcases e with ⟨rfl, e⟩ | ⟨mid', rfl, e⟩
      · cases e
        exact .inl h
      · rw [List.forall_mem_cons] at hmid
        exact .inr ⟨hmid.1, mid', j, post, e, hmid.2, h⟩

/-- A list of items can match nothing if every one of them can. -/
theorem nullable_firstOf_iff {is : List Item} :
    (F.firstOf g is).2 = true ↔ ∀ i ∈ is, (F.of g i).nullable = true := by
  induction is with
  | nil => simp
  | cons i is ih => rw [nullable_firstOf_cons, ih, List.forall_mem_cons]

end Facts

namespace Grammar

variable {g : Grammar}

section

variable (hg : g.WellFormed)

include hg

/-- **The families that the analysis finds are closed.** -/
theorem framed_facts : g.Framed (fun n t => (g.facts n).follow.mem t = true) (fun n => (g.facts n).final = true) := by
  have hnull : ∀ {q : Nat} {is : List Item}, (∀ i ∈ is, i ∈ g.sequence q) → (∀ m ∈ is, g.Vanishes [m]) →
      ∀ m ∈ is, (g.facts m).nullable = true := fun hq hv m hm =>
    (nullable_iff_vanishes hg (n := .item m) (hg.hasItem_sequence (hq m hm))).2 (hv m hm)
  refine ⟨hg.closed.start, fun s p hp => (hg.closed.alternative s p hp).2.2, ?_, ?_⟩
  · intro q hq pre i mid j post e hmid t ht
    have hj : g.HasNode (.item j) := hg.hasItem_sequence (q := q) (by rw [e]; simp)
    refine (hg.closed.behind (.sequence q) hq pre i _ e).1 t (Facts.mem_firstOf_iff.2 ?_)
    exact ⟨mid, j, post, rfl, hnull (q := q) (fun m hm => by rw [e]; simp [hm]) hmid,
      (mem_first_iff_begins hg hj).2 ht⟩
  · intro q hq pre i post e hpost
    refine (hg.closed.behind (.sequence q) hq pre i post e).2 (Facts.nullable_firstOf_iff.2 ?_)
    exact hnull (q := q) (fun m hm => by rw [e]; simp [hm]) hpost

end

open Classical in
/-- The facts of the analysis with other families of what follows the nodes. -/
noncomputable def refollowed (g : Grammar) (follow : Node → Nat → Prop) (final : Node → Prop) : Facts :=
  .tabulate g fun n =>
    { first := (g.facts n).first
      follow := .setOf g.tokenCount (follow n)
      nullable := (g.facts n).nullable
      final := decide (final n) }

section

variable {follow : Node → Nat → Prop} {final : Node → Prop} {n : Node}

theorem mem_follow_refollowed (hn : g.HasNode n) {t : Nat} :
    ((g.refollowed follow final).of g n).follow.mem t = true ↔ t < g.tokenCount ∧ follow n t := by
  rw [refollowed, Facts.of_tabulate hn]
  exact TokenSet.mem_setOf

theorem final_refollowed (hn : g.HasNode n) : ((g.refollowed follow final).of g n).final = true ↔ final n := by
  simp only [refollowed, Facts.of_tabulate hn, decide_eq_true_eq]

theorem firstOf_refollowed {is : List Item} (hi : ∀ i ∈ is, g.HasItem i) :
    (g.refollowed follow final).firstOf g is = g.analyze.firstOf g is :=
  Facts.firstOf_congr fun i h => by
    rw [refollowed, Facts.of_tabulate (n := .item i) (hi i h)]
    exact ⟨rfl, rfl⟩

theorem first_refollowed (hn : g.HasNode n) : ((g.refollowed follow final).of g n).first = (g.facts n).first := by
  rw [refollowed, Facts.of_tabulate hn]

theorem nullable_refollowed (hn : g.HasNode n) :
    ((g.refollowed follow final).of g n).nullable = (g.facts n).nullable := by
  rw [refollowed, Facts.of_tabulate hn]

/-- With closed families the facts stay closed. -/
theorem Framed.closed (hg : g.WellFormed) (h : g.Framed follow final) : (g.refollowed follow final).Closed g := by
  have hitem : ∀ {q : Nat} {i : Item}, i ∈ g.sequence q → g.HasNode (.item i) := fun hi => hg.hasItem_sequence hi
  refine Facts.closed_of_sequences (fun t ht => ?_) (fun i hi htr => ?_) ?_ (fun q hq => ?_) (fun s p hp => ?_) ?_
  · rw [first_refollowed (n := Item.token t) ht]
    exact hg.closed.token t ht
  · rw [nullable_refollowed (n := .item i) hi]
    exact hg.closed.silent i hi htr
  · rw [nullable_refollowed (n := .epsilon) trivial]
    exact Facts.analyze_silent (n := .epsilon) trivial rfl
  · have hn : g.HasNode (.sequence q) := hq
    have hfirstOf : (g.refollowed follow final).firstOf g (g.items (.sequence q)) =
        g.analyze.firstOf g (g.items (.sequence q)) :=
      firstOf_refollowed fun i => hg.hasItem_items hn
    refine ⟨fun t ht => ?_, fun hnull => ?_, fun pre i post e => ?_⟩
    · rw [first_refollowed hn]
      exact hg.closed.first _ hn t (hfirstOf ▸ ht)
    · rw [nullable_refollowed hn]
      exact hg.closed.nullable _ hn (hfirstOf ▸ hnull)
    · have hmem : ∀ j ∈ i :: post, j ∈ g.sequence q := fun j hj =>
        show j ∈ g.items (.sequence q) from e ▸ List.mem_append_right pre hj
      have hpost : ∀ j ∈ post, g.HasItem j := fun j hj => hitem (hmem j (List.mem_cons_of_mem _ hj))
      have hi := hitem (hmem i List.mem_cons_self)
      have hvanish : ∀ {js : List Item}, (∀ j ∈ js, j ∈ post) → (∀ m ∈ js, (g.facts m).nullable = true) →
          ∀ m ∈ js, g.Vanishes [m] := fun hjs hnull m hm =>
        (nullable_iff_vanishes hg (n := .item m) (hpost m (hjs m hm))).1 (hnull m hm)
      rw [firstOf_refollowed hpost]
      refine ⟨fun t ht => ?_, fun hnull => ?_⟩
      · obtain ⟨mid, j, post', rfl, hmid, hj⟩ := Facts.mem_firstOf_iff.1 ht
        have hbegins := (mem_first_iff_begins hg (n := .item j) (hpost j (by simp))).1 hj
        refine (mem_follow_refollowed hi).2 ⟨(Facts.within_analyze hg).of _ |>.first t hj, ?_⟩
        exact h.sibling q hq pre i mid j post' e (hvanish (fun m hm => by simp [hm]) hmid) t hbegins
      · obtain ⟨hfollow, hfinal⟩ := h.last q hq pre i post e
          (hvanish (fun _ => id) (Facts.nullable_firstOf_iff.1 hnull))
        refine ⟨fun t ht => ?_, fun hf => (final_refollowed hi).2 (hfinal ((final_refollowed hn).1 hf))⟩
        obtain ⟨hlt, ht⟩ := (mem_follow_refollowed hn).1 ht
        exact (mem_follow_refollowed hi).2 ⟨hlt, hfollow t ht⟩
  · have hs : g.HasNode (Item.symbol s) := symbol_lt_of_mem_alts hp
    have hp' := hg.hasNode_alt hp
    obtain ⟨hfirst, hnull, -, -⟩ := hg.closed.alternative s p hp
    obtain ⟨hfollow, hfinal⟩ := h.alternative s p hp
    rw [first_refollowed hs, first_refollowed hp', nullable_refollowed hs, nullable_refollowed hp']
    refine ⟨hfirst, hnull, fun t ht => ?_, fun hf => (final_refollowed hp').2 (hfinal ((final_refollowed hs).1 hf))⟩
    obtain ⟨hlt, ht⟩ := (mem_follow_refollowed hs).1 ht
    exact (mem_follow_refollowed hp').2 ⟨hlt, hfollow t ht⟩
  · exact (final_refollowed (n := Item.symbol g.start) hg.start).2 h.start

/-- **The families that the analysis finds are the least closed ones.** -/
theorem Framed.facts_le (hg : g.WellFormed) (h : g.Framed follow final) (hn : g.HasNode n) :
    (∀ t, (g.facts n).follow.mem t = true → follow n t) ∧ ((g.facts n).final = true → final n) := by
  have hle := (h.closed hg).analyze_below hg n hn
  exact ⟨fun t ht => ((mem_follow_refollowed hn).1 (hle.follow t ht)).2, fun hf => (final_refollowed hn).1 (hle.final hf)⟩

end

end Grammar

/-! ## The rounds -/

/-- The loop goes on for as long as a round finds something. -/
theorem Facts.exists_iterate {g : Grammar} (hg : g.WellFormed) (fuel rounds : Nat) {F : Facts} (hF : F.Below g (derived g))
    (hsize : F.size = g.nodeCount) (hfuel : F.size * (2 * g.tokenCount + 2) < F.weight g.tokenCount + fuel) :
    ∃ k, iterate g fuel rounds F = ((round g)^[k] F, rounds + k + 1) ∧
      round g ((round g)^[k] F) = (round g)^[k] F ∧ ∀ j < k, round g ((round g)^[j] F) ≠ (round g)^[j] F := by
  induction fuel generalizing F rounds with
  | zero => exact absurd hfuel (Nat.not_lt.2 F.weight_le)
  | succ fuel ih =>
    by_cases h : round g F = F
    · exact ⟨0, by rw [iterate, if_pos h]; rfl, h, fun j hj => absurd hj (Nat.not_lt_zero j)⟩
    · have hlt := weight_lt_round hg hF hsize h
      have hsize' := (le_round g F).size
      obtain ⟨k, e, hk, hbefore⟩ := ih (rounds + 1) (hF.round (closed_derived hg) hg) (hsize'.symm.trans hsize)
        (by rw [← hsize']; omega)
      refine ⟨k + 1, ?_, hk, fun j hj => ?_⟩
      · rw [iterate, if_neg h, e, Function.iterate_succ_apply]
        congr 1
        omega
      · cases j with
        | zero => exact h
        | succ j => exact hbefore j (by omega)

namespace Grammar

variable {g : Grammar}

/-- **The loop of the analysis ends**, after the first round that finds nothing new. -/
theorem exists_analysis (hg : g.WellFormed) : ∃ k, g.analysis = ((Facts.round g)^[k] (Facts.initial g), k + 1) ∧
    Facts.round g g.analyze = g.analyze ∧
    ∀ j < k, Facts.round g ((Facts.round g)^[j] (Facts.initial g)) ≠ (Facts.round g)^[j] (Facts.initial g) := by
  have hsize : (Facts.initial g).size = g.nodeCount := by simp [Facts.initial]
  obtain ⟨k, e, -, hbefore⟩ := Facts.exists_iterate hg (Facts.bound g + 1) 0
    (Facts.Below.initial (Facts.closed_derived hg) hg) hsize (by
      rw [hsize, Facts.bound]
      omega)
  rw [Nat.zero_add] at e
  exact ⟨k, e, round_analyze hg, hbefore⟩

/-! ## Declarations -/

/-- What is declared of a symbol contradicts what it derives: it is said to be nullable or not and is the opposite, or it is
to resynchronise a parse and does not derive the empty text. -/
def Misdeclared (g : Grammar) (s : Nat) : Prop :=
  (∃ declared, (g.symbol s).nullable = some declared ∧ ¬ (declared = true ↔ g.Vanishes [.symbol s])) ∨
    (g.symbol s).sync = true ∧ ¬ g.Vanishes [.symbol s]

/-- The check of a symbol fails if its declarations contradict its nullability. -/
theorem validateSymbol_eq_error {F : Facts} {s : Nat} : (∃ e, g.validateSymbol F s = .error e) ↔
    (∃ declared, (g.symbol s).nullable = some declared ∧ declared ≠ (F.of g (Item.symbol s)).nullable) ∨
      (g.symbol s).sync = true ∧ (F.of g (Item.symbol s)).nullable = false := by
  unfold validateSymbol
  dsimp only
  generalize (F.of g (Item.symbol s)).nullable = nullable
  have hany : (g.symbol s).nullable.any (· != nullable) = true ↔
      ∃ declared, (g.symbol s).nullable = some declared ∧ declared ≠ nullable := by
    cases (g.symbol s).nullable <;> simp
  have hsync : ((g.symbol s).sync && !nullable) = true ↔ (g.symbol s).sync = true ∧ nullable = false := by simp
  rw [← hany, ← hsync]
  by_cases hdeclared : (g.symbol s).nullable.any (· != nullable) = true
  · simp [hdeclared, throw, throwThe, MonadExceptOf.throw, bind, Except.bind]
  · by_cases hsync' : ((g.symbol s).sync && !nullable) = true
    · simp [hdeclared, hsync', throw, throwThe, MonadExceptOf.throw]
    · simp [hdeclared, hsync', pure, Except.pure]

/-- **The check of the declarations fails exactly if a symbol is misdeclared.** -/
theorem validate_eq_error (hg : g.WellFormed) :
    (∃ e, g.validate g.analyze = .error e) ↔ ∃ s < g.symbolCount, g.Misdeclared s := by
  unfold validate
  rw [exists_forM_eq_error_iff]
  refine exists_congr fun s => ?_
  rw [List.mem_range]
  refine and_congr_right fun hs => ?_
  have hnull : (g.facts (Item.symbol s)).nullable = true ↔ g.Vanishes [.symbol s] :=
    nullable_iff_vanishes hg (n := Item.symbol s) hs
  rw [validateSymbol_eq_error, Misdeclared, ← hnull, Bool.not_eq_true]
  refine or_congr_left (exists_congr fun declared => and_congr_right fun _ => ?_)
  rw [Ne, Bool.eq_iff_iff]

/-! ## The analysis as a whole -/

/-- **The analysis is exact.** Its loop ends after the first round that finds nothing new. A node is nullable exactly if it
derives the empty text, and begins with exactly the terminals that its sentential forms begin with, the wildcard being one of
them. The families of what follows the nodes are the least closed ones. All lists are strictly increasing. So the check of
the declarations fails exactly if a symbol is misdeclared. -/
theorem analysis_exact (hg : g.WellFormed) :
    (∃ k, g.analysis = ((Facts.round g)^[k] (Facts.initial g), k + 1) ∧ Facts.round g g.analyze = g.analyze ∧
      ∀ j < k, Facts.round g ((Facts.round g)^[j] (Facts.initial g)) ≠ (Facts.round g)^[j] (Facts.initial g)) ∧
    (∀ n, g.HasNode n → ((g.facts n).nullable = true ↔ g.Vanishes (g.items n)) ∧
      (∀ t, t ∈ (g.facts n).first.toList g.tokenCount ↔ g.CanBegin (g.items n) t) ∧
      ((g.facts n).first.toList g.tokenCount).Pairwise (· < ·) ∧
      ((g.facts n).follow.toList g.tokenCount).Pairwise (· < ·)) ∧
    g.Framed (fun n t => t ∈ (g.facts n).follow.toList g.tokenCount) (fun n => (g.facts n).final = true) ∧
    (∀ follow final, g.Framed follow final → ∀ n, g.HasNode n →
      (∀ t ∈ (g.facts n).follow.toList g.tokenCount, follow n t) ∧ ((g.facts n).final = true → final n)) ∧
    ((∃ e, g.validate g.analyze = .error e) ↔ ∃ s < g.symbolCount, g.Misdeclared s) := by
  have hwithin : ∀ n, (g.facts n).Within g.tokenCount := (Facts.within_analyze hg).of
  have hfollow : ∀ n t, t ∈ (g.facts n).follow.toList g.tokenCount ↔ (g.facts n).follow.mem t = true := fun n _ =>
    TokenSet.mem_toList_of_lt (hwithin n).follow
  refine ⟨exists_analysis hg, fun n hn => ⟨nullable_iff_vanishes hg hn, fun t => ?_, TokenSet.pairwise_toList _ _,
    TokenSet.pairwise_toList _ _⟩, ?_, fun follow final h n hn => ?_, validate_eq_error hg⟩
  · rw [TokenSet.mem_toList_of_lt (hwithin n).first]
    exact mem_first_iff_begins hg hn
  · simp only [hfollow]
    exact framed_facts hg
  · simp only [hfollow]
    exact h.facts_le hg hn

/-- The grammar `S → A b`, `A → a | ε`, whose symbol `A` is declared not to be nullable. -/
def sloppy : Grammar where
  tokens := .letters
  symbols := #[⟨"S", [.sequence 0], none, none, none, false, false, false⟩,
    ⟨"A", [Item.token 2, .epsilon], none, none, some false, false, false, false⟩]
  sequences := #[[.symbol 1, .token 3]]
  actions := {}
  arguments := {}
  beacons := {}
  start := 0

/-- In this grammar `S` begins with `b` as well, and `b` follows `A`; the check of the declarations fails. -/
theorem sloppy_analysis : sloppy.CanBegin [.symbol 0] 3 ∧ ¬ sloppy.Vanishes [.symbol 0] ∧ sloppy.Vanishes [.symbol 1] ∧
    (∀ follow final, sloppy.Framed follow final → follow (Item.symbol 1) 3) ∧
    ∃ e, sloppy.validate sloppy.analyze = .error e := by
  obtain ⟨-, hnode, -, hleast, hvalid⟩ := analysis_exact (g := sloppy) (by decide)
  obtain ⟨hS, hfirst, -⟩ := hnode (Item.symbol 0) (by decide)
  obtain ⟨hA, -⟩ := hnode (Item.symbol 1) (by decide)
  have hvanish := hA.1 (by decide +kernel)
  refine ⟨(hfirst 3).1 (by decide +kernel), fun h => absurd (hS.2 h) (by decide +kernel), hvanish,
    fun follow final h => (hleast follow final h (Item.symbol 1) (by decide)).1 3 (by decide +kernel), hvalid.2 ?_⟩
  exact ⟨1, by decide, .inl ⟨false, by decide, fun h => absurd (h.2 hvanish) (by decide)⟩⟩

end Grammar

end PredictiveParser
