import PredictiveParser.Proofs.Grammar.WellFormed
import PredictiveParser.TokenSet

/-!
# Parse trees and derivations

A forest is a list of parse trees: leaves, and nodes that note the symbol and the alternative that was taken for it.
`Grammar.Grows` says that a forest belongs to a list of items, one tree for each item that matches input; a parse tree
of a symbol is a forest of one node. `Grammar.Leads` is leftmost derivation: the items can match some terminals, and
other items are left to be matched. A forest is a derivation that leaves nothing (`Grows.leads`, `Leads.exists_grows`).
-/

namespace PredictiveParser

/-- Parse trees side by side. -/
inductive Forest (τ : Type)
  | nil
  /-- A token, and the trees behind it. -/
  | leaf (token : τ) (rest : Forest τ)
  /-- A symbol with the alternative taken for it and the trees of the alternative, and the trees behind it. -/
  | node (symbol : Nat) (alt : Node) (children rest : Forest τ)
  deriving DecidableEq

namespace Forest

variable {τ ρ : Type}

/-- The tokens, from left to right. -/
def leaves : Forest τ → List τ
  | nil => []
  | leaf t r => t :: r.leaves
  | node _ _ c r => c.leaves ++ r.leaves

/-- The number of leaves and nodes. -/
def size : Forest τ → Nat
  | nil => 0
  | leaf _ r => r.size + 1
  | node _ _ c r => c.size + r.size + 1

/-- The trees of one forest and then those of another. -/
def append : Forest τ → Forest τ → Forest τ
  | nil, f => f
  | leaf t r, f => leaf t (r.append f)
  | node s p c r, f => node s p c (r.append f)

/-- The forest with other tokens. -/
def map (h : τ → ρ) : Forest τ → Forest ρ
  | nil => nil
  | leaf t r => leaf (h t) (r.map h)
  | node s p c r => node s p (c.map h) (r.map h)

@[simp] theorem leaves_append (f f' : Forest τ) : (f.append f').leaves = f.leaves ++ f'.leaves := by
  induction f with
  | nil => rfl
  | leaf t r ih => simp [append, leaves, ih]
  | node s p c r _ ih => simp [append, leaves, ih]

@[simp] theorem size_append (f f' : Forest τ) : (f.append f').size = f.size + f'.size := by
  induction f with
  | nil => simp [append, size]
  | leaf t r ih => simp only [append, size, ih]; omega
  | node s p c r _ ih => simp only [append, size, ih]; omega

theorem append_assoc (f f' f'' : Forest τ) : (f.append f').append f'' = f.append (f'.append f'') := by
  induction f with
  | nil => rfl
  | leaf t r ih => simp only [append, ih]
  | node s p c r _ ih => simp only [append, ih]

@[simp] theorem leaves_map (h : τ → ρ) (f : Forest τ) : (f.map h).leaves = f.leaves.map h := by
  induction f with
  | nil => rfl
  | leaf t r ih => simp [map, leaves, ih]
  | node s p c r ihc ihr => simp [map, leaves, ihc, ihr]

@[simp] theorem map_append (h : τ → ρ) (f f' : Forest τ) : (f.append f').map h = (f.map h).append (f'.map h) := by
  induction f with
  | nil => rfl
  | leaf t r ih => simp only [append, map, ih]
  | node s p c r _ ih => simp only [append, map, ih]

/-- What stands behind the first leaf. -/
def behind : Forest τ → Forest τ
  | nil => nil
  | leaf _ r => r
  | node _ _ c r => if c.leaves.isEmpty then r.behind else c.behind.append r

/-- In the order of the document the last part is a token; `before` says so of what stands before the forest. -/
def lastIsToken (before : Bool) : Forest τ → Bool
  | nil => before
  | leaf _ r => lastIsToken true r
  | node _ _ c r => lastIsToken (lastIsToken false c) r

/-- In the order of the document the last part is a token, and not a symbol that matched nothing. -/
def endsWithToken (f : Forest τ) : Bool :=
  f.lastIsToken false

/-- The number of tokens after which it shows that a match of the forest has ended: unless a token comes last, one more
has to be seen. -/
def span (f : Forest τ) : Nat :=
  f.leaves.length + (!f.endsWithToken).toNat

theorem lastIsToken_append (before : Bool) (f f' : Forest τ) :
    (f.append f').lastIsToken before = f'.lastIsToken (f.lastIsToken before) := by
  induction f generalizing before with
  | nil => rfl
  | leaf t r ih => exact ih _
  | node s p c r _ ih => exact ih _

/-- What stands before a forest does not matter unless the forest is empty. -/
theorem lastIsToken_of_ne {f : Forest τ} (h : f ≠ nil) (before : Bool) : f.lastIsToken before = f.endsWithToken := by
  cases f with
  | nil => exact absurd rfl h
  | leaf t r => rfl
  | node s p c r => rfl

theorem endsWithToken_of_leaves {f : Forest τ} (h : f.leaves = []) : f.endsWithToken = false := by
  suffices ∀ before, before = false → f.lastIsToken before = false from this false rfl
  induction f with
  | nil => exact fun _ hb => hb
  | leaf t r => cases h
  | node s p c r ihc ihr =>
    intro before _
    obtain ⟨hc, hr⟩ := List.append_eq_nil_iff.1 h
    exact ihr hr _ (ihc hc _ rfl)

theorem behind_append (f f' : Forest τ) :
    (f.append f').behind = if f.leaves.isEmpty then f'.behind else f.behind.append f' := by
  induction f with
  | nil => rfl
  | leaf t r => rfl
  | node s p c r _ ih =>
    rw [append, behind, behind, ih, leaves]
    by_cases hc : c.leaves.isEmpty
    · rw [List.isEmpty_iff] at hc
      simp [hc]
    · rw [List.isEmpty_iff] at hc
      simp [hc, append_assoc]

/-- The first leaf comes before the leaves that stand behind it. -/
theorem leaves_behind (f : Forest τ) : f.behind.leaves = f.leaves.tail := by
  induction f with
  | nil => rfl
  | leaf t r => rfl
  | node s p c r ihc ihr =>
    rw [behind, leaves]
    by_cases hc : c.leaves.isEmpty
    · rw [if_pos hc, ihr, List.isEmpty_iff.1 hc]
      rfl
    · rw [if_neg hc, leaves_append, ihc, List.tail_append_of_ne_nil]
      exact fun h => hc (List.isEmpty_iff.2 h)

theorem endsWithToken_behind {f : Forest τ} (h : f.leaves ≠ []) : f.endsWithToken = f.behind.lastIsToken true := by
  suffices ∀ before, f.lastIsToken before = f.behind.lastIsToken true from this false
  induction f with
  | nil => exact absurd rfl h
  | leaf t r => exact fun _ => rfl
  | node s p c r ihc ihr =>
    intro before
    rw [behind, lastIsToken]
    by_cases hc : c.leaves = []
    · have hr : r.leaves ≠ [] := fun hr => h (by rw [leaves, hc, hr]; rfl)
      rw [if_pos (List.isEmpty_iff.2 hc), ihr hr]
    · rw [if_neg (fun h => hc (List.isEmpty_iff.1 h)), lastIsToken_append, ihc hc]

/-- A match without tokens shows with the next token. -/
theorem span_of_leaves {f : Forest τ} (h : f.leaves = []) : f.span = 1 := by
  rw [span, h, endsWithToken_of_leaves h]
  rfl

/-- Nothing stands behind the last leaf of a match of one token. -/
theorem span_of_behind {f : Forest τ} (h : f.leaves ≠ []) (hb : f.behind = nil) : f.span = 1 := by
  have hl := leaves_behind f
  rw [hb] at hl
  rw [span, endsWithToken_behind h, hb]
  cases hf : f.leaves with
  | nil => exact absurd hf h
  | cons x v =>
    rw [hf] at hl
    rw [← (show [] = v from hl)]
    rfl

/-- Matching the first token makes the span shorter by one. -/
theorem span_behind {f : Forest τ} (h : f.leaves ≠ []) (hb : f.behind ≠ nil) : f.span = f.behind.span + 1 := by
  rw [span, span, endsWithToken_behind h, lastIsToken_of_ne hb, leaves_behind, List.length_tail]
  have := List.length_pos_iff.2 h
  omega

/-- At least one token has to be seen. -/
theorem span_pos (f : Forest τ) : 0 < f.span := by
  by_cases h : f.leaves = []
  · rw [span_of_leaves h]
    omega
  · have := List.length_pos_iff.2 h
    unfold span
    omega

end Forest

namespace Grammar

variable (g : Grammar)

/-! ## Parse trees -/

/-- The forest belongs to the items: a leaf to a terminal that accepts it, a node to a symbol whose alternative its
children belong to, and nothing to an item that matches no input. -/
inductive Grows : List Item → Forest Nat → Prop
  | nil : Grows [] .nil
  | silent {i : Item} {is : List Item} {f : Forest Nat} : i.isTransparent = true → Grows is f → Grows (i :: is) f
  | leaf {t x : Nat} {is : List Item} {f : Forest Nat} : accepts t x = true → Grows is f →
      Grows (.token t :: is) (.leaf x f)
  | node {s : Nat} {p : Node} {is : List Item} {c f : Forest Nat} : p ∈ (g.symbol s).alts → Grows (g.items p) c →
      Grows is f → Grows (.symbol s :: is) (.node s p c f)

/-- The items can match the terminals `u`, and then the items `js` are left: leftmost derivation. -/
inductive Leads : List Item → (u : List Nat) → List Item → Prop
  | refl (is : List Item) : Leads is [] is
  | silent {i : Item} {is js : List Item} {u : List Nat} : i.isTransparent = true → Leads is u js →
      Leads (i :: is) u js
  | token {t x : Nat} {is js : List Item} {u : List Nat} : accepts t x = true → Leads is u js →
      Leads (.token t :: is) (x :: u) js
  | symbol {s : Nat} {p : Node} {is js : List Item} {u : List Nat} : p ∈ (g.symbol s).alts →
      Leads (g.items p ++ is) u js → Leads (.symbol s :: is) u js

/-- The items derive the terminals. -/
def Derives (is : List Item) (w : List Nat) : Prop :=
  g.Leads is w []

/-- A terminal of the grammar that is neither the end of the input nor the wildcard. -/
def IsConcrete (x : Nat) : Prop :=
  firstConcrete ≤ x ∧ x < g.tokenCount

/-- The terminal occurs in an alternative of a symbol. -/
def Mentions (t : Nat) : Prop :=
  ∃ s p, p ∈ (g.symbol s).alts ∧ Item.token t ∈ g.items p

variable {g}

instance : DecidablePred g.IsConcrete :=
  fun _ => inferInstanceAs (Decidable (_ ∧ _))

namespace Grows

theorem append {is js : List Item} {f f' : Forest Nat} (h : g.Grows is f) (h' : g.Grows js f') :
    g.Grows (is ++ js) (f.append f') := by
  induction h with
  | nil => exact h'
  | silent hi _ ih => exact .silent hi ih
  | leaf ha _ ih => exact .leaf ha ih
  | node hp hc _ _ ih => exact .node hp hc ih

/-- An item that matches nothing has no tree. -/
theorem of_silent {i : Item} {is : List Item} {f : Forest Nat} (hi : i.isTransparent = true) (h : g.Grows (i :: is) f) :
    g.Grows is f := by
  cases h with
  | silent _ h => exact h
  | leaf => cases hi
  | node => cases hi

/-- A forest of two lists of items falls into their forests. -/
theorem exists_append {is js : List Item} {f : Forest Nat} (h : g.Grows (is ++ js) f) :
    ∃ c r, f = c.append r ∧ g.Grows is c ∧ g.Grows js r := by
  induction is generalizing f with
  | nil => exact ⟨.nil, f, rfl, .nil, h⟩
  | cons i is ih =>
    cases h with
    | silent hi h =>
      obtain ⟨c, r, rfl, hc, hr⟩ := ih h
      exact ⟨c, r, rfl, .silent hi hc, hr⟩
    | leaf ha h =>
      obtain ⟨c, r, rfl, hc, hr⟩ := ih h
      exact ⟨_, r, rfl, .leaf ha hc, hr⟩
    | node hp hk h =>
      obtain ⟨c, r, rfl, hc, hr⟩ := ih h
      exact ⟨_, r, rfl, .node hp hk hc, hr⟩

end Grows

namespace Leads

/-- Whatever stands behind the items stays behind them. -/
theorem append {is js : List Item} {u : List Nat} (h : g.Leads is u js) (ks : List Item) :
    g.Leads (is ++ ks) u (js ++ ks) := by
  induction h with
  | refl is => exact .refl _
  | silent hi _ ih => exact .silent hi ih
  | token ha _ ih => exact .token ha ih
  | symbol hp _ ih =>
    rw [List.append_assoc] at ih
    exact .symbol hp ih

/-- Derivations compose. -/
theorem trans {is js ks : List Item} {u v : List Nat} (h : g.Leads is u js) (h' : g.Leads js v ks) :
    g.Leads is (u ++ v) ks := by
  induction h with
  | refl is => exact h'
  | silent hi _ ih => exact .silent hi (ih h')
  | token ha _ ih => exact .token ha (ih h')
  | symbol hp _ ih => exact .symbol hp (ih h')

/-- What holds of the items and of the items of all alternatives holds of the items that are left. -/
theorem forall_mem {P : Item → Prop} (hP : ∀ s p, p ∈ (g.symbol s).alts → ∀ i ∈ g.items p, P i) {is js : List Item}
    {u : List Nat} (h : g.Leads is u js) (his : ∀ i ∈ is, P i) : ∀ i ∈ js, P i := by
  induction h with
  | refl is => exact his
  | silent _ _ ih => exact ih fun i hi => his i (List.mem_cons_of_mem _ hi)
  | token _ _ ih => exact ih fun i hi => his i (List.mem_cons_of_mem _ hi)
  | symbol hp _ ih =>
    refine ih fun i hi => ?_
    rcases List.mem_append.1 hi with hi | hi
    · exact hP _ _ hp i hi
    · exact his i (List.mem_cons_of_mem _ hi)

/-- Two lists of items one after the other. -/
theorem derives_append {is js : List Item} {u v : List Nat} (h : g.Derives is u) (h' : g.Derives js v) :
    g.Derives (is ++ js) (u ++ v) :=
  (h.append js).trans h'

theorem derives_cons {i : Item} {is : List Item} {u v : List Nat} (h : g.Derives [i] u) (h' : g.Derives is v) :
    g.Derives (i :: is) (u ++ v) :=
  derives_append h h'

section

variable {is js : List Item} {u : List Nat} {x : Nat}

theorem of_silent {i : Item} (hi : i.isTransparent = true) (h : g.Leads (i :: is) u (.token x :: js)) :
    g.Leads is u (.token x :: js) := by
  cases h with
  | refl => cases hi
  | silent _ h => exact h
  | token => cases hi
  | symbol => cases hi

theorem eq_of_token {t : Nat} (h : g.Leads (.token t :: is) [] (.token x :: js)) : t = x := by
  cases h with
  | refl => rfl
  | silent hi => cases hi

theorem exists_alternative {s : Nat} (h : g.Leads (.symbol s :: is) u (.token x :: js)) :
    ∃ p ∈ (g.symbol s).alts, g.Leads (g.items p ++ is) u (.token x :: js) := by
  cases h with
  | silent hi => cases hi
  | symbol hp h => exact ⟨_, hp, h⟩

end

/-- A derivation of a terminal first comes to a terminal of the grammar that accepts it. -/
theorem exists_token {is ks : List Item} {x : Nat} {u : List Nat} (h : g.Leads is (x :: u) ks) :
    ∃ t js, accepts t x = true ∧ g.Leads is [] (.token t :: js) ∧ g.Leads js u ks := by
  generalize hv : x :: u = v at h
  induction h with
  | refl is => cases hv
  | silent hi _ ih =>
    obtain ⟨t, js, ha, hl, hr⟩ := ih hv
    exact ⟨t, js, ha, .silent hi hl, hr⟩
  | token ha h _ =>
    cases hv
    exact ⟨_, _, ha, .refl _, h⟩
  | symbol hp _ ih =>
    obtain ⟨t, js, ha, hl, hr⟩ := ih hv
    exact ⟨t, js, ha, .symbol hp hl, hr⟩

/-- A derivation and a forest of the items that it leaves make a forest, whose last part is that of the items left. -/
theorem exists_grows_of_grows {is js : List Item} {u : List Nat} {d : Forest Nat} (h : g.Leads is u js)
    (hd : g.Grows js d) : ∃ f, g.Grows is f ∧ f.leaves = u ++ d.leaves ∧
      (d ≠ .nil → ∀ before, f.lastIsToken before = d.endsWithToken) := by
  induction h with
  | refl is => exact ⟨d, hd, rfl, fun hne => Forest.lastIsToken_of_ne hne⟩
  | silent hi _ ih =>
    obtain ⟨f, hf, hl, hlast⟩ := ih hd
    exact ⟨f, .silent hi hf, hl, hlast⟩
  | token ha _ ih =>
    obtain ⟨f, hf, hl, hlast⟩ := ih hd
    exact ⟨_, .leaf ha hf, by rw [Forest.leaves, hl, List.cons_append], fun hne _ => hlast hne true⟩
  | symbol hp _ ih =>
    obtain ⟨f, hf, hl, hlast⟩ := ih hd
    obtain ⟨c, r, rfl, hc, hr⟩ := hf.exists_append
    refine ⟨_, .node hp hc hr, by rw [Forest.leaves, ← Forest.leaves_append, hl], fun hne before => ?_⟩
    rw [← hlast hne false, Forest.lastIsToken_append]
    rfl

/-- A derivation that leaves nothing has a forest. -/
theorem exists_grows {is : List Item} {w : List Nat} (h : g.Derives is w) : ∃ f, g.Grows is f ∧ f.leaves = w := by
  obtain ⟨f, hf, hl, -⟩ := exists_grows_of_grows h .nil
  exact ⟨f, hf, by rw [hl, Forest.leaves, List.append_nil]⟩

end Leads

/-- A forest is a derivation that leaves nothing. -/
theorem Grows.leads {is : List Item} {f : Forest Nat} (h : g.Grows is f) : g.Derives is f.leaves := by
  induction h with
  | nil => exact .refl []
  | silent hi _ ih => exact .silent hi ih
  | leaf ha _ ih => exact .token ha ih
  | node hp _ _ ihc ih => exact .symbol hp (Leads.derives_append ihc ih)

/-- A derivation from two lists of items falls into their derivations. -/
theorem exists_derives_append {is js : List Item} {w : List Nat} (h : g.Derives (is ++ js) w) :
    ∃ u v, w = u ++ v ∧ g.Derives is u ∧ g.Derives js v := by
  obtain ⟨f, hf, hw⟩ := Leads.exists_grows h
  obtain ⟨c, r, rfl, hc, hr⟩ := hf.exists_append
  exact ⟨c.leaves, r.leaves, by rw [← hw, Forest.leaves_append], hc.leads, hr.leads⟩

/-- Items derive the empty text if their parts do. -/
theorem derives_append_nil {is js : List Item} : g.Derives (is ++ js) [] ↔ g.Derives is [] ∧ g.Derives js [] := by
  constructor
  · intro h
    obtain ⟨u, v, huv, hu, hv⟩ := exists_derives_append h
    obtain ⟨rfl, rfl⟩ := List.append_eq_nil_iff.1 huv.symm
    exact ⟨hu, hv⟩
  · rintro ⟨hu, hv⟩
    exact Leads.derives_append hu hv

theorem derives_nil_iff {w : List Nat} : g.Derives [] w ↔ w = [] :=
  ⟨fun h => by cases h; rfl, fun e => e ▸ .refl []⟩

theorem derives_silent_iff {i : Item} {is : List Item} {w : List Nat} (hi : i.isTransparent = true) :
    g.Derives (i :: is) w ↔ g.Derives is w := by
  constructor
  · intro h
    cases h with
    | silent _ h => exact h
    | token => cases hi
    | symbol => cases hi
  · exact .silent hi

theorem derives_token_iff {t : Nat} {is : List Item} {w : List Nat} :
    g.Derives (.token t :: is) w ↔ ∃ x v, w = x :: v ∧ accepts t x = true ∧ g.Derives is v := by
  constructor
  · intro h
    cases h with
    | silent hi => cases hi
    | token hacc h => exact ⟨_, _, rfl, hacc, h⟩
  · rintro ⟨x, v, rfl, hacc, h⟩
    exact .token hacc h

theorem derives_symbol_iff {s : Nat} {is : List Item} {w : List Nat} :
    g.Derives (.symbol s :: is) w ↔ ∃ p ∈ (g.symbol s).alts, g.Derives (g.items p ++ is) w := by
  constructor
  · intro h
    cases h with
    | silent hi => cases hi
    | symbol hp h => exact ⟨_, hp, h⟩
  · rintro ⟨p, hp, h⟩
    exact .symbol hp h

theorem mentions_iff {t : Nat} :
    g.Mentions t ↔ ∃ x ∈ g.symbols.toList, ∃ p ∈ x.alts, Item.token t ∈ g.items p := by
  constructor
  · rintro ⟨s, p, hp, ht⟩
    have hs := symbol_lt_of_mem_alts hp
    have e : g.symbol s = g.symbols[s] := by simp [symbol, Array.getElem?_eq_getElem hs]
    exact ⟨g.symbols[s], Array.getElem_mem_toList hs, p, e ▸ hp, ht⟩
  · rintro ⟨x, hx, p, hp, ht⟩
    obtain ⟨s, hs, rfl⟩ := List.getElem_of_mem hx
    have hs' : s < g.symbols.size := by simpa using hs
    refine ⟨s, p, ?_, ht⟩
    simpa [symbol, Array.getElem?_eq_getElem hs'] using hp

instance (t : Nat) : Decidable (g.Mentions t) :=
  decidable_of_iff _ mentions_iff.symm

/-- The items of an alternative are items of the grammar, and none is a terminal that is not mentioned. -/
theorem WellFormed.proper_alt (hg : g.WellFormed) {t : Nat} (ht : ¬ g.Mentions t) {s : Nat} {p : Node}
    (hp : p ∈ (g.symbol s).alts) : ∀ i ∈ g.items p, g.HasItem i ∧ i ≠ .token t := by
  intro i hi
  refine ⟨hg.hasItem_alt hp hi, ?_⟩
  rintro rfl
  exact ht ⟨s, p, hp, hi⟩

/-- The first of some terminals of the grammar, or the end of the input if there is none. -/
theorem WellFormed.head_lt (hg : g.WellFormed) {w : List Nat} (hw : ∀ x ∈ w, x < g.tokenCount ∧ x ≠ anyToken) :
    w.headD endToken < g.tokenCount ∧ w.headD endToken ≠ anyToken := by
  cases w with
  | nil =>
    have := hg.reserved
    exact ⟨by simp only [firstConcrete, List.headD_nil, endToken] at *; omega, by decide⟩
  | cons x w => exact hw x List.mem_cons_self

/-- A symbol of a grammar without resolvers has none. -/
theorem resolver_symbol (h : ∀ x ∈ g.symbols, x.resolver = none) (s : Nat) : (g.symbol s).resolver = none := by
  unfold symbol
  cases hs : g.symbols[s]? with
  | none => rfl
  | some x => exact h x (Array.mem_of_getElem? hs)

/-- Items that derive terminals without a wildcard derive terminals of the grammar. -/
theorem Leads.terminals {is js : List Item} {u : List Nat} (h : g.Leads is u js) (hg : g.WellFormed)
    (hany : ¬ g.Mentions anyToken) (hi : ∀ i ∈ is, g.HasItem i ∧ i ≠ .token anyToken) :
    ∀ x ∈ u, x < g.tokenCount ∧ x ≠ anyToken := by
  induction h with
  | refl is => exact fun x hx => absurd hx List.not_mem_nil
  | silent _ _ ih => exact ih fun i h => hi i (List.mem_cons_of_mem _ h)
  | @token t y is js u hacc _ ih =>
    rw [List.forall_mem_cons] at hi ⊢
    refine ⟨?_, ih hi.2⟩
    have hne : t ≠ anyToken := fun e => hi.1.2 (e ▸ rfl)
    rw [accepts, if_neg hne, beq_iff_eq] at hacc
    exact hacc ▸ ⟨hi.1.1, hne⟩
  | symbol hp _ ih =>
    rw [List.forall_mem_cons] at hi
    exact ih (List.forall_mem_append.2 ⟨hg.proper_alt hany hp, hi.2⟩)

/-- Items that do not mention the end of the input never match it, not even with a wildcard. -/
theorem Leads.endToken_notMem {is js : List Item} {u : List Nat} (h : g.Leads is u js) (hend : ¬ g.Mentions endToken)
    (hi : Item.token endToken ∉ is) : endToken ∉ u := by
  induction h with
  | refl is => exact List.not_mem_nil
  | silent _ _ ih => exact ih fun h => hi (List.mem_cons_of_mem _ h)
  | @token t y is js u hacc _ ih =>
    rw [List.mem_cons, not_or] at hi ⊢
    refine ⟨?_, ih hi.2⟩
    rintro rfl
    rw [accepts] at hacc
    split at hacc
    · cases hacc
    · exact hi.1 (congrArg _ (beq_iff_eq.1 hacc))
  | @symbol s p is js u hp _ ih =>
    refine ih fun h => ?_
    rcases List.mem_append.1 h with h | h
    · exact hend ⟨s, p, hp, h⟩
    · exact hi (List.mem_cons_of_mem _ h)

end Grammar

end PredictiveParser
