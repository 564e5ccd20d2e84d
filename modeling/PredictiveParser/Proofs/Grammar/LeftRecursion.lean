import Mathlib.Logic.Relation
import PredictiveParser.Proofs.Prediction

/-!
# Left recursion

A symbol begins with another one if that stands in one of its alternatives behind items that derive the empty text
(`Grammar.Begins`); it considers those that begin its resolver as well (`Grammar.Considers`). A left recursive symbol begins
with itself in one or more steps (`LeftRecursive.transGen`). The symbols between it and itself begin with the same
terminals, and where one of them can match nothing, whatever follows it follows those before it as well.
-/

namespace PredictiveParser

namespace Grammar

variable {g : Grammar}

/-! ## Symbols that begin with symbols -/

/-- The symbol `t` stands in an alternative of `s` behind items that derive the empty text. -/
def Begins (g : Grammar) (s t : Nat) : Prop :=
  ∃ p ∈ (g.symbol s).alts, ∃ pre post, g.items p = pre ++ .symbol t :: post ∧ g.Derives pre []

/-- To match the symbol `s` it may be necessary to match `t` before the first token: it stands in an alternative of `s` or
in its resolver, behind items that derive the empty text. -/
def Considers (g : Grammar) (s t : Nat) : Prop :=
  g.Begins s t ∨ ∃ r, (g.symbol s).resolver = some r ∧
    ∃ pre post, g.items r.node = pre ++ .symbol t :: post ∧ g.Derives pre []

/-- The symbol derives itself with anything behind it, in one or more steps. -/
def LeftRecursive (g : Grammar) (s : Nat) : Prop :=
  ∃ p ∈ (g.symbol s).alts, ∃ is, g.Leads (g.items p) [] (.symbol s :: is)

/-- The symbol `t` stands in an alternative of `s`. -/
def Uses (g : Grammar) (s t : Nat) : Prop :=
  ∃ p ∈ (g.symbol s).alts, .symbol t ∈ g.items p

/-- A symbol can be reached from the start symbol through alternatives. -/
def IsReachable (g : Grammar) (s : Nat) : Prop :=
  Relation.ReflTransGen g.Uses g.start s

/-- The terminal can be a token of the input: it is one of the grammar, and not the wildcard. -/
def IsInput (g : Grammar) (a : Nat) : Prop :=
  a < g.tokenCount ∧ a ≠ anyToken

theorem Begins.lt (hg : g.WellFormed) {s t : Nat} (h : g.Begins s t) : t < g.symbolCount := by
  obtain ⟨p, hp, pre, post, e, -⟩ := h
  exact hg.hasItem_alt hp (i := .symbol t) (e ▸ List.mem_append_right _ List.mem_cons_self)

/-- Only symbols of the grammar consider others. -/
theorem Considers.lt_left {s t : Nat} (h : g.Considers s t) : s < g.symbolCount := by
  rcases h with ⟨p, hp, -⟩ | ⟨r, hr, -⟩
  · exact symbol_lt_of_mem_alts hp
  · exact symbol_lt_of_resolver hr

theorem Considers.lt (hg : g.WellFormed) {s t : Nat} (h : g.Considers s t) : t < g.symbolCount := by
  rcases h with h | ⟨r, hr, pre, post, e, -⟩
  · exact h.lt hg
  · exact hg.hasItem_items (hg.hasNode_resolver hr) (i := .symbol t) (e ▸ List.mem_append_right _ List.mem_cons_self)

/-- What a derivation leads to first stands behind items that derive the empty text, or a symbol there begins with it. -/
theorem Leads.exists_begins {is js : List Item} {s : Nat} (h : g.Leads is [] (.symbol s :: js)) :
    ∃ pre t post, is = pre ++ .symbol t :: post ∧ g.Derives pre [] ∧ Relation.ReflTransGen g.Begins t s := by
  generalize hu : ([] : List Nat) = u at h
  generalize hk : Item.symbol s :: js = ks at h
  induction h with
  | refl is => exact ⟨[], s, js, hk.symm, .refl [], .refl⟩
  | @silent i is ks u hi _ ih =>
    obtain ⟨pre, t, post, rfl, hpre, ht⟩ := ih hu hk
    subst hu
    exact ⟨i :: pre, t, post, rfl, .silent hi hpre, ht⟩
  | token => cases hu
  | @symbol b p is ks u hp _ ih =>
    obtain ⟨pre, t, post, e, hpre, ht⟩ := ih hu hk
    subst hu
    rcases List.append_eq_append_iff.1 e with ⟨pre', rfl, rfl⟩ | ⟨post', e', hpost⟩
    · exact ⟨.symbol b :: pre', t, post, rfl, .symbol hp hpre, ht⟩
    · cases post' with
      | nil =>
        rw [List.append_nil] at e'
        refine ⟨[.symbol b], t, post, ?_, .symbol hp (by rw [List.append_nil, e']; exact hpre), ht⟩
        rw [List.nil_append] at hpost
        rw [← hpost]
        rfl
      | cons i post' =>
        obtain ⟨rfl, -⟩ := List.cons.inj hpost
        exact ⟨[], b, is, rfl, .refl [], .head ⟨p, hp, pre, post', e', hpre⟩ ht⟩

/-- A left recursive symbol begins with itself. -/
theorem LeftRecursive.transGen {s : Nat} (h : g.LeftRecursive s) : Relation.TransGen g.Begins s s := by
  obtain ⟨p, hp, is, hl⟩ := h
  obtain ⟨pre, t, post, e, hpre, ht⟩ := hl.exists_begins
  exact .head' ⟨p, hp, pre, post, e, hpre⟩ ht

end Grammar

namespace Facts

variable {g : Grammar} {F : Facts}

/-- The node can begin with the token. -/
def MayBegin (g : Grammar) (F : Facts) (n : Node) (a : Nat) : Prop :=
  ∃ t, (F.of g n).first.mem t = true ∧ accepts t a = true

/-- A symbol begins with whatever an item in an alternative begins with, if the items before it match nothing. -/
theorem MayBegin.alternative (hF : F.Closed g) (hg : g.WellFormed) {s a : Nat} {p : Node} {i : Item} {pre post : List Item}
    (hp : p ∈ (g.symbol s).alts) (e : g.items p = pre ++ i :: post) (hpre : g.Derives pre [])
    (h : F.MayBegin g (.item i) a) : F.MayBegin g p a ∧ F.MayBegin g (Item.symbol s) a := by
  obtain ⟨t, ht, hacc⟩ := h
  have hitems : ∀ j ∈ pre, g.HasItem j := fun j hj => hg.hasItem_alt hp (e ▸ List.mem_append_left _ hj)
  have hfirst : (F.firstOf g (g.items p)).1.mem t = true := by
    rw [e]
    exact mem_firstOf_append.2 (.inr ⟨hF.nullable_firstOf hg hitems hpre, mem_firstOf_cons.2 (.inl ht)⟩)
  exact ⟨⟨t, hF.first p (hg.hasNode_alt hp) t hfirst, hacc⟩, ⟨t, (hF.alternative_items hg hp).1 t hfirst, hacc⟩⟩

/-- Symbols begin with whatever the symbols that they begin with begin with. -/
theorem MayBegin.of_begins (hF : F.Closed g) (hg : g.WellFormed) {s t a : Nat} (hst : Relation.ReflTransGen g.Begins s t)
    (h : F.MayBegin g (Item.symbol t) a) : F.MayBegin g (Item.symbol s) a := by
  induction hst using Relation.ReflTransGen.head_induction_on with
  | refl => exact h
  | head hb _ ih =>
    obtain ⟨p, hp, pre, post, e, hpre⟩ := hb
    exact (ih.alternative hF hg hp e hpre).2

/-- A symbol begins with whatever an alternative derives first. -/
theorem MayBegin.of_derives (hF : F.Closed g) (hg : g.WellFormed) {s x : Nat} {p : Node} {w : List Nat}
    (hp : p ∈ (g.symbol s).alts) (hw : g.Derives (g.items p) (x :: w)) :
    F.MayBegin g p x ∧ F.MayBegin g (Item.symbol s) x := by
  obtain ⟨t, js, hacc, hl, -⟩ := hw.exists_token
  have hfirst := hF.mem_firstOf hg (fun i => hg.hasItem_alt hp) hl
  exact ⟨⟨t, hF.first p (hg.hasNode_alt hp) t hfirst, hacc⟩, ⟨t, (hF.alternative_items hg hp).1 t hfirst, hacc⟩⟩

/-- An item is followed by whatever an item behind it begins with, if the items between them match nothing. -/
theorem MayFollow.of_mayBegin (hF : F.Closed g) (hg : g.WellFormed) {s a : Nat} {p : Node} {i j : Item}
    {pre mid post : List Item} (hp : p ∈ (g.symbol s).alts) (e : g.items p = pre ++ i :: (mid ++ j :: post))
    (hmid : g.Derives mid []) (h : F.MayBegin g (.item j) a) : F.MayFollow g (.item i) a := by
  obtain ⟨t, ht, hacc⟩ := h
  have hitems : ∀ k ∈ mid, g.HasItem k := fun k hk => hg.hasItem_alt hp (by rw [e]; simp [hk])
  refine .inl ⟨t, (hF.behind p (hg.hasNode_alt hp) pre i _ e).1 t ?_, hacc⟩
  exact mem_firstOf_append.2 (.inr ⟨hF.nullable_firstOf hg hitems hmid, mem_firstOf_cons.2 (.inl ht)⟩)

/-- An item is followed by whatever the items behind it derive first. -/
theorem MayFollow.of_derives (hF : F.Closed g) (hg : g.WellFormed) {s x : Nat} {p : Node} {i : Item} {pre post : List Item}
    {w : List Nat} (hp : p ∈ (g.symbol s).alts) (e : g.items p = pre ++ i :: post) (hw : g.Derives post (x :: w)) :
    F.MayFollow g (.item i) x := by
  obtain ⟨t, js, hacc, hl, -⟩ := hw.exists_token
  have ht := hF.mem_firstOf hg (hg.hasItem_behind (hg.hasNode_alt hp) e).2 hl
  exact .inl ⟨t, (hF.behind p (hg.hasNode_alt hp) pre i post e).1 t ht, hacc⟩

end Facts

end PredictiveParser
