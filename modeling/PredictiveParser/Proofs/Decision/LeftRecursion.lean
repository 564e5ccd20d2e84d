import PredictiveParser.Proofs.Decision.Automaton
import PredictiveParser.Proofs.Grammar.LeftRecursion

/-!
# Left recursion is refused

There is no check for left recursion. It shows in a conflict that cannot be decided: if the symbols of a circle can all be
predicted to go round it on one token, then a thread of the conflict goes round without end (`not_expands_of_circles`), and
building fails. Among productive symbols there is such a token (`not_onCircle`): a circle of which nothing else can
begin needs an alternative that leaves it and matches nothing, and that one competes for the tokens that follow.
-/

namespace PredictiveParser

open Relation

/-! ## Threads that go round a circle -/

namespace Decision

variable {Q : Problem} {a : Nat} {first : Bool}

/-- On the token every symbol of `C` may take an alternative in which another one of `C` stands behind items that match
nothing, all of which the token may follow. -/
def Circles (g : Grammar) (C : Nat → Prop) (a : Nat) : Prop :=
  ∀ s, C s → ∃ p ∈ ((PredictionTable.fill g g.analyze).cell s a).candidates, ∃ pre t post,
    g.items p = pre ++ .symbol t :: post ∧ C t ∧ g.Derives pre [] ∧ ∀ i ∈ pre, g.analyze.MayFollow g (.item i) a

/-- **A thread before a circle goes round it without end.** -/
theorem not_expands_of_circles (hg : Q.grammar.WellFormed) (htable : Q.table = .fill Q.grammar Q.grammar.analyze)
    (hres : ∀ s, (Q.grammar.symbol s).resolver = none) {C : Nat → Prop} (hC : Circles Q.grammar C a)
    (ha : Q.grammar.IsInput a) {t : Thread} (hm : t.matched = .pending) {pre post : List Item} {s : Nat}
    (hitems : t.items Q.grammar = pre ++ .symbol s :: post) (hpre : Q.grammar.Derives pre [])
    (hfollow : ∀ i ∈ pre, Q.grammar.analyze.MayFollow Q.grammar (.item i) a) (hs : C s) : ¬ Expands Q a first t := by
  intro h
  induction h generalizing pre post s with | @intro t hdeep _ ih
  obtain hnil | ⟨u, hu, hum, hsame | ⟨i, hi, hdrop⟩⟩ | ⟨x, st, hst⟩ | ⟨b, st, hst⟩ := advance_items Q a first t
  · rw [Thread.items, hnil] at hitems
    simp at hitems
  · exact ih _ hu u (List.mem_singleton_self u) (hum.trans hm) (hsame.trans hitems) hpre hfollow hs
  · rw [hdrop] at hitems
    cases pre with
    | nil =>
      obtain ⟨rfl, -⟩ := List.cons.inj hitems
      cases hi
    | cons j pre =>
      obtain ⟨rfl, hrest⟩ := List.cons.inj hitems
      exact ih _ hu u (List.mem_singleton_self u) (hum.trans hm) hrest ((Grammar.derives_silent_iff hi).1 hpre)
        (List.forall_mem_cons.1 hfollow).2 hs
  · -- a terminal matches something
    rw [Thread.items, hst, List.flatMap_cons] at hitems
    cases pre with
    | nil => cases (List.cons.inj hitems).1
    | cons j pre =>
      obtain ⟨rfl, -⟩ := List.cons.inj hitems
      obtain ⟨_, _, h, -⟩ := Grammar.derives_token_iff.1 hpre
      cases h
  · have hadv : t.advance Q a first = t.advanceSymbol Q a first b st := by
      rw [Thread.advance, hst]
      exact if_pos hm
    have hitems' : t.items Q.grammar = .symbol b :: st.flatMap Q.grammar.items := by
      rw [Thread.items, hst, List.flatMap_cons]
      rfl
    rw [hitems'] at hitems
    rw [hadv] at hdeep
    -- the thread takes an alternative that leads on before a symbol of the circle
    have goes : ∀ p ∈ (Q.table.cell b a).candidates, ∀ pre' s' post',
        Q.grammar.items p ++ st.flatMap Q.grammar.items = pre' ++ .symbol s' :: post' → Q.grammar.Derives pre' [] →
        (∀ i ∈ pre', Q.grammar.analyze.MayFollow Q.grammar (.item i) a) → ¬ C s' := by
      intro p hp pre' s' post' e hpre' hfollow' hs'
      obtain ⟨us, k, hus, hmem⟩ := mem_advanceSymbol (asks_none hres first b) hp hdeep
      have hitems' : (p :: st).flatMap Q.grammar.items = pre' ++ .symbol s' :: post' := by rwa [List.flatMap_cons]
      exact ih _ (hadv.trans hus) _ hmem hm hitems' hpre' hfollow' hs'
    cases pre with
    | nil =>
      obtain ⟨hb, -⟩ := List.cons.inj hitems
      cases hb
      obtain ⟨p, hp, pre', s', post', e, hs', hpre', hfollow'⟩ := hC s hs
      refine goes p (by rw [htable]; exact hp) pre' s' (post' ++ st.flatMap Q.grammar.items) ?_ hpre' hfollow' hs'
      rw [e, List.append_assoc]
      rfl
    | cons j pre =>
      obtain ⟨rfl, hrest⟩ := List.cons.inj hitems
      obtain ⟨hb, hfollow⟩ := List.forall_mem_cons.1 hfollow
      obtain ⟨p, hp, hd⟩ := Grammar.derives_symbol_iff.1 hpre
      obtain ⟨hnil, hpre⟩ := Grammar.derives_append_nil.1 hd
      have hnull := hg.closed.nullable p (hg.hasNode_alt hp) (hg.closed.nullable_firstOf hg (fun i => hg.hasItem_alt hp) hnil)
      have hcell : p ∈ (Q.table.cell b a).candidates := by
        rw [htable]
        exact (PredictionTable.mem_candidates ha.1).2 ⟨hp, (Facts.mem_selection_iff ha.1 ha.2).2 (.inr ⟨hnull, hb⟩)⟩
      refine goes p hcell (Q.grammar.items p ++ pre) s post ?_ hd ?_ hs
      · rw [List.append_assoc]
        exact congrArg _ hrest
      · exact List.forall_mem_append.2 ⟨hb.items hg.closed hg hp hnil, hfollow⟩

end Decision

namespace Grammar

open Decision

variable {g : Grammar} {limits : Limits} {T : Tables} {a : Nat}

/-- If building succeeds then a symbol of a circle has no choice. -/
theorem candidates_unique (hg : g.WellFormed) (hres : ∀ x ∈ g.symbols, x.resolver = none) (hb : g.build limits = .ok T)
    {C : Nat → Prop} (hC : Circles g C a) (ha : g.IsInput a) {s : Nat} (hs : C s) {p q : Node}
    (hp : p ∈ ((PredictionTable.fill g g.analyze).cell s a).candidates)
    (hq : q ∈ ((PredictionTable.fill g g.analyze).cell s a).candidates) : p = q := by
  have hlt := symbol_lt_of_mem_alts (PredictionTable.mem_alts_of_mem_candidates hp)
  have hpred := Tables.predicts_of_build hb hlt ha.1
  rcases Cell.production_or_conflict hp with hcell | ⟨conflict, hcell⟩
  · rw [hcell] at hq
    exact (List.mem_singleton.1 hq).symm
  · -- the thread of the alternative in the circle would have to come to an end
    exfalso
    rw [hcell] at hpred
    obtain ⟨start, resolution, asked, hr, -⟩ := hpred
    obtain ⟨-, -, -, htoken⟩ := PredictionTable.conflict_fill hcell
    let Q := g.problem limits conflict
    obtain ⟨r, hr', pre, t, post, e, ht, hpre, hfollow⟩ := hC s hs
    rw [hcell] at hr'
    obtain ⟨i, hi⟩ := List.mem_iff_getElem?.1 hr'
    have hroot : { production := r, order := i, stack := [r] } ∈ Q.root.active := mem_active_root.2 ⟨i, r, hi, rfl⟩
    have hdec : Decided Q Q.limit Q.root := decided_of_resolve hr
    cases hlimit : Q.limit with
    | zero =>
      rw [hlimit] at hdec
      exact hdec
    | succ k =>
      rw [hlimit] at hdec
      obtain ⟨cs, hcs, -⟩ := hdec
      obtain ⟨next?, hvisit, -⟩ := visit_of_children hcs (t := a) (by rw [← htoken]; exact List.mem_singleton_self _)
      have hexp := expands_of_successor (visit_eq_ok_iff.1 hvisit).1 _ hroot
      have hitems : ({ production := r, order := i, stack := [r] } : Thread).fresh.items g = pre ++ .symbol t :: post := by
        show [r].flatMap g.items = _
        rw [List.flatMap_singleton, e]
      exact not_expands_of_circles (Q := Q) hg rfl (resolver_symbol hres) hC ha rfl hitems hpre hfollow ht hexp

/-! ## Productive grammars -/

/-- The symbol derives a text of the input. -/
def IsProductive (g : Grammar) (s : Nat) : Prop :=
  ∃ w, g.Derives [.symbol s] w ∧ ∀ x ∈ w, g.IsInput x

/-- Every symbol is used and derives a text, and if the wildcard is used then there is a token that it stands for. -/
structure Productive (g : Grammar) : Prop where
  reachable : ∀ s < g.symbolCount, g.IsReachable s
  productive : ∀ s < g.symbolCount, g.IsProductive s
  wildcard : g.Mentions anyToken → firstConcrete < g.tokenCount

variable (hP : g.Productive)

include hP

/-- Items of alternatives derive texts of the input. -/
theorem Productive.exists_derives {is : List Item} (hi : ∀ i ∈ is, g.HasItem i ∧ (i = .token anyToken → g.Mentions anyToken)) :
    ∃ w, g.Derives is w ∧ ∀ x ∈ w, g.IsInput x := by
  induction is with
  | nil => exact ⟨[], .refl [], nofun⟩
  | cons i is ih =>
    obtain ⟨⟨hitem, hany⟩, hrest⟩ := List.forall_mem_cons.1 hi
    obtain ⟨w, hw, hinput⟩ := ih hrest
    cases i with
    | token t =>
      by_cases ht : t = anyToken
      · subst ht
        exact ⟨firstConcrete :: w, .token (by decide) hw, List.forall_mem_cons.2 ⟨⟨hP.wildcard (hany rfl), by decide⟩, hinput⟩⟩
      · exact ⟨t :: w, .token (accepts_self t) hw, List.forall_mem_cons.2 ⟨⟨hitem, ht⟩, hinput⟩⟩
    | symbol s =>
      obtain ⟨u, hu, hinput'⟩ := hP.productive s hitem
      exact ⟨u ++ w, Leads.derives_cons hu hw, List.forall_mem_append.2 ⟨hinput', hinput⟩⟩
    | action | argument | beacon => exact ⟨w, .silent rfl hw, hinput⟩

/-- Every item of an alternative is followed by some token, or by what follows the symbol because the rest can match
nothing. -/
theorem Productive.exists_follow_item (hg : g.WellFormed) {s : Nat} {p : Node} (hp : p ∈ (g.symbol s).alts)
    {pre post : List Item} {i : Item} (e : g.items p = pre ++ i :: post) :
    (∃ a, g.IsInput a ∧ g.analyze.MayFollow g (.item i) a ∧ ∃ w, g.Derives post (a :: w)) ∨ g.Derives post [] := by
  have hpost : ∀ j ∈ post, g.HasItem j ∧ (j = .token anyToken → g.Mentions anyToken) := fun j hj =>
    have hj' : j ∈ g.items p := e ▸ List.mem_append_right _ (List.mem_cons_of_mem _ hj)
    ⟨hg.hasItem_alt hp hj', fun hany => ⟨s, p, hp, hany ▸ hj'⟩⟩
  obtain ⟨w, hw, hinput⟩ := hP.exists_derives hpost
  cases w with
  | nil => exact .inr hw
  | cons x w => exact .inl ⟨x, hinput x List.mem_cons_self, .of_derives hg.closed hg hp e hw, w, hw⟩

/-- Every symbol is followed by some token or by the end of the input. -/
theorem Productive.exists_follow (hg : g.WellFormed) {s : Nat} (hs : s < g.symbolCount) :
    ∃ a, g.IsInput a ∧ g.analyze.MayFollow g (Item.symbol s) a := by
  have hreach := hP.reachable s hs
  clear hs
  induction hreach with
  | refl =>
    have := hg.reserved
    exact ⟨endToken, ⟨by simp only [firstConcrete, endToken] at *; omega, by decide⟩, .inr ⟨hg.closed.start, rfl⟩⟩
  | tail _ huses ih =>
    obtain ⟨a, ha, hfollow⟩ := ih
    obtain ⟨p, hp, hmem⟩ := huses
    obtain ⟨pre, post, e⟩ := List.append_of_mem hmem
    rcases hP.exists_follow_item hg hp e with ⟨x, hx, hfollow', -⟩ | hnil
    · exact ⟨x, hx, hfollow'⟩
    · exact ⟨a, ha, hfollow.item hg.closed hg hp e hnil⟩

omit hP

/-! ## Circles -/

/-- The symbol is on a way from the symbol `o` to itself. -/
def OnCircle (g : Grammar) (o s : Nat) : Prop :=
  ReflTransGen g.Begins o s ∧ ReflTransGen g.Begins s o

/-- The alternative leads on to a symbol of the circle. -/
def LeadsOn (g : Grammar) (o : Nat) (p : Node) : Prop :=
  ∃ pre t post, g.items p = pre ++ .symbol t :: post ∧ g.OnCircle o t ∧ g.Derives pre []

variable {o s t : Nat}

/-- Symbols of a circle lead on to each other. -/
theorem OnCircle.exists_leadsOn (ho : TransGen g.Begins o o) (hs : g.OnCircle o s) :
    ∃ p ∈ (g.symbol s).alts, g.LeadsOn o p := by
  obtain ⟨u, ⟨p, hp, pre, post, e, hpre⟩, hu⟩ : ∃ u, g.Begins s u ∧ ReflTransGen g.Begins u o := by
    rcases ReflTransGen.cases_head hs.2 with rfl | ⟨u, hb, hu⟩
    · exact TransGen.head'_iff.1 ho
    · exact ⟨u, hb, hu⟩
  exact ⟨p, hp, pre, u, post, e, ⟨hs.1.tail ⟨p, hp, pre, post, e, hpre⟩, hu⟩, hpre⟩

/-- The symbols of a circle begin with the same tokens. -/
theorem OnCircle.mayBegin (hg : g.WellFormed) (hs : g.OnCircle o s) (ht : g.OnCircle o t)
    (h : g.analyze.MayBegin g (Item.symbol s) a) : g.analyze.MayBegin g (Item.symbol t) a :=
  h.of_begins hg.closed hg (ht.2.trans hs.1)

/-- **On a token that a symbol of a circle can begin with, all of them may go round it.** -/
theorem OnCircle.circles (hg : g.WellFormed) (ho : TransGen g.Begins o o) (hs : g.OnCircle o s) (ha : g.IsInput a)
    (h : g.analyze.MayBegin g (Item.symbol s) a) : Circles g (g.OnCircle o) a := by
  intro t ht
  obtain ⟨p, hp, pre, u, post, e, hu, hpre⟩ := ht.exists_leadsOn ho
  have hbegin := hs.mayBegin hg hu h
  have hcell := (PredictionTable.mem_candidates ha.1).2
    ⟨hp, (Facts.mem_selection_iff ha.1 ha.2).2 (.inl (hbegin.alternative hg.closed hg hp e hpre).1)⟩
  refine ⟨p, hcell, pre, u, post, e, hu, hpre, fun i hi => ?_⟩
  obtain ⟨pre₁, pre₂, rfl⟩ := List.append_of_mem hi
  rw [← List.singleton_append (x := i), ← List.append_assoc] at hpre
  exact .of_mayBegin hg.closed hg hp (by rw [e, List.append_assoc]; rfl) (derives_append_nil.1 hpre).2 hbegin

section Circle

variable (hg : g.WellFormed) (hres : ∀ x ∈ g.symbols, x.resolver = none) (hb : g.build limits = .ok T)
  (ho : TransGen g.Begins o o)

include hg hres hb ho

/-- If building succeeds then on a token that a symbol of a circle can begin with it leads on. -/
theorem OnCircle.leadsOn (hs : g.OnCircle o s) (ha : g.IsInput a) (h : g.analyze.MayBegin g (Item.symbol s) a) {q : Node}
    (hq : q ∈ ((PredictionTable.fill g g.analyze).cell s a).candidates) : g.LeadsOn o q := by
  have hC := hs.circles hg ho ha h
  obtain ⟨p, hp, pre, t, post, e, ht, hpre, -⟩ := hC s hs
  rw [← candidates_unique hg hres hb hC ha hs hp hq]
  exact ⟨pre, t, post, e, ht, hpre⟩

/-- **A text of a symbol of a circle leaves the circle through an alternative that matches nothing.** -/
theorem OnCircle.exists_leaves (hs : g.OnCircle o s) {f : Forest Nat} (hf : g.Grows [.symbol s] f)
    (hinput : ∀ x ∈ f.leaves, g.IsInput x) :
    ∃ t q, g.OnCircle o t ∧ q ∈ (g.symbol t).alts ∧ g.Derives (g.items q) [] ∧ ¬ g.LeadsOn o q := by
  induction hn : f.size using Nat.strong_induction_on generalizing s f with | _ n ih
  cases hf with
  | silent hi => cases hi
  | @node _ q _ c r hq hc hr =>
    cases hr
    have hleaves : (Forest.node s q c .nil).leaves = c.leaves := by rw [Forest.leaves, Forest.leaves, List.append_nil]
    rw [hleaves] at hinput
    by_cases hlead : g.LeadsOn o q
    · -- the circle goes on in a smaller tree
      obtain ⟨pre, t, post, e, ht, -⟩ := hlead
      rw [e] at hc
      obtain ⟨c₁, c₂, rfl, -, hc₂⟩ := hc.exists_append
      cases hc₂ with
      | silent hi => cases hi
      | @node _ q' _ c' r' hq' hc' hr' =>
        refine ih _ ?_ ht (.node hq' hc' .nil) (fun x hx => hinput x ?_) rfl
        · rw [← hn]
          simp only [Forest.size, Forest.size_append]
          omega
        · rw [Forest.leaves, Forest.leaves, List.append_nil] at hx
          rw [Forest.leaves_append, Forest.leaves]
          exact List.mem_append_right _ (List.mem_append_left _ hx)
    · refine ⟨s, q, hs, hq, ?_, hlead⟩
      have hderives := hc.leads
      cases hw : c.leaves with
      | nil => rwa [hw] at hderives
      | cons x w =>
        rw [hw] at hderives hinput
        have hx := hinput x List.mem_cons_self
        obtain ⟨hbegin, hbegin'⟩ := Facts.MayBegin.of_derives hg.closed hg hq hderives
        have hcell := (PredictionTable.mem_candidates hx.1).2 ⟨hq, (Facts.mem_selection_iff hx.1 hx.2).2 (.inl hbegin)⟩
        exact absurd (hs.leadsOn hg hres hb ho hx hbegin' hcell) hlead

omit hres hb ho

/-- The symbol can match nothing, and no token that it can begin with can follow it. -/
structure Yields (g : Grammar) (s : Nat) : Prop where
  empty : g.Derives [.symbol s] []
  apart : ∀ {a}, g.IsInput a → g.analyze.MayBegin g (Item.symbol s) a → ¬ g.analyze.MayFollow g (Item.symbol s) a

/-- A symbol of a circle that leads on to one that yields has nothing else behind it. -/
theorem OnCircle.behind_yields (hP : g.Productive) (hs : g.OnCircle o s) (ht : g.OnCircle o t) (hy : g.Yields t)
    {p : Node} (hp : p ∈ (g.symbol s).alts) {pre post : List Item} (e : g.items p = pre ++ .symbol t :: post)
    (hpre : g.Derives pre []) : g.Derives post [] := by
  refine (hP.exists_follow_item hg hp e).resolve_left ?_
  rintro ⟨a, ha, hfollow, w, hw⟩
  have hderives : g.Derives (g.items p) (a :: w) := by
    rw [e]
    exact Leads.derives_append hpre (Leads.derives_cons hy.empty hw)
  exact hy.apart ha (hs.mayBegin hg ht (Facts.MayBegin.of_derives hg.closed hg hp hderives).2) hfollow

/-- What follows a symbol of a circle follows those that it leads on to, if these yield. -/
theorem OnCircle.mayFollow (hP : g.Productive) (hs : g.OnCircle o s) (ht : g.OnCircle o t) (hy : g.Yields t)
    (hst : g.Begins s t) (h : g.analyze.MayFollow g (Item.symbol s) a) : g.analyze.MayFollow g (Item.symbol t) a := by
  obtain ⟨p, hp, pre, post, e, hpre⟩ := hst
  exact h.item hg.closed hg hp e (hs.behind_yields hg hP ht hy hp e hpre)

/-- **If one symbol of a circle yields then all do.** -/
theorem OnCircle.yields (hP : g.Productive) (ht : g.OnCircle o t) (hy : g.Yields t) (hs : g.OnCircle o s) : g.Yields s := by
  have hst : ReflTransGen g.Begins s t := hs.2.trans ht.1
  induction hst using ReflTransGen.head_induction_on with
  | refl => exact hy
  | @head s u hsu hut ih =>
    have hu : g.OnCircle o u := ⟨hs.1.tail hsu, hut.trans ht.2⟩
    have hyu := ih hu
    refine ⟨?_, fun {a} ha hbegin hfollow => ?_⟩
    · obtain ⟨p, hp, pre, post, e, hpre⟩ := hsu
      have hpost := hs.behind_yields hg hP hu hyu hp e hpre
      refine .symbol hp ?_
      rw [List.append_nil, e]
      exact Leads.derives_append hpre (Leads.derives_cons hyu.empty hpost)
    · exact hyu.apart ha (hs.mayBegin hg hu hbegin) (hs.mayFollow hg hP hu hyu hsu hfollow)

include hres hb ho

/-- **Without resolvers no symbol of a productive grammar with tables begins with itself.** -/
theorem not_onCircle (hP : g.Productive) (ho' : o < g.symbolCount) : False := by
  obtain ⟨w, hw, hinput⟩ := hP.productive o ho'
  obtain ⟨f, hf, rfl⟩ := Leads.exists_grows hw
  obtain ⟨s, q, hs, hq, hnil, hlead⟩ := OnCircle.exists_leaves hg hres hb ho ⟨.refl, .refl⟩ hf hinput
  have hnull := hg.closed.nullable q (hg.hasNode_alt hq) (hg.closed.nullable_firstOf hg (fun i => hg.hasItem_alt hq) hnil)
  -- the alternative that leaves the circle competes for what follows
  have hcell : ∀ {a}, g.IsInput a → g.analyze.MayFollow g (Item.symbol s) a →
      q ∈ ((PredictionTable.fill g g.analyze).cell s a).candidates := fun ha hfollow =>
    (PredictionTable.mem_candidates ha.1).2 ⟨hq, (Facts.mem_selection_iff ha.1 ha.2).2 (.inr ⟨hnull, hfollow⟩)⟩
  have hy : g.Yields s := by
    refine ⟨.symbol hq (by rwa [List.append_nil]), fun {a} ha hbegin hfollow => hlead ?_⟩
    exact hs.leadsOn hg hres hb ho ha hbegin (hcell ha hfollow)
  have hall : ∀ {t}, g.OnCircle o t → g.Yields t := fun ht => hs.yields hg hP hy ht
  obtain ⟨a, ha, hfollow⟩ := hP.exists_follow hg (symbol_lt_of_mem_alts hq)
  have hfollow' : ∀ t, g.OnCircle o t → g.analyze.MayFollow g (Item.symbol t) a := by
    intro t ht
    have hst : ReflTransGen g.Begins s t := hs.2.trans ht.1
    induction hst with
    | refl => exact hfollow
    | @tail u t hsu hut ih =>
      have hu : g.OnCircle o u := ⟨hs.1.trans hsu, .head hut ht.2⟩
      exact hu.mayFollow hg hP ht (hall ht) hut (ih hu)
  -- so all symbols of the circle may go round it there, and there is a conflict
  have hC : Circles g (g.OnCircle o) a := by
    intro t ht
    obtain ⟨p, hp, pre, u, post, e, hu, hpre⟩ := ht.exists_leadsOn ho
    have hpost := ht.behind_yields hg hP hu (hall hu) hp e hpre
    have hnil' : g.Derives (g.items p) [] := by
      rw [e]
      exact Leads.derives_append hpre (Leads.derives_cons (hall hu).empty hpost)
    have hnull' := hg.closed.nullable p (hg.hasNode_alt hp)
      (hg.closed.nullable_firstOf hg (fun i => hg.hasItem_alt hp) hnil')
    have hcell' := (PredictionTable.mem_candidates ha.1).2
      ⟨hp, (Facts.mem_selection_iff ha.1 ha.2).2 (.inr ⟨hnull', hfollow' t ht⟩)⟩
    refine ⟨p, hcell', pre, u, post, e, hu, hpre, fun i hi => ?_⟩
    exact (hfollow' t ht).items hg.closed hg hp hnil' i (e ▸ List.mem_append_left _ hi)
  obtain ⟨p, hp, pre, t, post, e, ht, hpre, -⟩ := hC s hs
  rw [candidates_unique hg hres hb hC ha hs (hcell ha hfollow) hp] at hlead
  exact hlead ⟨pre, t, post, e, ht, hpre⟩

end Circle

/-- **Left recursion is always refused.** If a grammar has neither resolvers nor the wildcard, all of its symbols are
reachable from the start symbol and derive a text, and some symbol derives itself with anything behind it, then building
fails, whatever the limits. -/
theorem build_of_leftRecursive (hg : g.WellFormed) (hres : ∀ x ∈ g.symbols, x.resolver = none)
    (hany : ¬ g.Mentions anyToken) (hreach : ∀ s < g.symbolCount, g.IsReachable s)
    (hprod : ∀ s < g.symbolCount, ∃ w, g.Derives [.symbol s] w) {s : Nat} (hs : g.LeftRecursive s) (limits : Limits) :
    ∃ e, g.build limits = .error e := by
  have hP : g.Productive := by
    refine ⟨hreach, fun t ht => ?_, fun h => absurd h hany⟩
    obtain ⟨w, hw⟩ := hprod t ht
    exact ⟨w, hw, Leads.terminals hw hg hany (List.forall_mem_singleton.2 ⟨ht, nofun⟩)⟩
  cases hb : g.build limits with
  | error e => exact ⟨e, rfl⟩
  | ok T =>
    obtain ⟨p, hp, -⟩ := id hs
    exact (not_onCircle hg hres hb hs.transGen hP (symbol_lt_of_mem_alts hp)).elim

/-- Left recursion behind an optional symbol: `S → A S b | b`, `A → a | ε`. -/
def hidden : Grammar where
  tokens := .letters
  symbols := #[{ name := "S", alts := [.sequence 0, Item.token 3] }, { name := "A", alts := [Item.token 2, .epsilon] }]
  sequences := #[[.symbol 1, .symbol 0, .token 3]]
  actions := {}
  arguments := {}
  beacons := {}
  start := 0

theorem hidden_refused : hidden.WellFormed ∧ hidden.LeftRecursive 0 ∧ ∀ limits, ∃ e, hidden.build limits = .error e := by
  have hg : hidden.WellFormed := by decide
  have hs : hidden.LeftRecursive 0 :=
    ⟨.sequence 0, List.mem_cons_self, [.token 3], .symbol (p := .epsilon) (by decide) (.refl _)⟩
  have hreach : ∀ s < hidden.symbolCount, hidden.IsReachable s := by
    have h : ∀ s < hidden.symbolCount, s = 0 ∨ s = 1 := by decide
    intro s hlt
    rcases h s hlt with rfl | rfl
    · exact .refl
    · exact .single ⟨.sequence 0, List.mem_cons_self, by decide⟩
  have hprod : ∀ s < hidden.symbolCount, ∃ w, hidden.Derives [.symbol s] w := by
    have h : ∀ s < hidden.symbolCount, s = 0 ∨ s = 1 := by decide
    intro s hlt
    rcases h s hlt with rfl | rfl
    · exact ⟨[3], .symbol (p := Item.token 3) (by decide) (.token (by decide) (.refl _))⟩
    · exact ⟨[], .symbol (p := .epsilon) (by decide) (.refl _)⟩
  exact ⟨hg, hs, build_of_leftRecursive hg (by decide) (by decide) hreach hprod hs⟩

end Grammar

end PredictiveParser
