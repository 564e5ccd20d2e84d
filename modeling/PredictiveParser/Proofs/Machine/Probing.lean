import PredictiveParser.Proofs.Decision.Automaton
import PredictiveParser.Proofs.Filling
import PredictiveParser.Proofs.Machine.Effect

/-!
# What a resolver matches

`Probes` describes what is matched for items inside of a resolver, in terms of the grammar and of its tables: a symbol is
matched by an alternative that the tables predict for the next token or, where they have no entry, by one that matches
nothing. Items that are matched derive the tokens (`Probes.derives`). That a symbol without an entry matches nothing is not
a rule of the machine, which only goes on with a nullable alternative: it holds because no alternative begins with a token
for which there is no entry (`Tables.not_derives_of_lookup`, `Probes.vanishes`).
-/

namespace PredictiveParser

/-! ## Symbols without an entry -/

namespace Tables

variable {g : Grammar} {limits : Limits} {T : Tables}

/-- What a symbol falls back to is an alternative that derives the empty text. -/
theorem vanishing_of_empty (hg : g.WellFormed) (hb : g.build limits = .ok T) {s n : Nat}
    (hn : T.program.emptyProduction s = some n) : ∃ p ∈ (g.symbol s).alts, n = g.number p ∧ g.Derives (g.items p) [] := by
  obtain ⟨p, hp, rfl⟩ := Option.map_eq_some_iff.1 (emptyAlternative_of_build hb hn)
  have hmem := List.mem_of_find?_eq_some hp
  have hnull := List.find?_some hp
  exact ⟨p, hmem, rfl, hg.sound.nullable p (hg.hasNode_alt hmem) hnull⟩

/-- **Where a symbol has no entry for a token, no alternative derives a text that begins with the token.** -/
theorem not_derives_of_lookup (hg : g.WellFormed) (hb : g.build limits = .ok T) {s t : Nat} (ht : t < g.tokenCount)
    (hany : t ≠ anyToken) (hl : T.program.lookup s t = none) {p : Node} (hp : p ∈ (g.symbol s).alts) (w : List Nat) :
    ¬ g.Derives (g.items p) (t :: w) := by
  intro hd
  have hsel := hg.closed.competes hg hp hd (fun x v e => (List.cons.inj e).1.symm) nofun ht hany
  have hcandidate := (PredictionTable.mem_candidates ht).2 ⟨hp, hsel⟩
  have hpred := predicts_of_build hb (Grammar.symbol_lt_of_mem_alts hp) ht
  change T.entry s t = none at hl
  rcases Cell.production_or_conflict hcandidate with hcell | ⟨c, hcell⟩
  · rw [hcell, Predicts, hl] at hpred
    cases hpred
  · rw [hcell] at hpred
    obtain ⟨start, resolution, asked, -, hpred⟩ := hpred
    cases resolution with
    | production q =>
      rw [PredictsResolution, hl] at hpred
      cases hpred
    | automaton nodes =>
      obtain ⟨n, hn, -⟩ := hpred
      cases hl.symm.trans hn

/-- No symbol has an entry for the wildcard itself. -/
theorem lookup_anyToken (hb : g.build limits = .ok T) (s : Nat) : T.program.lookup s anyToken = none := by
  rw [Option.eq_none_iff_forall_ne_some]
  intro n hl
  obtain ⟨hs, ht⟩ := lt_of_lookup hb hl
  have hpred := predicts_of_build hb hs ht
  rw [PredictionTable.cell_fill hs ht, Grammar.competing_eq_contenders ht, Grammar.contenders_anyToken] at hpred
  cases hpred.symm.trans hl

end Tables

/-! ## What is matched -/

/-- On the token `t` the tables predict the alternative `p` of the symbol `s`, at once or by a decision that can fall on
it. -/
def Program.Predicts (P : Program) (g : Grammar) (s t : Nat) (p : Node) : Prop :=
  p ∈ (g.symbol s).alts ∧ ∃ n, P.lookup s t = some n ∧
    (n = g.number p ∨ ∃ d, P.instruction n = .decision d ∧ P.Decides d (g.number p))

namespace Machine

variable {τ : Type} [Terminal τ]

/-- Inside of a resolver the items are matched by the tokens `xs` from the position `k` up to the position `m`, with the
actions `as` on the way. -/
inductive Probes (g : Grammar) (P : Program) (xs : List τ) :
    (k : Nat) → (is : List Item) → (as : List Nat) → (m : Nat) → Prop
  | nil {k : Nat} : Probes g P xs k [] [] k
  | action {a k m : Nat} {is : List Item} {as : List Nat} : Probes g P xs k is as m →
      Probes g P xs k (.action a :: is) (a :: as) m
  | argument {a k m : Nat} {is : List Item} {as : List Nat} : Probes g P xs k is as m →
      Probes g P xs k (.argument a :: is) as m
  | beacon {b k m : Nat} {is : List Item} {as : List Nat} : Probes g P xs k is as m →
      Probes g P xs k (.beacon b :: is) as m
  | token {t k m : Nat} {x : τ} {is : List Item} {as : List Nat} : xs[k]? = some x → accepts t (Terminal.id x) = true →
      Probes g P xs (k + 1) is as m → Probes g P xs k (.token t :: is) as m
  /-- A symbol is matched by an alternative that is predicted. -/
  | symbol {s k l m : Nat} {x : τ} {p : Node} {is : List Item} {as bs : List Nat} : xs[k]? = some x →
      P.Predicts g s (Terminal.id x) p → Probes g P xs k (g.items p) as l → Probes g P xs l is bs m →
      Probes g P xs k (.symbol s :: is) (as ++ bs) m
  /-- A symbol without an entry is matched by an alternative that matches nothing. -/
  | empty {s k m : Nat} {x : τ} {p : Node} {is : List Item} {as bs : List Nat} : xs[k]? = some x →
      P.lookup s (Terminal.id x) = none → p ∈ (g.symbol s).alts → Probes g P xs k (g.items p) as k →
      Probes g P xs k is bs m → Probes g P xs k (.symbol s :: is) (as ++ bs) m

namespace Probes

variable {g : Grammar} {P : Program} {xs : List τ} {k m : Nat} {is : List Item} {as : List Nat}

theorem le (h : Probes g P xs k is as m) : k ≤ m := by
  induction h with
  | nil => exact Nat.le_refl _
  | action _ ih | argument _ ih | beacon _ ih => exact ih
  | token _ _ _ ih => exact Nat.le_of_succ_le ih
  | symbol _ _ _ _ ihc ih => exact Nat.le_trans ihc ih
  | empty _ _ _ _ _ _ ih => exact ih

/-- A node that the machine passes over matches nothing. -/
theorem silent {n : Node} (hn : (g.instructionOf n = .epsilon ∨ ∃ a, g.instructionOf n = .argument a) ∨
    ∃ b, g.instructionOf n = .beacon b) (h : Probes g P xs k is as m) : Probes g P xs k (g.items n ++ is) as m := by
  match n with
  | .epsilon => exact h
  | .item (.argument a) => exact .argument h
  | .item (.beacon b) => exact .beacon h
  | .item (.token _) | .item (.symbol _) | .item (.action _) | .sequence _ =>
    rcases hn with (hn | ⟨_, hn⟩) | ⟨_, hn⟩ <;> cases hn

/-- A match of two lists of items falls into their matches. -/
theorem exists_append {js : List Item} (h : Probes g P xs k (is ++ js) as m) :
    ∃ bs cs l, as = bs ++ cs ∧ Probes g P xs k is bs l ∧ Probes g P xs l js cs m := by
  induction is generalizing k as with
  | nil => exact ⟨[], as, k, rfl, .nil, h⟩
  | cons i is ih =>
    cases h with
    | action h =>
      obtain ⟨bs, cs, l, rfl, hb, hc⟩ := ih h
      exact ⟨_, cs, l, rfl, .action hb, hc⟩
    | argument h =>
      obtain ⟨bs, cs, l, rfl, hb, hc⟩ := ih h
      exact ⟨bs, cs, l, rfl, .argument hb, hc⟩
    | beacon h =>
      obtain ⟨bs, cs, l, rfl, hb, hc⟩ := ih h
      exact ⟨bs, cs, l, rfl, .beacon hb, hc⟩
    | token hx ha h =>
      obtain ⟨bs, cs, l, rfl, hb, hc⟩ := ih h
      exact ⟨bs, cs, l, rfl, .token hx ha hb, hc⟩
    | symbol hx hp hi h =>
      obtain ⟨bs, cs, l, rfl, hb, hc⟩ := ih h
      exact ⟨_, cs, l, (List.append_assoc _ _ _).symm, .symbol hx hp hi hb, hc⟩
    | empty hx hl hp hi h =>
      obtain ⟨bs, cs, l, rfl, hb, hc⟩ := ih h
      exact ⟨_, cs, l, (List.append_assoc _ _ _).symm, .empty hx hl hp hi hb, hc⟩

omit [Terminal τ] in
/-- The tokens up to a position further on. -/
theorem take_append {l : Nat} (hk : k ≤ l) (hm : l ≤ m) :
    (xs.drop k).take (m - k) = (xs.drop k).take (l - k) ++ (xs.drop l).take (m - l) := by
  obtain ⟨i, rfl⟩ := Nat.exists_eq_add_of_le hk
  obtain ⟨j, rfl⟩ := Nat.exists_eq_add_of_le hm
  rw [Nat.add_sub_cancel_left, Nat.add_sub_cancel_left, Nat.add_assoc, Nat.add_sub_cancel_left, List.take_add,
    List.drop_drop]

/-- **Items derive the tokens that match them.** -/
theorem derives (h : Probes g P xs k is as m) : g.Derives is (((xs.drop k).take (m - k)).map Terminal.id) := by
  induction h with
  | nil =>
    rw [Nat.sub_self, List.take_zero]
    exact .refl []
  | action _ ih | argument _ ih | beacon _ ih => exact .silent rfl ih
  | @token t k m x is as hx ha h ih =>
    obtain ⟨hk, rfl⟩ := List.getElem?_eq_some_iff.1 hx
    have hm : m - k = (m - (k + 1)) + 1 := by
      have := h.le
      omega
    rw [List.drop_eq_getElem_cons hk, hm, List.take_succ_cons, List.map_cons]
    exact .token ha ih
  | symbol _ hp hi h ihc ih =>
    rw [take_append hi.le h.le, List.map_append]
    exact .symbol hp.1 (Grammar.Leads.derives_append ihc ih)
  | @empty s k m x p is as bs _ _ hp _ h ihc ih =>
    rw [Nat.sub_self, List.take_zero] at ihc
    exact .symbol hp (Grammar.Leads.derives_append ihc ih)

variable {limits : Limits} {T : Tables}

/-- Where no symbol has an entry, items that derive the empty text match nothing. -/
theorem eq_of_derives_nil {x : τ} (hx : xs[k]? = some x) (hl : ∀ s, P.lookup s (Terminal.id x) = none)
    (h : Probes g P xs k is as m) (hd : g.Derives is []) : m = k := by
  induction h with
  | nil => rfl
  | action _ ih | argument _ ih | beacon _ ih => exact ih hx ((Grammar.derives_silent_iff rfl).1 hd)
  | token =>
    obtain ⟨y, v, e, -⟩ := Grammar.derives_token_iff.1 hd
    cases e
  | symbol hx' hp =>
    cases hx.symm.trans hx'
    obtain ⟨-, n, hn, -⟩ := hp
    cases (hl _).symm.trans hn
  | @empty s k m x p is as bs _ _ _ _ _ _ ih =>
    have hsplit : g.Derives ([.symbol s] ++ is) [] := hd
    obtain ⟨u, v, e, -, hd'⟩ := Grammar.exists_derives_append hsplit
    obtain ⟨-, rfl⟩ := List.append_eq_nil_iff.1 e.symm
    exact ih hx hd'

/-- **A symbol without an entry matches nothing**, whichever alternative that derives the empty text is taken for it. -/
theorem vanishes (hg : g.WellFormed) (hb : g.build limits = .ok T) {s : Nat} {p : Node} {x : τ} (hx : xs[k]? = some x)
    (hl : T.program.lookup s (Terminal.id x) = none) (hp : p ∈ (g.symbol s).alts) (hd : g.Derives (g.items p) [])
    (h : Probes g T.program xs k (g.items p) as m) : m = k := by
  by_cases hid : Terminal.id x < g.tokenCount ∧ Terminal.id x ≠ anyToken
  · -- a match of some tokens would begin with one for which there is an entry
    refine (Nat.eq_or_lt_of_le h.le).elim Eq.symm fun hlt => ?_
    obtain ⟨hk, rfl⟩ := List.getElem?_eq_some_iff.1 hx
    have hderives := h.derives
    rw [List.drop_eq_getElem_cons hk, show m - k = (m - k - 1) + 1 by omega, List.take_succ_cons, List.map_cons]
      at hderives
    exact absurd hderives (Tables.not_derives_of_lookup hg hb hid.1 hid.2 hl hp _)
  · -- such a token has no entries at all
    refine h.eq_of_derives_nil hx (fun a => ?_) hd
    by_cases hany : Terminal.id x = anyToken
    · rw [hany]
      exact Tables.lookup_anyToken hb a
    · rw [Option.eq_none_iff_forall_ne_some]
      exact fun n hn => hid ⟨(Tables.lt_of_lookup hb hn).2, hany⟩

end Probes

end Machine

end PredictiveParser
