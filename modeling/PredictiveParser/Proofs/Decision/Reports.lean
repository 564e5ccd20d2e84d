import PredictiveParser.Proofs.Analysis.Exactness
import PredictiveParser.Proofs.Decision.Survival
import PredictiveParser.Proofs.Grammar.Reordering

/-!
# Reports of ambiguities

The report of an ambiguity names a symbol, tokens and productions. It is genuine (`Grammar.Genuine`): the symbol has a
conflict on the first of the tokens, the productions are at least two candidates of it in their order, and each of them can
account for the tokens (`Grammar.Accounts`). For the report is made in an undecided state that the decision came to, whose
threads derive its tokens from their candidates (`State.Traced.accounts`), and the threads that it is made for belong to
different candidates (`State.exists_ne_of_isUndecided`).
-/

namespace PredictiveParser

namespace Grammar

variable (g : Grammar)

/-! ## What a production can account for -/

/-- The items derive a sentential form: terminals that accept the tokens one by one, and the items `js` behind them. -/
def Forms (is : List Item) (xs : List Nat) (js : List Item) : Prop :=
  ∃ es : List Nat, List.Forall₂ (fun e x => accepts e x = true) es xs ∧ g.Rewritten is (es.map .token ++ js)

/-- The production can account for the tokens. -/
inductive Accounts (p : Node) (xs : List Nat) : Prop
  /-- It derives a sentential form that begins with them. -/
  | begins {js : List Item} : g.Forms (g.items p) xs js → Accounts p xs
  /-- It derives them. -/
  | whole : g.Forms (g.items p) xs [] → Accounts p xs
  /-- It has run out of input before the last token, and derives the others. -/
  | short : xs ≠ [] → g.Forms (g.items p) xs.dropLast [] → Accounts p xs

variable {g}

theorem Rewrites.cons {is js : List Item} (h : g.Rewrites is js) (i : Item) : g.Rewrites (i :: is) (i :: js) := by
  cases h with
  | silent pre post hi => exact .silent (i :: pre) post hi
  | symbol pre post hp => exact .symbol (i :: pre) post hp

/-- **A leftmost derivation that matches the tokens makes a sentential form of them.** -/
theorem Leads.forms {is js : List Item} {xs : List Nat} (h : g.Leads is xs js) : g.Forms is xs js := by
  induction h with
  | refl is => exact ⟨[], .nil, .refl⟩
  | silent hi _ ih =>
    obtain ⟨es, hes, hrest⟩ := ih
    exact ⟨es, hes, .head (.silent [] _ hi) hrest⟩
  | @token t x is js u hacc _ ih =>
    obtain ⟨es, hes, hrest⟩ := ih
    exact ⟨t :: es, .cons hacc hes, hrest.lift (Item.token t :: ·) fun _ _ hstep => hstep.cons _⟩
  | symbol hp _ ih =>
    obtain ⟨es, hes, hrest⟩ := ih
    exact ⟨es, hes, .head (.symbol [] _ hp) hrest⟩

end Grammar

namespace Decision

variable {Q : Problem}

/-! ## The threads that a report is made for -/

namespace State

variable {s : State} {ts : List Thread}

/-- The threads that a report is made for: those that ended if they disagree, else all that have a say. -/
def reported (s : State) : List Thread :=
  if s.isSplit then s.exhausted ++ s.completed else s.deciding

theorem mem_deciding_of_reported {t : Thread} (h : t ∈ s.reported) : t ∈ s.deciding := by
  unfold reported at h
  split at h
  · exact List.mem_append_left _ h
  · exact h

theorem exists_ne_of_disagree (h : disagree ts = true) : ∃ t ∈ ts, ∃ u ∈ ts, t.production ≠ u.production := by
  cases ts with
  | nil => cases h
  | cons t ts =>
    obtain ⟨u, hu, hne⟩ := List.any_eq_true.1 h
    exact ⟨u, List.mem_cons_of_mem _ hu, t, List.mem_cons_self, bne_iff_ne.1 hne⟩

/-- Whichever threads a report is made for, they belong to different candidates. -/
theorem exists_ne_of_isUndecided (h : s.isUndecided = true) :
    ∃ t ∈ s.reported, ∃ u ∈ s.reported, t.production ≠ u.production := by
  unfold reported
  by_cases hsplit : s.isSplit = true
  · rw [if_pos hsplit]
    rw [isSplit, Bool.or_eq_true] at hsplit
    rcases hsplit with hsplit | hsplit
    · obtain ⟨t, ht, u, hu, hne⟩ := exists_ne_of_disagree hsplit
      exact ⟨t, List.mem_append_right _ ht, u, List.mem_append_right _ hu, hne⟩
    · obtain ⟨t, ht, u, hu, hne⟩ := exists_ne_of_disagree hsplit
      exact ⟨t, List.mem_append_left _ ht, u, List.mem_append_left _ hu, hne⟩
  · rw [if_neg hsplit]
    by_contra hall
    simp only [not_exists, not_and, not_not] at hall
    rw [isUndecided, beq_iff_eq] at h
    cases hd : s.deciding with
    | nil =>
      rw [verdict_eq_nothing_iff.2 hd] at h
      cases h
    | cons t ts =>
      have hleaf : s.verdict = .leaf t.production := by
        refine verdict_eq_leaf (hd ▸ List.cons_ne_nil t ts) fun u hu => hall u hu t ?_
        rw [hd]
        exact List.mem_cons_self
      rw [hleaf] at h
      cases h

/-- **The candidate of a thread that has a say can account for the tokens.** -/
theorem Traced.accounts (hs : s.Traced Q) {t : Thread} (ht : t ∈ s.deciding) :
    t.production ∈ Q.conflict.candidates ∧ Q.grammar.Accounts t.production s.path.reverse := by
  rw [deciding, List.mem_append, List.mem_append] at ht
  rcases ht with (ht | ht) | ht
  · obtain ⟨hp, f, hf, hleaves, -⟩ := hs.exhausted t ht
    refine ⟨hp, ?_⟩
    have hforms := hf.leads.forms
    rw [hleaves, ← List.dropLast_reverse] at hforms
    by_cases hpath : s.path.reverse = []
    · rw [hpath] at hforms ⊢
      exact .whole hforms
    · exact .short hpath hforms
  · obtain ⟨hp, hd⟩ := hs.completed t ht
    exact ⟨hp, .whole (Grammar.Leads.forms hd)⟩
  · obtain ⟨hp, hl⟩ := hs.active t ht
    exact ⟨hp, .begins hl.forms⟩

end State

end Decision

namespace Grammar

open Decision

variable {g : Grammar}

/-! ## Reports -/

/-- What the report of an ambiguity rests on: after the tokens, which begin with that of the conflict, the productions
cannot be told apart. -/
structure Genuine (g : Grammar) (limits : Limits) (c : Conflict) (xs : List Nat) (ps : List Node) : Prop where
  /-- The conflict is one of the prediction table. -/
  cell : (PredictionTable.fill g g.analyze).cell c.symbol c.token = .conflict c
  head : ∀ x ∈ xs.head?, x = c.token
  input : ∀ x ∈ xs, g.IsInput x
  length_le : xs.length ≤ c.limit g limits
  /-- The productions are candidates, in their order. -/
  ordered : ps.Sublist c.candidates
  nodup : ps.Nodup
  several : 2 ≤ ps.length
  accounts : ∀ p ∈ ps, g.Accounts p xs

theorem two_le_length {α : Type} {as : List α} {a b : α} (ha : a ∈ as) (hb : b ∈ as) (hne : a ≠ b) :
    2 ≤ as.length := by
  match as with
  | [] => exact absurd ha List.not_mem_nil
  | [c] => exact absurd ((List.mem_singleton.1 ha).trans (List.mem_singleton.1 hb).symm) hne
  | _ :: _ :: as => exact Nat.le_add_left 2 as.length

/-- The candidates of a conflict are different. -/
theorem nodup_candidates {s t : Nat} {c : Conflict} (h : (PredictionTable.fill g g.analyze).cell s t = .conflict c) :
    c.candidates.Nodup := by
  obtain ⟨hs, ht, -⟩ := PredictionTable.conflict_fill h
  rw [PredictionTable.cell_fill hs ht] at h
  obtain ⟨-, -, hc⟩ := Cell.eq_of_ofCandidates h
  exact hc ▸ nodup_eraseDups _

/-- The tokens that a decision tries can be tokens of the input. -/
theorem input_of_reachable {limits : Limits} {s t : Nat} {c : Conflict}
    (h : (PredictionTable.fill g g.analyze).cell s t = .conflict c) {n : State}
    (hn : (g.problem limits c).Reachable n) : ∀ x ∈ n.path, g.IsInput x := by
  induction hn with
  | refl => exact fun x hx => absurd hx List.not_mem_nil
  | @tail m n _ hnext ih =>
    obtain ⟨a, ha, hs⟩ := hnext
    rw [path_of_successor hs, List.forall_mem_cons]
    refine ⟨?_, ih⟩
    unfold Problem.tokensAt at ha
    split at ha
    · obtain ⟨-, -, -, ht⟩ := PredictionTable.conflict_fill h
      rw [List.mem_singleton.1 ha]
      exact ht ▸ isInput_of_cell h
    · obtain ⟨hlt, hne⟩ := List.mem_filter.1 ha
      exact ⟨List.mem_range.1 hlt, bne_iff_ne.1 hne⟩

/-- **The report of an undecided state is genuine.** -/
theorem genuine_of_reachable {limits : Limits} {s t : Nat} {c : Conflict}
    (hcell : (PredictionTable.fill g g.analyze).cell s t = .conflict c) {n : State}
    (hn : (g.problem limits c).Reachable n) (hlen : n.path.length ≤ c.limit g limits) (hund : n.isUndecided = true) :
    g.Genuine limits c n.path.reverse (c.candidates.filter fun p => n.reported.any (·.production == p)) := by
  have htraced := hn.traced faithful_problem
  have accounted : ∀ t ∈ n.reported, t.production ∈ c.candidates ∧ g.Accounts t.production n.path.reverse := fun t ht =>
    htraced.accounts (State.mem_deciding_of_reported ht)
  have listed : ∀ t ∈ n.reported, t.production ∈ c.candidates.filter fun p => n.reported.any (·.production == p) := by
    intro t ht
    exact List.mem_filter.2 ⟨(accounted t ht).1, List.any_eq_true.2 ⟨t, ht, beq_self_eq_true _⟩⟩
  obtain ⟨-, -, hs, ht⟩ := PredictionTable.conflict_fill hcell
  exact {
    cell := by rw [hs, ht, hcell]
    head := hn.head
    input := fun x hx => input_of_reachable hcell hn x (List.mem_reverse.1 hx)
    length_le := by rwa [List.length_reverse]
    ordered := List.filter_sublist
    nodup := (nodup_candidates hcell).filter _
    several := by
      obtain ⟨t, ht, u, hu, hne⟩ := State.exists_ne_of_isUndecided hund
      exact two_le_length (listed t ht) (listed u hu) hne
    accounts := fun p hp => by
      obtain ⟨t, ht, hp⟩ := List.any_eq_true.1 (List.mem_filter.1 hp).2
      exact beq_iff_eq.1 hp ▸ (accounted t ht).2 }

/-- **Reports of ambiguities are genuine.** If building fails with the report of an ambiguity, there are a conflict of the
symbol, tokens within its limit and several of its candidates behind it, all of which can account for the tokens. -/
theorem genuine_of_build {limits : Limits} {symbol path : String} {productions : List String} {position? : Option Position}
    (h : g.build limits = .error (.ambiguity symbol path productions position?)) :
    ∃ c xs ps, g.Genuine limits c xs ps ∧ symbol = c.symbolName g ∧ path = " ".intercalate (xs.map g.tokenName) ∧
      productions = ps.map g.describe ∧ position? = c.position? g := by
  obtain h | ⟨s, t, c, start, hcell, h⟩ | ⟨D, -, h⟩ := build_eq_error h
  · obtain ⟨_, _, ⟨_, h⟩ | h⟩ := fault_of_validate h <;> cases h
  · obtain hfault | ⟨-, h⟩ := resolve_eq_error h (isUndecided_root (Q := g.problem limits c) hcell)
    · generalize he : GrammarError.ambiguity symbol path productions position? = e at hfault
      cases hfault with
      | conflictDepth => cases he
      | expansion => cases he
      | @ambiguous n hn hlen hund =>
        obtain ⟨rfl, rfl, rfl, rfl⟩ := GrammarError.ambiguity.inj he
        exact ⟨c, _, _, genuine_of_reachable hcell hn hlen hund, rfl, rfl, rfl, rfl⟩
    · cases h
  · obtain ⟨_, _, h⟩ := fault_of_validateResolvers h
    cases h

/-- The grammar `S → A b` with `A → a C | a b` and `C → a | ε`: on `a b` the first alternative of `A` has run out of input
before the `b`, and the second has matched it. -/
def overtaken : Grammar where
  tokens := .letters
  symbols := #[{ name := "S", alts := [.sequence 0] }, { name := "A", alts := [.sequence 1, .sequence 2] },
    { name := "C", alts := [Item.token 2, .epsilon] }]
  sequences := #[[.symbol 1, .token 3], [.token 2, .symbol 2], [.token 2, .token 3]]
  actions := {}
  arguments := {}
  beacons := {}
  start := 0

/-- It is refused with a report that is genuine. -/
theorem overtaken_genuine : overtaken.build = .error (.ambiguity "A" "a b" ["a C", "a b"] none) ∧
    ∃ c xs ps, overtaken.Genuine {} c xs ps ∧ "a b" = " ".intercalate (xs.map overtaken.tokenName) ∧
      ["a C", "a b"] = ps.map overtaken.describe := by
  have h : overtaken.build = .error (.ambiguity "A" "a b" ["a C", "a b"] none) := by decide +kernel
  obtain ⟨c, xs, ps, hgenuine, -, hpath, hproductions, -⟩ := genuine_of_build h
  exact ⟨h, c, xs, ps, hgenuine, hpath, hproductions⟩

end Grammar

end PredictiveParser
