import PredictiveParser.Decision.State
import PredictiveParser.Proofs.Decision.Thread
import PredictiveParser.Proofs.Fallible

/-!
# What the states of a decision know

The state after some tokens holds what the threads of the state before settle to (`successor_eq_ok_iff`), so its threads derive
the tokens from their candidates (`State.Traced`). A survey that succeeds has seen every state that a decision can come to
(`decided_of_survey`). A candidate with a parse tree is carried from state to state as far as the tree reaches
(`Carries.step`), and two candidates whose trees end together are not decided (`Carries.not_decided`).
-/

namespace PredictiveParser

namespace Decision

variable {Q : Problem} {a : Nat}

/-! ## Successors -/

namespace State

variable {s : State} {x : Settled}

/-- The state holds the settled thread. -/
def Keeps (s : State) : Settled → Prop
  | .active t => t ∈ s.active
  | .redirected r => r ∈ s.redirected
  | .completed t => t ∈ s.completed
  | .exhausted t => t ∈ s.exhausted

theorem keeps_ofSettled {path : List Nat} {out : List Settled} : (ofSettled path out).Keeps x ↔ x ∈ out := by
  cases x <;>
  · simp only [Keeps, ofSettled, List.mem_filterMap]
    constructor
    · rintro ⟨y, hy, e⟩
      split at e
      · cases e
        exact hy
      · cases e
    · exact fun h => ⟨_, h, rfl⟩

theorem keeps_sortEnded : s.sortEnded.Keeps x ↔ s.Keeps x := by
  cases x with
  | active t => exact .rfl
  | redirected r => exact .rfl
  | completed t => exact List.mem_mergeSort
  | exhausted t => exact List.mem_mergeSort

theorem keeps_of_preferConcrete (h : s.preferConcrete.Keeps x) : s.Keeps x := by
  unfold preferConcrete at h
  split at h
  · exact h
  · cases x with
    | active t => exact List.mem_of_mem_filter h
    | redirected r => exact h
    | completed t => exact List.mem_of_mem_filter h
    | exhausted t => exact h

/-- Only threads that matched the token with the wildcard give way. -/
theorem keeps_preferConcrete (h : s.Keeps x) (hm : ∀ t, x.thread? = some t → t.matched ≠ .wildcard) :
    s.preferConcrete.Keeps x := by
  unfold preferConcrete
  split
  · exact h
  · cases x with
    | active t => exact List.mem_filter.2 ⟨h, by simpa using hm t rfl⟩
    | redirected r => exact h
    | completed t => exact List.mem_filter.2 ⟨h, by simpa using hm t rfl⟩
    | exhausted t => exact h

/-- A dead state holds nothing. -/
theorem not_keeps_of_isDead (h : s.isDead = true) : ¬ s.Keeps x := by
  simp only [isDead, Bool.and_eq_true, List.isEmpty_iff] at h
  obtain ⟨⟨⟨h₁, h₂⟩, h₃⟩, h₄⟩ := h
  cases x <;> simp [Keeps, h₁, h₂, h₃, h₄]

@[simp] theorem path_preferConcrete (s : State) : s.preferConcrete.path = s.path := by
  unfold preferConcrete
  split <;> rfl

@[simp] theorem path_sortEnded (s : State) : s.sortEnded.path = s.path := rfl

end State

/-- The thread before the next token. -/
def Thread.fresh (t : Thread) : Thread :=
  { t with matched := .pending }

/-- The state after one more token, before threads that matched it with the wildcard give way. -/
def Problem.settle (Q : Problem) (s : State) (token : Nat) : Except GrammarError State :=
  (expand Q token s.path.isEmpty expansionLimit (s.active.map Thread.fresh) []).map (State.ofSettled (token :: s.path))

theorem settle_eq_ok_iff {s m : State} : Q.settle s a = .ok m ↔
    ∃ out, expand Q a s.path.isEmpty expansionLimit (s.active.map Thread.fresh) [] = .ok out ∧
      State.ofSettled (a :: s.path) out = m :=
  map_eq_ok_iff

/-- The successor is that state, if it holds a thread, with the threads that gave way left out. -/
theorem Problem.successor_eq_settle (s : State) (token : Nat) : Q.successor s token =
    (Q.settle s token).map fun next => if next.isDead then none else some next.preferConcrete.sortEnded := by
  unfold successor settle
  dsimp only
  change (expand Q token s.path.isEmpty expansionLimit (s.active.map Thread.fresh) [] >>= _) = _
  cases expand Q token s.path.isEmpty expansionLimit (s.active.map Thread.fresh) [] with
  | error e => rfl
  | ok out => rfl

theorem successor_eq_ok_iff {s : State} {next? : Option State} : Q.successor s a = .ok next? ↔
    ∃ m, Q.settle s a = .ok m ∧ (if m.isDead then none else some m.preferConcrete.sortEnded) = next? := by
  rw [Problem.successor_eq_settle, map_eq_ok_iff]

theorem expands_of_settle {s m : State} (h : Q.settle s a = .ok m) : ∀ t ∈ s.active, Expands Q a s.path.isEmpty t.fresh := by
  obtain ⟨out, he, -⟩ := settle_eq_ok_iff.1 h
  exact fun t ht => expands_of_expand he _ (List.mem_map_of_mem ht)

theorem keeps_settle {s m : State} (h : Q.settle s a = .ok m) {x : Settled} :
    m.Keeps x ↔ ∃ t ∈ s.active, Settles Q a s.path.isEmpty t.fresh x := by
  obtain ⟨out, he, rfl⟩ := settle_eq_ok_iff.1 h
  rw [State.keeps_ofSettled, expand_eq_ok he]
  simp

theorem expands_of_successor {s : State} {next? : Option State} (h : Q.successor s a = .ok next?) :
    ∀ t ∈ s.active, Expands Q a s.path.isEmpty t.fresh := by
  obtain ⟨m, hm, -⟩ := successor_eq_ok_iff.1 h
  exact expands_of_settle hm

/-- **The state after one more token holds what the threads settle to,** and nothing else. -/
theorem exists_settles_of_keeps {s n : State} (h : Q.successor s a = .ok (some n)) {x : Settled} (hx : n.Keeps x) :
    ∃ t ∈ s.active, Settles Q a s.path.isEmpty t.fresh x := by
  obtain ⟨m, hm, e⟩ := successor_eq_ok_iff.1 h
  split at e
  · cases e
  · cases e
    exact (keeps_settle hm).1 (State.keeps_of_preferConcrete (State.keeps_sortEnded.1 hx))

/-- Only threads that matched the token as the wildcard may give way. -/
theorem exists_keeps_of_settles {s : State} {next? : Option State} (h : Q.successor s a = .ok next?) {t : Thread}
    (ht : t ∈ s.active) {x : Settled} (hx : Settles Q a s.path.isEmpty t.fresh x)
    (hw : ∀ u, x.thread? = some u → u.matched ≠ .wildcard) : ∃ n, next? = some n ∧ n.Keeps x := by
  obtain ⟨m, hm, rfl⟩ := successor_eq_ok_iff.1 h
  have hkeep : m.Keeps x := (keeps_settle hm).2 ⟨t, ht, hx⟩
  split
  · next hdead => exact absurd hkeep (State.not_keeps_of_isDead hdead)
  · exact ⟨_, rfl, State.keeps_sortEnded.2 (State.keeps_preferConcrete hkeep hw)⟩

theorem path_of_successor {s n : State} (h : Q.successor s a = .ok (some n)) : n.path = a :: s.path := by
  obtain ⟨m, hm, e⟩ := successor_eq_ok_iff.1 h
  obtain ⟨out, -, rfl⟩ := settle_eq_ok_iff.1 hm
  split at e
  · cases e
  · cases e
    rw [State.path_sortEnded, State.path_preferConcrete]
    rfl

theorem token_of_successor {s n : State} (h : Q.successor s a = .ok (some n)) : n.token = a := by
  rw [State.token, path_of_successor h]
  rfl

/-- Without resolvers no thread waits for one. -/
theorem Settles.not_redirected (hres : ∀ s, (Q.grammar.symbol s).resolver = none) {first : Bool} {t : Thread} {x : Settled}
    (h : Settles Q a first t x) (r : Redirect) : x ≠ .redirected r := by
  rintro rfl
  have hr := h.resolver_eq
  rw [hres] at hr
  cases hr

/-- The state after one more token has no thread that waits for a resolver. -/
theorem redirected_of_successor (hres : ∀ s, (Q.grammar.symbol s).resolver = none) {s n : State}
    (h : Q.successor s a = .ok (some n)) : n.redirected = [] := by
  refine List.eq_nil_iff_forall_not_mem.2 fun r hr => ?_
  obtain ⟨t, -, hset⟩ := exists_settles_of_keeps (x := .redirected r) h hr
  exact hset.not_redirected hres r rfl

/-- A state is visited unless it is stuck. -/
theorem visit_eq_ok_iff {s : State} {next? : Option State} : Q.visit s a = .ok next? ↔
    Q.successor s a = .ok next? ∧ ∀ n, next? = some n → n.isStuck = false := by
  unfold Problem.visit
  rw [bind_eq_ok_iff]
  constructor
  · rintro ⟨_ | n, hs, h⟩
    · cases h
      exact ⟨hs, nofun⟩
    · dsimp only at h
      split at h
      · cases h
      · next hstuck =>
        cases h
        exact ⟨hs, fun _ e => Option.some.inj e ▸ eq_false_of_ne_true hstuck⟩
  · rintro ⟨hs, hstuck⟩
    refine ⟨next?, hs, ?_⟩
    cases next? with
    | none => rfl
    | some n =>
      dsimp only
      rw [hstuck n rfl]
      rfl

/-! ## Surveys -/

/-- The states after one more token, with the tokens that lead to them. -/
theorem children_eq_ok_iff {s : State} {cs : List State} : Q.children s = .ok cs ↔
    ∃ ns : List (Option State), List.Forall₂ (fun t n => Q.visit s t = .ok n) (Q.tokensAt s) ns ∧
      ns.filterMap id = cs := by
  unfold Problem.children
  simp only [bind_eq_ok_iff, mapM_eq_ok_iff]
  exact exists_congr fun ns => and_congr_right fun _ => ⟨Except.ok.inj, fun h => congrArg Except.ok h⟩

/-- Every token leads to a child or to no state. -/
theorem visit_of_children {s : State} {cs : List State} (h : Q.children s = .ok cs) {t : Nat} (ht : t ∈ Q.tokensAt s) :
    ∃ next?, Q.visit s t = .ok next? ∧ ∀ n, next? = some n → n ∈ cs := by
  obtain ⟨ns, hns, rfl⟩ := children_eq_ok_iff.1 h
  obtain ⟨i, hi, rfl⟩ := List.getElem_of_mem ht
  have hi' : i < ns.length := hns.length_eq ▸ hi
  refine ⟨ns[i], hns.get hi hi', fun n hn => List.mem_filterMap.2 ⟨ns[i], List.getElem_mem hi', hn⟩⟩

/-- Every child was visited. -/
theorem exists_visit_of_mem_children {s n : State} {cs : List State} (h : Q.children s = .ok cs) (hn : n ∈ cs) :
    ∃ t ∈ Q.tokensAt s, Q.visit s t = .ok (some n) := by
  obtain ⟨ns, hns, rfl⟩ := children_eq_ok_iff.1 h
  obtain ⟨n?, hn', rfl⟩ := List.mem_filterMap.1 hn
  obtain ⟨i, hi, e⟩ := List.getElem_of_mem hn'
  have hi' : i < (Q.tokensAt s).length := hns.length_eq ▸ hi
  refine ⟨(Q.tokensAt s)[i], List.getElem_mem hi', ?_⟩
  rw [← show ns[i] = some n from e]
  exact hns.get hi' hi

/-- The state leads to the next with one more token. -/
def Problem.Next (Q : Problem) (s n : State) : Prop :=
  ∃ a ∈ Q.tokensAt s, Q.successor s a = .ok (some n)

theorem next_of_mem_children {s n : State} {cs : List State} (h : Q.children s = .ok cs) (hn : n ∈ cs) : Q.Next s n := by
  obtain ⟨a, ha, hv⟩ := exists_visit_of_mem_children h hn
  exact ⟨a, ha, (visit_eq_ok_iff.1 hv).1⟩

/-- The children of a state come with tokens that were tried, in their order. -/
theorem tokens_sublist {s : State} {cs : List State} (h : Q.children s = .ok cs) :
    (cs.map State.token).Sublist (Q.tokensAt s) := by
  obtain ⟨ns, hns, rfl⟩ := children_eq_ok_iff.1 h
  generalize Q.tokensAt s = ts at hns
  clear h
  induction hns with
  | nil => exact .refl _
  | @cons t n? ts ns hv _ ih =>
    cases n? with
    | none => exact ih.cons t
    | some n =>
      have htoken : n.token = t := token_of_successor (visit_eq_ok_iff.1 hv).1
      rw [List.filterMap_cons_some (by rfl), List.map_cons, htoken]
      exact ih.cons_cons t

/-- The children of a state come in the order of the tokens. -/
theorem pairwise_tokens {s : State} {cs : List State} (h : Q.children s = .ok cs) :
    (cs.map State.token).Pairwise (· < ·) := by
  have hpairwise : (Q.tokensAt s).Pairwise (· < ·) := by
    unfold Problem.tokensAt
    split
    · exact List.pairwise_singleton _ _
    · exact List.Pairwise.filter _ List.pairwise_lt_range
  exact hpairwise.sublist (tokens_sublist h)

/-- Every child of some states was found with a token of its own. -/
theorem exists_visit_of_mem_flatten {level : List State} {css : List (List State)}
    (h : List.Forall₂ (fun s cs => Q.children s = .ok cs) level css) {n : State} (hn : n ∈ css.flatten) :
    ∃ s ∈ level, ∃ t ∈ Q.tokensAt s, Q.visit s t = .ok (some n) := by
  induction h with
  | nil => exact absurd hn List.not_mem_nil
  | @cons s cs level css hcs _ ih =>
    rw [List.flatten_cons, List.mem_append] at hn
    obtain hn | hn := hn
    · exact ⟨s, List.mem_cons_self, exists_visit_of_mem_children hcs hn⟩
    · obtain ⟨s', hs', h⟩ := ih hn
      exact ⟨s', List.mem_cons_of_mem _ hs', h⟩

/-- Within `k` more tokens the decision is made in an undecided state. -/
def Decided (Q : Problem) : (k : Nat) → State → Prop
  | 0, _ => False
  | k + 1, s => ∃ cs, Q.children s = .ok cs ∧ ∀ n ∈ cs, n.isUndecided = true → Decided Q k n

/-- What a survey from some states goes through. It goes on with the undecided ones of the next states. -/
theorem survey_eq_ok_iff {k : Nat} {s : State} {level states : List State} : Q.survey k (s :: level) = .ok states ↔
    ∃ j css more, k = j + 1 ∧ List.Forall₂ (fun s cs => Q.children s = .ok cs) (s :: level) css ∧
      Q.survey j (css.flatten.filter (·.isUndecided)) = .ok more ∧ css.flatten ++ more = states := by
  cases k with
  | zero => exact ⟨nofun, nofun⟩
  | succ k =>
    rw [Problem.survey, bind_eq_ok_iff]
    · simp only [bind_eq_ok_iff, mapM_eq_ok_iff]
      constructor
      · rintro ⟨css, hcss, more, hmore, h⟩
        cases h
        exact ⟨k, css, more, rfl, hcss, hmore, rfl⟩
      · rintro ⟨j, css, more, e, hcss, hmore, rfl⟩
        cases e
        exact ⟨css, hcss, more, hmore, rfl⟩
    · exact nofun

/-- **What a survey goes through.** If the next states of those with `p` have `q`, and of these the undecided ones have `p` in
turn, all states of a survey that begins with some that have `p` have `q`. -/
theorem forall_of_survey {p q : Nat → State → Prop}
    (hnext : ∀ {k s cs}, p (k + 1) s → Q.children s = .ok cs → ∀ n ∈ cs, q k n)
    (hundecided : ∀ {k s}, q k s → s.isUndecided = true → p k s) {k : Nat} {level states : List State}
    (h : Q.survey k level = .ok states) (hl : ∀ s ∈ level, p k s) : ∀ s ∈ states, ∃ k, q k s := by
  induction k generalizing level states with
  | zero =>
    cases level with
    | nil => cases h; exact fun _ hs => absurd hs List.not_mem_nil
    | cons s level => cases h
  | succ k ih =>
    cases level with
    | nil => cases h; exact fun _ hs => absurd hs List.not_mem_nil
    | cons s₀ level =>
      obtain ⟨j, css, more, e, hall, hrest, rfl⟩ := survey_eq_ok_iff.1 h
      cases e
      have hchild : ∀ n ∈ css.flatten, q k n := by
        intro n hn
        obtain ⟨cs, hcs, hn⟩ := List.mem_flatten.1 hn
        obtain ⟨i, hi, rfl⟩ := List.getElem_of_mem hcs
        have hi' : i < (s₀ :: level).length := hall.length_eq ▸ hi
        exact hnext (hl _ (List.getElem_mem hi')) (hall.get hi' hi) n hn
      refine List.forall_mem_append.2 ⟨fun n hn => ⟨k, hchild n hn⟩, ih hrest fun n hn => ?_⟩
      exact hundecided (hchild n (List.mem_of_mem_filter hn)) (List.of_mem_filter hn)

/-- **A survey that succeeds makes every decision.** -/
theorem decided_of_survey {k : Nat} {level states : List State} (h : Q.survey k level = .ok states) :
    ∀ s ∈ level, Decided Q k s := by
  induction k generalizing level states with
  | zero =>
    cases level with
    | nil => exact fun _ hs => absurd hs List.not_mem_nil
    | cons s level => cases h
  | succ k ih =>
    cases level with
    | nil => exact fun _ hs => absurd hs List.not_mem_nil
    | cons s₀ level =>
      intro s hs
      obtain ⟨j, css, more, e, hall, hrest, -⟩ := survey_eq_ok_iff.1 h
      cases e
      obtain ⟨i, hi, rfl⟩ := List.getElem_of_mem hs
      have hi' : i < css.length := hall.length_eq ▸ hi
      refine ⟨css[i], hall.get hi hi', fun n hn hu => ?_⟩
      exact ih hrest n (List.mem_filter.2 ⟨List.mem_flatten.2 ⟨_, List.getElem_mem hi', hn⟩, hu⟩)

/-! ## Verdicts -/

namespace State

variable {s : State} {t u : Thread}

/-- Threads of two candidates keep a state undecided. -/
theorem isUndecided_of_mem (ht : t ∈ s.deciding) (hu : u ∈ s.deciding) (hne : t.production ≠ u.production) :
    s.isUndecided = true := by
  unfold isUndecided verdict
  cases hd : s.deciding with
  | nil => rw [hd] at ht; exact absurd ht List.not_mem_nil
  | cons t₀ ts =>
    have hall : ts.all (·.production == t₀.production) = false := by
      by_contra hcon
      have h : ∀ x ∈ s.deciding, x.production = t₀.production := by
        rw [hd, List.forall_mem_cons]
        simpa using hcon
      exact hne ((h t ht).trans (h u hu).symm)
    simp [hall]

/-- A state that decides does so for the candidate of any of its threads. -/
theorem production_eq_of_verdict {p : Node} (hv : s.verdict = .leaf p) (ht : t ∈ s.deciding) : t.production = p := by
  unfold verdict at hv
  cases hd : s.deciding with
  | nil => rw [hd] at ht; exact absurd ht List.not_mem_nil
  | cons t₀ ts =>
    rw [hd] at hv ht
    dsimp only at hv
    split at hv
    · next hall =>
      cases hv
      rcases List.mem_cons.1 ht with rfl | ht
      · rfl
      · simpa using List.all_eq_true.1 hall t ht
    · cases hv

/-- If all threads that count belong to one candidate, the state decides for it. -/
theorem verdict_eq_leaf {p : Node} (hne : s.deciding ≠ []) (h : ∀ t ∈ s.deciding, t.production = p) : s.verdict = .leaf p := by
  unfold verdict
  cases hd : s.deciding with
  | nil => exact absurd hd hne
  | cons t ts =>
    rw [hd, List.forall_mem_cons] at h
    have hall : ts.all (·.production == t.production) = true := by
      rw [List.all_eq_true]
      intro u hu
      rw [beq_iff_eq, h.2 u hu, h.1]
    dsimp only
    rw [if_pos hall, h.1]

theorem verdict_eq_nothing_iff : s.verdict = .nothing ↔ s.deciding = [] := by
  unfold verdict
  cases s.deciding with
  | nil => simp
  | cons t ts =>
    dsimp only
    split <;> simp

theorem verdict_eq_leaf_iff {p : Node} :
    s.verdict = .leaf p ↔ s.deciding ≠ [] ∧ ∀ t ∈ s.deciding, t.production = p := by
  refine ⟨fun hv => ⟨fun hnil => ?_, fun t => production_eq_of_verdict hv⟩, fun h => verdict_eq_leaf h.1 h.2⟩
  rw [verdict_eq_nothing_iff.2 hnil] at hv
  cases hv

/-- The verdict only depends on the candidates of the threads. -/
theorem verdict_congr {s' : State}
    (h : ∀ p, (∃ t ∈ s'.deciding, t.production = p) ↔ ∃ t ∈ s.deciding, t.production = p) : s'.verdict = s.verdict := by
  have hnil : s'.deciding = [] ↔ s.deciding = [] := by
    rw [List.eq_nil_iff_forall_not_mem, List.eq_nil_iff_forall_not_mem]
    exact ⟨fun hno t ht => (h t.production).2 ⟨t, ht, rfl⟩ |>.elim fun u hu => hno u hu.1,
      fun hno t ht => (h t.production).1 ⟨t, ht, rfl⟩ |>.elim fun u hu => hno u hu.1⟩
  have hall : ∀ p, (∀ t ∈ s'.deciding, t.production = p) ↔ ∀ t ∈ s.deciding, t.production = p := fun p => by
    constructor
    · intro hs t ht
      obtain ⟨u, hu, e⟩ := (h t.production).2 ⟨t, ht, rfl⟩
      exact e.symm.trans (hs u hu)
    · intro hs t ht
      obtain ⟨u, hu, e⟩ := (h t.production).1 ⟨t, ht, rfl⟩
      exact e.symm.trans (hs u hu)
  have hleaf : ∀ p, s'.verdict = .leaf p ↔ s.verdict = .leaf p := fun p => by
    rw [verdict_eq_leaf_iff, verdict_eq_leaf_iff, hall, ne_eq, hnil]
  cases hv : s.verdict with
  | leaf p => exact (hleaf p).2 hv
  | nothing => exact verdict_eq_nothing_iff.2 (hnil.2 (verdict_eq_nothing_iff.1 hv))
  | undecided =>
    cases hv' : s'.verdict with
    | undecided => rfl
    | leaf p =>
      rw [(hleaf p).1 hv'] at hv
      cases hv
    | nothing =>
      rw [verdict_eq_nothing_iff.2 (hnil.1 (verdict_eq_nothing_iff.1 hv'))] at hv
      cases hv

/-- A state without verdict is undecided or has no thread that counts. -/
theorem verdict_cases (s : State) : s.isUndecided = true ∨ (∃ p, s.verdict = .leaf p) ∨ s.deciding = [] := by
  unfold isUndecided verdict
  cases hd : s.deciding with
  | nil => exact .inr (.inr rfl)
  | cons t ts =>
    by_cases h : ts.all (·.production == t.production)
    · exact .inr (.inl ⟨_, if_pos h⟩)
    · exact .inl (by simp [h])

theorem disagree_of_mem {ts : List Thread} (ht : t ∈ ts) (hu : u ∈ ts) (hne : t.production ≠ u.production) :
    disagree ts = true := by
  cases ts with
  | nil => exact absurd ht List.not_mem_nil
  | cons t₀ ts =>
    by_contra hcon
    have h : ∀ x ∈ t₀ :: ts, x.production = t₀.production := by
      rw [List.forall_mem_cons]
      simpa [disagree] using hcon
    exact hne ((h t ht).trans (h u hu).symm)

theorem production_of_not_disagree {ts : List Thread} {t u : Thread} (h : disagree ts = false) (ht : t ∈ ts) (hu : u ∈ ts) :
    t.production = u.production := by
  by_contra hne
  rw [disagree_of_mem ht hu hne] at h
  cases h

theorem disagree_congr {ts ts' : List Thread}
    (h : ∀ p, (∃ t ∈ ts', t.production = p) ↔ ∃ t ∈ ts, t.production = p) : disagree ts' = disagree ts := by
  have step : ∀ ts ts' : List Thread, (∀ p, (∃ t ∈ ts', t.production = p) → ∃ t ∈ ts, t.production = p) →
      disagree ts = false → disagree ts' = false := by
    intro ts ts' h hts
    cases ts' with
    | nil => rfl
    | cons t ts' =>
      rw [disagree, List.any_eq_false]
      intro u hu
      obtain ⟨t₀, ht₀, et⟩ := h t.production ⟨t, List.mem_cons_self, rfl⟩
      obtain ⟨u₀, hu₀, eu⟩ := h u.production ⟨u, List.mem_cons_of_mem _ hu, rfl⟩
      simpa [← et, ← eu] using production_of_not_disagree hts hu₀ ht₀
  cases hts : disagree ts with
  | false => exact step ts ts' (fun p => (h p).1) hts
  | true =>
    cases hts' : disagree ts' with
    | true => rfl
    | false =>
      rw [step ts' ts (fun p => (h p).2) hts'] at hts
      cases hts

/-- The first of threads that agree belongs to the candidate of all of them. -/
theorem head?_production_congr {ts ts' : List Thread}
    (h : ∀ p, (∃ t ∈ ts', t.production = p) ↔ ∃ t ∈ ts, t.production = p) (hts : disagree ts = false) :
    ts'.head?.map (·.production) = ts.head?.map (·.production) := by
  cases ts with
  | nil =>
    cases ts' with
    | nil => rfl
    | cons t' ts' =>
      obtain ⟨t, ht, -⟩ := (h t'.production).1 ⟨t', List.mem_cons_self, rfl⟩
      exact absurd ht List.not_mem_nil
  | cons t ts =>
    cases ts' with
    | nil =>
      obtain ⟨t', ht', -⟩ := (h t.production).2 ⟨t, List.mem_cons_self, rfl⟩
      exact absurd ht' List.not_mem_nil
    | cons t' ts' =>
      obtain ⟨u, hu, e⟩ := (h t'.production).1 ⟨t', List.mem_cons_self, rfl⟩
      exact congrArg some (e.symm.trans (production_of_not_disagree hts hu List.mem_cons_self))

/-- A thread of the candidate has ended: with the last token, or before it. -/
def Ended (s : State) (p : Node) (withToken : Bool) : Prop :=
  ∃ t ∈ (if withToken then s.completed else s.exhausted), t.production = p

theorem Ended.mem_deciding {p : Node} {b : Bool} (h : s.Ended p b) : ∃ t ∈ s.deciding, t.production = p := by
  obtain ⟨t, ht, hp⟩ := h
  refine ⟨t, ?_, hp⟩
  simp only [deciding, List.mem_append]
  cases b with
  | true => exact .inl (.inr ht)
  | false => exact .inl (.inl ht)

/-- Two candidates that end together leave a state stuck. -/
theorem isStuck_of_ended {p q : Node} {b : Bool} (hp : s.Ended p b) (hq : s.Ended q b) (hne : p ≠ q) :
    s.isStuck = true := by
  obtain ⟨t, ht, htp⟩ := hp.mem_deciding
  obtain ⟨u, hu, huq⟩ := hq.mem_deciding
  have hund : s.isUndecided = true := isUndecided_of_mem ht hu (by rw [htp, huq]; exact hne)
  obtain ⟨t, ht, htp⟩ := hp
  obtain ⟨u, hu, huq⟩ := hq
  have hsplit : s.isSplit = true := by
    have hdis := disagree_of_mem ht hu (by rw [htp, huq]; exact hne)
    unfold isSplit
    cases b with
    | true => rw [show disagree s.completed = true from hdis, Bool.true_or]
    | false => rw [show disagree s.exhausted = true from hdis, Bool.or_true]
  simp [isStuck, hund, hsplit]

end State

/-! ## Threads derive the tokens -/

/-- The threads derive the tokens from their candidates. A thread that ended before the last token went on to where it
stands behind the token before, so that no token is the last part of its match. -/
structure State.Traced (Q : Problem) (s : State) : Prop where
  active : ∀ t ∈ s.active, t.production ∈ Q.conflict.candidates ∧
    Q.grammar.Leads (Q.grammar.items t.production) s.path.reverse (t.items Q.grammar)
  ready : s.path ≠ [] → ∀ t ∈ s.active, t.IsReady
  redirected : ∀ r ∈ s.redirected, r.production ∈ Q.conflict.candidates
  completed : ∀ t ∈ s.completed, t.production ∈ Q.conflict.candidates ∧
    Q.grammar.Derives (Q.grammar.items t.production) s.path.reverse
  exhausted : ∀ t ∈ s.exhausted, t.production ∈ Q.conflict.candidates ∧
    ∃ f, Q.grammar.Grows (Q.grammar.items t.production) f ∧ f.leaves = s.path.tail.reverse ∧ f.endsWithToken = false

theorem mem_active_root {t : Thread} : t ∈ Q.root.active ↔
    ∃ i p, Q.conflict.candidates[i]? = some p ∧ t = { production := p, order := i, stack := [p] } := by
  simp only [Problem.root, Problem.candidateThreads, List.mem_map, Prod.exists, List.mem_zipIdx_iff_getElem?]
  constructor
  · rintro ⟨p, i, hp, rfl⟩
    exact ⟨i, p, hp, rfl⟩
  · rintro ⟨i, p, hp, rfl⟩
    exact ⟨p, i, hp, rfl⟩

theorem State.traced_root (Q : Problem) : Q.root.Traced Q where
  active t ht := by
    obtain ⟨i, p, hp, rfl⟩ := mem_active_root.1 ht
    refine ⟨List.mem_of_getElem? hp, ?_⟩
    rw [Thread.items, List.flatMap_singleton]
    exact .refl _
  ready hpath := absurd rfl hpath
  redirected r hr := absurd hr List.not_mem_nil
  completed t ht := absurd ht List.not_mem_nil
  exhausted t ht := absurd ht List.not_mem_nil

/-- **One more token keeps the threads traced.** -/
theorem State.Traced.successor {s n : State} (h : s.Traced Q) (hQ : Q.Faithful) (hs : Q.successor s a = .ok (some n)) :
    n.Traced Q := by
  have hpath := path_of_successor hs
  have leads : ∀ x u, n.Keeps x → x.thread? = some u → u.production ∈ Q.conflict.candidates ∧ ∃ w,
      [a] = w ++ u.due a ∧ Q.grammar.Leads (Q.grammar.items u.production) (s.path.reverse ++ w) (u.items Q.grammar) := by
    intro x u hx hu
    obtain ⟨t, ht, hset⟩ := exists_settles_of_keeps hs hx
    obtain ⟨w, hw, hl⟩ := hset.leads hQ hu
    have hp : u.production = t.production := by
      have e := hset.production_eq hQ
      cases x <;> cases hu <;> exact e
    obtain ⟨hmem, hl'⟩ := h.active t ht
    exact ⟨hp ▸ hmem, w, hw, hp ▸ hl'.trans hl⟩
  have shaped : ∀ x, n.Keeps x → x.Shaped := fun x hx => by
    obtain ⟨t, -, hset⟩ := exists_settles_of_keeps hs hx
    exact hset.shaped
  refine ⟨fun u hu => ?_, fun _ u hu => (shaped (.active u) hu).2, fun r hr => ?_, fun u hu => ?_, fun u hu => ?_⟩
  · obtain ⟨hmem, w, hw, hl⟩ := leads (.active u) u hu rfl
    have hm : u.matched ≠ .pending := (shaped (.active u) hu).1
    rw [Thread.due, if_neg hm, List.append_nil] at hw
    rw [hpath, List.reverse_cons, hw]
    exact ⟨hmem, hl⟩
  · obtain ⟨t, ht, hset⟩ := exists_settles_of_keeps (x := .redirected r) hs hr
    have e : r.production = t.production := hset.production_eq hQ
    exact e ▸ (h.active t ht).1
  · obtain ⟨hmem, w, hw, hl⟩ := leads (.completed u) u hu rfl
    obtain ⟨hm, hstack⟩ := shaped (.completed u) hu
    rw [Thread.due, if_neg hm, List.append_nil] at hw
    rw [hpath, List.reverse_cons, hw]
    rw [Thread.items, hstack] at hl
    exact ⟨hmem, hl⟩
  · obtain ⟨t, ht, hset⟩ := exists_settles_of_keeps (x := .exhausted u) hs hu
    obtain ⟨hm, hstack⟩ := shaped (.exhausted u) hu
    obtain ⟨w, hw, hl⟩ := hset.leads hQ rfl
    have hp : u.production = t.production := hset.production_eq hQ
    obtain ⟨hmem, hl'⟩ := h.active t ht
    refine ⟨hp ▸ hmem, ?_⟩
    rw [Thread.due, Thread.due, if_pos hm] at hw
    have hw' : w = [] := by simpa [Thread.fresh] using hw
    have hnil : u.items Q.grammar = [] := by rw [Thread.items, hstack, List.flatMap_nil]
    rw [hw', hnil] at hl
    -- what the thread had left matches nothing
    obtain ⟨d, hd, hleaves⟩ := Grammar.Leads.exists_grows hl
    obtain ⟨f, hf, hfleaves, hlast⟩ := hl'.exists_grows_of_grows hd
    rw [hleaves, List.append_nil] at hfleaves
    refine ⟨f, hp ▸ hf, by rw [hfleaves, hpath, List.tail_cons], ?_⟩
    by_cases hempty : s.path = []
    · exact Forest.endsWithToken_of_leaves (by rw [hfleaves, hempty, List.reverse_nil])
    · obtain ⟨i, rest, hstack', hi⟩ := h.ready hempty t ht
      have hne : d ≠ .nil := by
        rintro rfl
        have hd' : Q.grammar.Grows (t.items Q.grammar) .nil := hd
        rw [Thread.items, hstack', List.flatMap_cons] at hd'
        cases hd' with
        | silent hi' => rw [hi] at hi'; cases hi'
      exact (hlast hne false).trans (Forest.endsWithToken_of_leaves hleaves)

/-- The states that a survey goes through are traced. -/
theorem State.traced_of_survey (hQ : Q.Faithful) {k : Nat} {level states : List State}
    (h : Q.survey k level = .ok states) (hl : ∀ s ∈ level, s.Traced Q) : ∀ s ∈ states, s.Traced Q := by
  have hnext : ∀ {s cs}, s.Traced Q → Q.children s = .ok cs → ∀ n ∈ cs, n.Traced Q := by
    intro s cs hs hcs n hn
    obtain ⟨t, -, hv⟩ := exists_visit_of_mem_children hcs hn
    exact hs.successor hQ (visit_eq_ok_iff.1 hv).1
  intro s hs
  obtain ⟨-, htraced⟩ := forall_of_survey (p := fun _ s => s.Traced Q) hnext (fun hs _ => hs) h hl s hs
  exact htraced

/-- The candidates of a conflict leave the first state undecided. -/
theorem isUndecided_root {s t : Nat} (h : (PredictionTable.fill Q.grammar Q.grammar.analyze).cell s t = .conflict Q.conflict) :
    Q.root.isUndecided = true := by
  obtain ⟨p, hp, q, hq, hne⟩ := PredictionTable.exists_candidates h
  obtain ⟨i, hi⟩ := List.mem_iff_getElem?.1 hp
  obtain ⟨j, hj⟩ := List.mem_iff_getElem?.1 hq
  exact State.isUndecided_of_mem (mem_active_root.2 ⟨i, p, hi, rfl⟩) (mem_active_root.2 ⟨j, q, hj, rfl⟩) hne

/-! ## Candidates with a parse tree are carried along -/

/-- A thread of the candidate goes along a forest. -/
def Carries (Q : Problem) (rest : List Item) (v : List Nat) (p : Node) (f : Forest Nat) (s : State) : Prop :=
  ∃ t ∈ s.active, t.production = p ∧ Along Q.grammar Q.grammar.analyze rest v t f

/-- At first every candidate is carried along any of its forests. -/
theorem carries_root {rest : List Item} {v : List Nat} {p : Node} {f : Forest Nat} (hQ : Plain Q)
    (hp : p ∈ Q.conflict.candidates) (hrest : ∀ i ∈ rest, Q.grammar.HasItem i ∧ i ≠ .token anyToken)
    {s : Nat} (halt : p ∈ (Q.grammar.symbol s).alts) (hch : Q.grammar.analyze.Chained Q.grammar (.symbol s :: rest))
    (hf : Q.grammar.Grows (Q.grammar.items p) f) (hv : Q.grammar.Derives rest v) : Carries Q rest v p f Q.root := by
  obtain ⟨i, hi⟩ := List.mem_iff_getElem?.1 hp
  refine ⟨_, mem_active_root.2 ⟨i, p, hi, rfl⟩, rfl, ?_⟩
  have e : Thread.items Q.grammar { production := p, order := i, stack := [p] } = Q.grammar.items p := by
    rw [Thread.items, List.flatMap_singleton]
  refine ⟨?_, ?_, e ▸ hf, hv⟩
  · rw [e]
    exact List.forall_mem_append.2 ⟨hQ.wellFormed.proper_alt hQ.wildcard halt, hrest⟩
  · rw [e]
    exact hch.expand hQ.wellFormed.closed hQ.wellFormed halt

/-- **One more token carries a candidate along its forest, or ends it with the forest.** -/
theorem Carries.step {rest : List Item} {v : List Nat} {p : Node} {f : Forest Nat} {s : State} {next? : Option State}
    (h : Carries Q rest v p f s) (hQ : Plain Q) (hs : Q.successor s a = .ok next?)
    (ha : (f.leaves ++ v).headD endToken = a) (hlt : a < Q.grammar.tokenCount) (hany : a ≠ anyToken) :
    ∃ n, next? = some n ∧ n.path = a :: s.path ∧
      (f.span = 1 ∧ n.Ended p f.endsWithToken ∨
        f.leaves ≠ [] ∧ f.behind ≠ .nil ∧ Carries Q rest v p f.behind n) := by
  obtain ⟨t, ht, hp, halong⟩ := h
  have hfresh : Along Q.grammar Q.grammar.analyze rest v t.fresh f :=
    ⟨halong.proper, halong.chained, halong.grows, halong.derives⟩
  cases (expands_of_successor hs t ht).follows hQ rfl hfresh ha hlt hany with
  | @exhausted u hl hset =>
    have hm : u.matched = .pending := hset.shaped.1
    obtain ⟨n, rfl, hu⟩ := exists_keeps_of_settles hs ht hset fun u' hu' => by cases hu'; rw [hm]; decide
    refine ⟨n, rfl, path_of_successor hs, .inl ⟨Forest.span_of_leaves hl, u, ?_, (hset.production_eq hQ.faithful).trans hp⟩⟩
    rw [Forest.endsWithToken_of_leaves hl]
    exact hu
  | @completed u hl hb hm hset =>
    obtain ⟨n, rfl, hu⟩ := exists_keeps_of_settles hs ht hset fun u' hu' => by cases hu'; rw [hm]; decide
    refine ⟨n, rfl, path_of_successor hs, .inl ⟨Forest.span_of_behind hl hb, u, ?_, (hset.production_eq hQ.faithful).trans hp⟩⟩
    rw [Forest.endsWithToken_behind hl, hb]
    exact hu
  | @active u hl hb hm hgrows hset =>
    obtain ⟨n, rfl, hu⟩ := exists_keeps_of_settles hs ht hset fun u' hu' => by cases hu'; rw [hm]; decide
    obtain ⟨w, -, hlead⟩ := hset.leads hQ.faithful rfl
    refine ⟨n, rfl, path_of_successor hs, .inr ⟨hl, hb, u, hu, (hset.production_eq hQ.faithful).trans hp, ?_⟩⟩
    exact hfresh.leads hQ.wellFormed hQ.wellFormed.closed hQ.wildcard hlead hgrows

/-- The tokens of the grammar but the wildcard are tried after the first. -/
theorem mem_tokensAt {s : State} (hs : s.path ≠ []) (hlt : a < Q.grammar.tokenCount) (hany : a ≠ anyToken) :
    a ∈ Q.tokensAt s := by
  have he : s.path.isEmpty = false := by simpa using hs
  simp [Problem.tokensAt, he, hlt, hany]

/-- **Candidates whose matches end together are not decided.** -/
theorem Carries.not_decided {rest : List Item} {v v' : List Nat} {p q : Node} {f f' : Forest Nat} {s : State}
    (hQ : Plain Q) (hp : Carries Q rest v p f s) (hq : Carries Q rest v' q f' s) (hne : p ≠ q)
    (hin : f.leaves ++ v = f'.leaves ++ v') (hspan : f.span = f'.span) (hend : f.endsWithToken = f'.endsWithToken)
    (hw : ∀ x ∈ f.leaves ++ v, x < Q.grammar.tokenCount ∧ x ≠ anyToken)
    (htok : (f.leaves ++ v).headD endToken ∈ Q.tokensAt s) (k : Nat) : ¬ Decided Q k s := by
  induction k generalizing f f' s with
  | zero => exact id
  | succ k ih =>
    rintro ⟨cs, hcs, hdec⟩
    obtain ⟨hlt, hany⟩ := hQ.wellFormed.head_lt hw
    obtain ⟨next?, hvisit, hmem⟩ := visit_of_children hcs htok
    obtain ⟨hsucc, hstuck⟩ := visit_eq_ok_iff.1 hvisit
    obtain ⟨n, hn, hpath, hp'⟩ := hp.step hQ hsucc rfl hlt hany
    obtain ⟨n', hn', -, hq'⟩ := hq.step hQ hsucc (by rw [← hin]) hlt hany
    cases hn.symm.trans hn'
    rcases hp' with ⟨hp₁, hp'⟩ | ⟨hpl, hpb, hp'⟩
    · rcases hq' with ⟨-, hq'⟩ | ⟨hql, hqb, -⟩
      · -- both end here
        rw [← hend] at hq'
        have := State.isStuck_of_ended hp' hq' hne
        rw [hstuck n hn] at this
        cases this
      · have h₁ := Forest.span_behind hql hqb
        have h₂ := Forest.span_pos f'.behind
        omega
    · rcases hq' with ⟨hq₁, -⟩ | ⟨hql, hqb, hq'⟩
      · have h₁ := Forest.span_behind hpl hpb
        have h₂ := Forest.span_pos f.behind
        omega
      · have h₁ := Forest.span_behind hpl hpb
        have h₂ := Forest.span_behind hql hqb
        have htail : f.behind.leaves ++ v = (f.leaves ++ v).tail := by
          rw [Forest.leaves_behind, List.tail_append_of_ne_nil hpl]
        have htail' : f'.behind.leaves ++ v' = (f'.leaves ++ v').tail := by
          rw [Forest.leaves_behind, List.tail_append_of_ne_nil hql]
        have hund : n.isUndecided = true := by
          obtain ⟨t, ht, htp, -⟩ := hp'
          obtain ⟨u, hu, huq, -⟩ := hq'
          refine State.isUndecided_of_mem (t := t) (u := u) ?_ ?_ (by rw [htp, huq]; exact hne)
          · exact List.mem_append_right _ ht
          · exact List.mem_append_right _ hu
        have hw' : ∀ x ∈ f.behind.leaves ++ v, x < Q.grammar.tokenCount ∧ x ≠ anyToken := fun x hx =>
          hw x (List.mem_of_mem_tail (htail ▸ hx))
        obtain ⟨hlt', hany'⟩ := hQ.wellFormed.head_lt hw'
        refine ih hp' hq' ?_ ?_ ?_ hw' (mem_tokensAt (by rw [hpath]; exact List.cons_ne_nil _ _) hlt' hany')
          (hdec n (hmem n hn) hund)
        · rw [htail, htail', hin]
        · omega
        · rw [Forest.endsWithToken_behind hpl, Forest.lastIsToken_of_ne hpb, Forest.endsWithToken_behind hql,
            Forest.lastIsToken_of_ne hqb] at hend
          exact hend

end Decision

end PredictiveParser
