import Mathlib.Data.List.Forall2
import PredictiveParser.Proofs.Decision.Automaton

/-!
# Problems with the same decisions

One problem simulates another if related states are alike in all that a decision takes from them, and if the states that a
token leads to are related again (`Problem.Simulates`). Then a decision of the one is the same decision of the other
(`Simulates.resolve`), and cells whose conflicts simulate each other add the same entries and automata to the tables
(`Decisions.foldlM_addCell_congr`).
-/

namespace PredictiveParser

namespace Decision

/-! ## Lists of outcomes -/

/-- Functions that take related arguments to related results do so element by element. -/
theorem forall₂_mapM {α α' β β' ε ε' : Type} {R : α → α' → Prop} {S : β → β' → Prop} (f : α → Except ε β)
    (f' : α' → Except ε' β') (hf : ∀ x x', R x x' → ∀ y, f x = .ok y → ∃ y', f' x' = .ok y' ∧ S y y') {as : List α}
    {as' : List α'} (has : List.Forall₂ R as as') {bs : List β} (h : List.Forall₂ (fun x y => f x = .ok y) as bs) :
    ∃ bs', List.Forall₂ (fun x y => f' x = .ok y) as' bs' ∧ List.Forall₂ S bs bs' := by
  induction has generalizing bs with
  | nil =>
    cases h
    exact ⟨[], .nil, .nil⟩
  | cons hx _ ih =>
    cases h with
    | cons hy h =>
      obtain ⟨y', hy', hS⟩ := hf _ _ hx _ hy
      obtain ⟨bs', hbs', hSs⟩ := ih h
      exact ⟨y' :: bs', .cons hy' hbs', .cons hS hSs⟩

/-! ## Simulations -/

/-- The states are alike in all that a decision takes from them. -/
structure State.Alike (s s' : State) : Prop where
  path : s'.path = s.path
  verdict : s'.verdict = s.verdict
  tests : s'.reversedChain = s.reversedChain
  asked : s'.redirected.map (·.symbol) = s.redirected.map (·.symbol)
  default : s.isUndecided = true → s'.default? = s.default?

theorem State.Alike.refl (s : State) : s.Alike s :=
  ⟨rfl, rfl, rfl, rfl, fun _ => rfl⟩

theorem State.Alike.isUndecided {s s' : State} (h : s.Alike s') : s'.isUndecided = s.isUndecided := by
  rw [State.isUndecided, State.isUndecided, h.verdict]

/-- Whatever the problem `Q` comes to, the problem `Q'` comes to as well, in related states. -/
structure Problem.Simulates (Q Q' : Problem) (R : State → State → Prop) : Prop where
  number : Q'.grammar.number = Q.grammar.number
  tokenCount : Q'.grammar.tokenCount = Q.grammar.tokenCount
  token : Q'.conflict.token = Q.conflict.token
  limit : Q.limit ≤ Q'.limit
  root : R Q.root Q'.root
  alike : ∀ s s', R s s' → s.Alike s'
  visit : ∀ s s', R s s' → ∀ a ∈ Q.tokensAt s, ∀ next?, Q.visit s a = .ok next? →
    ∃ next?', Q'.visit s' a = .ok next?' ∧ Option.Rel R next? next?'

namespace Problem.Simulates

variable {Q Q' : Problem} {R : State → State → Prop} {s s' : State}

theorem tokensAt (h : Q.Simulates Q' R) (hs : R s s') : Q'.tokensAt s' = Q.tokensAt s := by
  rw [Problem.tokensAt, Problem.tokensAt, (h.alike s s' hs).path, h.token, h.tokenCount]

/-- Related states have related children. -/
theorem children (h : Q.Simulates Q' R) (hs : R s s') {cs : List State} (hcs : Q.children s = .ok cs) :
    ∃ cs', Q'.children s' = .ok cs' ∧ List.Forall₂ R cs cs' := by
  obtain ⟨ns, hns, rfl⟩ := children_eq_ok_iff.1 hcs
  have hsame : List.Forall₂ (fun a a' => a = a' ∧ a ∈ Q.tokensAt s) (Q.tokensAt s) (Q.tokensAt s) :=
    List.forall₂_same.2 fun a ha => ⟨rfl, ha⟩
  obtain ⟨ns', hns', hR⟩ := forall₂_mapM (Q.visit s) (Q'.visit s')
    (fun a _ ha next? hv => ha.1 ▸ h.visit s s' hs a ha.2 next? hv) hsame hns
  exact ⟨_, children_eq_ok_iff.2 ⟨ns', h.tokensAt hs ▸ hns', rfl⟩, List.rel_filterMap (fun _ _ hn => hn) hR⟩

/-- **A survey of the one is a survey of the other, in related states.** -/
theorem survey (h : Q.Simulates Q' R) {k k' : Nat} (hk : k ≤ k') {level level' states : List State}
    (hl : List.Forall₂ R level level') (hs : Q.survey k level = .ok states) :
    ∃ states', Q'.survey k' level' = .ok states' ∧ List.Forall₂ R states states' := by
  induction k generalizing k' level level' states with
  | zero =>
    cases hl with
    | nil =>
      cases hs
      exact ⟨[], by cases k' <;> rfl, .nil⟩
    | cons => cases hs
  | succ k ih =>
    obtain ⟨k', rfl⟩ : ∃ j, k' = j + 1 := ⟨k' - 1, by omega⟩
    cases hl with
    | nil =>
      cases hs
      exact ⟨[], rfl, .nil⟩
    | cons hx hl =>
      obtain ⟨j, css, more, e, hall, hmore, rfl⟩ := survey_eq_ok_iff.1 hs
      cases e
      obtain ⟨css', hall', hcss⟩ := forall₂_mapM Q.children Q'.children
        (fun _ _ hs _ hcs => h.children hs hcs) (.cons hx hl) hall
      have hflat : List.Forall₂ R css.flatten css'.flatten := List.rel_flatten hcss
      have hfilter := List.rel_filter (p := (·.isUndecided)) (q := (·.isUndecided))
        (fun s s' hs => iff_of_eq (congrArg (· = true) (h.alike s s' hs).isUndecided.symm)) hflat
      obtain ⟨more', hmore', hR⟩ := ih (Nat.le_of_succ_le_succ hk) hfilter hmore
      exact ⟨_, survey_eq_ok_iff.2 ⟨k', css', more', rfl, hall', hmore', rfl⟩, List.rel_append hflat hR⟩

end Problem.Simulates

/-! ## Nodes of automata -/

theorem prependTests_congr {g g' : Grammar} (h : g'.number = g.number) (start : Nat) (tests : List Link)
    (target : Option Target) (nodes : List DfaNode) :
    prependTests g' start tests target nodes = prependTests g start tests target nodes := by
  induction tests generalizing target nodes with
  | nil => rfl
  | cons l ls ih => rw [prependTests, prependTests, h, ih]

/-- States that are alike have the same nodes, if the states below them do. -/
theorem emitState_congr {g g' : Grammar} {s s' : State}
    {below below' : (start : Nat) → (inherited : Option Node) → List (Nat × Nat) × List DfaNode}
    (hnumber : g'.number = g.number) (h : s.Alike s')
    (hbelow : s.isUndecided = true → ∀ start inherited, below' start inherited = below start inherited) (start : Nat)
    (inherited : Option Node) : emitState g' below' start s' inherited = emitState g below start s inherited := by
  unfold emitState
  rw [h.tests, h.verdict]
  cases hv : s.verdict with
  | leaf p => exact hnumber ▸ prependTests_congr hnumber _ _ _ _
  | nothing => exact prependTests_congr hnumber _ _ _ _
  | undecided =>
    have hund : s.isUndecided = true := beq_iff_eq.2 hv
    dsimp only
    rw [hnumber, h.default hund, hbelow hund]
    exact prependTests_congr hnumber _ _ _ _

/-- States with the same tokens and nodes have the same edges. -/
theorem emitEdges_congr {emit emit' : Nat → State → Option Target × List DfaNode} {cs cs' : List State}
    (h : List.Forall₂ (fun c c' => c'.token = c.token ∧ ∀ start, emit' start c' = emit start c) cs cs') (start : Nat) :
    emitEdges emit' start cs' = emitEdges emit start cs := by
  induction h generalizing start with
  | nil => rfl
  | cons hc _ ih => rw [emitEdges_cons, emitEdges_cons, hc.1, hc.2, ih]

namespace Problem.Simulates

variable {Q Q' : Problem} {R : State → State → Prop} {s s' : State}

/-- **Related states have the same nodes**, as far as the decision is made. -/
theorem emit (h : Q.Simulates Q' R) {k k' : Nat} (hk : k ≤ k') (hs : R s s')
    (hdec : s.isUndecided = true → Decided Q k s) (start : Nat) (inherited : Option Node) :
    Q'.emit k' start s' inherited = Q.emit k start s inherited := by
  have halike := h.alike s s' hs
  induction k generalizing k' s s' start inherited with
  | zero =>
    have hund : ¬ s.isUndecided = true := fun hund => hdec hund
    cases k' <;>
    · rw [Problem.emit, Problem.emit]
      exact emitState_congr h.number halike (fun hund' => absurd hund' hund) start inherited
  | succ k ih =>
    obtain ⟨k', rfl⟩ : ∃ j, k' = j + 1 := ⟨k' - 1, by omega⟩
    rw [Problem.emit, Problem.emit]
    refine emitState_congr h.number halike (fun hund start inherited => ?_) start inherited
    obtain ⟨cs, hcs, hbelow⟩ := hdec hund
    obtain ⟨cs', hcs', hR⟩ := h.children hs hcs
    rw [hcs, hcs']
    refine emitEdges_congr ?_ start
    refine ((List.forall₂_and_left _ _).2 ⟨hbelow, hR⟩).imp fun c c' h' => ?_
    obtain ⟨hc, hcR⟩ := h'
    have hca := h.alike c c' hcR
    exact ⟨by rw [State.token, State.token, hca.path],
      fun start => ih (Nat.le_of_succ_le_succ hk) hcR hc start inherited hca⟩

theorem asked (h : Q.Simulates Q' R) {states states' : List State} (hR : List.Forall₂ R states states') :
    Problem.asked states' = Problem.asked states := by
  induction hR with
  | nil => rfl
  | cons hs _ ih =>
    rw [Problem.asked, Problem.asked, List.flatMap_cons, List.flatMap_cons, (h.alike _ _ hs).asked]
    exact congrArg _ ih

/-- **A decision of the one is the same decision of the other.** -/
theorem resolve (h : Q.Simulates Q' R) {start : Nat} {r : Resolution × List Nat} (hr : Q.resolve start = .ok r) :
    Q'.resolve start = .ok r := by
  obtain ⟨resolution, names⟩ := r
  have hdec := decided_of_resolve hr
  obtain ⟨states, hreach, hd, rfl⟩ := resolve_eq_ok_iff.1 hr
  obtain ⟨states', hreach', hR⟩ := h.survey h.limit (.cons h.root .nil) hreach
  refine resolve_eq_ok_iff.2 ⟨states', hreach', ?_, h.asked hR⟩
  cases hR with
  | nil => cases hd
  | cons hs _ =>
    rw [Problem.decide] at hd ⊢
    rwa [(h.alike _ _ hs).verdict, (h.alike _ _ hs).tests, h.emit h.limit h.root (fun _ => hdec) start none]

end Problem.Simulates

end Decision

/-! ## Cells with the same outcome -/

namespace Decisions

variable {g g' : Grammar} {limits limits' : Limits} {table table' : PredictionTable}

/-- The cells have the same outcome: the same production, or conflicts with the same decisions. -/
inductive SameOutcome (g g' : Grammar) (limits limits' : Limits) (table table' : PredictionTable) : Cell → Cell → Prop
  | empty : SameOutcome g g' limits limits' table table' .empty .empty
  | production (p : Node) : SameOutcome g g' limits limits' table table' (.production p) (.production p)
  | conflict {c c' : Conflict} :
      (∀ start r, Decision.Problem.resolve { grammar := g, table, limits, conflict := c } start = .ok r →
        Decision.Problem.resolve { grammar := g', table := table', limits := limits', conflict := c' } start = .ok r) →
      SameOutcome g g' limits limits' table table' (.conflict c) (.conflict c')

theorem addCell_congr (hnumber : g'.number = g.number) (hcount : g'.nodeCount = g.nodeCount) {c c' : Cell}
    (h : SameOutcome g g' limits limits' table table' c c') {D D' : Decisions}
    (hD : addCell g limits table D c = .ok D') : addCell g' limits' table' D c' = .ok D' := by
  cases h with
  | empty => exact hD
  | production p =>
    rw [addCell, hnumber]
    exact hD
  | @conflict c c' h =>
    rw [addCell, bind_eq_ok_iff] at hD ⊢
    obtain ⟨r, hr, hD⟩ := hD
    refine ⟨r, h _ r hr, ?_⟩
    rw [hnumber, hcount]
    exact hD

/-- **Cells with the same outcomes add the same entries and automata.** -/
theorem foldlM_addCell_congr (hnumber : g'.number = g.number) (hcount : g'.nodeCount = g.nodeCount) {cs cs' : List Cell}
    (h : List.Forall₂ (SameOutcome g g' limits limits' table table') cs cs') {D D' : Decisions}
    (hD : cs.foldlM (addCell g limits table) D = .ok D') : cs'.foldlM (addCell g' limits' table') D = .ok D' := by
  induction h generalizing D with
  | nil => exact hD
  | @cons c c' cs cs' hc _ ih =>
    rw [List.foldlM_cons, bind_eq_ok_iff] at hD ⊢
    obtain ⟨D₁, hadd, hD⟩ := hD
    exact ⟨D₁, addCell_congr hnumber hcount hc hadd, ih hD⟩

end Decisions

end PredictiveParser
