import Mathlib.Data.List.Basic
import PredictiveParser.Proofs.Machine.History
import PredictiveParser.Proofs.SyntaxTree

/-!
# How the stacks fit together

The frames of the prediction stack go with the entered symbols, the open episodes and the open nodes of the tree
(`Aligned`), below a decision that may be on top (`Topped`). Every step keeps that, also one that goes back through several
episodes at once (`GoesBack`), and so it holds between all steps of all calls (`Visits.balanced`).
-/

namespace PredictiveParser.Machine

variable {σ τ : Type}

/-- The symbol whose entry a frame marks. -/
def Frame.symbol? : Frame → Option Nat
  | entered a _ => some a
  | _ => none

/-- The frame marks a symbol that was entered outside of episodes. -/
def Frame.isCommitted : Frame → Bool
  | entered _ false => true
  | _ => false

/-! ## Frames, symbols, episodes and open nodes -/

/-- The frames go with the entered symbols, with the open episodes and with `k` open nodes of the tree. -/
inductive Aligned : (stack : List Frame) → (symbols : List Nat) → (episodes : List Episode) → (k : Nat) → Prop
  | finish : Aligned [.finish] [] [] 0
  | node {n k : Nat} {stack : List Frame} {symbols : List Nat} {es : List Episode} : Aligned stack symbols es k →
      Aligned (.node n :: stack) symbols es k
  | committed {a k : Nat} {stack : List Frame} {symbols : List Nat} : Aligned stack symbols [] k →
      Aligned (.entered a false :: stack) (a :: symbols) [] (k + 1)
  | speculative {a k : Nat} {stack : List Frame} {symbols : List Nat} {es : List Episode} : es ≠ [] →
      Aligned stack symbols es k → Aligned (.entered a true :: stack) (a :: symbols) es k
  | resolving {e : Episode} {k : Nat} {stack : List Frame} {symbols : List Nat} {es : List Episode} :
      e.depth = stack.length → Aligned stack symbols es k → Aligned (.resolving :: stack) symbols (e :: es) k

/-- The same, where a decision may be on top. -/
inductive Topped : (stack : List Frame) → (symbols : List Nat) → (episodes : List Episode) → (k : Nat) → Prop
  | settled {k : Nat} {stack : List Frame} {symbols : List Nat} {es : List Episode} : Aligned stack symbols es k →
      Topped stack symbols es k
  | deciding {d entry k : Nat} {stack : List Frame} {symbols : List Nat} {es : List Episode} :
      Aligned stack symbols es k → Topped (.lookahead d entry :: stack) symbols es k

/-- The stacks of the state fit together. -/
def State.Balanced (s : State τ) : Prop :=
  ∃ k, Topped s.stack s.symbols s.episodes k ∧ ∀ T ∈ s.tree, T.depth = k

/-- Nothing is left open. -/
structure State.Closed (s : State τ) : Prop where
  stack : s.stack = []
  symbols : s.symbols = []
  episodes : s.episodes = []
  tree : ∀ T ∈ s.tree, T.depth = 0

namespace Aligned

variable {stack : List Frame} {symbols : List Nat} {es : List Episode} {k : Nat}

theorem nodes (h : Aligned stack symbols es k) (ns : List Nat) : Aligned (ns.map .node ++ stack) symbols es k := by
  induction ns with
  | nil => exact h
  | cons n ns ih => exact .node ih

theorem length_le (h : Aligned stack symbols es k) : ∀ e ∈ es, e.depth < stack.length := by
  induction h with
  | finish => exact nofun
  | node _ ih => exact fun e he => Nat.lt_succ_of_lt (ih e he)
  | committed => exact nofun
  | speculative _ _ ih => exact fun e he => Nat.lt_succ_of_lt (ih e he)
  | resolving hd _ ih =>
    intro e he
    rcases List.mem_cons.1 he with rfl | he
    · rw [hd]
      exact Nat.lt_succ_self _
    · exact Nat.lt_succ_of_lt (ih e he)

theorem symbols_eq (h : Aligned stack symbols es k) : symbols = stack.filterMap Frame.symbol? := by
  induction h with
  | finish => rfl
  | node _ ih => exact ih
  | committed _ ih => exact congrArg _ ih
  | speculative _ _ ih => exact congrArg _ ih
  | resolving _ _ ih => exact ih

theorem committed_eq (h : Aligned stack symbols es k) : k = stack.countP Frame.isCommitted := by
  induction h with
  | finish => rfl
  | node _ ih => rw [List.countP_cons_of_neg Bool.false_ne_true, ← ih]
  | committed _ ih => rw [List.countP_cons_of_pos rfl, ← ih]
  | speculative _ _ ih => rw [List.countP_cons_of_neg Bool.false_ne_true, ← ih]
  | resolving _ _ ih => rw [List.countP_cons_of_neg Bool.false_ne_true, ← ih]

theorem finish_bottom (h : Aligned stack symbols es k) : ∃ frames, stack = frames ++ [.finish] ∧ .finish ∉ frames := by
  have hcons : ∀ {f : Frame} {stack : List Frame}, f ≠ .finish →
      (∃ frames, stack = frames ++ [.finish] ∧ .finish ∉ frames) →
      ∃ frames, f :: stack = frames ++ [.finish] ∧ .finish ∉ frames := by
    rintro f _ hf ⟨frames, rfl, hframes⟩
    refine ⟨f :: frames, rfl, fun hmem => ?_⟩
    rcases List.mem_cons.1 hmem with rfl | hmem
    · exact hf rfl
    · exact hframes hmem
  induction h with
  | finish => exact ⟨[], rfl, nofun⟩
  | node _ ih => exact hcons nofun ih
  | committed _ ih => exact hcons nofun ih
  | speculative _ _ ih => exact hcons nofun ih
  | resolving _ _ ih => exact hcons nofun ih

theorem not_lookahead (h : Aligned stack symbols es k) (d entry : Nat) : .lookahead d entry ∉ stack := by
  induction h with
  | finish => simp
  | _ => simpa using ‹_›

theorem resolving_mem_iff (h : Aligned stack symbols es k) : .resolving ∈ stack ↔ es ≠ [] := by
  induction h with
  | finish => simp
  | node _ ih => simpa using ih
  | committed _ ih => simpa using ih
  | speculative _ _ ih => simpa using ih
  | resolving => simp

theorem idxsOf_resolving (h : Aligned stack symbols es k) :
    stack.reverse.idxsOf .resolving = (es.map (·.depth)).reverse := by
  induction h with
  | finish => decide
  | node _ ih => simp [List.idxsOf_append, List.idxsOf_cons, ih]
  | committed _ ih => simp [List.idxsOf_append, List.idxsOf_cons, ih]
  | speculative _ _ ih => simp [List.idxsOf_append, List.idxsOf_cons, ih]
  | resolving hd _ ih => simp [List.idxsOf_append, List.idxsOf_cons, ih, hd]

/-- What is below a frame is aligned again. -/
theorem of_append {above below : List Frame} (h : Aligned (above ++ below) symbols es k) (hb : below ≠ []) :
    ∃ symbols' es' k', Aligned below symbols' es' k' := by
  induction above generalizing symbols es k with
  | nil => exact ⟨symbols, es, k, h⟩
  | cons f above ih =>
    rw [List.cons_append] at h
    generalize hr : above ++ below = r at h
    cases h with
    | finish => exact absurd (List.append_eq_nil_iff.1 hr).2 hb
    | node h => exact ih (hr ▸ h)
    | committed h => exact ih (hr ▸ h)
    | speculative _ h => exact ih (hr ▸ h)
    | resolving _ h => exact ih (hr ▸ h)

/-- A mark is speculative if it stands above a waiting frame. -/
theorem speculative_iff {above below : List Frame} {a : Nat} {speculative : Bool}
    (h : Aligned (above ++ .entered a speculative :: below) symbols es k) :
    speculative = true ↔ .resolving ∈ below := by
  obtain ⟨symbols', es', k', h⟩ := h.of_append (List.cons_ne_nil _ _)
  cases h with
  | committed h => exact ⟨nofun, fun hmem => absurd rfl (h.resolving_mem_iff.1 hmem)⟩
  | speculative hes h => exact ⟨fun _ => h.resolving_mem_iff.2 hes, fun _ => rfl⟩

/-- The waiting frame of the innermost episode, and what is below it. -/
theorem exists_resolving {e : Episode} (h : Aligned stack symbols (e :: es) k) :
    ∃ above below symbols', stack = above ++ .resolving :: below ∧ e.depth = below.length ∧
      symbols' = symbols.drop (above.countP Frame.isEntered) ∧ Aligned below symbols' es k := by
  generalize hes : e :: es = episodes at h
  induction h with
  | finish => cases hes
  | node _ ih =>
    obtain ⟨above, below, symbols', rfl, hd, hsymbols, h⟩ := ih hes
    exact ⟨_ :: above, below, symbols', rfl, hd, hsymbols, h⟩
  | committed => cases hes
  | speculative _ _ ih =>
    obtain ⟨above, below, symbols', rfl, hd, hsymbols, h⟩ := ih hes
    exact ⟨_ :: above, below, symbols', rfl, hd, by rw [List.countP_cons_of_pos rfl, List.drop_succ_cons, hsymbols], h⟩
  | resolving hd h =>
    cases hes
    exact ⟨[], _, _, rfl, hd, rfl, h⟩

end Aligned

namespace Topped

variable {stack : List Frame} {symbols : List Nat} {es : List Episode} {k : Nat}

theorem of_node {n : Nat} (h : Topped (.node n :: stack) symbols es k) : Aligned stack symbols es k := by
  cases h with
  | settled h => cases h with | node h => exact h

theorem of_lookahead {d entry : Nat} (h : Topped (.lookahead d entry :: stack) symbols es k) :
    Aligned stack symbols es k := by
  cases h with
  | settled h => cases h
  | deciding h => exact h

theorem of_resolving {e : Episode} (h : Topped (.resolving :: stack) symbols (e :: es) k) :
    e.depth = stack.length ∧ Aligned stack symbols es k := by
  cases h with
  | settled h => cases h with | resolving hd h => exact ⟨hd, h⟩

end Topped

/-! ## Going back -/

/-- Where the cursor goes when an episode is left for its else branch. -/
def Episode.position (e : Episode) : Target → Nat
  | .dfa _ => e.resume
  | .node _ => e.entry

/-- What stands in the place of the waiting frame when an episode is left for its else branch. -/
def Episode.resumed (e : Episode) : Target → Frame
  | .dfa d => .lookahead d e.entry
  | .node p => .node p

/-- Undoing an episode removes everything above its waiting frame. -/
theorem undo_eq {s : State τ} {above below : List Frame} {e : Episode} (outer : List Episode)
    (hs : s.stack = above ++ .resolving :: below) (hd : e.depth = below.length) :
    s.undo e outer = { s with
      episodes := outer
      stats := (s.undo e outer).stats
      symbols := s.symbols.drop (above.countP Frame.isEntered)
      stack := .resolving :: below
      matched := false } := by
  have hlen : s.stack.length - (e.depth + 1) = above.length := by
    rw [hs, hd, List.length_append, List.length_cons]
    omega
  have htake : s.stack.take (s.stack.length - (e.depth + 1)) = above := by rw [hlen, hs, List.take_left]
  have hdrop : s.stack.drop (s.stack.length - (e.depth + 1)) = .resolving :: below := by rw [hlen, hs, List.drop_left]
  unfold State.undo
  dsimp only
  rw [htake, hdrop]

/-- Undoing the innermost episode leaves the stack aligned below its waiting frame. -/
theorem Aligned.exists_undo {b : State τ} {front stack : List Frame} {e : Episode} {es : List Episode} {k : Nat}
    (ha : Aligned stack b.symbols (e :: es) k) (hb : b.stack = front ++ stack) (hfront : front.countP Frame.isEntered = 0) :
    ∃ below symbols, .resolving :: below <:+ stack ∧ e.depth = below.length ∧ Aligned below symbols es k ∧
      b.undo e es = { b with
        episodes := es
        stats := (b.undo e es).stats
        symbols := symbols
        stack := .resolving :: below
        matched := false } := by
  obtain ⟨above, below, symbols, rfl, hd, hsymbols, hbelow⟩ := ha.exists_resolving
  have hundo := undo_eq es (show b.stack = (front ++ above) ++ .resolving :: below by rw [hb, List.append_assoc]) hd
  rw [List.countP_append, hfront, Nat.zero_add, ← hsymbols] at hundo
  exact ⟨below, symbols, List.suffix_append _ _, hd, hbelow, hundo⟩

/-- From the state `b`, whose aligned frames are `stack`, the machine goes back to the state `s'`: the episodes `inner` have
no else branch, and the episode `e` is left for `target`; then the frames `below` its waiting frame and the episodes `outer`
are left, with `k` open nodes. -/
structure GoesBack (b : State τ) (stack : List Frame) (k : Nat) (s' : State τ) (inner : List Episode) (e : Episode)
    (outer : List Episode) (target : Target) (below : List Frame) : Prop where
  inner : ∀ i ∈ inner, i.otherwise = none
  otherwise : e.otherwise = some target
  depth : e.depth = below.length
  frames : .resolving :: below <:+ stack
  state : s' = { b with
    episodes := outer
    stats := s'.stats
    symbols := s'.symbols
    stack := e.resumed target :: below
    cursor := e.position target
    matched := false }
  aligned : Aligned below s'.symbols outer k

theorem exists_goesBack {P : Program} [Terminal τ] {b s' : State τ} {es : List Episode} {front stack : List Frame} {k : Nat}
    {symbol? : Option Nat} (hb : b.stack = front ++ stack) (hfront : front.countP Frame.isEntered = 0)
    (ha : Aligned stack b.symbols es k) (hu : unwind P es symbol? b = (none, s')) :
    ∃ inner e outer target below, es = inner ++ e :: outer ∧ GoesBack b stack k s' inner e outer target below := by
  induction es generalizing b front stack symbol? with
  | nil => cases hu
  | cons e es ih =>
    obtain ⟨below, symbols, hframes, hd, hbelow, hundo⟩ := ha.exists_undo hb hfront
    rw [unwind, hundo] at hu
    cases ho : e.otherwise with
    | some target =>
      refine ⟨[], e, es, target, below, rfl, ?_⟩
      cases target <;> rw [ho] at hu <;> cases hu <;> exact ⟨List.forall_mem_nil _, ho, hd, hframes, rfl, hbelow⟩
    | none =>
      rw [ho] at hu
      -- the frames below are gone back through in the same way
      have hnil : ([] : List Frame).countP Frame.isEntered = 0 := rfl
      obtain ⟨inner, e', outer, target, below', rfl, hback⟩ := ih rfl hnil hbelow hu
      refine ⟨e :: inner, e', outer, target, below', rfl, ?_, hback.otherwise, hback.depth, ?_, hback.state, hback.aligned⟩
      · exact List.forall_mem_cons.2 ⟨ho, hback.inner⟩
      · exact (hback.frames.trans (List.suffix_cons _ _)).trans hframes

/-- Where going back finds no else branch it ends at the beginning of the outermost episode. -/
theorem exhausted_eq {P : Program} [Terminal τ] {b s' : State τ} {es : List Episode} {front stack : List Frame} {k : Nat}
    {symbol? : Option Nat} {error : ParseError} (hb : b.stack = front ++ stack)
    (ha : Aligned stack b.symbols es k) (hfront : front.countP Frame.isEntered = 0)
    (hu : unwind P es symbol? b = (some error, s')) (hes : es ≠ []) :
    ∃ e ∈ es, s'.stack <:+ stack ∧ s' = { b with
      episodes := []
      stats := s'.stats
      symbols := s'.symbols
      stack := s'.stack
      cursor := e.entry
      matched := false } := by
  induction es generalizing b front stack symbol? with
  | nil => exact absurd rfl hes
  | cons e es ih =>
    obtain ⟨below, symbols, hframes, -, hbelow, hundo⟩ := ha.exists_undo hb hfront
    have hsuffix : below <:+ stack := (List.suffix_cons _ _).trans hframes
    rw [unwind, hundo] at hu
    cases ho : e.otherwise with
    | some target => cases target <;> rw [ho] at hu <;> cases hu
    | none =>
      rw [ho] at hu
      cases es with
      | nil =>
        cases hu
        exact ⟨e, List.mem_cons_self, hsuffix, rfl⟩
      | cons e' es =>
        -- the frame that stays in front of those below has not been entered
        have hnil : ([] : List Frame).countP Frame.isEntered = 0 := rfl
        obtain ⟨i, hi, hbelow', heq⟩ := ih rfl hbelow hnil hu (List.cons_ne_nil _ _)
        exact ⟨i, List.mem_cons_of_mem _ hi, hbelow'.trans hsuffix, heq⟩

section Steps

variable [Terminal τ] {P : Program} {H : Host σ τ} {s : State τ} {h : σ} {k : Nat}

/-- Where an error is noticed the stack is aligned below a decision that may be on top. -/
theorem Misses.exists_aligned {b : State τ} {h' : σ} {error : ParseError} (hm : Misses P H s h b h' error)
    (ht : Topped s.stack s.symbols s.episodes k) :
    ∃ front stack, b.stack = front ++ stack ∧ front.countP Frame.isEntered = 0 ∧ stack <:+ s.stack ∧
      Aligned stack s.symbols s.episodes k := by
  cases hm with
  | @transition d entry rest t hs =>
    rw [hs] at ht
    exact ⟨[.lookahead d entry], rest, by rw [stack_advance, hs]; rfl, rfl, hs ▸ List.suffix_cons _ _, ht.of_lookahead⟩
  | token hs =>
    rw [hs] at ht
    exact ⟨[], s.stack, stack_advance s, rfl, List.suffix_rfl, hs ▸ .node ht.of_node⟩
  | symbol hs =>
    rw [hs] at ht
    exact ⟨[], s.stack, stack_advance s, rfl, List.suffix_rfl, hs ▸ .node ht.of_node⟩
  | @action _ _ rest _ hs =>
    rw [hs] at ht
    exact ⟨[], rest, rfl, rfl, hs ▸ List.suffix_cons _ _, ht.of_node⟩

/-- Going back from an error. -/
theorem Misses.exists_goesBack {b s' : State τ} {h' : σ} {error : ParseError} (hm : Misses P H s h b h' error)
    (ht : Topped s.stack s.symbols s.episodes k) (hu : unwind P s.episodes none b = (none, s')) :
    ∃ inner e outer target below, s.episodes = inner ++ e :: outer ∧
      GoesBack s s.stack k s' inner e outer target below := by
  obtain ⟨front, stack, hb, hfront, hsuffix, ha⟩ := hm.exists_aligned ht
  have hsymbols : b.symbols = s.symbols := congrArg (·.symbols) hm.state_eq
  rw [← hsymbols] at ha
  obtain ⟨inner, e, outer, target, below, hes, hback⟩ := Machine.exists_goesBack hb hfront ha hu
  refine ⟨inner, e, outer, target, below, hes, hback.inner, hback.otherwise, hback.depth, hback.frames.trans hsuffix, ?_,
    hback.aligned⟩
  have hstate := hback.state
  rw [hm.state_eq] at hstate
  exact hstate

/-- Where an error ends the parse although episodes are open. -/
theorem Misses.exhausted_eq {b s' : State τ} {h' : σ} {error error' : ParseError} (hm : Misses P H s h b h' error)
    (ht : Topped s.stack s.symbols s.episodes k) (hes : s.episodes ≠ [])
    (hu : unwind P s.episodes none b = (some error', s')) :
    ∃ e ∈ s.episodes, (∀ d entry, .lookahead d entry ∉ s'.stack) ∧ s' = { s with
      episodes := []
      stats := s'.stats
      symbols := s'.symbols
      stack := s'.stack
      cursor := e.entry
      matched := false } := by
  obtain ⟨front, stack, hb, hfront, -, ha⟩ := hm.exists_aligned ht
  have hsymbols : b.symbols = s.symbols := congrArg (·.symbols) hm.state_eq
  have ha' := ha
  rw [← hsymbols] at ha'
  obtain ⟨e, he, hsuffix, hstate⟩ := Machine.exhausted_eq hb ha' hfront hu hes
  rw [hm.state_eq] at hstate
  exact ⟨e, he, fun d entry hmem => ha.not_lookahead d entry (hsuffix.subset hmem), hstate⟩

/-! ## Steps keep the stacks aligned -/

/-- **A step that goes on keeps the stacks aligned.** -/
theorem Effect.balanced {s' : State τ} {h' : σ} (he : Effect P H s h .proceed s' h') (hb : s.Balanced) : s'.Balanced := by
  obtain ⟨k, ht, htree⟩ := hb
  have htop : ∀ {f rest}, s.stack = f :: rest → Topped (f :: rest) s.symbols s.episodes k := fun hs => hs ▸ ht
  cases he with
  | @passed a rest hs =>
    have ht := htop hs
    generalize hsymbols : s.symbols = symbols at ht
    cases ht with
    | settled ha =>
      cases ha with
      | speculative _ ha => exact ⟨k, .settled (by rw [State.leaveSymbol, hsymbols]; exact ha), htree⟩
  | @left a rest hs =>
    have ht := htop hs
    generalize hsymbols : s.symbols = symbols at ht
    generalize hepisodes : s.episodes = es at ht
    cases ht with
    | settled ha =>
      cases ha with
      | @committed _ k _ _ ha =>
        refine ⟨k, .settled (by rw [State.leaveSymbol, hsymbols, hepisodes]; exact ha), fun T hT => ?_⟩
        obtain ⟨T₀, hT₀, rfl⟩ := Option.map_eq_some_iff.1 hT
        rw [SyntaxTree.depth_close, htree T₀ hT₀, Nat.add_sub_cancel]
  | committed hs hes =>
    have ht := htop hs
    rw [hes] at ht
    exact ⟨k, .settled (.node ht.of_resolving.2), htree⟩
  | resolved hs => exact ⟨k, .settled (.node (htop hs).of_lookahead), htree⟩
  | attempted hs => exact ⟨k, .settled (.node (.resolving rfl (htop hs).of_lookahead)), htree⟩
  | followed hs =>
    rw [advance_eq]
    exact ⟨k, .deciding (htop hs).of_lookahead, htree⟩
  | defaulted hs =>
    rw [advance_eq]
    exact ⟨k, .settled (.node (htop hs).of_lookahead), htree⟩
  | @matched _ _ _ t hs =>
    rw [consume_eq, advance_eq]
    refine ⟨k, .settled (htop hs).of_node, fun T hT => ?_⟩
    dsimp only at hT
    split at hT
    · exact htree T hT
    · obtain ⟨T₀, hT₀, rfl⟩ := Option.map_eq_some_iff.1 hT
      rw [SyntaxTree.depth_leaf, htree T₀ hT₀]
  | @entered _ a p rest t hs =>
    have ha := (htop hs).of_node
    unfold State.enterSymbol
    rw [isSpeculating_withStack, isSpeculating_advance, advance_eq]
    cases hspec : s.isSpeculating with
    | true => exact ⟨k, .settled (.node (.speculative (isSpeculating_iff.1 hspec) ha)), htree⟩
    | false =>
      have hes : s.episodes = [] := by simpa [State.isSpeculating] using hspec
      rw [hes] at ha
      refine ⟨k + 1, .settled (.node (hes ▸ .committed ha)), fun T hT => ?_⟩
      obtain ⟨T₀, hT₀, rfl⟩ := Option.map_eq_some_iff.1 hT
      rw [SyntaxTree.depth_enter, htree T₀ hT₀]
  | unfolded hs => exact ⟨k, .settled ((htop hs).of_node.nodes _), htree⟩
  | acted hs => exact ⟨k, .settled (htop hs).of_node, htree⟩
  | armed hs => exact ⟨k, .settled (htop hs).of_node, htree⟩
  | skipped hs => exact ⟨k, .settled (htop hs).of_node, htree⟩
  | began hs =>
    unfold State.beginDecision
    rw [advance_eq]
    exact ⟨k, .deciding (htop hs).of_node, htree⟩
  | rolledBack hm _ hu =>
    obtain ⟨inner, e, outer, target, below, -, hback⟩ := hm.exists_goesBack ht hu
    have htree' : ∀ T ∈ s'.tree, T.depth = k := by rw [hback.state]; exact htree
    refine ⟨k, ?_, htree'⟩
    have ha := hback.aligned
    rw [hback.state]
    cases target with
    | dfa d => exact .deciding ha
    | node p => exact .settled (.node ha)

/-- The input is accepted when an end of the input is the current token, and then nothing is left open. -/
theorem Effect.closed {s' : State τ} {h' : σ} (he : Effect P H s h .accept s' h') (hb : s.Balanced) :
    s'.Closed ∧ s'.cursor = s.position ∧ ∃ t, s.next? = some t ∧ Terminal.id t = endToken := by
  obtain ⟨k, ht, htree⟩ := hb
  cases he with
  | empty hs =>
    rw [hs] at ht
    cases ht with
    | settled ha => cases ha
  | @accepted rest t hs hnext hend =>
    rw [hs] at ht
    generalize hsymbols : s.symbols = symbols at ht
    generalize hepisodes : s.episodes = es at ht
    cases ht with
    | settled ha =>
      cases ha
      refine ⟨⟨rfl, ?_, ?_, ?_⟩, cursor_advance s, t, hnext, hend⟩
      · rw [← hsymbols, ← symbols_advance s]; rfl
      · rw [← hepisodes, ← episodes_advance s]; rfl
      · rw [advance_eq]; exact htree

omit [Terminal τ] in
theorem State.Balanced.advance (hb : s.Balanced) : s.advance.Balanced := by
  rw [advance_eq]
  exact hb

omit [Terminal τ] in
/-- The entered symbols are those that the frames mark. -/
theorem State.Balanced.symbols_eq (hb : s.Balanced) : s.symbols = s.stack.filterMap Frame.symbol? := by
  obtain ⟨k, ht, -⟩ := hb
  generalize s.stack = stack at ht
  cases ht with
  | settled ha => exact ha.symbols_eq
  | deciding ha => exact ha.symbols_eq

omit [Terminal τ] in
/-- A decision is on top of the stack only. -/
theorem State.Balanced.not_lookahead {f : Frame} {rest : List Frame} (hb : s.Balanced) (hs : s.stack = f :: rest)
    (d entry : Nat) : .lookahead d entry ∉ rest := by
  obtain ⟨k, ht, -⟩ := hb
  rw [hs] at ht
  cases ht with
  | settled ha => exact fun hmem => ha.not_lookahead d entry (List.mem_cons_of_mem _ hmem)
  | deciding ha => exact ha.not_lookahead d entry

omit [Terminal τ] in
/-- A symbol that was entered outside of episodes is not matched inside of one. -/
theorem State.Balanced.episodes_eq_nil {a : Nat} {rest : List Frame} (hb : s.Balanced)
    (hs : s.stack = .entered a false :: rest) : s.episodes = [] := by
  obtain ⟨k, ht, -⟩ := hb
  rw [hs] at ht
  generalize s.symbols = symbols at ht
  generalize s.episodes = es at ht
  cases ht with
  | settled ha => cases ha with | committed => rfl

omit [Terminal τ] in
/-- A decision never waits without an episode. -/
theorem State.Balanced.episodes_ne_nil {rest : List Frame} (hb : s.Balanced) (hs : s.stack = .resolving :: rest) :
    s.episodes ≠ [] := by
  obtain ⟨k, ht, -⟩ := hb
  rw [hs] at ht
  cases ht with
  | settled ha => exact ha.resolving_mem_iff.1 List.mem_cons_self

/-! ## Calls keep the stacks aligned -/

/-- The stacks between calls. -/
def State.Rests (s : State τ) : Prop :=
  match s.status with
  | .idle | .done => s.Closed
  | .running => s.Balanced
  | .failed => True

theorem invariant_balanced (P : Program) (H : Host σ τ) :
    Invariant P H (fun _ s => s.Rests) fun _ s => s.Balanced where
  new := ⟨rfl, rfl, rfl, nofun⟩
  start symbol buildTree := by
    refine ⟨0, .settled (.node .finish), fun T hT => ?_⟩
    cases buildTree <;> cases hT
    rfl
  receive t hs hb := by
    unfold State.Rests at hb
    rw [hs] at hb
    exact hb
  step _ hp hb := (effect_of_verdict hp).balanced hb
  settle := by
    intro past s h a hv ha hb
    have hstatus : (step P H s h).state.status = .running := (step_frame s h).2.trans hv.status
    have he := effect_step P H s h
    generalize (step P H s h).verdict = v at ha he
    cases v with
    | proceed => cases ha
    | await =>
      cases ha
      have hb' : (step P H s h).state.Balanced := by
        rw [he.waited.1]
        exact hb.advance
      unfold State.Rests State.settle Status.after
      dsimp only
      rw [hstatus]
      exact hb'
    | accept =>
      cases ha
      obtain ⟨hstack, hsymbols, hepisodes, htree⟩ := (he.closed hb).1
      exact ⟨hstack, hsymbols, hepisodes, htree⟩
    | reject error =>
      cases ha
      exact trivial
  takeTree := by
    intro past s hs
    unfold State.Rests at hs ⊢
    dsimp only
    cases hstatus : s.status with
    | idle | done =>
      rw [hstatus] at hs
      exact ⟨hs.stack, hs.symbols, hs.episodes, nofun⟩
    | running =>
      rw [hstatus] at hs
      obtain ⟨k, ht, -⟩ := hs
      exact ⟨k, ht, nofun⟩
    | failed => exact trivial

theorem Visits.balanced {past : List τ} (hv : Visits P H s h past) : s.Balanced :=
  (invariant_balanced P H).within_of_visits hv

theorem Parser.Reachable.rests {p : Parser σ τ} {past : List τ} (hp : p.Reachable P H past) : p.state.Rests :=
  (invariant_balanced P H).between_of_reachable hp

end Steps

end PredictiveParser.Machine
