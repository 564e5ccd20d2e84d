import PredictiveParser.Proofs.Machine.Batch
import PredictiveParser.Proofs.Machine.Episode
import PredictiveParser.Proofs.Machine.Traversal
import PredictiveParser.Proofs.Machine.View

/-!
# Callbacks are a traversal of the derivation

The callbacks outside of resolvers are recorded with what the host can ask for in them (`Host.noting`). A session that ends
with success is read backwards: what a step leaves unfolds to the rest of the record, and then what was left before unfolds
to the rest with what the step adds (`Continues`). Every step that goes on does that (`View.continues`). A decision only has
to fall on some alternative of its symbol, so it does not matter how it is made; resolvers add nothing to the record and
leave no trace of what they match (`Effect.continues_above`). So from the beginning to the end the record is the traversal
of a forest of the start symbol over the accepted tokens (`exists_forest_of_feeds`, `traverse_of_feeds`).
-/

namespace PredictiveParser.Machine

variable {σ τ : Type} [Terminal τ] {g : Grammar}

/-! ## The record of the callbacks outside of resolvers -/

section Record

omit [Terminal τ]

/-- What the state remembers of the tokens that were matched outside of resolvers. -/
def State.memory (s : State τ) : Memory τ where
  last := s.last
  locator? := s.locator?
  armed := s.armed

/-- The host, keeping a record of the callbacks outside of resolvers and of what it can ask for in them. -/
def Host.noting (H : Host σ τ) : Host (σ × List (Call τ)) τ :=
  H.keeping fun event s _ => if s.isSpeculating then [] else [s.memory.call event]

variable {H : Host σ τ} {s : State τ} {event : Event} {h : σ × List (Call τ)}

theorem Host.call_noting (hs : s.isSpeculating = false) :
    (H.noting.call event s h).host.2 = h.2 ++ [s.memory.call event] := by
  unfold Host.noting Host.keeping
  dsimp only
  rw [hs, if_neg Bool.false_ne_true]

theorem Host.call_noting_of_speculating (hs : s.isSpeculating = true) : (H.noting.call event s h).host.2 = h.2 := by
  unfold Host.noting Host.keeping
  dsimp only
  rw [hs, if_pos rfl, List.append_nil]

@[simp] theorem memory_advance (s : State τ) : s.advance.memory = s.memory := by
  rw [advance_eq]
  rfl

/-- Taking the entries of a slot out hides no other slot. -/
theorem lookup_filter_of_ne {slot other : Nat} (hne : slot ≠ other) (l : List (Nat × τ)) :
    (l.filter (·.1 != slot)).lookup other = l.lookup other := by
  induction l with
  | nil => rfl
  | cons x l ih =>
    by_cases hx : x.1 = slot
    · have hother : (other == x.1) = false := beq_false_of_ne (hx ▸ hne.symm)
      rw [List.filter_cons_of_neg (by simp [hx]), List.lookup_cons, hother, ih]
    · rw [List.filter_cons_of_pos (by simp [hx]), List.lookup_cons, List.lookup_cons, ih]

/-- Binding a slot leaves the others alone. -/
theorem lookup_bind (slot k : Nat) (x : τ) (locators : List (Nat × τ)) :
    ((slot, x) :: locators.filter (·.1 != slot)).lookup k = if k = slot then some x else locators.lookup k := by
  rw [List.lookup_cons]
  by_cases hk : k = slot
  · rw [if_pos hk, beq_iff_eq.2 hk]
  · rw [if_neg hk, beq_false_of_ne hk]
    exact lookup_filter_of_ne (Ne.symm hk) locators

/-- Outside of resolvers a matched token is remembered. -/
theorem memory_consume (hs : s.episodes = []) (t : τ) (rest : List Frame) :
    (s.consume t rest).memory = s.memory.after t := by
  rw [consume_of_episodes hs]
  unfold State.memory Memory.after State.locator?
  dsimp only
  cases harmed : s.armed with
  | none => simp
  | some slot =>
    congr 1
    funext other
    exact (lookup_bind slot other t s.locators).trans (if_congr (by rw [Option.some_inj, eq_comm]) rfl rfl)

/-- Outside of resolvers all callbacks are recorded. -/
theorem callAll_noting (hs : s.episodes = []) {events : List Event}
    (hf : (H.noting.callAll s events h).failure = none) :
    (H.noting.callAll s events h).host.2 = h.2 ++ events.map s.memory.call := by
  induction events generalizing h with
  | nil => simp [Host.callAll]
  | cons event events ih =>
    rw [Host.callAll] at hf ⊢
    have hhost : (H.noting.call event s h).host.2 = h.2 ++ [s.memory.call event] :=
      Host.call_noting (isSpeculating_eq_false hs)
    rcases hr : H.noting.call event s h with ⟨h', failure, notes⟩
    rw [hr] at hf hhost
    cases failure with
    | some message => cases hf
    | none =>
      dsimp only at hf hhost ⊢
      rw [ih hf, hhost, List.append_assoc]
      rfl

end Record

section Steps

variable {limits : Limits} {T : Tables} {P : Program} {H : Host σ τ} {xs : List τ} {s : State τ} {k : Nat}
  {rest : List Frame} {is : List Item}

theorem callbacks_of_build (hb : g.build limits = .ok T) (a : Nat) :
    T.program.callbacks a = ⟨(g.symbol a).enter, (g.symbol a).leave⟩ := by
  obtain ⟨D, -, rfl⟩ := Grammar.build_eq_ok hb
  cases ha : g.symbols[a]? <;> simp [Tables.program, Grammar.tables, Grammar.symbol, ha]

/-- Inside of resolvers a step remembers nothing and adds nothing to the record. -/
theorem Effect.record_noting {v : Verdict} {s' : State τ} {h h' : σ × List (Call τ)}
    (he : Effect P H.noting s h v s' h') (hb : s.Balanced) (hes : s.episodes ≠ []) : h'.2 = h.2 := by
  have hspec : s.isSpeculating = true := isSpeculating_iff.2 hes
  have haction : ∀ a rest, (actionReply H.noting s a rest h).host.2 = h.2 := fun a rest =>
    Host.call_noting_of_speculating (by rw [isSpeculating_withStack, hspec])
  have hmiss : ∀ {b : State τ} {h' : σ × List (Call τ)} {error : ParseError}, Misses P H.noting s h b h' error →
      h'.2 = h.2 := by
    intro b h' error hm
    cases hm with
    | action => exact haction _ _
    | _ => rfl
  cases he with
  | left hs => exact absurd (hb.episodes_eq_nil hs) hes
  | leaveRefused hs => exact absurd (hb.episodes_eq_nil hs) hes
  | entered | enterRefused => rw [enterReply_of_speculating _ hspec]
  | acted => exact haction _ _
  | rolledBack hm | exhausted hm | missed hm => exact hmiss hm
  | _ => rfl

/-- The state `s'` has something left, and whatever that unfolds to with its memory belongs, behind the calls `new`, to what
the state `s` had left: the stacks `A` from `k` on. -/
def Continues (g : Grammar) (P : Program) (xs : List τ) (k : Nat) (A : List Frame → Prop) (s s' : State τ)
    (new : List (Call τ)) : Prop :=
  ∃ k' A', View g P s' k' A' ∧ ∀ m R stack' cs, A' stack' → Unfolds g P xs m R k' stack' s'.tree s'.memory cs →
    ∃ stack, A stack ∧ Unfolds g P xs m R k stack s.tree s.memory (new ++ cs)

namespace Continues

variable {s' : State τ} {new : List (Call τ)}

/-- What was left is still left. -/
theorem same {A A' : List Frame → Prop} (hv : View g P s' k A') (hA : ∀ stack, A' stack → A stack) (htree : s'.tree = s.tree)
    (hmemory : s'.memory = s.memory) : Continues g P xs k A s s' [] := by
  refine ⟨k, A', hv, fun m R stack cs hstack hu => ⟨stack, hA stack hstack, ?_⟩⟩
  rwa [htree, hmemory] at hu

/-- An alternative of a symbol is taken. -/
theorem taken {symbol n : Nat} (hg : g.WellFormed) (hn : Alternative g symbol n) (hrest : Expects g rest is)
    (hepisodes : s'.episodes = []) (hpos : s'.position = k) (hs' : s'.stack = .node n :: .entered symbol false :: rest)
    (htree : s'.tree = s.tree) (hmemory : s'.memory = s.memory) : Continues g P xs k (Choice g symbol rest) s s' [] := by
  obtain ⟨p, hp, rfl⟩ := hn
  exact .same (.matching hepisodes hpos hs' (.node (hg.hasNode_alt hp) (.entered hrest)))
    (fun stack hstack => ⟨p, hp, hstack⟩) htree hmemory

/-- A node without tokens is taken off the stack. -/
theorem silent {n : Node} (hn : g.HasNode n) (hf : g.Grows (g.items n) .nil) (hrest : Expects g rest is)
    (hepisodes : s'.episodes = []) (hpos : s'.position = k) (hs' : s'.stack = rest) (htree : s'.tree = s.tree)
    (ht : traverse g (pendingArguments P rest) s.memory (g.items n) .nil = (new, s'.memory)) :
    Continues g P xs k (· = .node (g.number n) :: rest) s s' new := by
  refine ⟨k, _, .matching hepisodes hpos hs' hrest, fun m R stack cs hstack hu => ⟨_, rfl, ?_⟩⟩
  rw [hstack, htree] at hu
  exact .silent hn hf ht hu

/-- A token is matched. -/
theorem matched {t : Nat} {x : τ} (ht : t < g.tokenCount) (hepisodes : s.episodes = []) (hpos : s.position = k)
    (hrest : Expects g rest is) (hx : xs[k]? = some x) (hacc : accepts t (Terminal.id x) = true) :
    Continues g P xs k (· = .node (g.number (Item.token t)) :: rest) s (s.advance.consume x rest) [] := by
  have hadvance : s.advance.episodes = [] := (episodes_advance s).trans hepisodes
  have heq := consume_of_episodes hadvance x rest
  have hp : (s.advance.consume x rest).position = k + 1 := by rw [position_consume, cursor_advance, hpos]
  refine ⟨k + 1, _, .matching (by rw [heq]; exact hadvance) hp (by rw [heq]) hrest, fun m R stack cs hstack hu => ⟨_, rfl, ?_⟩⟩
  have htree : (s.advance.consume x rest).tree = s.tree.map (·.leaf x) := by rw [heq, tree_advance]
  rw [hstack, htree, memory_consume hadvance, memory_advance] at hu
  exact hu.token ht hx hacc

/-- A symbol is entered with what the tables predict for it. -/
theorem entered {a t n : Nat} (hg : g.WellFormed) (hb : g.build limits = .ok T) (ha : a < g.symbolCount)
    (hepisodes : s.episodes = []) (hpos : s.position = k) (hrest : Expects g rest is)
    (hl : T.program.lookup a t = some n) :
    Continues g T.program xs k (· = .node (g.number (Item.symbol a)) :: rest) s
      ((s.advance.withStack rest).enterSymbol a n) ((entries g a (pendingArguments T.program rest)).map s.memory.call) := by
  have hadvance : (s.advance.withStack rest).episodes = [] := (episodes_advance s).trans hepisodes
  obtain ⟨he, hp, hs', htree⟩ := enterSymbol_of_episodes hadvance a n
  replace hp := hp.trans ((position_advance s).trans hpos)
  have htree' : (s.advance.withStack rest).tree = s.tree := tree_advance s
  rw [htree'] at htree
  have hmemory : ((s.advance.withStack rest).enterSymbol a n).memory = s.memory := memory_advance s
  -- whatever is predicted, in the end it is an alternative of the symbol
  have hchoice : ∀ m R stack cs, Choice g a rest stack → Unfolds g T.program xs m R k stack
      ((s.advance.withStack rest).enterSymbol a n).tree ((s.advance.withStack rest).enterSymbol a n).memory cs →
      ∃ stack, stack = .node (g.number (Item.symbol a)) :: rest ∧ Unfolds g T.program xs m R k stack s.tree s.memory
        ((entries g a (pendingArguments T.program rest)).map s.memory.call ++ cs) := by
    rintro m R _ cs ⟨p, hp, rfl⟩ hu
    rw [htree, hmemory] at hu
    exact ⟨_, rfl, hu.symbol hg ha hp⟩
  rcases Tables.alternative_of_lookup hb hl with ⟨p, hpalt, rfl⟩ | ⟨d, hd, hdecides⟩
  · exact ⟨k, _, .matching he hp hs' (.node (hg.hasNode_alt hpalt) (.entered hrest)),
      fun m R stack cs hstack => hchoice m R stack cs ⟨p, hpalt, hstack⟩⟩
  · exact ⟨k, _, .due he hp hs' hd hdecides hrest, hchoice⟩

/-- A sequence is unfolded. -/
theorem unfolded {q : Nat} (hg : g.WellFormed) (hb : g.build limits = .ok T) (hq : q < g.sequences.size)
    (hepisodes : s.episodes = []) (hpos : s.position = k) (hrest : Expects g rest is) :
    Continues g T.program xs k (· = .node (g.number (.sequence q)) :: rest) s
      (s.withStack (((g.sequence q).map g.itemNumber).map .node ++ rest)) [] := by
  have hstack : ((g.sequence q).map g.itemNumber).map Frame.node ++ rest = itemFrames g (g.sequence q) ++ rest := by
    rw [itemFrames, List.map_map]
    rfl
  have hexpects := hrest.items fun i => hg.hasItem_sequence (q := q)
  refine ⟨k, _, .matching hepisodes hpos hstack hexpects, fun m R stack cs hstack hu => ⟨_, rfl, ?_⟩⟩
  subst hstack
  exact hu.sequence hg hq fun i hi => Tables.instruction_of_build hb (n := .item i) hi

end Continues

variable {s' : State τ} {h h' : σ × List (Call τ)}

/-- Outside of resolvers the tables alone say what is taken for a symbol. -/
theorem production_of_episodes (hs : s.episodes = []) (a : Nat) (t : τ) :
    s.production? P a t = P.lookup a (Terminal.id t) := by
  unfold State.production?
  rw [isSpeculating_eq_false hs, if_neg Bool.false_ne_true]
  cases P.lookup a (Terminal.id t) <;> rfl

/-- **A step on a node of the grammar** goes on with the traversal of its items. -/
theorem Effect.continues_node {n : Node} (he : Effect T.program H.noting s h .proceed s' h') (hg : g.WellFormed)
    (hb : g.build limits = .ok T) (hn : g.HasNode n) (hepisodes : s.episodes = []) (hpos : s.position = k)
    (hs : s.stack = .node (g.number n) :: rest) (hrest : Expects g rest is)
    (hxs : ∀ p x, s.window.get? p = some x → xs[p]? = some x) :
    ∃ new, h'.2 = h.2 ++ new ∧ Continues g T.program xs k (· = .node (g.number n) :: rest) s s' new := by
  have hinstruction := Tables.instruction_of_build hb hn
  have hspec : s.isSpeculating = false := isSpeculating_eq_false hepisodes
  cases he with
  | @matched _ t _ x hs' hn' hx hacc =>
    cases hs.symm.trans hs'
    rcases n with _ | (_ | _ | _ | _ | _) | _ <;> cases hinstruction.symm.trans hn'
    exact ⟨[], (List.append_nil _).symm, .matched hn hepisodes hpos hrest (hxs k x (hpos ▸ hx)) hacc⟩
  | @entered _ a m _ x hs' hn' hx hm hf =>
    cases hs.symm.trans hs'
    rcases n with _ | (_ | _ | _ | _ | _) | _ <;> cases hinstruction.symm.trans hn'
    rw [production_of_episodes hepisodes] at hm
    have hevents : entryEvents T.program a rest = entries g a (pendingArguments T.program rest) := by
      rw [entryEvents, entries, callbacks_of_build hb]
    unfold enterReply at hf ⊢
    rw [hspec, if_neg Bool.false_ne_true, hevents] at hf ⊢
    have hmemory : (s.advance.withStack rest).memory = s.memory := memory_advance s
    have hadvance : (s.advance.withStack rest).episodes = [] := (episodes_advance s).trans hepisodes
    have hrecord := callAll_noting hadvance hf
    rw [hmemory] at hrecord
    exact ⟨_, hrecord, .entered hg hb hn hepisodes hpos hrest hm⟩
  | unfolded hs' hn' =>
    cases hs.symm.trans hs'
    rcases n with _ | (_ | _ | _ | _ | _) | q <;> cases hinstruction.symm.trans hn'
    exact ⟨[], (List.append_nil _).symm, .unfolded hg hb hn hepisodes hpos hrest⟩
  | acted hs' hn' =>
    cases hs.symm.trans hs'
    rcases n with _ | (_ | _ | _ | _ | _) | _ <;> cases hinstruction.symm.trans hn'
    refine ⟨_, ?_, .silent hn (.silent rfl .nil) hrest hepisodes hpos rfl rfl
      (by show traverse g _ _ [.action _] _ = _; rw [traverse, traverse]; rfl)⟩
    exact Host.call_noting (by rw [isSpeculating_withStack, hspec])
  | armed hs' hn' =>
    cases hs.symm.trans hs'
    rcases n with _ | (_ | _ | _ | _ | _) | _ <;> cases hinstruction.symm.trans hn'
    rw [hspec, if_neg Bool.false_ne_true]
    exact ⟨[], (List.append_nil _).symm, .silent hn (.silent rfl .nil) hrest hepisodes hpos rfl rfl
      (by show traverse g _ _ [.beacon _] _ = _; rw [traverse, traverse]; rfl)⟩
  | skipped hs' hn' =>
    cases hs.symm.trans hs'
    refine ⟨[], (List.append_nil _).symm, ?_⟩
    rcases hn' with hn' | ⟨a, hn'⟩
    · rcases n with _ | (_ | _ | _ | _ | _) | _ <;> cases hinstruction.symm.trans hn'
      exact .silent hn .nil hrest hepisodes hpos rfl rfl (by show traverse g _ _ [] _ = _; rw [traverse]; rfl)
    · rcases n with _ | (_ | _ | _ | _ | _) | _ <;> cases hinstruction.symm.trans hn'
      exact .silent hn (.silent rfl .nil) hrest hepisodes hpos rfl rfl
        (by show traverse g _ _ [.argument _] _ = _; rw [traverse, traverse]; rfl)
  | began hs' hn' =>
    cases hs.symm.trans hs'
    rcases n with _ | (_ | _ | _ | _ | _) | _ <;> cases hinstruction.symm.trans hn'
  | rolledBack _ hes => exact absurd hepisodes hes
  | _ hs' => cases hs.symm.trans hs'

/-- A step on the mark of an entered symbol goes on behind the symbol. -/
theorem Effect.continues_entered {symbol : Nat} (he : Effect T.program H.noting s h .proceed s' h')
    (hb : g.build limits = .ok T) (hepisodes : s.episodes = []) (hpos : s.position = k)
    (hs : s.stack = .entered symbol false :: rest) (hrest : Expects g rest is) :
    ∃ new, h'.2 = h.2 ++ new ∧ Continues g T.program xs k (· = .entered symbol false :: rest) s s' new := by
  cases he with
  | left hs' hf =>
    cases hs.symm.trans hs'
    unfold leaveReply at hf ⊢
    have hrecord := callAll_noting (s := s.leaveSymbol rest) hepisodes hf
    rw [callbacks_of_build hb] at hrecord ⊢
    refine ⟨_, hrecord, k, _, .matching hepisodes hpos rfl hrest, fun m R stack cs hstack hu => ⟨_, rfl, ?_⟩⟩
    subst hstack
    exact .entered hu
  | rolledBack _ hes => exact absurd hepisodes hes
  | _ hs' => cases hs.symm.trans hs'

/-- A step on a decision goes on with the decision, or with the alternative that it falls on. -/
theorem Effect.continues_lookahead {d symbol : Nat} (he : Effect P H.noting s h .proceed s' h') (hg : g.WellFormed)
    (hepisodes : s.episodes = []) (hs : s.stack = .lookahead d k :: .entered symbol false :: rest)
    (hd : ∀ m, P.Decides d m → Alternative g symbol m) (hrest : Expects g rest is) :
    h'.2 = h.2 ∧ Continues g P xs k (Choice g symbol rest) s s' [] := by
  have hadvance : s.advance.episodes = [] := (episodes_advance s).trans hepisodes
  cases he with
  | resolved hs' hdfa =>
    cases hs.symm.trans hs'
    exact ⟨rfl, .taken hg (hd _ (.leaf hdfa)) hrest hepisodes rfl rfl rfl rfl⟩
  | @attempted _ _ n p otherwise _ hs' hdfa =>
    cases hs.symm.trans hs'
    refine ⟨rfl, .same (.resolving (e := ⟨rest.length + 1, k, s.cursor, p, otherwise⟩) (.frame rfl ?_) rfl
      (hd p (.accept hdfa)) ?_ ?_ hrest) (fun _ hstack => hstack) rfl rfl⟩
    · show Above _ _ _ (_ :: s.episodes)
      rw [hepisodes]
      exact .outermost rfl
    · rintro q rfl
      exact hd q (.node hdfa)
    · rintro d' rfl m hm
      exact hd m (.otherwise hdfa hm)
  | followed hs' hdfa hx ht =>
    cases hs.symm.trans hs'
    exact ⟨rfl, .same (.deciding hadvance rfl (fun m hm => hd m (.transition hdfa ht hm)) hrest) (fun _ hstack => hstack)
      (tree_advance s) (memory_advance s)⟩
  | defaulted hs' hdfa =>
    cases hs.symm.trans hs'
    exact ⟨rfl, .taken hg (hd _ (.default hdfa)) hrest hadvance rfl rfl (tree_advance s) (memory_advance s)⟩
  | rolledBack _ hes => exact absurd hepisodes hes
  | _ hs' => cases hs.symm.trans hs'

/-- Whatever comes of resolvers, they leave no trace, and an alternative of the symbol is taken in the end. -/
theorem Effect.continues_above {e : Episode} {symbol : Nat} (he : Effect P H.noting s h .proceed s' h') (hg : g.WellFormed)
    (hbal : s.Balanced) (habove : Above (.entered symbol false :: rest) e s.stack s.episodes) (hentry : e.entry = k)
    (haccept : Alternative g symbol e.accept) (hrefuse : ∀ p, e.otherwise = some (.node p) → Alternative g symbol p)
    (honward : ∀ d, e.otherwise = some (.dfa d) → ∀ m, P.Decides d m → Alternative g symbol m) (hrest : Expects g rest is) :
    h'.2 = h.2 ∧ Continues g P xs k (Choice g symbol rest) s s' [] := by
  have hes : s.episodes ≠ [] := isSpeculating_iff.1 habove.isSpeculating
  obtain ⟨hspec, htree⟩ := he.speculates habove
  have hagrees := he.agrees hbal hes
  have hmemory : s'.memory = s.memory := by
    unfold State.memory State.locator?
    rw [hagrees.last, hagrees.locators, hagrees.armed]
  refine ⟨he.record_noting hbal hes, ?_⟩
  rcases hspec with habove | ⟨hepisodes, hreturned⟩
  · exact .same (.resolving habove hentry haccept hrefuse honward hrest) (fun _ hstack => hstack) htree hmemory
  · cases hreturned with
    | accepted hs hpos => exact .taken hg haccept hrest hepisodes (hpos.trans hentry) hs htree hmemory
    | refused ho hs hpos => exact .taken hg (hrefuse _ ho) hrest hepisodes (hpos.trans hentry) hs htree hmemory
    | onward ho hs =>
      exact .same (.deciding hepisodes (hentry ▸ hs) (honward _ ho) hrest) (fun _ hstack => hstack) htree hmemory

/-- **Every step that goes on goes on with the traversal.** -/
theorem View.continues {A : List Frame → Prop} (hg : g.WellFormed) (hb : g.build limits = .ok T)
    (hv : View g T.program s k A) (hxs : ∀ p x, s.window.get? p = some x → xs[p]? = some x) (hbal : s.Balanced)
    (he : Effect T.program H.noting s h .proceed s' h') :
    ∃ new, h'.2 = h.2 ++ new ∧ Continues g T.program xs k A s s' new := by
  have unchanged : h'.2 = h.2 ∧ Continues g T.program xs k A s s' [] →
      ∃ new, h'.2 = h.2 ++ new ∧ Continues g T.program xs k A s s' new :=
    fun ⟨hrecord, hc⟩ => ⟨[], hrecord.trans (List.append_nil _).symm, hc⟩
  cases hv with
  | matching hepisodes hpos hs hexpects =>
    cases hexpects with
    | base =>
      cases he with
      | rolledBack _ hes => exact absurd hepisodes hes
      | _ hs' => cases hs.symm.trans hs'
    | node hn hrest => exact he.continues_node hg hb hn hepisodes hpos hs hrest hxs
    | entered hrest => exact he.continues_entered hb hepisodes hpos hs hrest
  | due hepisodes hpos hs hdue hdecides hrest =>
    refine unchanged ?_
    cases he with
    | began hs' hd =>
      cases hs.symm.trans hs'
      cases hdue.symm.trans hd
      refine ⟨rfl, .same (.deciding ((episodes_advance s).trans hepisodes) ?_ hdecides hrest) (fun _ hstack => hstack)
        (tree_advance s) (memory_advance s)⟩
      show Frame.lookahead _ s.advance.cursor :: _ = _
      rw [cursor_advance, hpos]
    | matched hs' hn | entered hs' hn | unfolded hs' hn | acted hs' hn | armed hs' hn =>
      cases hs.symm.trans hs'
      cases hdue.symm.trans hn
    | skipped hs' hn =>
      cases hs.symm.trans hs'
      rcases hn with hn | ⟨a, hn⟩ <;> cases hdue.symm.trans hn
    | rolledBack _ hes => exact absurd hepisodes hes
    | _ hs' => cases hs.symm.trans hs'
  | deciding hepisodes hs hdecides hrest => exact unchanged (he.continues_lookahead hg hepisodes hs hdecides hrest)
  | resolving habove hentry haccept hrefuse honward hrest =>
    exact unchanged (he.continues_above hg hbal habove hentry haccept hrefuse honward hrest)

/-- **Moves to the accepted end of the input have unfolded what was left at their beginning.** -/
theorem View.unfolds {A : List Frame → Prop} {s' : State τ} {h h' : σ × List (Call τ)} {past us : List τ}
    {trace : List (State τ)} {cs : List (Event × Bool)} (hg : g.WellFormed) (hb : g.build limits = .ok T)
    (hm : Moves T.program H.noting s h us trace cs s' h') (hacc : (Machine.step T.program H.noting s' h').verdict = .accept)
    (hv : View g T.program s k A) (hbal : s.Balanced) (hw : s.window.Shows past) :
    ∃ m stack ds, A stack ∧ (Machine.step T.program H.noting s' h').host.2 = h.2 ++ ds ∧
      Unfolds g T.program (past ++ us) m (Machine.step T.program H.noting s' h').state.tree k stack s.tree s.memory ds := by
  induction hm generalizing k A past with
  | @refl s h =>
    have hxs : ∀ p x, s.window.get? p = some x → past[p]? = some x := fun p x hx => hw.getElem? hx
    obtain ⟨ha, hend, htree⟩ := hv.accept hxs hacc
    have hhost : (Machine.step T.program H.noting s h).host = h := by
      have he := effect_of_verdict hacc
      generalize (Machine.step T.program H.noting s h).state = s', (Machine.step T.program H.noting s h).host = h' at he
      cases he <;> rfl
    refine ⟨k, _, [], ha, by rw [List.append_nil, hhost], ?_⟩
    rw [List.append_nil, htree]
    exact .finish hend
  | @step s s' h h' us trace cs hproceed _ ih =>
    have hxs : ∀ p x, s.window.get? p = some x → (past ++ us)[p]? = some x := fun p x hx => by
      have hp := hw.getElem? hx
      rw [List.getElem?_append_left (List.getElem?_eq_some_iff.1 hp).1, hp]
    have heffect := effect_of_verdict hproceed
    obtain ⟨new, hrecord, k', A', hv', hback⟩ := hv.continues hg hb hxs hbal heffect
    obtain ⟨m, stack', ds, ha', hds, hu⟩ := ih hacc hv' (heffect.balanced hbal)
      (by rw [(step_frame s h).1]; exact hw)
    obtain ⟨stack, ha, hu⟩ := hback m _ stack' ds ha' hu
    exact ⟨m, stack, new ++ ds, ha, by rw [hds, hrecord, List.append_assoc], hu⟩
  | @feed s s' h h' t us trace cs hawait _ ih =>
    have hstate := (stops_step s h).1 hawait
    have hhost := (effect_of_verdict hawait).waited.2.1
    have hw' : (((Machine.step T.program H.noting s h).state.settle (.ok .more)).receive t).window.Shows (past ++ [t]) := by
      refine TokenWindow.Shows.push (TokenWindow.Shows.release ?_ _) t
      rw [(step_frame s h).1]
      exact hw
    obtain ⟨m, stack, ds, ha, hds, hu⟩ := ih hacc (by rw [hstate]; exact hv.await t) (by rw [hstate]; exact hbal.advance) hw'
    have htree : (((Machine.step T.program H.noting s h).state.settle (.ok .more)).receive t).tree = s.tree := by
      rw [hstate]
      exact tree_advance s
    have hmemory : (((Machine.step T.program H.noting s h).state.settle (.ok .more)).receive t).memory = s.memory := by
      rw [hstate]
      exact memory_advance s
    rw [htree, hmemory, List.append_assoc] at hu
    rw [hhost] at hds
    exact ⟨m, stack, ds, ha, hds, hu⟩

end Steps

/-! ## Parses -/

/-- Tokens the last of which is answered with success lead to an accepted end of the input. -/
theorem moves_of_feeds {P : Program} {H : Host σ τ} {p q : Parser σ τ} {t : τ} {ts : List τ}
    {as : List (Except ParseError Feed)} (hs : p.state.status = .running)
    (h : p.Feeds P H (t :: ts) (as ++ [.ok .done]) q) :
    ∃ trace cs s g, Moves P H (p.state.receive t) p.host ts trace cs s g ∧ (step P H s g).verdict = .accept ∧
      q = ⟨(step P H s g).state.settle (.ok .done), (step P H s g).host⟩ := by
  induction ts generalizing p t as with
  | nil =>
    have hlength := h.length
    simp only [List.length_append, List.length_cons, List.length_nil, Nat.add_eq_right, List.length_eq_zero_iff] at hlength
    subst hlength
    cases h with
    | cons hf hrest =>
      cases hrest
      obtain ⟨s, g, hsteps, hanswer, rfl⟩ := Parser.exists_steps_of_feed hs hf
      obtain ⟨trace, cs, hm⟩ := hsteps.moves
      refine ⟨trace, cs, s, g, hm, ?_, rfl⟩
      cases hv : (step P H s g).verdict with
      | accept => rfl
      | _ =>
        rw [hv] at hanswer
        cases hanswer
  | cons t' ts ih =>
    cases as with
    | nil =>
      have hlength := h.length
      simp at hlength
    | cons a as =>
      cases h with
      | @cons _ r _ _ _ _ _ _ hf hrest =>
        obtain ⟨s, g, hsteps, hanswer, rfl⟩ := Parser.exists_steps_of_feed hs hf
        -- any other answer ends the parse
        obtain rfl : a = .ok .more := by
          refine Decidable.byContradiction fun hne => ?_
          have hended := status_settle (s := (step P H s g).state) hne
          cases hrest.finished hended (.ok .done) (List.mem_append_right _ (List.mem_singleton_self _))
        have hv : (step P H s g).verdict = .await := Verdict.answer?_eq_more hanswer
        have hstatus : (step P H s g).state.status = .running :=
          (step_frame s g).2.trans ((steps_status hsteps).trans hs)
        obtain ⟨trace, cs, s', g', hm, hrest⟩ := ih (by exact hstatus) hrest
        obtain ⟨trace', cs', hm'⟩ := hsteps.moves
        exact ⟨_, _, s', g', hm'.trans (.feed hv hm), hrest⟩

/-- Tokens before an end of the input, as they were fed up to the last one. -/
theorem take_of_end {xs ts : List τ} {e : τ} (hpre : xs <+: ts ++ [e])
    (hend : (ts ++ [e])[xs.length]?.map Terminal.id = some endToken) :
    xs.length ≤ ts.length ∧ xs = ts.take xs.length ∧ ((∀ t ∈ ts, Terminal.id t ≠ endToken) → xs.length = ts.length) := by
  obtain ⟨x, hx, hid⟩ := Option.map_eq_some_iff.1 hend
  have hle : xs.length ≤ ts.length := by
    have := (List.getElem?_eq_some_iff.1 hx).1
    rw [List.length_append, List.length_singleton] at this
    omega
  refine ⟨hle, ?_, fun hts => Decidable.byContradiction fun hne => ?_⟩
  · have := List.prefix_iff_eq_take.1 hpre
    rwa [List.take_append_of_le_length hle] at this
  · rw [List.getElem?_append_left (by omega)] at hx
    exact hts x (List.mem_of_getElem? hx) hid

/-- What a parse that ends with success has unfolded: a forest of the symbol over the tokens before an end of the input. It
was grafted onto the tree, and its traversal is the record of the callbacks. -/
theorem exists_forest_of_feeds {limits : Limits} {T : Tables} (hg : g.WellFormed) (hb : g.build limits = .ok T) {s : Nat}
    (hs : s < g.symbolCount) (H : Host σ τ) (buildTree : Bool) {p q : Parser σ τ} {ts : List τ} {e : τ}
    {as : List (Except ParseError Feed)}
    (h : (p.start T.program s buildTree).Feeds T.program H (ts ++ [e]) (as ++ [.ok .done]) q) :
    ∃ m ≤ ts.length, (ts ++ [e])[m]?.map Terminal.id = some endToken ∧
      ((∀ t ∈ ts, Terminal.id t ≠ endToken) → m = ts.length) ∧
      ∃ f : Forest τ, g.Grows [.symbol s] (f.map Terminal.id) ∧ f.leaves = ts.take m ∧
        q.state.tree = (p.start T.program s buildTree).state.tree.map (·.graft f) ∧
        (Parser.start T.program s buildTree ⟨p.state, (p.host, [])⟩).Feeds T.program H.noting (ts ++ [e])
          (as ++ [.ok .done]) ⟨q.state, (q.host, (traverse g [] {} [.symbol s] f).1)⟩ := by
  have hnoting : H.noting.Projects H Prod.fst := H.projects_keeping _
  obtain ⟨⟨state, host, record⟩, hr, hq⟩ := Parser.Feeds.lift
    (p := Parser.start T.program s buildTree ⟨p.state, (p.host, [])⟩) hnoting h
  subst hq
  have hfeeds := hr
  obtain ⟨t, us, hus⟩ := List.exists_cons_of_ne_nil (List.concat_ne_nil e ts)
  rw [hus] at hr
  obtain ⟨trace, cs, u, v, hm, hacc, hlast⟩ := moves_of_feeds rfl hr
  obtain ⟨rfl, hhost⟩ := Parser.mk.inj hlast
  let s₀ : State τ := (State.initial (T.program.symbolNode s) buildTree).receive t
  have hstack : s₀.stack = [.node (g.number (Item.symbol s)), .finish] := by
    show [Frame.node (T.program.symbolNode s), .finish] = _
    rw [Tables.symbolNode_of_build hb hs]
  have hview : View g T.program s₀ 0 (· = [.node (g.number (Item.symbol s)), .finish]) :=
    .matching rfl rfl hstack (.node (n := Item.symbol s) hs .base)
  have hinv := invariant_balanced T.program H
  have hbal : s₀.Balanced := @Kept.receive _ _ _ _ _ _ _ hinv.toKept [] _ t rfl (hinv.start s buildTree)
  change Moves T.program H.noting s₀ (p.host, []) us trace cs u v at hm
  obtain ⟨m, stack, ds, rfl, hds, hu⟩ := hview.unfolds hg hb hm hacc hbal (TokenWindow.shows_empty.push t)
  have hcons : ([] ++ [t]) ++ us = ts ++ [e] := hus.symm
  rw [hcons] at hu
  obtain ⟨f, es, hf, hpre, hcalls, hu⟩ := hu.exists_forest (n := Item.symbol s) hs
  obtain ⟨rfl, hend, htree, rfl⟩ := hu.of_finish
  rw [List.drop_zero] at hpre
  rw [Nat.zero_add] at hend
  obtain ⟨hle, hleaves, hlength⟩ := take_of_end hpre hend
  have hrecord : record = (traverse g [] {} [.symbol s] f).1 := by
    rw [← hhost] at hds
    exact hds.trans (hcalls.trans (List.append_nil _))
  exact ⟨f.leaves.length, hle, hend, hlength, f, hf, hleaves, htree, hrecord ▸ hfeeds⟩

/-- **Callbacks are a traversal of the derivation.** If the tokens `ts` and then `e` are fed to a parser for the symbol `s`
and the last one is answered with success, then the symbol derives the tokens before the first that is the end of the input
for the parser, and the callbacks outside of resolvers were those of a traversal of the derivation, in this order and with
these tokens to ask for. If a tree was asked for, it displays the derivation. -/
theorem traverse_of_feeds {limits : Limits} {T : Tables} (hg : g.WellFormed) (hb : g.build limits = .ok T) {s : Nat}
    (hs : s < g.symbolCount) (H : Host σ τ) (buildTree : Bool) {p q : Parser σ τ} {ts : List τ} {e : τ}
    {as : List (Except ParseError Feed)}
    (h : (p.start T.program s buildTree).Feeds T.program H (ts ++ [e]) (as ++ [.ok .done]) q) :
    ∃ m ≤ ts.length, (ts ++ [e])[m]?.map Terminal.id = some endToken ∧
      ((∀ t ∈ ts, Terminal.id t ≠ endToken) → m = ts.length) ∧
      ∃ f : Forest τ, g.Grows [.symbol s] (f.map Terminal.id) ∧ f.leaves = ts.take m ∧
        q.state.tree.isSome = buildTree ∧ (∀ A ∈ q.state.tree, A.Displays f) ∧
        (Parser.start T.program s buildTree ⟨p.state, (p.host, [])⟩).Feeds T.program H.noting (ts ++ [e])
          (as ++ [.ok .done]) ⟨q.state, (q.host, (traverse g [] {} [.symbol s] f).1)⟩ := by
  obtain ⟨m, hm, hend, hlength, f, hf, hleaves, htree, hnoted⟩ := exists_forest_of_feeds hg hb hs H buildTree h
  refine ⟨m, hm, hend, hlength, f, hf, hleaves, ?_, ?_, hnoted⟩
  · rw [htree]
    cases buildTree <;> rfl
  · rw [htree]
    intro A hA
    cases buildTree with
    | false => cases hA
    | true =>
      cases hA
      exact SyntaxTree.displays_graft f

/-- All kinds of callbacks: `S → A(n) @p b {f}` and `A → a {g}`, where `A` is entered and left. -/
def annotated : Grammar where
  tokens := .letters
  symbols := #[{ name := "S", alts := [.sequence 0] }, { name := "A", alts := [.sequence 1], enter := true, leave := true }]
  sequences := #[[.symbol 1, .argument 0, .beacon 0, .token 3, .action 0], [.token 2, .action 1]]
  actions := ⟨["f", "g"], by decide⟩
  arguments := ⟨["n"], by decide⟩
  beacons := ⟨["p"], by decide⟩
  start := 0

example : (traverse annotated [] {} [.symbol 0] (.node 0 (.sequence 0)
    (.node 1 (.sequence 1) (.leaf 2 .nil) (.leaf 3 .nil)) .nil)).1.map (fun c => (c.event, c.last, c.locator? 0)) =
    [(.argument 0, none, none), (.enter 1, none, none), (.action 1, some 2, none), (.leave 1, some 2, none),
      (.action 0, some 3, some 3)] := by
  cbv

theorem annotated_traversed : ∃ T q f, annotated.build = .ok T ∧
    annotated.Grows [.symbol 0] (f.map Terminal.id) ∧ f.leaves = [2, 3] ∧
    (Parser.start T.program 0 true ⟨{}, ((), [])⟩).Feeds T.program (Host.silent (τ := Nat)).noting [2, 3, 0]
      [.ok .more, .ok .more, .ok .done] ⟨q, ((), (traverse annotated [] {} [.symbol 0] f).1)⟩ := by
  have h : annotated.build.toOption.any fun T =>
      ((Parser.start T.program 0 true ⟨{}, ()⟩).feedAll T.program Host.silent 20 [2, 3, 0]).any fun r =>
        r.1 = [.ok .more, .ok .more, .ok .done] := by decide +kernel
  obtain ⟨T, hT, h⟩ := exists_of_any_toOption h
  obtain ⟨⟨as, q⟩, hq, h⟩ := Option.any_eq_true _ _ |>.1 h
  obtain rfl := of_decide_eq_true h
  have hfeeds : (Parser.start T.program 0 true ⟨{}, ()⟩).Feeds T.program Host.silent ([2, 3] ++ [0])
      ([.ok .more, .ok .more] ++ [.ok .done]) q := Parser.feeds_of_feedAll hq
  obtain ⟨m, -, -, hm, f, hf, hleaves, -, -, hnoted⟩ :=
    traverse_of_feeds (by decide) hT (by decide) Host.silent true hfeeds
  rw [hm (by decide)] at hleaves
  exact ⟨T, q.state, f, hT, hf, hleaves, hnoted⟩

end PredictiveParser.Machine
