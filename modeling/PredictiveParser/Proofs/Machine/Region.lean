import PredictiveParser.Proofs.Machine.Retention

/-!
# Regions of a program

A region of a program is a set of nodes, automaton states and symbols that nothing leads out of (`Program.Region`). A parse
that begins in a region stays there: all that is on the stack, and all that open episodes wait for, belongs to it
(`kept_stays`).
-/

namespace PredictiveParser

/-- A part of a program that nothing leads out of. -/
structure Program.Region (P : Program) where
  node : Nat → Prop
  state : Nat → Prop
  symbol : Nat → Prop
  part : ∀ {n m : Nat} {parts : List Nat}, node n → P.instruction n = .sequence parts → m ∈ parts → node m
  called : ∀ {n s : Nat}, node n → P.instruction n = .symbol s → symbol s
  predicted : ∀ {s t p : Nat}, symbol s → P.lookup s t = some p → node p
  fallback : ∀ {s p : Nat}, symbol s → P.emptyProduction s = some p → node p
  decision : ∀ {n d : Nat}, node n → P.instruction n = .decision d → state d
  leaf : ∀ {d p : Nat}, state d → P.dfa d = .leaf p → node p
  default : ∀ {d p : Nat}, state d → P.dfa d = .switch (some p) → node p
  transition : ∀ {d d' t : Nat} {default? : Option Nat}, state d → P.dfa d = .switch default? →
    P.transition d t = some d' → state d'
  resolver : ∀ {d n p : Nat} {otherwise : Option Target}, state d → P.dfa d = .resolver n p otherwise → node n ∧ node p
  otherwiseState : ∀ {d d' n p : Nat}, state d → P.dfa d = .resolver n p (some (.dfa d')) → state d'
  otherwiseNode : ∀ {d n p q : Nat}, state d → P.dfa d = .resolver n p (some (.node q)) → node q

namespace Program.Region

variable {P : Program} (R : P.Region)

/-- What a target leads to belongs to the region. -/
def target : Target → Prop
  | .dfa d => R.state d
  | .node p => R.node p

/-- What a frame stands for belongs to the region. -/
def frame : Machine.Frame → Prop
  | .node n => R.node n
  | .entered s _ => R.symbol s
  | .lookahead d _ => R.state d
  | .finish | .resolving => True

variable {R}

theorem target_of_resolver {d n p : Nat} {otherwise : Option Target} (hd : R.state d)
    (h : P.dfa d = .resolver n p otherwise) {target : Target} (ht : otherwise = some target) : R.target target := by
  subst ht
  cases target with
  | dfa d' => exact R.otherwiseState hd h
  | node q => exact R.otherwiseNode hd h

/-- The program `P'` answers as `P` does about everything in the region. -/
structure Agrees (R : P.Region) (P' : Program) : Prop where
  instruction : ∀ {n}, R.node n → P'.instruction n = P.instruction n
  dfa : ∀ {d}, R.state d → P'.dfa d = P.dfa d
  transition : ∀ {d}, R.state d → ∀ t, P'.transition d t = P.transition d t
  dfaExpected : ∀ {d}, R.state d → P'.dfaExpected d = P.dfaExpected d
  lookup : ∀ {s}, R.symbol s → ∀ t, P'.lookup s t = P.lookup s t
  emptyProduction : ∀ {s}, R.symbol s → P'.emptyProduction s = P.emptyProduction s
  callbacks : ∀ {s}, R.symbol s → P'.callbacks s = P.callbacks s
  expected : ∀ {s}, R.symbol s → P'.expected s = P.expected s
  symbolName : P'.symbolName = P.symbolName
  tokenName : P'.tokenName = P.tokenName

end Program.Region

namespace Machine

variable {σ τ : Type} {P : Program} {R : P.Region} {s : State τ}

/-- Everything on the stack, and everything that open episodes wait for, belongs to the region. -/
structure State.Stays (R : P.Region) (s : State τ) : Prop where
  frames : ∀ f ∈ s.stack, R.frame f
  episodes : ∀ e ∈ s.episodes, R.node e.accept ∧ ∀ target, e.otherwise = some target → R.target target

namespace State.Stays

variable {s' : State τ}

theorem top (hs : s.Stays R) {f : Frame} {rest : List Frame} (hstack : s.stack = f :: rest) : R.frame f :=
  hs.frames f (hstack ▸ List.mem_cons_self)

/-- Frames of the region take the place of the frame on top. -/
theorem replaced (hs : s.Stays R) {f : Frame} {rest : List Frame} (above : List Frame) (hstack : s.stack = f :: rest)
    (hstack' : s'.stack = above ++ rest) (habove : ∀ f ∈ above, R.frame f) (he : s'.episodes ⊆ s.episodes) :
    s'.Stays R where
  frames := by
    rw [hstack']
    refine List.forall_mem_append.2 ⟨habove, fun f hf => hs.frames f ?_⟩
    rw [hstack]
    exact List.mem_cons_of_mem _ hf
  episodes e hmem := hs.episodes e (he hmem)

end State.Stays

variable [Terminal τ] {H : Host σ τ} {h : σ}

omit [Terminal τ] in
/-- Waiting and settling do not touch the stack. -/
theorem State.Stays.congr {s' : State τ} (hs : s.Stays R) (hstack : s'.stack = s.stack) (he : s'.episodes = s.episodes) :
    s'.Stays R :=
  ⟨hstack ▸ hs.frames, he ▸ hs.episodes⟩

/-- The production that the machine takes for a symbol of the region belongs to it. -/
theorem node_of_production {a p : Nat} {t : τ} (ha : R.symbol a) (hp : s.production? P a t = some p) : R.node p := by
  unfold State.production? at hp
  cases hl : P.lookup a (Terminal.id t) with
  | some p' =>
    rw [hl] at hp
    cases hp
    exact R.predicted ha hl
  | none =>
    rw [hl] at hp
    change (if s.isSpeculating then P.emptyProduction a else none) = some p at hp
    split at hp
    · exact R.fallback ha hp
    · cases hp

/-- **Every step stays in a region.** -/
theorem Effect.stays {s' : State τ} {h' : σ} (he : Effect P H s h .proceed s' h') (hb : s.Balanced) (hs : s.Stays R) :
    s'.Stays R := by
  have hsame : s.episodes ⊆ s.episodes := List.Subset.refl _
  have hsingle : ∀ {f : Frame}, R.frame f → ∀ f' ∈ [f], R.frame f' := fun hf f' hf' => List.mem_singleton.1 hf' ▸ hf
  obtain ⟨k, ht, -⟩ := id hb
  cases he with
  | passed hstack | left hstack | acted hstack | armed hstack | skipped hstack =>
    exact hs.replaced [] hstack rfl (List.forall_mem_nil _) hsame
  | @committed e es rest hstack hes =>
    have haccept : R.node e.accept := (hs.episodes e (hes ▸ List.mem_cons_self)).1
    exact hs.replaced [.node e.accept] hstack rfl (hsingle haccept) (hes ▸ List.subset_cons_self _ _)
  | @resolved d entry p rest hstack hd =>
    exact hs.replaced [.node p] hstack rfl (hsingle (R.leaf (hs.top hstack) hd)) hsame
  | @attempted d entry n p otherwise rest hstack hd =>
    have hstate : R.state d := hs.top hstack
    obtain ⟨hn, hp⟩ := R.resolver hstate hd
    have hframes : ∀ f ∈ .node n :: .resolving :: rest, R.frame f := by
      refine List.forall_mem_cons.2 ⟨hn, List.forall_mem_cons.2 ⟨trivial, fun f hf => hs.frames f ?_⟩⟩
      rw [hstack]
      exact List.mem_cons_of_mem _ hf
    exact ⟨hframes, List.forall_mem_cons.2 ⟨⟨hp, fun target => Program.Region.target_of_resolver hstate hd⟩, hs.episodes⟩⟩
  | @followed d entry d' default? rest t hstack hd _ htransition =>
    rw [advance_eq]
    have hstate : R.state d := hs.top hstack
    exact hs.replaced [.lookahead d' entry] hstack rfl (hsingle (R.transition hstate hd htransition)) hsame
  | @defaulted d entry p rest t hstack hd =>
    rw [advance_eq]
    exact hs.replaced [.node p] hstack rfl (hsingle (R.default (hs.top hstack) hd)) hsame
  | matched hstack =>
    rw [consume_eq, advance_eq]
    exact hs.replaced [] hstack rfl (List.forall_mem_nil _) hsame
  | @entered n a p rest t hstack hn _ hp =>
    rw [advance_eq]
    have ha : R.symbol a := R.called (hs.top hstack) hn
    refine hs.replaced [.node p, .entered a _] hstack rfl ?_ hsame
    exact List.forall_mem_cons.2 ⟨node_of_production ha hp, hsingle ha⟩
  | @unfolded n parts rest hstack hn =>
    refine hs.replaced _ hstack rfl (fun f hf => ?_) hsame
    obtain ⟨m, hm, rfl⟩ := List.mem_map.1 hf
    exact R.part (hs.top hstack) hn hm
  | @began n d rest t hstack hn =>
    unfold State.beginDecision
    rw [advance_eq]
    exact hs.replaced [.lookahead d _] hstack rfl (hsingle (R.decision (hs.top hstack) hn)) hsame
  | rolledBack hm _ hu =>
    obtain ⟨inner, e, outer, target, below, hes, hback⟩ := hm.exists_goesBack ht hu
    have hmem : e ∈ s.episodes := hes ▸ List.mem_append_right _ List.mem_cons_self
    have houter : outer ⊆ s.episodes := fun i hi => hes ▸ List.mem_append_right _ (List.mem_cons_of_mem _ hi)
    have htarget : R.target target := (hs.episodes e hmem).2 target hback.otherwise
    have hbelow : below ⊆ s.stack := fun f hf => hback.frames.subset (List.mem_cons_of_mem _ hf)
    rw [hback.state]
    refine ⟨List.forall_mem_cons.2 ⟨?_, fun f hf => hs.frames f (hbelow hf)⟩, fun e he => hs.episodes e (houter he)⟩
    cases target with
    | dfa d => exact htarget
    | node p => exact htarget

/-- **A parse stays in a region.** -/
theorem kept_stays (R : P.Region) (H : Host σ τ) :
    Kept P H (fun _ s => s.status = .running → s.Stays R) fun _ s => s.Stays R where
  receive t hrunning hs := (hs hrunning).congr rfl rfl
  step hv hp hs := (effect_of_verdict hp).stays hv.balanced hs
  settle := by
    intro past s h a hv ha hs hrunning
    obtain ⟨rfl, hwaits⟩ := await_of_running ha hrunning
    rw [(effect_of_verdict hwaits).waited.1]
    exact hs.congr (stack_advance s) (episodes_advance s)
  takeTree hs hrunning := (hs hrunning).congr rfl rfl

omit [Terminal τ] in
/-- A parse of a node of the region begins in the region. -/
theorem State.stays_initial {n : Nat} (hn : R.node n) (buildTree : Bool) : (State.initial n buildTree : State τ).Stays R where
  frames := List.forall_mem_cons.2 ⟨hn, List.forall_mem_cons.2 ⟨trivial, List.forall_mem_nil _⟩⟩
  episodes := List.forall_mem_nil _

/-! ## Programs that agree on a region -/

section Agrees

variable {P' : Program}

theorem unexpected_congr (hA : R.Agrees P') (expected : List Nat) (s : State τ) :
    s.unexpected P' expected = s.unexpected P expected := by
  unfold State.unexpected State.found
  rw [hA.tokenName]

theorem unwind_congr (hA : R.Agrees P') (es : List Episode) (symbol? : Option Nat) (s : State τ) :
    unwind P' es symbol? s = unwind P es symbol? s := by
  induction es generalizing symbol? s with
  | nil =>
    unfold unwind State.found
    rw [hA.symbolName, hA.tokenName]
  | cons e es ih =>
    rw [unwind, unwind]
    split
    · rfl
    · rfl
    · exact ih _ _

theorem miss_congr (hA : R.Agrees P') (error : ParseError) (s : State τ) (h : σ) (remarks : List Remark) :
    miss P' error s h remarks = miss P error s h remarks := by
  unfold miss
  rw [unwind_congr hA]

omit [Terminal τ] in
theorem pendingArguments_congr (hA : R.Agrees P') {stack : List Frame} (hstack : ∀ f ∈ stack, R.frame f) :
    pendingArguments P' stack = pendingArguments P stack := by
  induction stack with
  | nil => rfl
  | cons f rest ih =>
    obtain ⟨hf, hrest⟩ := List.forall_mem_cons.1 hstack
    cases f with
    | node n =>
      rw [pendingArguments, pendingArguments, hA.instruction hf, ih hrest]
    | _ => rfl

/-- **On the states of a region the programs make the same steps.** -/
theorem step_congr (hA : R.Agrees P') (hs : s.Stays R) : step P' H s h = step P H s h := by
  unfold step
  cases hstack : s.stack with
  | nil => rfl
  | cons f rest =>
    have hf : R.frame f := hs.top hstack
    have hrest : ∀ f ∈ rest, R.frame f := fun f hf => hs.frames f (hstack ▸ List.mem_cons_of_mem _ hf)
    cases f with
    | finish =>
      dsimp only
      unfold stepFinish
      simp only [unexpected_congr hA]
    | entered a speculative =>
      dsimp only
      unfold stepEntered
      rw [hA.callbacks hf]
    | resolving => rfl
    | lookahead d entry =>
      dsimp only
      unfold stepLookahead
      rw [hA.dfa hf, hA.dfaExpected hf]
      simp only [hA.transition hf, unexpected_congr hA, miss_congr hA]
    | node n =>
      dsimp only
      unfold stepNode
      rw [hA.instruction hf]
      cases hn : P.instruction n with
      | token expected =>
        dsimp only
        unfold stepToken
        simp only [unexpected_congr hA, miss_congr hA]
      | symbol a =>
        have ha : R.symbol a := R.called hf hn
        dsimp only
        unfold stepSymbol entryEvents
        rw [hA.callbacks ha, hA.expected ha, hA.emptyProduction ha, pendingArguments_congr hA hrest]
        simp only [hA.lookup ha, unexpected_congr hA, miss_congr hA]
      | action a =>
        dsimp only
        unfold stepAction
        simp only [miss_congr hA]
      | sequence | beacon | epsilon | argument | decision => rfl

/-- A run that stays in a region is the same for both programs. -/
theorem run_congr (hA : R.Agrees P') {fuel : Nat} (hs : ∀ s' h', Steps P H s h s' h' → s'.Stays R) :
    run P' H fuel s h = run P H fuel s h := by
  induction fuel generalizing s h with
  | zero => rfl
  | succ fuel ih =>
    rw [run, run, step_congr hA (hs s h (.refl s h))]
    cases hv : (step P H s h).verdict with
    | proceed =>
      dsimp only
      exact ih fun s' h' hsteps => hs s' h' (.head hv hsteps)
    | await | accept | reject => rfl

/-- **In the course of a parse that begins in a region the programs give the same answers.** -/
theorem Parser.Parses.feed_congr {symbol fuel : Nat} {p : Parser σ τ} {past : List τ} {t : τ} (hp : p.Parses P H symbol past)
    (hA : R.Agrees P') (hsymbol : R.node (P.symbolNode symbol)) : p.feed P' H fuel t = p.feed P H fuel t := by
  have hbetween : p.state.status = .running → p.state.Stays R :=
    (kept_stays R H).between_of_parses (fun buildTree _ => State.stays_initial hsymbol buildTree) hp
  unfold Parser.feed
  cases hs : p.state.status with
  | running =>
    dsimp only
    rw [run_congr hA fun s' h' hsteps => (kept_stays R H).within_of_steps hp.reachable hs hbetween hsteps]
  | idle | done | failed => rfl

end Agrees

end Machine

end PredictiveParser
