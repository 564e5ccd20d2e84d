import Mathlib.Data.List.Infix
import PredictiveParser.Proofs.Machine.Alignment
import PredictiveParser.Proofs.Machine.Decision

/-!
# Lookahead decisions

The machine makes a decision in many steps, between which it may wait for tokens, and it comes to what the automaton
specifies (`fallsOn_of_decision`). The stack is read as levels of resolvers under evaluation (`Level`), and what is still to
come as a proposition on the callbacks and inspections that are left (`Future`): if the rest of the way is as the
specification has it, so is the whole way. A step shortens the way by its own callbacks and inspections
(`Underway.step`), so from the place where the production is found the derivation is put together backwards
(`Faces.moves`).
-/

namespace PredictiveParser

/-- The state of the automaton inspects a token. -/
def DfaState.isSwitch : DfaState → Bool
  | switch _ => true
  | _ => false

namespace Machine

variable {σ τ : Type}

/-! ## The positions that a decision inspects -/

/-- The position of the token that a decision above `depth` frames inspects next, if that is what the machine does. -/
def State.inspected? (P : Program) (depth : Nat) (s : State τ) : Option Nat :=
  match s.stack with
  | .lookahead d _ :: rest => if rest.length = depth ∧ (P.dfa d).isSwitch ∧ s.next?.isSome then some s.position else none
  | _ => none

theorem inspected?_of_next? {P : Program} {depth : Nat} {s : State τ} (hnext : s.next? = none) :
    s.inspected? P depth = none := by
  unfold State.inspected?
  split
  · simp [hnext]
  · rfl

theorem filterMap_inspected?_cons (P : Program) (depth : Nat) (s : State τ) (trace : List (State τ)) :
    (s :: trace).filterMap (State.inspected? P depth) =
      (s.inspected? P depth).toList ++ trace.filterMap (State.inspected? P depth) := by
  rw [List.filterMap_cons]
  cases s.inspected? P depth <;> rfl

/-- The frame at a height of the stack. -/
def State.frame? (s : State τ) (height : Nat) : Option Frame :=
  s.stack.reverse[height]?

/-- The frame keeps the place of a decision that is not made yet. -/
def Frame.isDeciding : Frame → Bool
  | lookahead _ _ | resolving => true
  | _ => false

theorem frame?_of_stack {s : State τ} (above : List Frame) {rest : List Frame} {f : Frame} (hs : s.stack = above ++ f :: rest) :
    s.frame? rest.length = some f := by
  unfold State.frame?
  rw [hs, List.reverse_append, List.reverse_cons, List.append_assoc, List.getElem?_append_right (by simp)]
  simp

/-! ## What a state of the machine leads to -/

/-- What may still come: callbacks, and positions that the outermost decision inspects. -/
abbrev Future := List (Event × Bool) → List Nat → Prop

/-- A resolver under evaluation: its episode, and the frames above the waiting frame, or below a decision that is under way
inside. -/
structure Level where
  frames : List Frame
  episode : Episode

/-- The frame belongs to what is tried for a resolver. -/
def Frame.isTried : Frame → Bool
  | node _ | entered _ true => true
  | _ => false

/-- The node that a frame stands for. -/
def Frame.node? : Frame → Option Nat
  | node n => some n
  | _ => none

namespace Level

/-- The nodes that are left to be tried. -/
def nodes (l : Level) : List Nat :=
  l.frames.filterMap Frame.node?

theorem nodes_append (ns : List Nat) (frames : List Frame) (ep : Episode) :
    nodes ⟨ns.map .node ++ frames, ep⟩ = ns ++ nodes ⟨frames, ep⟩ := by
  unfold nodes
  rw [List.filterMap_append, List.filterMap_map]
  exact congrArg (· ++ _) List.filterMap_some

/-- The frames of some levels, innermost first, above the frames `rest`. -/
def stack (rest : List Frame) : List Level → List Frame
  | [] => rest
  | l :: L => l.frames ++ .resolving :: stack rest L

/-- The levels are in order: the episodes are at the heights of their waiting frames, and so on. -/
def Ordered (rest : List Frame) : List Level → Prop
  | [] => True
  | l :: L => l.episode.depth = (stack rest L).length ∧ l.episode.entry ≤ l.episode.resume ∧
    (∀ f ∈ l.frames, f.isTried = true) ∧ Ordered rest L

/-- Only without levels nothing is above the frames `rest`. -/
theorem length_stack_eq_iff (rest : List Frame) (L : List Level) : (stack rest L).length = rest.length ↔ L.isEmpty := by
  suffices ∀ l L, rest.length < (stack rest (l :: L)).length by
    cases L with
    | nil => simp [stack]
    | cons l L => simpa using (this l L).ne'
  intro l L
  induction L generalizing l with
  | nil =>
    rw [stack, stack, List.length_append, List.length_cons]
    omega
  | cons l' L ih =>
    have := ih l'
    rw [stack, List.length_append, List.length_cons]
    omega

end Level

section Reading

variable [Terminal τ] (P : Program) (xs : List τ)

/-- A decision is made, and what comes then depends on its result. The positions that it inspects count if it is the
outermost one. -/
def Deciding (counts : Bool) (e d k : Nat) (next : Option Nat → Future) : Future := fun cs is =>
  ∃ cs₁ cs₂ is₁ is₂ r, FallsOn P xs e d k cs₁ is₁ r ∧ next r cs₂ is₂ ∧ cs = cs₁ ++ cs₂ ∧
    is = (if counts then is₁ else []) ++ is₂

/-- Nodes are tried, and what comes then depends on whether they match. -/
def Trying (ns : List Nat) (q : Nat) (next : Bool → Future) : Future := fun cs is =>
  ∃ cs₁ cs₂ ok, Attempts P xs ns q cs₁ ok ∧ next ok cs₂ is ∧ cs = cs₁ ++ cs₂

/-- A resolver was tried, and the decision that waits for it is made or goes on. -/
def Closing (counts : Bool) (ep : Episode) (next : Option Nat → Future) : Bool → Future
  | true => next (some ep.accept)
  | false =>
    match ep.otherwise with
    | some (.dfa d) => Deciding P xs counts ep.entry d (ep.resume - ep.entry) next
    | some (.node p) => next (some p)
    | none => next none

/-- A decision that began at `e` above the levels is made, with a production or with none; `base` is what comes when the
outermost decision is made. -/
def Made (base : Nat → Option Nat → Future) : List Level → (e : Nat) → Option Nat → Future
  | [], e, r => base e r
  | l :: L, e, some p =>
    Trying P xs (p :: l.nodes) e (Closing P xs L.isEmpty l.episode (Made base L l.episode.entry))
  | l :: L, _, none => Closing P xs L.isEmpty l.episode (Made base L l.episode.entry) false

variable {P xs} (base : Nat → Option Nat → Future) (rest : List Frame) (outer : List Episode)

omit [Terminal τ] in
/-- The open episodes are those of the levels, and the outer ones. -/
structure Holds (L : List Level) (v : State τ) : Prop where
  episodes : v.episodes = L.map (·.episode) ++ outer
  ordered : Level.Ordered rest L

variable (P xs) in
/-- A decision above the frames `rest` is under way, and what comes is read off the stack. -/
inductive Underway (v : State τ) : Future → Prop
  | deciding {L : List Level} {d e k : Nat} : v.stack = .lookahead d e :: Level.stack rest L → v.cursor = e + k →
      v.matched = false → Holds rest outer L v → Underway v (Deciding P xs L.isEmpty e d k (Made P xs base L e))
  | trying {l : Level} {L : List Level} : v.stack = Level.stack rest (l :: L) → Holds rest outer (l :: L) v →
      Underway v
        (Trying P xs l.nodes v.position (Closing P xs L.isEmpty l.episode (Made P xs base L l.episode.entry)))

variable (P xs) in
/-- A decision above the frames `rest` is under way, was made, or was given up with what is around it. -/
inductive Faces (v : State τ) : Future → Prop
  | underway {F : Future} : Underway P xs base rest outer v F → Faces v F
  | made {p : Nat} : v.stack = .node p :: rest → v.matched = false → v.episodes = outer →
      Faces v (base v.cursor (some p))
  | abandoned {F : Future} : v.stack.length ≤ rest.length → Faces v F

variable {base rest outer}

/-- A decision falls on a production. -/
theorem Faces.of_node {v : State τ} {p e : Nat} {L : List Level} (hs : v.stack = .node p :: Level.stack rest L)
    (hm : v.matched = false) (hc : v.cursor = e) (hL : Holds rest outer L v) :
    Faces P xs base rest outer v (Made P xs base L e (some p)) := by
  subst hc
  cases L with
  | nil => exact .made hs hm hL.episodes
  | cons l L =>
    obtain ⟨hepisodes, hd, hle, htried, hL⟩ := hL
    have hposition : v.position = v.cursor := by rw [State.position, hm]; rfl
    have hl : Holds rest outer (⟨.node p :: l.frames, l.episode⟩ :: L) v :=
      ⟨hepisodes, hd, hle, List.forall_mem_cons.2 ⟨rfl, htried⟩, hL⟩
    have hunderway : Underway P xs base rest outer v _ := .trying (l := ⟨.node p :: l.frames, l.episode⟩) hs hl
    rw [hposition] at hunderway
    exact .underway hunderway

/-- Going back gives up the levels that have no else branch; if there is one that has, its decision is made or goes on. -/
theorem Faces.of_goesBack {b v : State τ} {stack : List Frame} {k e : Nat} {inner below : List Episode} {ep : Episode}
    {target : Target} {frames : List Frame} {L : List Level} (houter : ∀ ep ∈ outer, ep.depth < rest.length)
    (hes : L.map (·.episode) ++ outer = inner ++ ep :: below) (hL : Level.Ordered rest L)
    (hsuffix : Level.stack rest L <:+ stack) (hback : GoesBack b stack k v inner ep below target frames) :
    ∃ F, Faces P xs base rest outer v F ∧ ∀ cs is, F cs is → Made P xs base L e none cs is := by
  have hstack : v.stack = ep.resumed target :: frames := congrArg (·.stack) hback.state
  have hmatched : v.matched = false := congrArg (·.matched) hback.state
  have hcursor : v.cursor = ep.position target := congrArg (·.cursor) hback.state
  have hepisodes : v.episodes = below := congrArg (·.episodes) hback.state
  induction L generalizing inner e with
  | nil =>
    have hmem : ep ∈ outer := by
      rw [show outer = inner ++ ep :: below from hes]
      simp
    have hlt := houter ep hmem
    rw [hback.depth] at hlt
    exact ⟨_, .abandoned (by rw [hstack]; exact hlt), fun _ _ h => h⟩
  | cons l L ih =>
    obtain ⟨hd, hle, -, hL⟩ := hL
    have hsuffix' : Level.stack rest L <:+ stack :=
      ((List.suffix_cons _ _).trans (List.suffix_append _ _)).trans hsuffix
    cases inner with
    | nil =>
      obtain ⟨rfl, hbelow⟩ := List.cons.inj hes
      have hframes : Level.stack rest L = frames := by
        have hlen : (Level.stack rest L).length = frames.length := by rw [← hd, hback.depth]
        have hframes' : frames <:+ stack := (List.suffix_cons _ _).trans hback.frames
        exact (List.suffix_of_suffix_length_le hsuffix' hframes' (by rw [hlen])).eq_of_length hlen
      subst hframes
      have hholds : Holds rest outer L v := ⟨hepisodes.trans hbelow.symm, hL⟩
      cases target with
      | dfa d =>
        have hresume : v.cursor = l.episode.entry + (l.episode.resume - l.episode.entry) := by
          rw [hcursor, Nat.add_sub_cancel' hle]
          rfl
        refine ⟨_, .underway (.deciding hstack hresume hmatched hholds), fun cs is h => ?_⟩
        show Closing P xs L.isEmpty l.episode (Made P xs base L l.episode.entry) false cs is
        rw [Closing, hback.otherwise]
        exact h
      | node p =>
        refine ⟨_, .of_node hstack hmatched hcursor hholds, fun cs is h => ?_⟩
        show Closing P xs L.isEmpty l.episode (Made P xs base L l.episode.entry) false cs is
        rw [Closing, hback.otherwise]
        exact h
    | cons i inner =>
      obtain ⟨rfl, hinner⟩ := List.cons.inj hes
      have hback' : GoesBack b stack k v inner ep below target frames :=
        { hback with inner := fun i hi => hback.inner i (List.mem_cons_of_mem _ hi) }
      obtain ⟨F, hF, hmade⟩ := ih (e := l.episode.entry) hinner hL hsuffix' hback'
      refine ⟨F, hF, fun cs is h => ?_⟩
      show Closing P xs L.isEmpty l.episode (Made P xs base L l.episode.entry) false cs is
      rw [Closing, hback.inner _ List.mem_cons_self]
      exact hmade cs is h

/-! ### What is on top -/

namespace Underway

variable {v : State τ} {F : Future}

theorem of_lookahead {d e : Nat} {below : List Frame} (hv : Underway P xs base rest outer v F)
    (hs : v.stack = .lookahead d e :: below) :
    ∃ L k, below = Level.stack rest L ∧ v.cursor = e + k ∧ v.matched = false ∧ Holds rest outer L v ∧
      F = Deciding P xs L.isEmpty e d k (Made P xs base L e) := by
  cases hv with
  | @deciding L _ _ k hs' hc hm hL =>
    cases hs.symm.trans hs'
    exact ⟨L, k, rfl, hc, hm, hL, rfl⟩
  | @trying l L hs' hL =>
    have hfirst := hs.symm.trans hs'
    obtain ⟨-, -, -, htried, -⟩ := hL
    obtain ⟨frames, ep⟩ := l
    cases frames with
    | nil => cases hfirst
    | cons f frames =>
      cases hfirst
      cases htried _ List.mem_cons_self

theorem of_resolving {below : List Frame} (hv : Underway P xs base rest outer v F) (hs : v.stack = .resolving :: below) :
    ∃ ep L, below = Level.stack rest L ∧ Holds rest outer (⟨[], ep⟩ :: L) v ∧
      F = Trying P xs [] v.position (Closing P xs L.isEmpty ep (Made P xs base L ep.entry)) := by
  cases hv with
  | deciding hs' => cases hs.symm.trans hs'
  | @trying l L hs' hL =>
    have hfirst := hs.symm.trans hs'
    obtain ⟨frames, ep⟩ := l
    cases frames with
    | nil =>
      cases hfirst
      exact ⟨ep, L, rfl, hL, rfl⟩
    | cons f frames =>
      cases hfirst
      cases hL.ordered.2.2.1 _ List.mem_cons_self

theorem of_tried {f : Frame} {below : List Frame} (hv : Underway P xs base rest outer v F) (hs : v.stack = f :: below)
    (hresolving : f ≠ .resolving) (hlookahead : ∀ d e, f ≠ .lookahead d e) :
    ∃ frames ep L, f.isTried = true ∧ below = Level.stack rest (⟨frames, ep⟩ :: L) ∧
      Holds rest outer (⟨frames, ep⟩ :: L) v ∧
      F = Trying P xs (f.node?.toList ++ Level.nodes ⟨frames, ep⟩) v.position
        (Closing P xs L.isEmpty ep (Made P xs base L ep.entry)) := by
  cases hv with
  | deciding hs' => exact absurd (List.cons.inj (hs.symm.trans hs')).1 (hlookahead _ _)
  | @trying l L hs' hL =>
    have hfirst := hs.symm.trans hs'
    obtain ⟨frames, ep⟩ := l
    cases frames with
    | nil => exact absurd (List.cons.inj hfirst).1 hresolving
    | cons f' frames =>
      obtain ⟨rfl, rfl⟩ := List.cons.inj hfirst
      obtain ⟨hepisodes, hd, hle, htried, hL⟩ := hL
      obtain ⟨hf, htried⟩ := List.forall_mem_cons.1 htried
      refine ⟨frames, ep, L, hf, rfl, ⟨hepisodes, hd, hle, htried, hL⟩, ?_⟩
      have hnodes : Level.nodes ⟨f :: frames, ep⟩ = f.node?.toList ++ Level.nodes ⟨frames, ep⟩ := by
        unfold Level.nodes
        rw [List.filterMap_cons]
        cases f.node? <;> rfl
      rw [hnodes]

end Underway

/-! ### Steps -/

variable {H : Host σ τ} {v v' : State τ} {g : σ} {r : σ × List (Event × Bool)}

/-- What is tried goes on with other nodes. -/
theorem exists_faces_of_tried (l : Level) (cs₀ : List (Event × Bool)) {ns : List Nat} {q : Nat} {L : List Level}
    (hs : v.stack = Level.stack rest (l :: L)) (hL : Holds rest outer (l :: L) v)
    (hrule : ∀ cs ok, Attempts P xs l.nodes v.position cs ok → Attempts P xs ns q (cs₀ ++ cs) ok) :
    ∃ F, Faces P xs base rest outer v F ∧ ∀ cs is, F cs is →
      Trying P xs ns q (Closing P xs L.isEmpty l.episode (Made P xs base L l.episode.entry)) (cs₀ ++ cs) is := by
  refine ⟨_, .underway (.trying hs hL), ?_⟩
  rintro cs is ⟨cs₁, cs₂, ok, hattempts, hnext, rfl⟩
  exact ⟨cs₀ ++ cs₁, cs₂, ok, hrule _ _ hattempts, hnext, (List.append_assoc _ _ _).symm⟩

/-- A decision at a resolver goes by what trying the resolver comes to. -/
theorem deciding_of_closing {counts : Bool} {d n k : Nat} {ep : Episode} {next : Option Nat → Future} {ok : Bool}
    {cs₁ cs₂ : List (Event × Bool)} {is : List Nat} (hd : P.dfa d = .resolver n ep.accept ep.otherwise)
    (hk : ep.resume - ep.entry = k) (htry : Attempts P xs [n] ep.entry cs₁ ok)
    (hclose : Closing P xs counts ep next ok cs₂ is) : Deciding P xs counts ep.entry d k next (cs₁ ++ cs₂) is := by
  have hcount : is = (if counts then [] else []) ++ is := by simp
  cases ok with
  | true => exact ⟨cs₁, cs₂, [], is, some ep.accept, .matched hd htry, hclose, rfl, hcount⟩
  | false =>
    obtain ⟨_, e, resume, accept, otherwise⟩ := ep
    cases otherwise with
    | none => exact ⟨cs₁, cs₂, [], is, none, .failed hd htry, hclose, rfl, hcount⟩
    | some target =>
      cases target with
      | node p => exact ⟨cs₁, cs₂, [], is, some p, .refused hd htry, hclose, rfl, hcount⟩
      | dfa d' =>
        subst hk
        obtain ⟨cs₂, cs₃, is₁, is₂, r, hfalls, hmade, rfl, rfl⟩ := hclose
        exact ⟨cs₁ ++ cs₂, cs₃, is₁, is₂, r, .onward hd htry hfalls, hmade, (List.append_assoc _ _ _).symm, rfl⟩

/-- A step of the machine while a decision is on top. -/
theorem Underway.step_lookahead {d e k : Nat} {L : List Level} (houter : ∀ ep ∈ outer, ep.depth < rest.length)
    (hb : v.Balanced) (hx : ∀ x, v.next? = some x → xs[v.position]? = some x)
    (hs : v.stack = .lookahead d e :: Level.stack rest L) (hc : v.cursor = e + k) (hm : v.matched = false)
    (hL : Holds rest outer L v) (he : Effect P H.recording v (g, []) .proceed v' r) :
    ∃ F', Faces P xs base rest outer v' F' ∧ ∀ cs is, F' cs is →
      Deciding P xs L.isEmpty e d k (Made P xs base L e) (r.2 ++ cs) ((v.inspected? P rest.length).toList ++ is) := by
  have hposition : v.position = e + k := by rw [State.position, hm]; exact hc
  have hquiet : (P.dfa d).isSwitch = false → v.inspected? P rest.length = none := fun hd => by
    unfold State.inspected?
    rw [hs]
    simp [hd]
  have hinspected : ∀ {default? t}, P.dfa d = .switch default? → v.next? = some t →
      (v.inspected? P rest.length).toList = if L.isEmpty then [e + k] else [] := fun {default? t} hd ht => by
    unfold State.inspected?
    rw [hs]
    simp only [Level.length_stack_eq_iff, hd, ht, hposition, DfaState.isSwitch, Option.isSome_some]
    cases L.isEmpty <;> rfl
  obtain ⟨k', ht, -⟩ := id hb
  cases he with
  | passed hs' | left hs' | committed hs' | matched hs' | entered hs' | unfolded hs' | acted hs' | armed hs'
  | skipped hs' | began hs' => cases hs.symm.trans hs'
  | resolved hs' hd =>
    cases hs.symm.trans hs'
    refine ⟨_, .of_node rfl rfl rfl ⟨hL.episodes, hL.ordered⟩, fun cs is h => ?_⟩
    rw [hquiet (by rw [hd]; rfl)]
    exact ⟨[], cs, [], is, _, .leaf hd, h, rfl, by simp⟩
  | @attempted _ _ n accept otherwise _ hs' hd =>
    cases hs.symm.trans hs'
    have hk : v.cursor - e = k := by rw [hc]; exact Nat.add_sub_cancel_left e k
    refine ⟨_, .underway (.trying (l := ⟨[.node n], ⟨_, e, v.cursor, accept, otherwise⟩⟩) (L := L) rfl
      ⟨congrArg _ hL.episodes, rfl, hc ▸ Nat.le_add_right _ _, by simp [Frame.isTried], hL.ordered⟩), ?_⟩
    rintro cs is ⟨cs₁, cs₂, ok, htry, hclose, rfl⟩
    rw [hquiet (by rw [hd]; rfl)]
    exact deciding_of_closing hd hk htry hclose
  | followed hs' hd hnext htr =>
    cases hs.symm.trans hs'
    rw [advance_eq]
    refine ⟨_, .underway (.deciding (k := k + 1) rfl ?_ rfl ⟨hL.episodes, hL.ordered⟩), ?_⟩
    · show v.position + 1 = _
      rw [hposition, Nat.add_assoc]
    rintro cs is ⟨cs₁, cs₂, is₁, is₂, r, hfalls, hmade, rfl, rfl⟩
    rw [hinspected hd hnext]
    refine ⟨cs₁, cs₂, (e + k) :: is₁, is₂, r, .follow hd (hposition ▸ hx _ hnext) htr hfalls, hmade, rfl, ?_⟩
    cases L.isEmpty <;> simp
  | defaulted hs' hd hnext htr =>
    cases hs.symm.trans hs'
    rw [advance_eq]
    refine ⟨_, .of_node rfl rfl rfl ⟨hL.episodes, hL.ordered⟩, fun cs is h => ?_⟩
    rw [hinspected hd hnext]
    exact ⟨[], cs, [e + k], is, _, .default hd (hposition ▸ hx _ hnext) htr, h, rfl, rfl⟩
  | rolledBack hmiss _ hu =>
    obtain ⟨inner, ep, below, target, frames, hes, hback⟩ := hmiss.exists_goesBack ht hu
    cases hmiss with
    | token hs' | symbol hs' | action hs' => cases hs.symm.trans hs'
    | transition hs' hd hnext htr =>
      cases hs.symm.trans hs'
      rw [hL.episodes] at hes
      have hsuffix : Level.stack rest L <:+ v.stack := hs ▸ List.suffix_cons _ _
      obtain ⟨F', hF', hmade⟩ := Faces.of_goesBack (e := e) houter hes hL.ordered hsuffix hback
      refine ⟨F', hF', fun cs is h => ?_⟩
      rw [hinspected hd hnext]
      exact ⟨[], cs, [e + k], is, _, .unexpected hd (hposition ▸ hx _ hnext) htr, hmade cs is h, rfl, rfl⟩

/-- An error ends what is tried. -/
theorem attempts_of_misses {f : Frame} {rest' : List Frame} {ns : List Nat} {b : State τ} {error : ParseError}
    (hmiss : Misses P H.recording v (g, []) b r error) (hs : v.stack = f :: rest') (hf : f.isTried = true)
    (hspec : v.isSpeculating = true) (hx : ∀ x, v.next? = some x → xs[v.position]? = some x) :
    Attempts P xs (f.node?.toList ++ ns) v.position r.2 false := by
  cases hmiss with
  | transition hs' =>
    cases hs.symm.trans hs'
    cases hf
  | token hs' hn hnext hacc =>
    cases hs.symm.trans hs'
    exact .mismatch hn (hx _ hnext) hacc
  | symbol hs' hn hnext hp =>
    cases hs.symm.trans hs'
    unfold State.production? at hp
    rw [if_pos hspec] at hp
    exact .unpredicted hn (hx _ hnext) hp
  | action hs' hn hfailure =>
    cases hs.symm.trans hs'
    rw [record_actionReply, hfailure]
    exact .refused hn

/-- A step of the machine while the frame of something tried is on top. -/
theorem Underway.step_tried {f : Frame} {frames : List Frame} {ep : Episode} {L : List Level}
    (houter : ∀ ep ∈ outer, ep.depth < rest.length) (hb : v.Balanced)
    (hx : ∀ x, v.next? = some x → xs[v.position]? = some x)
    (hs : v.stack = f :: Level.stack rest (⟨frames, ep⟩ :: L)) (hf : f.isTried = true)
    (hL : Holds rest outer (⟨frames, ep⟩ :: L) v) (he : Effect P H.recording v (g, []) .proceed v' r) :
    ∃ F', Faces P xs base rest outer v' F' ∧ ∀ cs is, F' cs is →
      Trying P xs (f.node?.toList ++ Level.nodes ⟨frames, ep⟩) v.position
        (Closing P xs L.isEmpty ep (Made P xs base L ep.entry)) (r.2 ++ cs) is := by
  have hspec : v.isSpeculating = true := isSpeculating_iff.2 (by rw [hL.episodes]; exact List.cons_ne_nil _ _)
  obtain ⟨hd, hle, htried, hlater⟩ := hL.ordered
  obtain ⟨k', ht, -⟩ := id hb
  cases he with
  | resolved hs' | attempted hs' | followed hs' | defaulted hs' | committed hs' | left hs' =>
    cases hs.symm.trans hs'
    cases hf
  | passed hs' =>
    cases hs.symm.trans hs'
    exact exists_faces_of_tried ⟨frames, ep⟩ [] rfl ⟨hL.episodes, hL.ordered⟩ fun _ _ h => h
  | @matched n expected _ x hs' hn hnext hacc =>
    cases hs.symm.trans hs'
    rw [consume_eq, advance_eq]
    exact exists_faces_of_tried ⟨frames, ep⟩ [] rfl ⟨hL.episodes, hL.ordered⟩ fun _ _ => .token hn (hx x hnext) hacc
  | @entered n a p _ x hs' hn hnext hp hok =>
    cases hs.symm.trans hs'
    unfold State.production? at hp
    rw [if_pos hspec] at hp
    unfold State.enterSymbol
    rw [enterReply_of_speculating _ hspec, isSpeculating_withStack, isSpeculating_advance, hspec, advance_eq]
    refine exists_faces_of_tried ⟨.node p :: .entered a true :: frames, ep⟩ [] rfl ⟨hL.episodes, hd, hle, ?_, hlater⟩ ?_
    · exact List.forall_mem_cons.2 ⟨rfl, List.forall_mem_cons.2 ⟨rfl, htried⟩⟩
    · exact fun _ _ => .symbol hn (hx x hnext) hp
  | @unfolded n parts _ hs' hn =>
    cases hs.symm.trans hs'
    have hparts : ∀ f ∈ parts.map Frame.node, f.isTried = true := fun f hf => by
      obtain ⟨m, -, rfl⟩ := List.mem_map.1 hf
      rfl
    have hstack : parts.map .node ++ Level.stack rest (⟨frames, ep⟩ :: L) =
        Level.stack rest (⟨parts.map .node ++ frames, ep⟩ :: L) := (List.append_assoc _ _ _).symm
    refine exists_faces_of_tried ⟨parts.map Frame.node ++ frames, ep⟩ [] hstack
      ⟨hL.episodes, hd, hle, List.forall_mem_append.2 ⟨hparts, htried⟩, hlater⟩ fun cs ok h => ?_
    rw [Level.nodes_append] at h
    exact .sequence hn h
  | acted hs' hn hok =>
    cases hs.symm.trans hs'
    rw [record_actionReply, hok]
    exact exists_faces_of_tried ⟨frames, ep⟩ [_] rfl ⟨hL.episodes, hL.ordered⟩ fun _ _ => .action hn
  | armed hs' hn =>
    cases hs.symm.trans hs'
    exact exists_faces_of_tried ⟨frames, ep⟩ [] rfl ⟨hL.episodes, hL.ordered⟩ fun _ _ => .silent (.inr (.inr ⟨_, hn⟩))
  | skipped hs' hn =>
    cases hs.symm.trans hs'
    exact exists_faces_of_tried ⟨frames, ep⟩ [] rfl ⟨hL.episodes, hL.ordered⟩ fun _ _ =>
      .silent (hn.imp_right .inl)
  | @began n d _ x hs' hn hnext =>
    cases hs.symm.trans hs'
    unfold State.beginDecision
    rw [advance_eq]
    refine ⟨_, .underway (.deciding (k := 0) rfl rfl rfl ⟨hL.episodes, hL.ordered⟩), ?_⟩
    rintro cs is ⟨cs₁, cs₂, is₁, is₂, r, hfalls, hmade, rfl, rfl⟩
    cases r with
    | none => exact ⟨cs₁, cs₂, false, .undecided hn hfalls, hmade, rfl⟩
    | some p =>
      obtain ⟨cs₂, cs₃, ok, htry, hclose, rfl⟩ := hmade
      exact ⟨cs₁ ++ cs₂, cs₃, ok, .decided hn hfalls htry, hclose, (List.append_assoc cs₁ cs₂ cs₃).symm⟩
  | rolledBack hmiss _ hu =>
    obtain ⟨inner, e, below, target, frames', hes, hback⟩ := hmiss.exists_goesBack ht hu
    rw [hL.episodes] at hes
    have hsuffix : Level.stack rest (⟨frames, ep⟩ :: L) <:+ v.stack := hs ▸ List.suffix_cons _ _
    obtain ⟨F', hF', hmade⟩ := Faces.of_goesBack (e := 0) houter hes hL.ordered hsuffix hback
    exact ⟨F', hF', fun cs is h => ⟨r.2, cs, false, attempts_of_misses hmiss hs hf hspec hx, hmade cs is h, rfl⟩⟩

/-- A step of the machine while a decision waits on top. -/
theorem Underway.step_resolving {ep : Episode} {L : List Level} (hs : v.stack = .resolving :: Level.stack rest L)
    (hL : Holds rest outer (⟨[], ep⟩ :: L) v) (he : Effect P H.recording v (g, []) .proceed v' r) :
    ∃ F', Faces P xs base rest outer v' F' ∧ ∀ cs is, F' cs is →
      Trying P xs [] v.position (Closing P xs L.isEmpty ep (Made P xs base L ep.entry)) (r.2 ++ cs) is := by
  cases he with
  | passed hs' | left hs' | resolved hs' | attempted hs' | followed hs' | defaulted hs' | matched hs' | entered hs'
  | unfolded hs' | acted hs' | armed hs' | skipped hs' | began hs' => cases hs.symm.trans hs'
  | rolledBack hmiss => cases hmiss with | _ hs' => cases hs.symm.trans hs'
  | committed hs' hes =>
    cases hs.symm.trans hs'
    obtain ⟨rfl, rfl⟩ := List.cons.inj (hes.symm.trans hL.episodes)
    exact ⟨_, .of_node rfl rfl rfl ⟨rfl, hL.ordered.2.2.2⟩, fun cs is h => ⟨[], cs, true, .nil, h, rfl⟩⟩

/-- While a decision is under way its place on the stack is kept. -/
theorem Underway.exists_frame {F : Future} (hv : Underway P xs base rest outer v F) :
    ∃ f, v.frame? rest.length = some f ∧ f.isDeciding = true := by
  have hresolving : ∀ l L, ∃ above, Level.stack rest (l :: L) = above ++ .resolving :: rest := by
    intro l L
    induction L generalizing l with
    | nil => exact ⟨l.frames, rfl⟩
    | cons l' L ih =>
      obtain ⟨above, habove⟩ := ih l'
      exact ⟨l.frames ++ .resolving :: above, by rw [Level.stack, habove, List.append_assoc]; rfl⟩
  cases hv with
  | @deciding L d e _ hs =>
    cases L with
    | nil => exact ⟨_, frame?_of_stack [] hs, rfl⟩
    | cons l L =>
      obtain ⟨above, habove⟩ := hresolving l L
      rw [habove] at hs
      exact ⟨_, frame?_of_stack (.lookahead d e :: above) hs, rfl⟩
  | @trying l L hs =>
    obtain ⟨above, habove⟩ := hresolving l L
    exact ⟨_, frame?_of_stack above (hs.trans habove), rfl⟩

/-- A step of the machine while a decision is under way. -/
theorem Underway.step {F : Future} (houter : ∀ ep ∈ outer, ep.depth < rest.length)
    (hv : Underway P xs base rest outer v F) (hb : v.Balanced) (hx : ∀ x, v.next? = some x → xs[v.position]? = some x)
    (he : Effect P H.recording v (g, []) .proceed v' r) :
    ∃ F', Faces P xs base rest outer v' F' ∧ ∀ cs is, F' cs is →
      F (r.2 ++ cs) ((v.inspected? P rest.length).toList ++ is) := by
  cases hs : v.stack with
  | nil =>
    obtain ⟨f, hf, -⟩ := hv.exists_frame
    simp [State.frame?, hs] at hf
  | cons f below =>
    by_cases hlookahead : ∃ d e, f = .lookahead d e
    · obtain ⟨d, e, rfl⟩ := hlookahead
      obtain ⟨L, k, rfl, hc, hm, hL, rfl⟩ := hv.of_lookahead hs
      exact step_lookahead houter hb hx hs hc hm hL he
    · have hnone : v.inspected? P rest.length = none := by
        unfold State.inspected?
        rw [hs]
        split
        · next e => exact absurd ⟨_, _, (List.cons.inj e).1⟩ hlookahead
        · rfl
      rw [hnone]
      by_cases hf : f = .resolving
      · subst hf
        obtain ⟨ep, L, rfl, hL, rfl⟩ := hv.of_resolving hs
        exact step_resolving hs hL he
      · obtain ⟨frames, ep, L, htried, rfl, hL, rfl⟩ := hv.of_tried hs hf fun d e hde => hlookahead ⟨d, e, hde⟩
        exact step_tried houter hb hx hs htried hL he

/-- Waiting for a token changes nothing. -/
theorem Underway.fed {F : Future} {v : State τ} {h : σ} (hv : Underway P xs base rest outer v F)
    (hw : (Machine.step P H v h).verdict = .await) (t : τ) :
    Underway P xs base rest outer (((Machine.step P H v h).state.settle (.ok .more)).receive t) F := by
  rw [fed_eq hw]
  cases hv with
  | deciding hs hc hm hL =>
    refine .deciding hs ?_ rfl ⟨hL.episodes, hL.ordered⟩
    show v.position = _
    rw [State.position, hm]
    exact hc
  | trying hs hL => exact .trying hs ⟨hL.episodes, hL.ordered⟩

/-- As long as the place of a decision is kept the decision is under way. -/
theorem Faces.underway_of_deciding {F : Future} (hv : Faces P xs base rest outer v F)
    (hw : ∃ f, v.frame? rest.length = some f ∧ f.isDeciding = true) : Underway P xs base rest outer v F := by
  obtain ⟨f, hf, hdeciding⟩ := hw
  cases hv with
  | underway hv => exact hv
  | made hs =>
    rw [frame?_of_stack [] hs] at hf
    cases hf
    cases hdeciding
  | abandoned hs =>
    rw [State.frame?, List.getElem?_eq_none (by rw [List.length_reverse]; exact hs)] at hf
    cases hf

/-- When a production is in the place of a decision, the decision was made. -/
theorem Faces.made_of_node {F : Future} {p : Nat} (hv : Faces P xs base rest outer v F)
    (hw : v.frame? rest.length = some (.node p)) :
    v.stack = .node p :: rest ∧ v.matched = false ∧ v.episodes = outer ∧ F = base v.cursor (some p) := by
  cases hv with
  | underway hv =>
    obtain ⟨f, hf, hdeciding⟩ := hv.exists_frame
    cases hw.symm.trans hf
    cases hdeciding
  | made hs hm he =>
    rw [frame?_of_stack [] hs] at hw
    cases hw
    exact ⟨hs, hm, he, rfl⟩
  | abandoned hs =>
    rw [State.frame?, List.getElem?_eq_none (by rw [List.length_reverse]; exact hs)] at hw
    cases hw

/-- From a state in which a decision is under way up to the one in which it was made. -/
theorem Faces.moves {F : Future} {u : State τ} {g' : σ} {past ts : List τ} {trace : List (State τ)}
    {cs : List (Event × Bool)} {p : Nat} (houter : ∀ ep ∈ outer, ep.depth < rest.length)
    (hf : Faces P xs base rest outer v F) (hv : Visits P H v g past) (hxs : xs = past ++ ts)
    (hm : Moves P H v g ts trace cs u g')
    (hdeciding : ∀ w ∈ trace, ∃ f, w.frame? rest.length = some f ∧ f.isDeciding = true)
    (hu : u.frame? rest.length = some (.node p)) :
    u.stack = .node p :: rest ∧ u.matched = false ∧ u.episodes = outer ∧
      (base u.cursor (some p) [] [] → F cs (trace.filterMap (State.inspected? P rest.length))) := by
  induction hm generalizing F past with
  | refl =>
    obtain ⟨hs, hm, he, rfl⟩ := hf.made_of_node hu
    exact ⟨hs, hm, he, id⟩
  | @step v u g g' ts trace cs hp _ ih =>
    obtain ⟨hfirst, hlater⟩ := List.forall_mem_cons.1 hdeciding
    have hx : ∀ x, v.next? = some x → xs[v.position]? = some x := fun x hnext => hxs ▸ hv.getElem?_append hnext ts
    have he := effect_recording P H v g
    rw [hp] at he
    obtain ⟨F', hF', hfollows⟩ := (hf.underway_of_deciding hfirst).step houter hv.balanced hx he
    obtain ⟨hs, hm, he, hbase⟩ := ih hF' (hv.step hp) hxs hlater hu
    refine ⟨hs, hm, he, fun h => ?_⟩
    rw [filterMap_inspected?_cons]
    exact hfollows _ _ (hbase h)
  | @feed v u g g' t ts trace cs hw _ ih =>
    obtain ⟨hfirst, hlater⟩ := List.forall_mem_cons.1 hdeciding
    have hunderway := hf.underway_of_deciding hfirst
    have hxs' : xs = past ++ [t] ++ ts := by rw [hxs, List.append_assoc]; rfl
    obtain ⟨hs, hm, he, hbase⟩ := ih (.underway (hunderway.fed hw t)) (hv.feed hw t) hxs' hlater hu
    have hwaits := effect_recording P H v g
    rw [hw] at hwaits
    obtain ⟨-, hsilent, hnext⟩ := hwaits.waited
    have hcalls : calls P H v g = [] := congrArg (·.2) hsilent
    refine ⟨hs, hm, he, fun h => ?_⟩
    rw [filterMap_inspected?_cons, inspected?_of_next? hnext, hcalls]
    exact hbase h

end Reading

section Decisions

variable [Terminal τ] {P : Program} {H : Host σ τ}

/-- A decision that is due begins at the current position. -/
theorem Effect.begun {s s' : State τ} {h h' : σ} {n d : Nat} {rest : List Frame} (he : Effect P H s h .proceed s' h')
    (hs : s.stack = .node n :: rest) (hd : P.instruction n = .decision d) : s' = s.beginDecision d rest := by
  cases he with
  | passed hs' | left hs' | committed hs' | resolved hs' | attempted hs' | followed hs' | defaulted hs' =>
    cases hs.symm.trans hs'
  | matched hs' hn | entered hs' hn | unfolded hs' hn | acted hs' hn | armed hs' hn =>
    cases hs.symm.trans hs'
    cases hd.symm.trans hn
  | skipped hs' hn =>
    cases hs.symm.trans hs'
    rw [hd] at hn
    rcases hn with hn | ⟨_, hn⟩ <;> cases hn
  | began hs' hn =>
    cases hs.symm.trans hs'
    cases hd.symm.trans hn
    rfl
  | rolledBack hmiss =>
    cases hmiss with
    | transition hs' => cases hs.symm.trans hs'
    | token hs' hn | symbol hs' hn | action hs' hn =>
      cases hs.symm.trans hs'
      cases hd.symm.trans hn

/-- **A lookahead decision is the one that the automaton specifies.** In the state `s` a decision above the frames `rest` is
due and begins; the machine goes on, over any number of steps and fed tokens, as long as the place of the decision is kept,
and in the state `u` the production `p` is in its place. Then the decision from the position of `s` falls on `p` and on
nothing else, with the answers of the host to the actions on the way; the tokens that the machine inspects for it are those
from there on, one after another, each of them once; and the machine goes on with `p` from there. -/
theorem fallsOn_of_decision {s u : State τ} {h g : σ} {past ts : List τ} {trace : List (State τ)}
    {cs : List (Event × Bool)} {n d p : Nat} {rest : List Frame} (hv : Visits P H s h past) (hs : s.stack = .node n :: rest)
    (hd : P.instruction n = .decision d) (hp : (step P H s h).verdict = .proceed)
    (hm : Moves P H (step P H s h).state (step P H s h).host ts trace cs u g)
    (hdeciding : ∀ w ∈ trace, ∃ f, w.frame? rest.length = some f ∧ f.isDeciding = true)
    (hu : u.frame? rest.length = some (.node p)) :
    FallsOn P (past ++ ts) s.position d 0 cs (trace.filterMap (State.inspected? P rest.length)) (some p) ∧
      (∀ is r, FallsOn P (past ++ ts) s.position d 0 cs is r → r = some p) ∧
      trace.filterMap (State.inspected? P rest.length) =
        List.range' s.position (trace.filterMap (State.inspected? P rest.length)).length ∧
      u.stack = .node p :: rest ∧ u.cursor = s.position ∧ u.matched = false ∧ u.episodes = s.episodes := by
  obtain ⟨k, ht, -⟩ := hv.balanced
  rw [hs] at ht
  -- the outermost decision comes to an end in the state `u`, and nothing more is asked of it there
  let base : Nat → Option Nat → Future := fun e r cs is => e = u.cursor ∧ r = some p ∧ cs = [] ∧ is = []
  have hbegun : Faces P (past ++ ts) base rest s.episodes (step P H s h).state
      (Deciding P (past ++ ts) true s.position d 0 (base s.position)) := by
    rw [(effect_of_verdict hp).begun hs hd, State.beginDecision, advance_eq]
    exact .underway (.deciding (L := []) (k := 0) rfl rfl rfl ⟨rfl, trivial⟩)
  obtain ⟨hstack, hmatched, hepisodes, hmade⟩ :=
    hbegun.moves ht.of_node.length_le (hv.step hp) rfl hm hdeciding hu
  obtain ⟨cs₁, _, is₁, _, _, hfalls, ⟨hcursor, rfl, rfl, rfl⟩, hcs, his⟩ := hmade ⟨rfl, rfl, rfl, rfl⟩
  rw [List.append_nil] at hcs his
  rw [if_pos rfl] at his
  rw [his, hcs]
  have hsame : cs₁ ++ [] = cs₁ ++ [] := rfl
  exact ⟨hfalls, fun is r h => (h.unique hfalls hsame).2.2, hfalls.positions, hstack, hcursor.symm, hmatched, hepisodes⟩

/-- On the tokens `2 4` both are inspected, although the resolver failed at the second one in between. -/
theorem probing_fallsOn : ∃ u : State Nat, u.stack = [.node 2, .finish] ∧ u.cursor = 0 ∧
    FallsOn probing [2, 4] 0 0 0 [] [0, 1] (some 2) := by
  have hp : (Parser.start probing 0 false ⟨{}, ()⟩ : Parser Unit Nat).Reachable probing Host.silent [] :=
    (Parser.Reachable.new ()).start 0 false
  have hfirst := Visits.intro hp rfl (.refl ((Parser.start probing 0 false ⟨{}, ()⟩ : Parser Unit Nat).state.receive 2) ())
  have h : (walk probing Host.silent 7 (step probing Host.silent
      ((Parser.start probing 0 false ⟨{}, ()⟩ : Parser Unit Nat).state.receive 2) ()).state () [4]).any fun w =>
        (w.trace.all fun v => (v.frame? 1).any Frame.isDeciding) ∧
          w.trace.filterMap (State.inspected? probing 1) = [0, 1] ∧ w.calls = [] ∧
          w.state.frame? 1 = some (.node 2) := by decide
  obtain ⟨w, hw, h⟩ := Option.any_eq_true _ _ |>.1 h
  obtain ⟨hdeciding, hinspected, hcalls, hu⟩ := of_decide_eq_true h
  have hkept : ∀ v ∈ w.trace, ∃ f, v.frame? 1 = some f ∧ f.isDeciding = true := fun v hv =>
    Option.any_eq_true _ _ |>.1 (List.all_eq_true.1 hdeciding v hv)
  have hheight : [Frame.finish].length = 1 := rfl
  obtain ⟨hfalls, -, -, hstack, hcursor, -⟩ :=
    fallsOn_of_decision hfirst rfl rfl rfl (moves_of_walk hw) (hheight ▸ hkept) (hheight ▸ hu)
  rw [hheight, hinspected, hcalls] at hfalls
  exact ⟨w.state, hstack, hcursor, hfalls⟩

end Decisions

end Machine

end PredictiveParser
