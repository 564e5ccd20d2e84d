import Mathlib.Logic.Relation
import PredictiveParser.Proofs.Decision.Tests
import PredictiveParser.Proofs.Machine.Alignment

/-!
# Runs that end

To match a node the machine comes to other nodes before it matches a token: from a symbol to a production, from a sequence to
its parts, from a decision to the resolvers that it tries and to the production that it falls on (`Program.Opens`). If no
node comes before itself in this order then every run of the machine ends (`Visits.ends`). As long as the machine does not
match a token it goes down the order, and it can only match the tokens that were fed. A failed resolver does not start
this again: the machine goes back, but to a decision that has fewer tests left.

What is shown of a node is that every run ends that begins with it, provided that it ends behind the node (`Passes`), and of
the stack that every run ends that begins with it or goes back into it (`Aligned.ends`).
-/

namespace PredictiveParser

/-! ## Nodes that come before a token -/

/-- The machine can get behind the node `n` without matching the token `t` that comes. -/
inductive Program.Vanishes (P : Program) (t : Nat) : (n : Nat) → Prop
  | epsilon {n : Nat} : P.instruction n = .epsilon → P.Vanishes t n
  | action {n a : Nat} : P.instruction n = .action a → P.Vanishes t n
  | argument {n a : Nat} : P.instruction n = .argument a → P.Vanishes t n
  | beacon {n slot : Nat} : P.instruction n = .beacon slot → P.Vanishes t n
  | sequence {n : Nat} {parts : List Nat} : P.instruction n = .sequence parts → (∀ m ∈ parts, P.Vanishes t m) →
      P.Vanishes t n
  | symbol {n a p : Nat} : P.instruction n = .symbol a → (P.lookup a t <|> P.emptyProduction a) = some p →
      P.Vanishes t p → P.Vanishes t n
  | decision {n d p : Nat} : P.instruction n = .decision d → P.Decides d p → P.Vanishes t p → P.Vanishes t n

/-- To match the node `n` the machine can come to the node `m` without matching the token `t` that comes. -/
inductive Program.Opens (P : Program) (t : Nat) : (n m : Nat) → Prop
  | production {n a p : Nat} : P.instruction n = .symbol a → (P.lookup a t <|> P.emptyProduction a) = some p →
      P.Opens t n p
  | part {n m : Nat} {pre post : List Nat} : P.instruction n = .sequence (pre ++ m :: post) →
      (∀ i ∈ pre, P.Vanishes t i) → P.Opens t n m
  | decided {n d p : Nat} : P.instruction n = .decision d → P.Decides d p → P.Opens t n p
  | asked {n d m : Nat} : P.instruction n = .decision d → P.Asks d m → P.Opens t n m

/-- To match some node the machine can come to this node again without matching a token. -/
def Program.Circular (P : Program) : Prop :=
  ∃ t n, Relation.TransGen (P.Opens t) n n

/-- A token that is found is below the stop. -/
theorem TokenWindow.lt_stop {τ : Type} {w : TokenWindow τ} {p : Nat} {x : τ} (h : w.get? p = some x) : p < w.stop := by
  unfold TokenWindow.get? at h
  split at h
  · cases h
  · obtain ⟨hlt, -⟩ := Array.getElem?_eq_some_iff.1 h
    unfold TokenWindow.stop TokenWindow.size
    omega

namespace Machine

variable {σ τ : Type} [Terminal τ]

/-! ## Runs and stacks that end -/

/-- Every run from the state ends, whatever the state of the host is. -/
def State.Ends (P : Program) (H : Host σ τ) (s : State τ) : Prop :=
  ∀ h, ∃ fuel stop, run P H fuel s h = some stop

/-- The runs from a state end if those from all states after it do. -/
theorem State.Ends.of_step {P : Program} {H : Host σ τ} {s : State τ}
    (hs : ∀ {h h' : σ} {s' : State τ}, Effect P H s h .proceed s' h' → s'.window = s.window → s'.Ends P H) :
    s.Ends P H := by
  intro h
  cases hv : (step P H s h).verdict with
  | proceed =>
    obtain ⟨fuel, stop, hr⟩ := hs (effect_of_verdict hv) (step_frame s h).1 (step P H s h).host
    exact ⟨fuel + 1, stop, by rw [run, hv]; exact hr⟩
  | await | accept | reject => exact ⟨1, _, by rw [run, hv]⟩

section Stacks

variable (P : Program) (H : Host σ τ) (w : TokenWindow τ)

/-- Every run ends that begins with the frames `stack` and the episodes `es` at the position `k`. -/
def EndsAt (stack : List Frame) (es : List Episode) (k : Nat) : Prop :=
  ∀ s : State τ, s.window = w → s.stack = stack → s.episodes = es → s.position = k → s.Ends P H

/-- Every run ends that goes back through the episodes `es` from above the frames `stack`. -/
def EndsBack (stack : List Frame) (es : List Episode) : Prop :=
  ∀ (b : State τ) (symbol? : Option Nat) (s' : State τ), b.window = w → stack <:+ b.stack →
    unwind P es symbol? b = (none, s') → s'.Ends P H

/-- The terminal of the token at a position, or the end where no token was fed. -/
def terminalAt (k : Nat) : Nat :=
  ((w.get? k).map Terminal.id).getD endToken

/-- Every run ends that begins with the node `n` at the position `k`, if it ends behind the node: after further tokens or, if
the node can vanish, at the same position. -/
def Passes (k n : Nat) : Prop :=
  ∀ stack es, EndsBack P H w stack es → (k < w.stop → ∀ k' > k, EndsAt P H w stack es k') →
    (P.Vanishes (terminalAt w k) n → EndsAt P H w stack es k) → EndsAt P H w (.node n :: stack) es k

variable {P H w} {stack : List Frame} {es : List Episode} {k : Nat}

/-! ### Going back -/

theorem EndsBack.nil : EndsBack P H w stack [] := by
  intro b symbol? s' _ _ hu
  cases hu

theorem EndsBack.of_suffix {stack' : List Frame} (h : EndsBack P H w stack es) (hs : stack <:+ stack') :
    EndsBack P H w stack' es :=
  fun b symbol? s' hw hb hu => h b symbol? s' hw (hs.trans hb) hu

theorem EndsBack.cons (h : EndsBack P H w stack es) (f : Frame) : EndsBack P H w (f :: stack) es :=
  h.of_suffix (List.suffix_cons f stack)

/-- Going back into a resolver takes its else branch, or goes back further. -/
theorem EndsBack.resolving {e : Episode} (hback : EndsBack P H w stack es) (hdepth : e.depth = stack.length)
    (hdfa : ∀ d, e.otherwise = some (.dfa d) → ∀ s : State τ, s.window = w →
      s.stack = .lookahead d e.entry :: stack → s.episodes = es → s.cursor = e.resume → s.Ends P H)
    (hnode : ∀ p, e.otherwise = some (.node p) → EndsAt P H w (.node p :: stack) es e.entry) :
    EndsBack P H w (.resolving :: stack) (e :: es) := by
  intro b symbol? s' hw ⟨above, hb⟩ hu
  rw [unwind, undo_eq es hb.symm hdepth] at hu
  cases ho : e.otherwise with
  | none =>
    rw [ho] at hu
    exact hback _ _ s' (by exact hw) (by exact List.suffix_rfl) hu
  | some target =>
    cases target with
    | dfa d =>
      rw [ho] at hu
      cases hu
      exact hdfa d ho _ hw rfl rfl rfl
    | node p =>
      rw [ho] at hu
      cases hu
      exact hnode p ho _ hw rfl rfl rfl

/-- Where an error is answered the run goes back into the frames below the top. -/
theorem EndsBack.ends {s b s' : State τ} {h h' : σ} {error : ParseError} {f : Frame} (hback : EndsBack P H w stack es)
    (hw : s.window = w) (hs : s.stack = f :: stack) (hm : Misses P H s h b h' error)
    (hu : unwind P es none b = (none, s')) : s'.Ends P H := by
  refine hback b none s' (by rw [hm.state_eq]; exact hw) ?_ hu
  have hadvance : stack <:+ s.advance.stack := by
    rw [stack_advance, hs]
    exact List.suffix_cons f stack
  cases hm with
  | transition | token | symbol => exact hadvance
  | action hs' =>
    cases hs.symm.trans hs'
    exact List.suffix_rfl

/-! ### Frames -/

/-- At the end of the input a run stops. -/
theorem EndsAt.finish : EndsAt P H w (.finish :: stack) es k := by
  intro s _ hs _ _
  refine .of_step fun he _ => ?_
  cases he with
  | rolledBack hm => cases hm with | _ hs' => cases hs.symm.trans hs'
  | _ hs' => cases hs.symm.trans hs'

/-- A run ends from the mark of a symbol on if it ends behind it. -/
theorem EndsAt.entered (hend : EndsAt P H w stack es k) (a : Nat) (speculative : Bool) :
    EndsAt P H w (.entered a speculative :: stack) es k := by
  intro s hw hs hes hk
  refine .of_step fun he hw' => ?_
  cases he with
  | passed hs' | left hs' =>
    cases hs.symm.trans hs'
    exact hend _ (hw'.trans hw) rfl hes hk
  | rolledBack hm => cases hm with | _ hs' => cases hs.symm.trans hs'
  | _ hs' => cases hs.symm.trans hs'

/-- When a resolver is matched a run ends if it ends from the beginning of the decision on. -/
theorem EndsAt.resolving {e : Episode} (hend : EndsAt P H w (.node e.accept :: stack) es e.entry) :
    EndsAt P H w (.resolving :: stack) (e :: es) k := by
  intro s hw hs hes _
  refine .of_step fun he hw' => ?_
  cases he with
  | committed hs' hes' =>
    cases hs.symm.trans hs'
    cases hes.symm.trans hes'
    exact hend _ (hw'.trans hw) rfl rfl rfl
  | rolledBack hm => cases hm with | _ hs' => cases hs.symm.trans hs'
  | _ hs' => cases hs.symm.trans hs'

/-- Where nodes are passed at every later position a run ends if it ends behind them. -/
theorem EndsAt.nodes (hpass : ∀ k' > k, ∀ n, Passes P H w k' n) (hback : EndsBack P H w stack es)
    (hend : ∀ k' > k, EndsAt P H w stack es k') (ns : List Nat) :
    EndsBack P H w (ns.map .node ++ stack) es ∧ ∀ k' > k, EndsAt P H w (ns.map .node ++ stack) es k' := by
  induction ns with
  | nil => exact ⟨hback, hend⟩
  | cons n ns ih =>
    refine ⟨ih.1.cons _, fun k' hk' => ?_⟩
    exact hpass k' hk' n _ es ih.1 (fun _ k'' hk'' => ih.2 k'' (by omega)) fun _ => ih.2 k' hk'

/-! ### Decisions -/

/-- A decision ends if its resolvers are passed and a run ends with every production that it can fall on. -/
theorem ends_of_lookahead {d : Nat} {s : State τ} (hfalls : P.Falls) (hback : EndsBack P H w stack es)
    (hasks : ∀ n, P.Asks d n → Passes P H w k n) (hdecides : ∀ p, P.Decides d p → EndsAt P H w (.node p :: stack) es k)
    (hw : s.window = w) (hs : s.stack = .lookahead d k :: stack) (hes : s.episodes = es) : s.Ends P H := by
  refine .of_step fun he hw' => ?_
  cases he with
  | resolved hs' hd =>
    cases hs.symm.trans hs'
    exact hdecides _ (.leaf hd) _ (hw'.trans hw) rfl hes rfl
  | @attempted _ _ n p otherwise _ hs' hd =>
    cases hs.symm.trans hs'
    let e : Episode := ⟨stack.length, k, s.cursor, p, otherwise⟩
    have haccept : EndsAt P H w (.node e.accept :: stack) es e.entry := hdecides p (.accept hd)
    -- if the resolver fails the decision goes on with the same token and fewer tests
    have hback' : EndsBack P H w (.resolving :: stack) (e :: es) := by
      refine hback.resolving rfl (fun d' ho s' hw'' hs'' hes'' hcursor => ?_) fun p' ho => ?_
      · have hd' : P.dfa d = .resolver n p (some (.dfa d')) := hd.trans (congrArg _ ho)
        have hsame : s'.cursor = s.cursor := hcursor
        have hlt : d' < d := hfalls d n p d' hd'
        exact ends_of_lookahead hfalls hback (fun n' h => hasks n' (.otherwise hd' h))
          (fun p' h => hdecides p' (.otherwise hd' h)) hw'' hs'' hes''
      · exact hdecides p' (.node (hd.trans (congrArg _ ho)))
    exact hasks n (.resolver hd) _ _ hback' (fun _ _ _ => .resolving haccept) (fun _ => .resolving haccept) _
      (hw'.trans hw) rfl (congrArg (e :: ·) hes) rfl
  | @followed _ _ d' _ _ x hs' hd hx ht =>
    cases hs.symm.trans hs'
    have hlt : s.position < w.stop := hw ▸ TokenWindow.lt_stop hx
    have hle : s.cursor ≤ s.position := Nat.le_add_right _ _
    exact ends_of_lookahead hfalls hback (fun n' h => hasks n' (.transition hd ht h))
      (fun p' h => hdecides p' (.transition hd ht h)) (hw'.trans hw) rfl ((episodes_advance s).trans hes)
  | defaulted hs' hd =>
    cases hs.symm.trans hs'
    exact hdecides _ (.default hd) _ (hw'.trans hw) rfl ((episodes_advance s).trans hes) rfl
  | rolledBack hm _ hu => exact hback.ends hw hs hm (hes ▸ hu)
  | _ hs' => cases hs.symm.trans hs'
termination_by (w.stop - s.cursor, d)
decreasing_by
  · rw [hsame]
    exact Prod.Lex.right _ hlt
  · refine Prod.Lex.left _ _ ?_
    show w.stop - (s.position + 1) < w.stop - s.cursor
    omega

/-! ### Nodes -/

theorem id_eq_terminalAt {s : State τ} {x : τ} (hw : s.window = w) (hk : s.position = k) (hx : s.next? = some x) :
    Terminal.id x = terminalAt w k := by
  unfold State.next? at hx
  rw [hw, hk] at hx
  unfold terminalAt
  rw [hx]
  rfl

/-- What the machine takes for a symbol is what the tables have for it, or else its empty production. -/
theorem taken_of_production {s : State τ} {a p : Nat} {x : τ} (h : s.production? P a x = some p) :
    (P.lookup a (Terminal.id x) <|> P.emptyProduction a) = some p := by
  unfold State.production? at h
  cases hl : P.lookup a (Terminal.id x) with
  | some q =>
    rw [hl] at h
    exact h
  | none =>
    rw [hl] at h
    split at h
    · exact h
    · cases h

/-- Parts of a sequence are passed one after another. -/
theorem endsAt_parts {parts : List Nat}
    (hopens : ∀ pre m post, parts = pre ++ m :: post → (∀ i ∈ pre, P.Vanishes (terminalAt w k) i) → Passes P H w k m)
    (hlater : k < w.stop → ∀ k' > k, ∀ m, Passes P H w k' m) (hback : EndsBack P H w stack es)
    (hend : k < w.stop → ∀ k' > k, EndsAt P H w stack es k')
    (hhere : (∀ m ∈ parts, P.Vanishes (terminalAt w k) m) → EndsAt P H w stack es k) :
    EndsAt P H w (parts.map .node ++ stack) es k := by
  induction parts with
  | nil => exact hhere nofun
  | cons m parts ih =>
    have hback' : EndsBack P H w (parts.map .node ++ stack) es := hback.of_suffix (List.suffix_append _ _)
    refine hopens [] m parts rfl nofun _ es hback' (fun hlt => ?_) fun hm => ?_
    · exact (EndsAt.nodes (hlater hlt) hback (hend hlt) parts).2
    · -- a part that vanishes is the next one in front of the others
      refine ih (fun pre m' post e hpre => ?_) fun hparts => hhere (List.forall_mem_cons.2 ⟨hm, hparts⟩)
      exact hopens (m :: pre) m' post (congrArg (m :: ·) e) (List.forall_mem_cons.2 ⟨hm, hpre⟩)

/-- A node is passed if all nodes that it opens are, and later all nodes. -/
theorem passes_of_opens {n : Nat} (hfalls : P.Falls) (hopens : ∀ m, P.Opens (terminalAt w k) n m → Passes P H w k m)
    (hlater : k < w.stop → ∀ k' > k, ∀ m, Passes P H w k' m) : Passes P H w k n := by
  intro stack es hback hend hhere s hw hs hes hk
  refine .of_step fun {h h' s'} he hw' => ?_
  cases he with
  | @matched n' expected rest x hs' hn hx =>
    cases hs.symm.trans hs'
    have hlt : k < w.stop := by
      unfold State.next? at hx
      rw [hw, hk] at hx
      exact TokenWindow.lt_stop hx
    refine hend hlt (k + 1) (Nat.lt_succ_self k) _ (hw'.trans hw) ?_ ?_ ?_
    all_goals rw [consume_eq]
    · exact (episodes_advance s).trans hes
    · exact congrArg (· + 1) ((cursor_advance s).trans hk)
  | @entered n' a p rest x hs' hn hx hp =>
    cases hs.symm.trans hs'
    have hp' : (P.lookup a (terminalAt w k) <|> P.emptyProduction a) = some p := by
      rw [← id_eq_terminalAt hw hk hx]
      exact taken_of_production hp
    refine hopens p (.production hn hp') (.entered a s.isSpeculating :: stack) es (hback.cons _)
      (fun hlt k' hk' => (hend hlt k' hk').entered a _) (fun hv => (hhere (.symbol hn hp' hv)).entered a _) _ (hw'.trans hw)
      ?_ ((episodes_advance s).trans hes) ?_
    · rw [← isSpeculating_advance s]
      rfl
    · exact (position_advance s).trans hk
  | unfolded hs' hn =>
    cases hs.symm.trans hs'
    refine endsAt_parts (fun pre m post e hpre => hopens m (.part (e ▸ hn) hpre)) hlater hback hend
      (fun hparts => hhere (.sequence hn hparts)) _ (hw'.trans hw) rfl hes hk
  | acted hs' hn =>
    cases hs.symm.trans hs'
    exact hhere (.action hn) _ (hw'.trans hw) rfl hes hk
  | armed hs' hn =>
    cases hs.symm.trans hs'
    exact hhere (.beacon hn) _ (hw'.trans hw) rfl hes hk
  | skipped hs' hn =>
    cases hs.symm.trans hs'
    refine hhere ?_ _ (hw'.trans hw) rfl hes hk
    rcases hn with hn | ⟨a, hn⟩
    · exact .epsilon hn
    · exact .argument hn
  | @began n' d rest x hs' hn =>
    cases hs.symm.trans hs'
    refine ends_of_lookahead (k := k) (d := d) hfalls hback (fun m hm => hopens m (.asked hn hm)) (fun p hp => ?_)
      (hw'.trans hw) ?_ ((episodes_advance s).trans hes)
    · exact hopens p (.decided hn hp) stack es hback hend fun hv => hhere (.decision hn hp hv)
    · rw [← hk, ← cursor_advance s]
      rfl
  | rolledBack hm _ hu => exact hback.ends hw hs hm (hes ▸ hu)
  | _ hs' => cases hs.symm.trans hs'

/-- **All nodes are passed if none comes before itself.** -/
theorem passes (hfalls : P.Falls) (hwf : ∀ t, WellFounded fun m n => P.Opens t n m) (k n : Nat) : Passes P H w k n := by
  induction hj : w.stop - k using Nat.strong_induction_on generalizing k n with
  | _ j ihj =>
    induction n using (hwf (terminalAt w k)).induction with
    | _ n ih =>
      refine passes_of_opens hfalls ih fun hlt k' hk' m => ihj (w.stop - k') (by omega) k' m rfl

/-- **Every run ends that begins with an aligned stack or goes back into one.** -/
theorem Aligned.ends {symbols : List Nat} {i : Nat} (ha : Aligned stack symbols es i) (hfalls : P.Falls)
    (hwf : ∀ t, WellFounded fun m n => P.Opens t n m) : EndsBack P H w stack es ∧ ∀ k, EndsAt P H w stack es k := by
  have hpass := fun k n => passes (H := H) (w := w) hfalls hwf k n
  induction ha with
  | finish => exact ⟨.nil, fun _ => .finish⟩
  | node _ ih => exact ⟨ih.1.cons _, fun k => hpass k _ _ _ ih.1 (fun _ k' _ => ih.2 k') fun _ => ih.2 k⟩
  | committed _ ih => exact ⟨.nil, fun k => (ih.2 k).entered _ _⟩
  | speculative _ _ ih => exact ⟨ih.1.cons _, fun k => (ih.2 k).entered _ _⟩
  | @resolving e _ stack _ es hdepth _ ih =>
    have hnode : ∀ p, EndsAt P H w (.node p :: stack) es e.entry := fun p =>
      hpass e.entry p _ _ ih.1 (fun _ k' _ => ih.2 k') fun _ => ih.2 e.entry
    refine ⟨ih.1.resolving hdepth (fun d _ s hw hs hes _ => ?_) fun p _ => hnode p, fun k => .resolving (hnode _)⟩
    exact ends_of_lookahead hfalls ih.1 (fun n _ => hpass _ n) (fun p _ => hnode p) hw hs hes

end Stacks

variable {P : Program} {H : Host σ τ} {s : State τ} {h : σ} {past : List τ}

/-- **Every run ends if no node comes before itself.** -/
theorem Visits.ends (hv : Visits P H s h past) (hfalls : P.Falls) (hwf : ∀ t, WellFounded fun m n => P.Opens t n m) :
    s.Ends P H := by
  obtain ⟨k, ht, -⟩ := hv.balanced
  generalize hs : s.stack = stack, hes : s.episodes = es at ht
  cases ht with
  | settled ha => exact (ha.ends hfalls hwf).2 _ s rfl hs hes rfl
  | deciding ha =>
    obtain ⟨hback, hend⟩ := ha.ends (H := H) (w := s.window) hfalls hwf
    refine ends_of_lookahead hfalls hback (fun n _ => passes hfalls hwf _ n) (fun p _ => ?_) rfl hs hes
    exact passes hfalls hwf _ p _ _ hback (fun _ k' _ => hend k') fun _ => hend _

/-- **Every token is answered if no node comes before itself.** -/
theorem Parser.Reachable.exists_feed {p : Parser σ τ} (hp : p.Reachable P H past) (hfalls : P.Falls)
    (hwf : ∀ t, WellFounded fun m n => P.Opens t n m) (t : τ) : ∃ fuel a q, p.feed P H fuel t = some (a, q) := by
  unfold Parser.feed
  cases hs : p.state.status with
  | running =>
    obtain ⟨fuel, stop, hr⟩ := (Visits.intro hp hs (.refl (p.state.receive t) p.host)).ends hfalls hwf p.host
    exact ⟨fuel, stop.answer, _, by rw [hr]; rfl⟩
  | idle | done | failed => exact ⟨0, _, _, rfl⟩

end Machine

end PredictiveParser
