import PredictiveParser.Proofs.Machine.Batch

/-!
# How many steps a parse takes

The number of steps from one state to another is counted by the runs that they save (`Gets`). If a machine that has all tokens
from the start stops within some number of steps, then so does every call of a machine that is given them one by one
(`Beside.feed_of_run`).
-/

namespace PredictiveParser.Machine

variable {σ τ : Type} [Terminal τ] {P : Program} {H : Host σ τ}

/-! ## Counting steps -/

/-- Within `n` steps the machine gets from one state to another. -/
def Gets (P : Program) (H : Host σ τ) (n : Nat) (s : State τ) (h : σ) (s' : State τ) (h' : σ) : Prop :=
  ∀ m stop, run P H m s' h' = some stop → run P H (n + m) s h = some stop

theorem Gets.refl (s : State τ) (h : σ) : Gets P H 0 s h s h := by
  intro m stop hr
  rwa [Nat.zero_add]

theorem Gets.trans {m n : Nat} {s s' s'' : State τ} {h h' h'' : σ} (hm : Gets P H m s h s' h')
    (hn : Gets P H n s' h' s'' h'') : Gets P H (m + n) s h s'' h'' := by
  intro k stop hr
  rw [Nat.add_assoc]
  exact hm _ _ (hn _ _ hr)

theorem Gets.mono {m n : Nat} {s s' : State τ} {h h' : σ} (hm : Gets P H m s h s' h') (hle : m ≤ n) :
    Gets P H n s h s' h' :=
  fun k stop hr => run_le (Nat.add_le_add_right hle k) (hm k stop hr)

/-- A step that goes on. -/
theorem Gets.of_step {s s' : State τ} {h h' : σ} {remarks : List Remark}
    (hstep : step P H s h = ⟨.proceed, s', h', remarks⟩) : Gets P H 1 s h s' h' := by
  intro m stop hr
  rw [Nat.add_comm, run, hstep]
  exact hr

/-! ## Token by token -/

namespace Beside

variable {all past : List τ} {s w : State τ} {h : σ}

/-- **A call takes no more steps than the whole run.** Then more tokens are needed, not all of which were given, and the second
machine is beside the first one again once the next token is there; or both stop. If they accept, the end of the input was among
the tokens, and if they wait, no token is left. -/
theorem feed_of_run (hH : H.Oblivious) {p : Parser σ τ} {t : τ} (hp : p.state.status = .running)
    (hb : Beside P H all (p.state.receive t) p.host past w) {n : Nat} {stop : Stop σ τ}
    (hr : run P H n w p.host = some stop) : ∃ a q, p.feed P H n t = some (a, q) ∧
      ((a = .ok .more ∧ past ≠ all ∧ q.state.status = .running ∧ ∀ t', past ++ [t'] <+: all →
          ∃ w', Beside P H all (q.state.receive t') q.host (past ++ [t']) w' ∧ run P H n w' q.host = some stop) ∨
        stop.EndsAs a q ∧ (a = .ok .done → ∃ t ∈ past, Terminal.id t = endToken) ∧ (a = .ok .more → past = all)) := by
  obtain ⟨s', h', w', a, hrun, ha, hb', hr'⟩ := hb.exists_run hH hr
  refine ⟨a, ⟨(Machine.step P H s' h').state.settle a, (Machine.step P H s' h').host⟩, ?_, ?_⟩
  · exact (Parser.feed_eq_some_iff hp).2 ⟨_, hrun, rfl, rfl⟩
  by_cases hmore : a = .ok .more ∧ past ≠ all
  · obtain ⟨rfl, hpast⟩ := hmore
    have hv := Verdict.answer?_eq_more ha
    refine .inl ⟨rfl, hpast, (step_frame s' h').2.trans hb'.visits.status, fun t' ht' => ⟨w', hb'.feed hv ht', ?_⟩⟩
    rwa [(effect_of_verdict hv).waited.2.1]
  · obtain ⟨stop', hstop, hends⟩ := hb'.exists_stop hH ha fun h => not_not.1 fun hpast => hmore ⟨h, hpast⟩
    have hn : 1 ≤ n := Nat.pos_of_ne_zero fun h => by rw [h] at hr'; cases hr'
    cases (run_le hn hstop).symm.trans hr'
    refine .inr ⟨hends, fun hdone => ?_, fun h => not_not.1 fun hpast => hmore ⟨h, hpast⟩⟩
    subst hdone
    have hv : (Machine.step P H s' h').verdict = .accept := by
      cases hv : (Machine.step P H s' h').verdict <;> rw [hv] at ha <;> cases ha
    obtain ⟨-, -, t, hnext, hend⟩ := (effect_of_verdict hv).closed hb'.visits.balanced
    exact ⟨t, List.mem_of_getElem? (hb'.visits.getElem?_position hnext), hend⟩

end Beside

end PredictiveParser.Machine
