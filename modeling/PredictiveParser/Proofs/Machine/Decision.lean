import PredictiveParser.Proofs.Machine.Effect

/-!
# What a decision comes to

Lookahead decisions, and the nodes that their resolvers try, are specified by recursion over the automaton and the nodes,
without a machine (`FallsOn`, `Attempts`). A decision inspects the tokens from its beginning on one after another
(`FallsOn.positions`), and given the tokens and the answers of the host to actions it has only one result (`FallsOn.unique`).
-/

namespace PredictiveParser.Machine

variable {τ : Type}

variable [Terminal τ] (P : Program) (xs : List τ)

mutual

/-- The nodes `ns` are tried from the token position `q` on, with the answers `cs` of the host to the actions; `ok` says
whether they match. -/
inductive Attempts : (ns : List Nat) → (q : Nat) → (cs : List (Event × Bool)) → (ok : Bool) → Prop
  | nil {q : Nat} : Attempts [] q [] true
  | token {n t q : Nat} {x : τ} {ns : List Nat} {cs : List (Event × Bool)} {ok : Bool} : P.instruction n = .token t →
      xs[q]? = some x → accepts t (Terminal.id x) = true → Attempts ns (q + 1) cs ok → Attempts (n :: ns) q cs ok
  | mismatch {n t q : Nat} {x : τ} {ns : List Nat} : P.instruction n = .token t → xs[q]? = some x →
      accepts t (Terminal.id x) = false → Attempts (n :: ns) q [] false
  | symbol {n a p q : Nat} {x : τ} {ns : List Nat} {cs : List (Event × Bool)} {ok : Bool} : P.instruction n = .symbol a →
      xs[q]? = some x → (P.lookup a (Terminal.id x) <|> P.emptyProduction a) = some p → Attempts (p :: ns) q cs ok →
      Attempts (n :: ns) q cs ok
  | unpredicted {n a q : Nat} {x : τ} {ns : List Nat} : P.instruction n = .symbol a → xs[q]? = some x →
      (P.lookup a (Terminal.id x) <|> P.emptyProduction a) = none → Attempts (n :: ns) q [] false
  | sequence {n q : Nat} {parts ns : List Nat} {cs : List (Event × Bool)} {ok : Bool} :
      P.instruction n = .sequence parts → Attempts (parts ++ ns) q cs ok → Attempts (n :: ns) q cs ok
  | action {n a q : Nat} {ns : List Nat} {cs : List (Event × Bool)} {ok : Bool} : P.instruction n = .action a →
      Attempts ns q cs ok → Attempts (n :: ns) q ((.action a, true) :: cs) ok
  | refused {n a q : Nat} {ns : List Nat} : P.instruction n = .action a →
      Attempts (n :: ns) q [(.action a, false)] false
  | silent {n q : Nat} {ns : List Nat} {cs : List (Event × Bool)} {ok : Bool} :
      P.instruction n = .epsilon ∨ (∃ a, P.instruction n = .argument a) ∨ (∃ slot, P.instruction n = .beacon slot) →
      Attempts ns q cs ok → Attempts (n :: ns) q cs ok
  | decided {n d p q : Nat} {ns is : List Nat} {cs cs' : List (Event × Bool)} {ok : Bool} :
      P.instruction n = .decision d → FallsOn q d 0 cs is (some p) → Attempts (p :: ns) q cs' ok →
      Attempts (n :: ns) q (cs ++ cs') ok
  | undecided {n d q : Nat} {ns is : List Nat} {cs : List (Event × Bool)} : P.instruction n = .decision d →
      FallsOn q d 0 cs is none → Attempts (n :: ns) q cs false

/-- A decision that began at the token position `e` is in the automaton state `d` and has inspected `k` tokens. With the
answers `cs` of the host to actions it inspects the tokens at the positions `is` and falls on the production `r`, or on
none. -/
inductive FallsOn : (e d k : Nat) → (cs : List (Event × Bool)) → (is : List Nat) → (r : Option Nat) → Prop
  | leaf {e d k p : Nat} : P.dfa d = .leaf p → FallsOn e d k [] [] (some p)
  | follow {e d d' k : Nat} {default? r : Option Nat} {x : τ} {cs : List (Event × Bool)} {is : List Nat} :
      P.dfa d = .switch default? → xs[e + k]? = some x → P.transition d (Terminal.id x) = some d' →
      FallsOn e d' (k + 1) cs is r → FallsOn e d k cs ((e + k) :: is) r
  | default {e d k p : Nat} {x : τ} : P.dfa d = .switch (some p) → xs[e + k]? = some x →
      P.transition d (Terminal.id x) = none → FallsOn e d k [] [e + k] (some p)
  | unexpected {e d k : Nat} {x : τ} : P.dfa d = .switch none → xs[e + k]? = some x →
      P.transition d (Terminal.id x) = none → FallsOn e d k [] [e + k] none
  | matched {e d k n accept : Nat} {otherwise : Option Target} {cs : List (Event × Bool)} :
      P.dfa d = .resolver n accept otherwise → Attempts [n] e cs true → FallsOn e d k cs [] (some accept)
  | refused {e d k n accept p : Nat} {cs : List (Event × Bool)} : P.dfa d = .resolver n accept (some (.node p)) →
      Attempts [n] e cs false → FallsOn e d k cs [] (some p)
  | onward {e d d' k n accept : Nat} {r : Option Nat} {cs cs' : List (Event × Bool)} {is : List Nat} :
      P.dfa d = .resolver n accept (some (.dfa d')) → Attempts [n] e cs false → FallsOn e d' k cs' is r →
      FallsOn e d k (cs ++ cs') is r
  | failed {e d k n accept : Nat} {cs : List (Event × Bool)} : P.dfa d = .resolver n accept none →
      Attempts [n] e cs false → FallsOn e d k cs [] none

end

variable {P xs}

/-- A decision inspects tokens one after another, each of them once. -/
theorem FallsOn.positions {e d k : Nat} {cs : List (Event × Bool)} {is : List Nat} {r : Option Nat} :
    FallsOn P xs e d k cs is r → is = List.range' (e + k) is.length
  | .follow _ _ _ h => by
    rw [List.length_cons, List.range'_succ, Nat.add_assoc, ← h.positions]
  | .onward _ _ h => h.positions
  | .leaf _ | .default _ _ _ | .unexpected _ _ _ | .matched _ _ | .refused _ _ | .failed _ _ => rfl

mutual

/-- The answers of the host decide whether nodes match. -/
theorem Attempts.unique {ns : List Nat} {q : Nat} {cs cs' zs zs' : List (Event × Bool)} {ok ok' : Bool} :
    Attempts P xs ns q cs ok → Attempts P xs ns q cs' ok' → cs ++ zs = cs' ++ zs' → cs = cs' ∧ ok = ok'
  | .nil, h', _ => by
    cases h'
    exact ⟨rfl, rfl⟩
  | .token hn hx hacc h, h', e => by
    cases h' with
    | token hn' _ _ h' => exact h.unique h' e
    | _ => grind
  | .mismatch hn hx hacc, h', e => by
    cases h' with
    | mismatch => exact ⟨rfl, rfl⟩
    | _ => grind
  | .symbol hn hx hp h, h', e => by
    cases h' with
    | symbol hn' hx' hp' h' =>
      cases hn.symm.trans hn'
      cases hx.symm.trans hx'
      cases hp.symm.trans hp'
      exact h.unique h' e
    | _ => grind
  | .unpredicted hn hx hp, h', e => by
    cases h' with
    | unpredicted => exact ⟨rfl, rfl⟩
    | _ => grind
  | .sequence hn h, h', e => by
    cases h' with
    | sequence hn' h' =>
      cases hn.symm.trans hn'
      exact h.unique h' e
    | _ => grind
  | .action hn h, h', e => by
    cases h' with
    | action hn' h' =>
      cases hn.symm.trans hn'
      obtain ⟨rfl, rfl⟩ := h.unique h' (List.cons.inj e).2
      exact ⟨rfl, rfl⟩
    | _ => grind
  | .refused hn, h', e => by
    cases h' with
    | refused hn' =>
      cases hn.symm.trans hn'
      exact ⟨rfl, rfl⟩
    | _ => grind
  | .silent hn h, h', e => by
    cases h' with
    | silent _ h' => exact h.unique h' e
    | _ => grind
  | .decided hn hd h, h', e => by
    cases h' with
    | decided hn' hd' h' =>
      cases hn.symm.trans hn'
      rw [List.append_assoc, List.append_assoc] at e
      obtain ⟨rfl, -, hp⟩ := hd.unique hd' e
      cases hp
      obtain ⟨rfl, rfl⟩ := h.unique h' (List.append_cancel_left e)
      exact ⟨rfl, rfl⟩
    | undecided hn' hd' =>
      cases hn.symm.trans hn'
      rw [List.append_assoc] at e
      cases (hd.unique hd' e).2.2
    | _ => grind
  | .undecided hn hd, h', e => by
    cases h' with
    | decided hn' hd' _ =>
      cases hn.symm.trans hn'
      rw [List.append_assoc] at e
      cases (hd.unique hd' e).2.2
    | undecided hn' hd' =>
      cases hn.symm.trans hn'
      exact ⟨(hd.unique hd' e).1, rfl⟩
    | _ => grind

/-- The answers of the host decide what a decision falls on. -/
theorem FallsOn.unique {e d k : Nat} {cs cs' zs zs' : List (Event × Bool)} {is is' : List Nat} {r r' : Option Nat} :
    FallsOn P xs e d k cs is r → FallsOn P xs e d k cs' is' r' → cs ++ zs = cs' ++ zs' → cs = cs' ∧ is = is' ∧ r = r'
  | .leaf hd, h', _ => by
    cases h' with
    | leaf hd' =>
      cases hd.symm.trans hd'
      exact ⟨rfl, rfl, rfl⟩
    | _ => grind
  | .follow hd hx ht h, h', e => by
    cases h' with
    | follow hd' hx' ht' h' =>
      cases hx.symm.trans hx'
      cases ht.symm.trans ht'
      obtain ⟨rfl, rfl, rfl⟩ := h.unique h' e
      exact ⟨rfl, rfl, rfl⟩
    | _ => grind
  | .default hd hx ht, h', _ => by
    cases h' with
    | default hd' =>
      cases hd.symm.trans hd'
      exact ⟨rfl, rfl, rfl⟩
    | _ => grind
  | .unexpected hd hx ht, h', _ => by
    cases h' with
    | unexpected => exact ⟨rfl, rfl, rfl⟩
    | _ => grind
  | .matched hd h, h', e => by
    cases h' with
    | matched hd' h' =>
      cases hd.symm.trans hd'
      exact ⟨(h.unique h' e).1, rfl, rfl⟩
    | refused hd' h' | failed hd' h' =>
      cases hd.symm.trans hd'
      cases (h.unique h' e).2
    | onward hd' h' =>
      cases hd.symm.trans hd'
      rw [List.append_assoc] at e
      cases (h.unique h' e).2
    | _ => grind
  | .refused hd h, h', e => by
    cases h' with
    | matched hd' h' =>
      cases hd.symm.trans hd'
      cases (h.unique h' e).2
    | refused hd' h' =>
      cases hd.symm.trans hd'
      exact ⟨(h.unique h' e).1, rfl, rfl⟩
    | _ => grind
  | .onward hd h hf, h', e => by
    rw [List.append_assoc] at e
    cases h' with
    | matched hd' h' =>
      cases hd.symm.trans hd'
      cases (h.unique h' e).2
    | onward hd' h' hf' =>
      cases hd.symm.trans hd'
      rw [List.append_assoc] at e
      obtain ⟨rfl, -⟩ := h.unique h' e
      obtain ⟨rfl, rfl, rfl⟩ := hf.unique hf' (List.append_cancel_left e)
      exact ⟨rfl, rfl, rfl⟩
    | _ => grind
  | .failed hd h, h', e => by
    cases h' with
    | matched hd' h' =>
      cases hd.symm.trans hd'
      cases (h.unique h' e).2
    | failed hd' h' =>
      cases hd.symm.trans hd'
      exact ⟨(h.unique h' e).1, rfl, rfl⟩
    | _ => grind

end

end PredictiveParser.Machine
