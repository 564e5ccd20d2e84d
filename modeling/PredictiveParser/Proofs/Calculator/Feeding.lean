import PredictiveParser.Proofs.Calculator.Steps

/-!
# Feeding lexemes one by one

An engine feeds the lexemes of a source as they come, up to the first one that cannot be read. That amounts to a run of the machine
with all of their tokens at hand, and behind them the end of the input, if nothing is wrong with the lexemes (`Engine.fed`): what
the run stops with is what the engine returns (`Engine.exists_feedAll`).
-/

namespace PredictiveParser.Calculator

open Machine

theorem host_oblivious : host.Oblivious := by
  intro event s w n h _
  cases event with
  | action a =>
    simp only [host]
    cases Op.ofIndex? a with
    | none => rfl
    | some o => cases o <;> rfl
  | _ => rfl

namespace Engine

/-- The tokens that are fed: those in front of the first error, and behind all of them the end of the input. -/
def fed (span : Span) : List (Except Error Lexed) → List Token
  | [] => [endTokenAt span]
  | .error _ :: _ => []
  | .ok l :: rs => l.token :: fed span rs

theorem fed_map_ok (span : Span) (ls : List Lexed) : fed span (ls.map .ok) = ls.map (·.token) ++ [endTokenAt span] := by
  induction ls with
  | nil => rfl
  | cons l ls ih => exact congrArg (l.token :: ·) ih

/-- The first error among the lexemes. -/
def unread? : List (Except Error Lexed) → Option Error
  | [] => none
  | .error e :: _ => some e
  | .ok _ :: rs => unread? rs

/-- What an engine returns when the run of its machine stops. -/
def answerOf (stop : Stop Evaluation Token) (rs : List (Except Error Lexed)) : Except Error Unit :=
  match stop.answer with
  | .ok .done => .ok ()
  | .ok .more => .error ((unread? rs).getD (.internal "parser did not finish"))
  | .error e => .error (errorOf e stop.host)

variable (C : Engine) {all past : List Token} {rs : List (Except Error Lexed)} {span : Span} {n : Nat}
  {stop : Stop Evaluation Token} {p : Parser Evaluation Token}

/-- Feeding goes along with a run. -/
theorem feedAll_of_beside (hp : p.state.status = .running) (hall : past ++ fed span rs = all) (hpast : past ≠ all)
    (hend : ∀ t ∈ past, t.id ≠ endToken) (hends : ∀ l, .ok l ∈ rs → l.token.id ≠ endToken)
    (hb : ∀ t, past ++ [t] <+: all → ∃ w, Beside C.tables.program host all (p.state.receive t) p.host (past ++ [t]) w ∧
      run C.tables.program host n w p.host = some stop) :
    ∃ q, C.feedAll n span rs p = some (answerOf stop rs, q) ∧ q.host = stop.host ∧
      q.state.stats.matched = stop.state.stats.matched := by
  induction rs generalizing past p with
  | nil =>
    obtain ⟨w, hbeside, hr⟩ := hb (endTokenAt span) ⟨[], by rw [List.append_nil]; exact hall⟩
    obtain ⟨a, q, hfeed, ⟨-, hne, -⟩ | ⟨⟨hanswer, hhost, hstate⟩, -⟩⟩ := hbeside.feed_of_run host_oblivious hp hr
    · exact absurd hall hne
    · refine ⟨q, ?_, hhost.symm, (congrArg (·.stats.matched) hstate).symm⟩
      rw [feedAll, feed, hfeed, answerOf, hanswer, hhost]
      rcases a with e | ⟨⟨⟩ | ⟨⟩⟩ <;> rfl
  | cons r rs ih =>
    cases r with
    | error e => exact absurd ((List.append_nil past).symm.trans hall) hpast
    | ok l =>
      rw [fed, List.append_cons] at hall
      have hend' : ∀ t ∈ past ++ [l.token], t.id ≠ endToken :=
        List.forall_mem_append.2 ⟨hend, List.forall_mem_singleton.2 (hends l List.mem_cons_self)⟩
      obtain ⟨w, hbeside, hr⟩ := hb l.token ⟨fed span rs, hall⟩
      obtain ⟨a, q, hfeed, ⟨rfl, hne, hq, hnext⟩ | ⟨⟨rfl, hhost, hstate⟩, hdone, hmore⟩⟩ :=
        hbeside.feed_of_run host_oblivious hp hr
      · obtain ⟨q', hq', hsame⟩ := ih hq hall hne hend' (fun l' hl' => hends l' (List.mem_cons_of_mem _ hl')) hnext
        refine ⟨q', ?_, hsame⟩
        rw [feedAll, feed, hfeed]
        exact hq'
      · refine ⟨q, ?_, hhost.symm, (congrArg (·.stats.matched) hstate).symm⟩
        rw [feedAll, feed, hfeed, answerOf]
        rcases ha : stop.answer with e | ⟨⟨⟩ | ⟨⟩⟩
        · rw [hhost]
        · -- the error behind the tokens comes next
          have hfed : fed span rs = [] := List.append_right_eq_self.1 (hall.trans (hmore ha).symm)
          cases rs with
          | nil => cases hfed
          | cons r rs =>
            cases r with
            | error e => rfl
            | ok l => cases hfed
        · obtain ⟨t, ht, hid⟩ := hdone ha
          exact absurd hid (hend' t ht)

/-- **Feeding lexemes one by one amounts to a run with all tokens at hand.** -/
theorem exists_feedAll (V : Variables) (hfed : fed span rs ≠ []) (hends : ∀ l, .ok l ∈ rs → l.token.id ≠ endToken)
    (hr : run C.tables.program host n ((fed span rs).foldl State.receive (C.begin V).state) { «variables» := V } = some stop) :
    ∃ q, C.feedAll n span rs (C.begin V) = some (answerOf stop rs, q) ∧ q.host = stop.host ∧
      q.state.stats.matched = stop.state.stats.matched := by
  refine C.feedAll_of_beside rfl (List.nil_append _) hfed.symm nofun hends fun t ht => ?_
  obtain ⟨rest, hrest⟩ := ht
  have hbeside := beside_start C.tables.program host { host := { «variables» := V } } C.tables.start false t rest
  exact ⟨_, hrest ▸ hbeside, hrest ▸ hr⟩

/-- In the beginning the machine stands before all tokens with the start symbol. -/
theorem placed_begin {C : Engine} (hT : Conforms C.tables) (V : Variables) (all : List Token) :
    Placed .whole (all.foldl State.receive (C.begin V).state)
      ⟨[frame C.tables Category.program, .finish], all, fun _ => none, none, 0⟩ := by
  obtain ⟨w, n, heq, hbase, hshows⟩ := exists_onWindow_of_foldl (C.begin V).state all
  have hall : w.Shows all := hshows [] TokenWindow.shows_empty
  rw [heq]
  refine ⟨rfl, rfl, ?_, fun i => ?_, fun _ => rfl, rfl, rfl⟩
  · show [Frame.node (C.tables.program.symbolNode C.tables.start), .finish] = _
    rw [hT.start]
    rfl
  · have hposition : ((C.begin V).state.onWindow w n).position = 0 := rfl
    rw [hposition, Nat.zero_add, View.map_whole]
    exact hall.get? i (hbase ▸ Nat.zero_le i)

/-- An evaluation feeds the lexemes of the source. -/
theorem eval_of_feedAll {C : Engine} {source : String} {V : Variables} {r : Except Error Unit} {q : Parser Evaluation Token}
    (h : C.feedAll (stepBound source) (endSpan source) (lex C.alphabet source) (C.begin V) = some (r, q)) :
    C.eval source V = (r.map fun _ => q.host.results.toList, q.host.variables) := by
  rw [eval, evalWithin, h]
  rfl

end Engine

end PredictiveParser.Calculator
