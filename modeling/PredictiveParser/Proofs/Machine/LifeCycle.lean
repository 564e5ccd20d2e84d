import PredictiveParser.Proofs.Machine.Coherence

/-!
# The life of a parser

A caller starts parses, feeds tokens, takes the tree and changes the state of the host, in any order. `Parser.Logs` relates
a parser to a log of such calls, with all that came back, and to the parser afterwards. The log alone says where a parser
stands in its life (`Parser.Logs.status`): before the first start and after the end of a parse it refuses all tokens, and
a refusal changes nothing; during a parse no token is refused (`run_error`). A start leaves nothing of what was before,
wherever that broke off (`Parser.start_eq_new`).
-/

namespace PredictiveParser

/-- The parser only says that it does not take a token in. -/
def ParseError.IsRefusal : ParseError → Prop
  | notStarted | finished => True
  | unexpectedToken .. | noViableAlternative .. | semantic .. => False

namespace Machine

variable {σ τ : Type}

/-! ## Logs -/

/-- A callback: the event, the state of the machine that the host saw, and the message if the host objected. -/
structure Callback (τ : Type) where
  event : Event
  seen : State τ
  failure : Option String

/-- The host, keeping a record of its callbacks and all that they could see. -/
def Host.logging (H : Host σ τ) : Host (σ × List (Callback τ)) τ :=
  H.keeping fun event s failure => [⟨event, s, failure⟩]

namespace Parser

/-- A call of a parser, and what came back. -/
inductive Entry (σ τ : Type)
  | start (symbol : Nat) (buildTree : Bool)
  | feed (t : τ) (answer : Except ParseError Feed) (callbacks : List (Callback τ))
  | takeTree (tree : Option (SyntaxTree τ))
  | rehost (h : σ)

namespace Entry

/-- A parse was started. -/
def IsStart : Entry σ τ → Prop
  | start _ _ => True
  | feed .. | takeTree _ | rehost _ => False

/-- The answer was success or an error. -/
def Ends : Entry σ τ → Prop
  | feed _ answer _ => answer ≠ .ok .more
  | start .. | takeTree _ | rehost _ => False

/-- Where a parser stands after the call, if it stood at `status` before. -/
def after (status : Status) : Entry σ τ → Status
  | start _ _ => .running
  | feed _ answer _ => if status = .running then Status.after answer .running else status
  | takeTree _ | rehost _ => status

end Entry

section Calls

variable [Terminal τ]

/-- Feeds the next token, and lists the callbacks. -/
def feedLogged (P : Program) (H : Host σ τ) (fuel : Nat) (t : τ) (p : Parser σ τ) :
    Option (Except ParseError Feed × List (Callback τ) × Parser σ τ) :=
  ((⟨p.state, (p.host, [])⟩ : Parser (σ × List (Callback τ)) τ).feed P H.logging fuel t).map fun r =>
    (r.1, r.2.host.2, r.2.map Prod.fst)

/-- Listing the callbacks changes nothing else. -/
theorem feedLogged_map (P : Program) (H : Host σ τ) (fuel : Nat) (t : τ) (p : Parser σ τ) :
    (p.feedLogged P H fuel t).map (fun r => (r.1, r.2.2)) = p.feed P H fuel t := by
  unfold feedLogged
  rw [Option.map_map]
  exact feed_map (H.projects_keeping _) fuel t ⟨p.state, (p.host, [])⟩

/-- A call leads from one parser to another. -/
inductive Calls (P : Program) (H : Host σ τ) : Parser σ τ → Entry σ τ → Parser σ τ → Prop
  | start (p : Parser σ τ) (symbol : Nat) (buildTree : Bool) : Calls P H p (.start symbol buildTree) (p.start P symbol buildTree)
  | feed {p q : Parser σ τ} (fuel : Nat) {t : τ} {a : Except ParseError Feed} {cs : List (Callback τ)} :
      p.feedLogged P H fuel t = some (a, cs, q) → Calls P H p (.feed t a cs) q
  | takeTree (p : Parser σ τ) : Calls P H p (.takeTree p.takeTree.1) p.takeTree.2
  | rehost (p : Parser σ τ) (h : σ) : Calls P H p (.rehost h) { p with host := h }

/-- Calls one after another lead from one parser to another. -/
inductive Logs (P : Program) (H : Host σ τ) : Parser σ τ → List (Entry σ τ) → Parser σ τ → Prop
  | nil (p : Parser σ τ) : Logs P H p [] p
  | cons {p q r : Parser σ τ} {e : Entry σ τ} {log : List (Entry σ τ)} : p.Calls P H e q → Logs P H q log r →
      Logs P H p (e :: log) r

end Calls

end Parser

variable [Terminal τ] {P : Program} {H : Host σ τ}

/-! ## Errors of a run -/

theorem Effect.error_not_refusal {s s' : State τ} {h h' : σ} {error : ParseError} (he : Effect P H s h (.reject error) s' h') :
    ¬ error.IsRefusal := by
  cases he with
  | exhausted _ _ hu =>
    obtain ⟨_, _, _, rfl⟩ := error_of_unwind hu
    exact not_false
  | missed hm => cases hm <;> exact not_false
  | unfinished | leaveRefused | enterRefused | underflow => exact not_false

/-- A run that takes a token in does not refuse it. -/
theorem run_error {fuel : Nat} {s : State τ} {h : σ} {stop : Stop σ τ} (hr : run P H fuel s h = some stop)
    {error : ParseError} (ha : stop.answer = .error error) : ¬ error.IsRefusal := by
  obtain ⟨s', h', -, hanswer, -, -⟩ := exists_steps_of_run hr
  rw [ha] at hanswer
  cases hv : (step P H s' h').verdict with
  | reject error' =>
    rw [hv] at hanswer
    cases hanswer
    have he := effect_step P H s' h'
    rw [hv] at he
    exact he.error_not_refusal
  | _ =>
    rw [hv] at hanswer
    cases hanswer

namespace Parser

/-! ## Where a parser stands -/

/-- The status after a token depends on the answer alone. -/
theorem status_feed {p q : Parser σ τ} {fuel : Nat} {t : τ} {a : Except ParseError Feed}
    (hf : p.feed P H fuel t = some (a, q)) :
    q.state.status = if p.state.status = .running then Status.after a .running else p.state.status := by
  by_cases hs : p.state.status = .running
  · rw [if_pos hs]
    obtain ⟨stop, hr, rfl, rfl⟩ := (feed_eq_some_iff hs).1 hf
    show Status.after stop.answer stop.state.status = _
    rw [(run_frame hr).2]
    exact congrArg _ hs
  · rw [if_neg hs, (feed_refused hs hf).1]

theorem Calls.status {p q : Parser σ τ} {e : Entry σ τ} (h : p.Calls P H e q) : q.state.status = e.after p.state.status := by
  cases h with
  | @feed _ fuel t _ _ hf =>
    have hfeed := feedLogged_map P H fuel t p
    rw [hf] at hfeed
    exact status_feed hfeed.symm
  | start | takeTree | rehost => rfl

/-- **The log of a parser says where it stands.** -/
theorem Logs.status {p q : Parser σ τ} {log : List (Entry σ τ)} (h : p.Logs P H log q) :
    q.state.status = log.foldl Entry.after p.state.status := by
  induction h with
  | nil => rfl
  | cons hcall _ ih => rw [ih, hcall.status]; rfl

section Logs

omit [Terminal τ]

theorem Entry.after_of_not_ends {e : Entry σ τ} (he : ¬ e.Ends) : e.after .running = .running := by
  cases e with
  | feed t a cs =>
    obtain rfl : a = .ok .more := Decidable.not_not.1 he
    rfl
  | start | takeTree | rehost => rfl

theorem Entry.after_of_ends {e : Entry σ τ} (he : e.Ends) : e.after .running = .done ∨ e.after .running = .failed := by
  cases e with
  | feed t a cs =>
    rcases a with _ | _ | _
    · exact .inr rfl
    · exact absurd rfl he
    · exact .inl rfl
  | start | takeTree | rehost => exact absurd he not_false

variable {log : List (Entry σ τ)}

/-- Outside of a parse only a start changes where a parser stands. -/
theorem foldl_after_of_not_running (hlog : ∀ e ∈ log, ¬ e.IsStart) {status : Status} (hs : status ≠ .running) :
    log.foldl Entry.after status = status := by
  induction log with
  | nil => rfl
  | cons e log ih =>
    obtain ⟨he, hlog⟩ := List.forall_mem_cons.1 hlog
    have hafter : e.after status = status := by
      cases e with
      | start => exact absurd trivial he
      | feed => exact if_neg hs
      | takeTree | rehost => rfl
    rw [List.foldl_cons, hafter, ih hlog]

/-- A parse goes on until a token is answered with success or an error. -/
theorem foldl_after_of_not_ends (hlog : ∀ e ∈ log, ¬ e.Ends) : log.foldl Entry.after .running = .running := by
  induction log with
  | nil => rfl
  | cons e log ih =>
    obtain ⟨he, hlog⟩ := List.forall_mem_cons.1 hlog
    rw [List.foldl_cons, Entry.after_of_not_ends he, ih hlog]

/-- A parse that has ended is over until the next start. -/
theorem foldl_after_of_ends (hlog : ∀ e ∈ log, ¬ e.IsStart) (hends : ∃ e ∈ log, e.Ends) :
    log.foldl Entry.after .running = .done ∨ log.foldl Entry.after .running = .failed := by
  obtain ⟨e', hmem, he'⟩ := hends
  induction log with
  | nil => exact absurd hmem List.not_mem_nil
  | cons e log ih =>
    obtain ⟨-, hlog⟩ := List.forall_mem_cons.1 hlog
    rw [List.foldl_cons]
    by_cases he : e.Ends
    · rcases Entry.after_of_ends he with h | h <;> rw [h]
      · exact .inl (foldl_after_of_not_running hlog nofun)
      · exact .inr (foldl_after_of_not_running hlog nofun)
    · rw [Entry.after_of_not_ends he]
      rcases List.mem_cons.1 hmem with rfl | hmem
      · exact absurd he' he
      · exact ih hlog hmem

/-- After a start the log before it is of no account. -/
theorem foldl_after_start (before : List (Entry σ τ)) (symbol : Nat) (buildTree : Bool) (status : Status) :
    (before ++ .start symbol buildTree :: log).foldl Entry.after status = log.foldl Entry.after .running := by
  rw [List.foldl_append, List.foldl_cons]
  rfl

end Logs

/-! ## Refusals -/

/-- The parser refuses every token with the error: no callback is made, and the state of the machine and that of the host
stay as they are. -/
def Refuses (P : Program) (H : Host σ τ) (p : Parser σ τ) (error : ParseError) : Prop :=
  ∀ fuel t, p.feed P H fuel t = some (.error error, p) ∧ p.feedLogged P H fuel t = some (.error error, [], p)

theorem refuses_of_idle {p : Parser σ τ} (hs : p.state.status = .idle) : p.Refuses P H .notStarted := by
  intro fuel t
  unfold feedLogged feed
  dsimp only
  rw [hs]
  exact ⟨rfl, rfl⟩

theorem refuses_of_ended {p : Parser σ τ} (hs : p.state.status = .done ∨ p.state.status = .failed) :
    p.Refuses P H .finished := by
  intro fuel t
  unfold feedLogged feed
  dsimp only
  rcases hs with hs | hs <;> rw [hs] <;> exact ⟨rfl, rfl⟩

/-- During a parse no token is refused. -/
theorem feed_not_refusal {p q : Parser σ τ} {fuel : Nat} {t : τ} {error : ParseError} (hs : p.state.status = .running)
    (hf : p.feed P H fuel t = some (.error error, q)) : ¬ error.IsRefusal := by
  obtain ⟨stop, hr, ha, -⟩ := (feed_eq_some_iff hs).1 hf
  exact run_error hr ha

/-! ## Starts -/

omit [Terminal τ] in
/-- **A start makes any parser what it makes of a new one with the same host.** -/
theorem start_eq_new (P : Program) (symbol : Nat) (buildTree : Bool) (p : Parser σ τ) :
    p.start P symbol buildTree = Parser.start P symbol buildTree ⟨{}, p.host⟩ := by
  have hstate : (p.start P symbol buildTree).state = (Parser.start P symbol buildTree ⟨{}, p.host⟩).state := by
    rw [state_start, state_start]
  exact congrArg (fun s => (⟨s, p.host⟩ : Parser σ τ)) hstate

/-- What a caller can rely on after the calls `log` of a new parser, which have led to `p`. -/
structure Lives (P : Program) (H : Host σ τ) (log : List (Entry σ τ)) (p : Parser σ τ) : Prop where
  unstarted : (∀ e ∈ log, ¬ e.IsStart) → p.Refuses P H .notStarted
  ended : ∀ before symbol buildTree later, log = before ++ .start symbol buildTree :: later →
    (∀ e ∈ later, ¬ e.IsStart) → (∃ e ∈ later, e.Ends) → p.Refuses P H .finished
  running : ∀ before symbol buildTree later, log = before ++ .start symbol buildTree :: later →
    (∀ e ∈ later, ¬ e.IsStart) → (∀ e ∈ later, ¬ e.Ends) →
      ∀ fuel t error q, p.feed P H fuel t = some (.error error, q) → ¬ error.IsRefusal
  /-- After a start nothing tells the parser from a new one with the same host: whatever the caller does, all answers,
  callbacks, what these see, the trees, and in the end the state of the machine and that of the host are the same. -/
  restart : ∀ symbol buildTree later q, (p.start P symbol buildTree).Logs P H later q ↔
    (Parser.start P symbol buildTree ⟨{}, p.host⟩).Logs P H later q

/-- **The life of a parser.** After every history of calls, tokens are refused exactly before the first start and after the
end of a parse, a refusal changes nothing, and a start makes the parser as good as new. -/
theorem lives_of_logs {h : σ} {log : List (Entry σ τ)} {p : Parser σ τ} (hp : (⟨{}, h⟩ : Parser σ τ).Logs P H log p) :
    p.Lives P H log := by
  have hstatus : p.state.status = log.foldl Entry.after .idle := hp.status
  refine ⟨fun hlog => ?_, ?_, ?_, fun symbol buildTree later q => by rw [← start_eq_new]⟩
  · exact refuses_of_idle (hstatus.trans (foldl_after_of_not_running hlog nofun))
  · rintro before symbol buildTree later rfl hlater hends
    rw [foldl_after_start] at hstatus
    exact refuses_of_ended (hstatus ▸ foldl_after_of_ends hlater hends)
  · rintro before symbol buildTree later rfl - hmore fuel t error q hf
    rw [foldl_after_start, foldl_after_of_not_ends hmore] at hstatus
    exact feed_not_refusal hstatus hf

/-- The small program is fed too early; then it gets `2 5`, so the resolver `2 3` breaks off and the parse fails, and one
token too many. -/
theorem probing_lives :
    let log : List (Entry Unit Nat) := [.feed 2 (.error .notStarted) [], .start 0 true, .feed 2 (.ok .more) [],
      .feed 5 (.error (.unexpectedToken "t" ["t"] none)) [], .takeTree (some (.leaf {} 2)), .feed 5 (.error .finished) []]
    ∃ p, (⟨{}, ()⟩ : Parser Unit Nat).Logs probing Host.silent log p ∧ p.Lives probing Host.silent log := by
  intro log
  have h : ∃ p, (⟨{}, ()⟩ : Parser Unit Nat).Logs probing Host.silent log p :=
    ⟨_, .cons (.feed 0 rfl) <| .cons (.start _ 0 true) <| .cons (.feed 20 rfl) <| .cons (.feed 20 rfl) <|
      .cons (.takeTree _) <| .cons (.feed 0 rfl) <| .nil _⟩
  obtain ⟨p, h⟩ := h
  exact ⟨p, h, lives_of_logs h⟩

end Parser

end Machine

end PredictiveParser
