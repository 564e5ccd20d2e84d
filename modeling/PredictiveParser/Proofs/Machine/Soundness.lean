import PredictiveParser.Proofs.Machine.Callbacks

/-!
# What a successful parse has found

The forest that a successful parse has unfolded (`exists_forest_of_feeds`) is a single node of the start symbol. So the symbol
derives the tokens up to the accepted end of the input, and the tree displays a parse tree of them (`sound_of_feeds`).
-/

namespace PredictiveParser.Machine

variable {σ τ : Type} [Terminal τ]

/-! ## Parses -/

/-- A forest of a symbol is a node of the symbol. -/
theorem exists_node_of_grows {g : Grammar} {s : Nat} {f : Forest τ} (h : g.Grows [.symbol s] (f.map Terminal.id)) :
    ∃ p c, f = .node s p c .nil := by
  cases f with
  | nil =>
    cases h with
    | silent hi => cases hi
  | leaf t r =>
    cases h with
    | silent hi => cases hi
  | node s' p c r =>
    cases h with
    | silent hi => cases hi
    | node hp hc hr =>
      cases r with
      | nil => exact ⟨p, c, rfl⟩
      | leaf t r => cases hr
      | node s' p' c' r => cases hr

/-- **Whatever is parsed was derived.** If the tokens `ts` and then `e` are fed to a parser for the symbol `s` and the
last one is answered with success, then the first token that is the end of the input for the parser comes after some
tokens `ts.take m`, the symbol derives them, and the recorded tree displays a parse tree of them with a single root: the
children of every node belong to the items of one alternative, and the leaves are those tokens in order. -/
theorem sound_of_feeds {g : Grammar} {limits : Limits} {T : Tables} (hg : g.WellFormed) (hb : g.build limits = .ok T)
    {s : Nat} (hs : s < g.symbolCount) (H : Host σ τ) {p q : Parser σ τ} {ts : List τ} {e : τ}
    {as : List (Except ParseError Feed)}
    (h : (p.start T.program s true).Feeds T.program H (ts ++ [e]) (as ++ [.ok .done]) q) :
    ∃ m ≤ ts.length, (ts ++ [e])[m]?.map Terminal.id = some endToken ∧
      ((∀ t ∈ ts, Terminal.id t ≠ endToken) → m = ts.length) ∧
      g.Derives [.symbol s] ((ts.take m).map Terminal.id) ∧
      ∃ alt c A, g.Grows [.symbol s] ((Forest.node s alt c .nil).map Terminal.id) ∧
        (Forest.node s alt c .nil).leaves = ts.take m ∧ q.state.tree = some A ∧ A.Displays (.node s alt c .nil) := by
  obtain ⟨m, hm, hend, hlength, f, hf, hleaves, htree, -⟩ := exists_forest_of_feeds hg hb hs H true h
  obtain ⟨alt, c, rfl⟩ := exists_node_of_grows hf
  have hderives := hf.leads
  rw [Forest.leaves_map, hleaves] at hderives
  exact ⟨m, hm, hend, hlength, hderives, alt, c, _, hf, hleaves, htree, SyntaxTree.displays_graft _⟩

/-! ## The end of the input in the middle of an alternative -/

/-- Two alternatives go on behind an end of the input, and one does not: `S → a | a $end b | a $end c`. -/
def delimited : Grammar where
  tokens := ⟨["$end", "$any", "a", "b", "c"], by decide⟩
  symbols := #[{ name := "S", alts := [Item.token 2, .sequence 0, .sequence 1] }]
  sequences := #[[.token 2, .token 0, .token 3], [.token 2, .token 0, .token 4]]
  actions := {}
  arguments := {}
  beacons := {}
  start := 0

theorem delimited.feeds : ∃ T q, delimited.build = .ok T ∧
    (Parser.start T.program 0 true ⟨{}, ()⟩).Feeds T.program Host.silent [2, 0, 0] [.ok .more, .ok .more, .ok .done] q := by
  have h : delimited.build.toOption.any fun T =>
      ((Parser.start T.program 0 true ⟨{}, ()⟩).feedAll T.program Host.silent 20 [2, 0, 0]).any fun r =>
        r.1 = [.ok .more, .ok .more, .ok .done] := by decide +kernel
  obtain ⟨T, hT, h⟩ := exists_of_any_toOption h
  obtain ⟨⟨as, q⟩, hq, h⟩ := Option.any_eq_true _ _ |>.1 h
  obtain rfl := of_decide_eq_true h
  exact ⟨T, q, hT, Parser.feeds_of_feedAll hq⟩

/-- Success only says that what comes before the first end of the input was derived: here two of them are fed, and the
symbol does not derive the first with what comes before it. -/
theorem delimited_accepts_more : delimited.WellFormed ∧ ∃ T q, delimited.build = .ok T ∧
    (Parser.start T.program 0 true ⟨{}, ()⟩).Feeds T.program Host.silent [2, 0, 0] [.ok .more, .ok .more, .ok .done] q ∧
    ¬ delimited.Derives [.symbol 0] [2, 0] := by
  obtain ⟨T, q, hT, h⟩ := delimited.feeds
  refine ⟨by decide, T, q, hT, h, fun hd => ?_⟩
  cases hd with
  | silent hi => cases hi
  | @symbol _ p _ _ _ hp hd =>
    have halts : (delimited.symbol 0).alts = [.item (.token 2), .sequence 0, .sequence 1] := rfl
    rw [halts, List.mem_cons, List.mem_cons, List.mem_singleton] at hp
    rcases hp with rfl | rfl | rfl
    · cases hd with
      | silent hi => cases hi
      | token _ hd => cases hd
    · cases hd with
      | silent hi => cases hi
      | token _ hd =>
        cases hd with
        | silent hi => cases hi
        | token _ hd => cases hd with | silent hi => cases hi
    · cases hd with
      | silent hi => cases hi
      | token _ hd =>
        cases hd with
        | silent hi => cases hi
        | token _ hd => cases hd with | silent hi => cases hi

/-- What success says of these tokens. -/
theorem delimited_sound : ∃ m ≤ 2, ([2, 0, 0] : List Nat)[m]?.map Terminal.id = some endToken ∧
    delimited.Derives [.symbol 0] ((([2, 0] : List Nat).take m).map Terminal.id) := by
  obtain ⟨T, q, hT, h⟩ := delimited.feeds
  have h' : (Parser.start T.program 0 true ⟨{}, ()⟩).Feeds T.program Host.silent ([2, 0] ++ [0])
      ([.ok .more, .ok .more] ++ [.ok .done]) q := h
  obtain ⟨m, hm, hend, -, hd, -⟩ := sound_of_feeds (by decide) hT (by decide) Host.silent h'
  exact ⟨m, hm, hend, hd⟩

end PredictiveParser.Machine
