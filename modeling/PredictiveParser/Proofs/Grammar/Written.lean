import PredictiveParser.Grammar.Draft
import PredictiveParser.Proofs.Grammar.WellFormed

/-!
# Grammars that are written down step by step

Whoever writes a grammar down gets hold of its parts from earlier steps. `Draft.Written` is what such a writer can
reach, one `Call` after another, and every grammar that is finished from there is well formed (`Written.wellFormed`).
-/

namespace PredictiveParser

/-! ## Steps -/

/-- A step of writing a grammar down. -/
inductive Call
  | token (name : String)
  | symbol (name : String)
  | action (name : String)
  | argument (name : String)
  | beacon (name : String)
  | seq (nodes : List Node)
  | alt (symbol production : Node)
  | resolver (symbol node : Node) (priority : Int)
  | lookahead (symbol : Node) (k : Nat)
  | declareNullable (symbol : Node) (nullable : Bool)
  | sync (symbol : Node)
  | enter (symbol : Node)
  | leave (symbol : Node)
  | start (symbol : Node)
  | position (node : Node) (p : Position)

namespace Call

/-- The nodes that the step is given. -/
def nodes : Call → List Node
  | token _ | symbol _ | action _ | argument _ | beacon _ => []
  | seq nodes => nodes
  | alt s p => [s, p]
  | resolver s n _ => [s, n]
  | lookahead s _ | declareNullable s _ | sync s | enter s | leave s | start s => [s]
  | position n _ => [n]

/-- The draft after the step. -/
def apply (d : Draft) : Call → Draft
  | token name => ((Script.token name).run d).2
  | symbol name => ((Script.symbol name).run d).2
  | action name => ((Script.action name).run d).2
  | argument name => ((Script.argument name).run d).2
  | beacon name => ((Script.beacon name).run d).2
  | seq nodes => ((Script.seq nodes).run d).2
  | alt s p => ((Script.alt s p).run d).2
  | resolver s n priority => ((Script.resolver s n priority).run d).2
  | lookahead s k => ((Script.lookahead s k).run d).2
  | declareNullable s nullable => ((Script.declareNullable s nullable).run d).2
  | sync s => ((Script.sync s).run d).2
  | enter s => ((Script.enter s).run d).2
  | leave s => ((Script.leave s).run d).2
  | start s => ((Script.start s).run d).2
  | position n p => ((Script.position n p).run d).2

end Call

namespace Draft

/-- The item refers to a part that the draft has. -/
def HasItem (d : Draft) : Item → Prop
  | .token t => t < d.tokens.size
  | .symbol s => s < d.symbols.size
  | .action a => a < d.actions.size
  | .argument a => a < d.arguments.size
  | .beacon b => b < d.beacons.size

/-- The node is one of the draft. -/
def HasNode (d : Draft) : Node → Prop
  | .epsilon => True
  | .item i => d.HasItem i
  | .sequence q => q < d.sequences.size

/-- What can be written down by steps that are only given nodes of the draft. -/
inductive Written : Draft → Prop
  | empty : Written {}
  | call {d : Draft} {c : Call} : Written d → (∀ n ∈ c.nodes, d.HasNode n) → Written (Call.apply d c)

/-- The steps are only given nodes of the draft, as it is when their turn comes. -/
def Allows : Draft → List Call → Prop
  | _, [] => True
  | d, c :: cs => (∀ n ∈ c.nodes, d.HasNode n) ∧ Allows (c.apply d) cs

instance (d : Draft) : (n : Node) → Decidable (d.HasNode n)
  | .epsilon => .isTrue trivial
  | .item (.token _) | .item (.symbol _) | .item (.action _) | .item (.argument _) | .item (.beacon _) | .sequence _ =>
    inferInstanceAs (Decidable (_ < _))

instance Allows.decidable : (d : Draft) → (cs : List Call) → Decidable (d.Allows cs)
  | _, [] => .isTrue trivial
  | d, c :: cs =>
    have := Allows.decidable (c.apply d) cs
    inferInstanceAs (Decidable (_ ∧ _))

theorem Written.foldl {d : Draft} (hd : d.Written) {cs : List Call} (h : d.Allows cs) : (cs.foldl Call.apply d).Written := by
  induction cs generalizing d with
  | nil => exact hd
  | cons c cs ih => exact ih (hd.call h.1) h.2

/-- The references of a symbol lead to parts of the draft. -/
def Covers (d : Draft) (x : Nonterminal) : Prop :=
  (∀ p ∈ x.alts, d.HasNode p) ∧ ∀ r, x.resolver = some r → d.HasNode r.node

/-- All references of the draft lead to parts that it has. -/
structure WellFormed (d : Draft) : Prop where
  reserved : firstConcrete ≤ d.tokens.size
  start : ∀ s, d.start = some s → s < d.symbols.size
  symbols : ∀ x ∈ d.symbols, d.Covers x
  items : ∀ is ∈ d.sequences, ∀ i ∈ is, d.HasItem i

/-- The draft `e` has all parts of the draft `d`. -/
structure Extends (d e : Draft) : Prop where
  tokens : d.tokens.size ≤ e.tokens.size
  symbols : d.symbols.size ≤ e.symbols.size
  sequences : d.sequences.size ≤ e.sequences.size
  actions : d.actions.size ≤ e.actions.size
  arguments : d.arguments.size ≤ e.arguments.size
  beacons : d.beacons.size ≤ e.beacons.size

namespace Extends

variable {d e : Draft} (h : Extends d e)

include h

theorem hasItem {i : Item} (hi : d.HasItem i) : e.HasItem i := by
  cases i with
  | token t => exact Nat.lt_of_lt_of_le hi h.tokens
  | symbol s => exact Nat.lt_of_lt_of_le hi h.symbols
  | action a => exact Nat.lt_of_lt_of_le hi h.actions
  | argument a => exact Nat.lt_of_lt_of_le hi h.arguments
  | beacon b => exact Nat.lt_of_lt_of_le hi h.beacons

theorem hasNode {n : Node} (hn : d.HasNode n) : e.HasNode n := by
  cases n with
  | epsilon => trivial
  | item i => exact h.hasItem hn
  | sequence q => exact Nat.lt_of_lt_of_le hn h.sequences

theorem covers {x : Nonterminal} (hx : d.Covers x) : e.Covers x :=
  ⟨fun p hp => h.hasNode (hx.1 p hp), fun r hr => h.hasNode (hx.2 r hr)⟩

end Extends

end Draft

/-- Adding a name never makes a table smaller. -/
theorem NameTable.size_le_add (T : NameTable) (name : String) : T.size ≤ (T.add name).2.size := by
  unfold NameTable.add
  split
  · exact Nat.le_refl _
  · simp [NameTable.size]

namespace Draft

variable {d : Draft}

/-- The items of a node of the draft are items of the draft. -/
theorem WellFormed.hasItem_items (hd : d.WellFormed) {n : Node} (hn : d.HasNode n) {i : Item} (h : i ∈ d.items n) :
    d.HasItem i := by
  cases n with
  | epsilon => exact absurd h List.not_mem_nil
  | item j => rw [List.mem_singleton.1 h]; exact hn
  | sequence q =>
    simp only [Draft.items] at h
    cases hq : d.sequences[q]? with
    | none => rw [hq] at h; exact absurd h List.not_mem_nil
    | some is => rw [hq] at h; exact hd.items is (Array.mem_of_getElem? hq) i h

/-- A draft that only gains parts, but neither symbols nor sequences, stays well formed. -/
theorem WellFormed.of_extends {e : Draft} (hd : d.WellFormed) (h : d.Extends e) (hs : e.symbols = d.symbols)
    (hq : e.sequences = d.sequences) (ht : e.start = d.start) : e.WellFormed where
  reserved := Nat.le_trans hd.reserved h.tokens
  start s hs' := hs ▸ hd.start s (ht ▸ hs')
  symbols x hx := h.covers (hd.symbols x (hs ▸ hx))
  items is his i hi := h.hasItem (hd.items is (hq ▸ his) i hi)

/-- A fault does not change what the draft refers to. -/
theorem WellFormed.record (hd : d.WellFormed) (e : GrammarError) : (d.record e).WellFormed :=
  hd.of_extends ⟨Nat.le_refl _, Nat.le_refl _, Nat.le_refl _, Nat.le_refl _, Nat.le_refl _, Nat.le_refl _⟩ rfl rfl rfl

/-- A symbol without alternatives refers to nothing. -/
theorem WellFormed.push_symbol (hd : d.WellFormed) (name : String) :
    WellFormed { d with symbols := d.symbols.push { name } } := by
  have he : d.Extends { d with symbols := d.symbols.push { name } } :=
    ⟨Nat.le_refl _, by simp, Nat.le_refl _, Nat.le_refl _, Nat.le_refl _, Nat.le_refl _⟩
  refine ⟨hd.reserved, fun s hs => ?_, fun x hx => he.covers ?_, fun is his i hi => he.hasItem (hd.items is his i hi)⟩
  · exact Nat.lt_of_lt_of_le (hd.start s hs) he.symbols
  · rcases Array.mem_push.1 hx with hx | rfl
    · exact hd.symbols x hx
    · exact ⟨fun _ hp => absurd hp List.not_mem_nil, fun _ hr => by cases hr⟩

/-- A sequence refers to its items. -/
theorem WellFormed.push_sequence (hd : d.WellFormed) {is : List Item} (his : ∀ i ∈ is, d.HasItem i) :
    WellFormed { d with sequences := d.sequences.push is } := by
  have he : d.Extends { d with sequences := d.sequences.push is } :=
    ⟨Nat.le_refl _, Nat.le_refl _, by simp, Nat.le_refl _, Nat.le_refl _, Nat.le_refl _⟩
  refine ⟨hd.reserved, hd.start, fun x hx => he.covers (hd.symbols x hx), fun js hjs i hi => he.hasItem ?_⟩
  rcases Array.mem_push.1 hjs with hjs | rfl
  · exact hd.items js hjs i hi
  · exact his i hi

/-- The symbol of a name is there, or it comes last. -/
theorem symbol_cases (d : Draft) (name : String) : ((Script.symbol name).run d).2 = d ∨
    ((Script.symbol name).run d).2 = { d with symbols := d.symbols.push { name } } := by
  cases hi : d.symbols.findIdx? (·.name == name) with
  | some i => exact .inl (by simp [Script.symbol, hi]; rfl)
  | none => exact .inr (by simp [Script.symbol, hi]; rfl)

/-- A concatenation of two items or more comes last of the sequences; shorter ones are not stored. -/
theorem seq_cases (d : Draft) (nodes : List Node) :
    nodes.flatMap d.items = [] ∧ (Script.seq nodes).run d = (.epsilon, d) ∨
      (∃ i, nodes.flatMap d.items = [i] ∧ (Script.seq nodes).run d = (.item i, d)) ∨
      2 ≤ (nodes.flatMap d.items).length ∧ (Script.seq nodes).run d =
        (.sequence d.sequences.size, { d with sequences := d.sequences.push (nodes.flatMap d.items) }) := by
  rcases h : nodes.flatMap d.items with _ | ⟨i, _ | ⟨j, is⟩⟩
  · exact .inl ⟨rfl, by simp [Script.seq, h]; rfl⟩
  · exact .inr (.inl ⟨i, rfl, by simp [Script.seq, h]; rfl⟩)
  · exact .inr (.inr ⟨by simp, by simp [Script.seq, h]; rfl⟩)

/-- A change of a symbol is made, or it is a fault, or there is no such symbol. -/
theorem update_cases (d : Draft) (n : Node) (change : Nonterminal → Except String Nonterminal) :
    (∃ s x y, d.symbols[s]? = some x ∧ change x = .ok y ∧
      ((Script.update n change).run d).2 = { d with symbols := d.symbols.setIfInBounds s y }) ∨
    (∃ e, ((Script.update n change).run d).2 = d.record e) ∨ ((Script.update n change).run d).2 = d := by
  rcases n with _ | (_ | s | _ | _ | _) | _
  case item.symbol =>
    cases hx : d.symbols[s]? with
    | none => exact .inr (.inr (by simp [Script.update, hx]; rfl))
    | some x =>
      cases hy : change x with
      | error reason => exact .inr (.inl ⟨_, by simp [Script.update, hx, hy]; rfl⟩)
      | ok y => exact .inl ⟨s, x, y, hx, hy, by simp [Script.update, hx, hy]; rfl⟩
  all_goals exact .inr (.inl ⟨_, rfl⟩)

/-- A change of a symbol that keeps its references in the draft keeps the draft well formed. -/
theorem WellFormed.update (hd : d.WellFormed) (n : Node) (change : Nonterminal → Except String Nonterminal)
    (hc : ∀ x y, d.Covers x → change x = .ok y → d.Covers y) : ((Script.update n change).run d).2.WellFormed := by
  rcases d.update_cases n change with ⟨s, x, y, hx, hy, e⟩ | ⟨fault, e⟩ | e
  · rw [e]
    have hsize : (d.symbols.setIfInBounds s y).size = d.symbols.size := Array.size_setIfInBounds
    have he : d.Extends { d with symbols := d.symbols.setIfInBounds s y } :=
      ⟨Nat.le_refl _, Nat.le_of_eq hsize.symm, Nat.le_refl _, Nat.le_refl _, Nat.le_refl _, Nat.le_refl _⟩
    refine ⟨hd.reserved, fun s' h' => ?_, fun z hz => he.covers ?_, fun is his i hi => he.hasItem (hd.items is his i hi)⟩
    · exact hsize ▸ hd.start s' h'
    · rcases Array.mem_or_eq_of_mem_setIfInBounds hz with hz | rfl
      · exact hd.symbols z hz
      · exact hc x z (hd.symbols x (Array.mem_of_getElem? hx)) hy
  · exact e ▸ hd.record fault
  · exact e.symm ▸ hd

/-- A step that is given nodes of a well-formed draft keeps it well formed. -/
theorem WellFormed.apply (hd : d.WellFormed) (c : Call) (hc : ∀ n ∈ c.nodes, d.HasNode n) : (Call.apply d c).WellFormed := by
  cases c with
  | token name =>
    exact hd.of_extends ⟨d.tokens.size_le_add name, Nat.le_refl _, Nat.le_refl _, Nat.le_refl _, Nat.le_refl _,
      Nat.le_refl _⟩ rfl rfl rfl
  | action name =>
    exact hd.of_extends ⟨Nat.le_refl _, Nat.le_refl _, Nat.le_refl _, d.actions.size_le_add name, Nat.le_refl _,
      Nat.le_refl _⟩ rfl rfl rfl
  | argument name =>
    exact hd.of_extends ⟨Nat.le_refl _, Nat.le_refl _, Nat.le_refl _, Nat.le_refl _, d.arguments.size_le_add name,
      Nat.le_refl _⟩ rfl rfl rfl
  | beacon name =>
    exact hd.of_extends ⟨Nat.le_refl _, Nat.le_refl _, Nat.le_refl _, Nat.le_refl _, Nat.le_refl _,
      d.beacons.size_le_add name⟩ rfl rfl rfl
  | symbol name =>
    show ((Script.symbol name).run d).2.WellFormed
    rcases d.symbol_cases name with e | e <;> rw [e]
    · exact hd
    · exact hd.push_symbol name
  | seq nodes =>
    show ((Script.seq nodes).run d).2.WellFormed
    rcases d.seq_cases nodes with ⟨-, e⟩ | ⟨i, -, e⟩ | ⟨-, e⟩ <;> rw [e]
    · exact hd
    · exact hd
    · refine hd.push_sequence fun i hi => ?_
      obtain ⟨n, hn, hi⟩ := List.mem_flatMap.1 hi
      exact hd.hasItem_items (hc n hn) hi
  | alt s p =>
    refine hd.update s _ fun x y hx hy => ?_
    cases hy
    refine ⟨fun p' hp' => ?_, hx.2⟩
    rcases List.mem_append.1 hp' with hp' | hp'
    · exact hx.1 p' hp'
    · rw [List.mem_singleton.1 hp']; exact hc p (by simp [Call.nodes])
  | resolver s n priority =>
    refine hd.update s _ fun x y hx hy => ?_
    split at hy
    · cases hy
    · cases hy
      exact ⟨hx.1, fun r hr => by cases hr; exact hc n (by simp [Call.nodes])⟩
  | lookahead s k =>
    refine hd.update s _ fun x y hx hy => ?_
    split at hy
    · cases hy
    · split at hy <;> cases hy
      exact hx
  | declareNullable s nullable =>
    refine hd.update s _ fun x y hx hy => ?_
    split at hy <;> cases hy
    exact hx
  | sync s => exact hd.update s _ fun x y hx hy => by cases hy; exact hx
  | enter s => exact hd.update s _ fun x y hx hy => by cases hy; exact hx
  | leave s => exact hd.update s _ fun x y hx hy => by cases hy; exact hx
  | start s =>
    rcases s with _ | (_ | s | _ | _ | _) | _
    case item.symbol =>
      refine ⟨hd.reserved, fun s' hs' => ?_, hd.symbols, hd.items⟩
      cases hs'
      exact hc (.item (.symbol s)) (by simp [Call.nodes])
    all_goals exact hd.record _
  | position n p =>
    exact hd.of_extends ⟨Nat.le_refl _, Nat.le_refl _, Nat.le_refl _, Nat.le_refl _, Nat.le_refl _, Nat.le_refl _⟩
      rfl rfl rfl

/-- Every draft that is written down step by step is well formed. -/
theorem Written.draft_wellFormed (h : d.Written) : d.WellFormed := by
  induction h with
  | empty =>
    refine ⟨by decide, fun _ hs => (nomatch hs), fun x hx => ?_, fun is his => ?_⟩
    · exact absurd hx (Array.not_mem_empty x)
    · exact absurd his (Array.not_mem_empty is)
  | call _ hc ih => exact ih.apply _ hc

/-- A finished grammar has the parts of its draft. -/
theorem finish_eq_ok {g : Grammar} (hg : d.finish = .ok g) : d.start = some g.start ∧ g = {
    tokens := d.tokens, symbols := d.symbols, sequences := d.sequences, actions := d.actions
    arguments := d.arguments, beacons := d.beacons, start := g.start, positions := d.positions } := by
  cases hf : d.fault with
  | some e => simp [finish, hf] at hg; cases hg
  | none =>
    cases hs : d.start with
    | none => simp [finish, hf, hs] at hg
    | some s =>
      cases hi : d.symbols.findIdx? (·.alts.isEmpty) with
      | some i => simp [finish, hf, hs, hi] at hg; cases hg
      | none =>
        simp [finish, hf, hs, hi] at hg
        cases hg
        exact ⟨rfl, rfl⟩

/-- **Every grammar that is written down step by step is well formed.** -/
theorem Written.wellFormed (h : d.Written) {g : Grammar} (hg : d.finish = .ok g) : g.WellFormed := by
  have hd := h.draft_wellFormed
  obtain ⟨hs, e⟩ := finish_eq_ok hg
  -- the parts are the same, so the references lead to the same places
  have hitem : ∀ i, d.HasItem i → g.HasItem i := fun i hi => by rw [e]; cases i <;> exact hi
  have hnode : ∀ n, d.HasNode n → g.HasNode n := fun n hn => by
    cases n with
    | epsilon => trivial
    | item i => exact hitem i hn
    | sequence q => rw [e]; exact hn
  have hsymbols : g.symbols = d.symbols := by rw [e]
  exact {
    reserved := by rw [e]; exact hd.reserved
    start := by rw [Grammar.symbolCount, hsymbols]; exact hd.start _ hs
    alts := fun x hx p hp => hnode p ((hd.symbols x (hsymbols ▸ hx)).1 p hp)
    items := fun is his i hi => hitem i (hd.items is (by rw [e] at his; exact his) i hi)
    resolvers := fun x hx r hr => hnode _ ((hd.symbols x (hsymbols ▸ hx)).2 r hr) }

end Draft

end PredictiveParser
