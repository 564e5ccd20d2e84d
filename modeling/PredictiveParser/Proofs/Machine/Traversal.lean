import PredictiveParser.Proofs.Machine.Matching
import PredictiveParser.Proofs.SyntaxTree

/-!
# Traversals

`traverse` walks through a forest from left to right and lists the callbacks that belong to it, each with the tokens that
the host can ask for in it. A stack unfolds to a traversal of what it expects (`Unfolds`): a node to the traversal of one of
its forests, the mark of an entered symbol to the exit of the symbol.
-/

namespace PredictiveParser.Machine

variable {σ τ : Type}

/-! ## Traversals -/

/-- What a parse remembers of the tokens that were matched. -/
structure Memory (τ : Type) where
  /-- The last token. -/
  last : Option τ := none
  /-- The tokens bound to slots. -/
  locator? : Nat → Option τ := fun _ => none
  /-- The slot that waits for the next token. -/
  armed : Option Nat := none

/-- A callback, and the tokens that the host can ask for in it. -/
structure Call (τ : Type) where
  event : Event
  last : Option τ
  locator? : Nat → Option τ

namespace Memory

variable (M : Memory τ)

/-- A callback with this memory. -/
def call (event : Event) : Call τ :=
  ⟨event, M.last, M.locator?⟩

/-- The memory when a slot waits; one that waited before is forgotten. -/
def arm (slot : Nat) : Memory τ :=
  { M with armed := some slot }

/-- The memory after a token, to which the waiting slot is bound. -/
def after (t : τ) : Memory τ where
  last := some t
  locator? slot := if M.armed = some slot then some t else M.locator? slot
  armed := none

end Memory

/-- The arguments at the beginning of items up to the first other item; the arguments `behind` stand behind the items. -/
def leadingArguments (behind : List Nat) : List Item → List Nat
  | [] => behind
  | .argument a :: is => a :: leadingArguments behind is
  | _ :: _ => []

/-- The callbacks before the items of a symbol: its arguments, then its entry if that is declared. -/
def entries (g : Grammar) (s : Nat) (args : List Nat) : List Event :=
  args.map .argument ++ if (g.symbol s).enter then [.enter s] else []

/-- The callbacks behind the items of a symbol: its exit if that is declared. -/
def exits (g : Grammar) (s : Nat) : List Event :=
  if (g.symbol s).leave then [.leave s] else []

/-- The callbacks of a traversal of items along their forest, and the memory after it. The arguments `behind` stand directly
behind the items. -/
def traverse (g : Grammar) : (behind : List Nat) → Memory τ → List Item → Forest τ → List (Call τ) × Memory τ
  | _, M, [], _ => ([], M)
  | behind, M, .action a :: is, f =>
    (M.call (.action a) :: (traverse g behind M is f).1, (traverse g behind M is f).2)
  | behind, M, .argument _ :: is, f => traverse g behind M is f
  | behind, M, .beacon b :: is, f => traverse g behind (M.arm b) is f
  | behind, M, .token _ :: is, .leaf t f => traverse g behind (M.after t) is f
  | behind, M, .symbol s :: is, .node _ p c f =>
    let inner := traverse g [] M (g.items p) c
    let rest := traverse g behind inner.2 is f
    ((entries g s (leadingArguments behind is)).map M.call ++ inner.1 ++ (exits g s).map inner.2.call ++ rest.1, rest.2)
  | _, M, _ :: _, _ => ([], M)
termination_by _ _ is f => (f.size, is.length)
decreasing_by
  · exact .right _ (Nat.lt_succ_self _)
  · exact .right _ (Nat.lt_succ_self _)
  · exact .right _ (Nat.lt_succ_self _)
  · exact .left _ _ (Nat.lt_succ_self _)
  · exact .left _ _ (by rw [Forest.size]; omega)
  · exact .left _ _ (by rw [Forest.size]; omega)

theorem leadingArguments_append (behind : List Nat) (is js : List Item) :
    leadingArguments behind (is ++ js) = leadingArguments (leadingArguments behind js) is := by
  induction is with
  | nil => rfl
  | cons i is ih =>
    cases i with
    | argument a => exact congrArg _ ih
    | _ => rfl

variable [Terminal τ] {g : Grammar}

/-- A traversal of items one after the other. -/
theorem traverse_append {behind : List Nat} {M : Memory τ} {is js : List Item} {f r : Forest τ}
    (hf : g.Grows is (f.map Terminal.id)) : traverse g behind M (is ++ js) (f.append r) =
      ((traverse g (leadingArguments behind js) M is f).1 ++
          (traverse g behind (traverse g (leadingArguments behind js) M is f).2 js r).1,
        (traverse g behind (traverse g (leadingArguments behind js) M is f).2 js r).2) := by
  induction is generalizing M f with
  | nil =>
    cases f with
    | nil => simp only [List.nil_append, Forest.append, traverse]
    | leaf => cases hf
    | node => cases hf
  | cons i is ih =>
    cases i with
    | action a =>
      simp only [List.cons_append, traverse, ih (hf.of_silent rfl)]
    | argument a => simp only [List.cons_append, traverse, ih (hf.of_silent rfl)]
    | beacon b => simp only [List.cons_append, traverse, ih (hf.of_silent rfl)]
    | token t =>
      cases f with
      | nil => cases hf with | silent hi => cases hi
      | node => cases hf with | silent hi => cases hi
      | leaf x f =>
        cases hf with
        | silent hi => cases hi
        | leaf _ hf => simp only [List.cons_append, Forest.append, traverse, ih hf]
    | symbol s =>
      cases f with
      | nil => cases hf with | silent hi => cases hi
      | leaf => cases hf with | silent hi => cases hi
      | node s' p c f =>
        cases hf with
        | silent hi => cases hi
        | node _ _ hf =>
          simp only [List.cons_append, Forest.append, traverse, ih hf, leadingArguments_append, List.append_assoc]

/-- The arguments on the stack below items. -/
theorem pendingArguments_items {P : Program} {is : List Item} {stack : List Frame} (hi : ∀ i ∈ is, g.HasItem i)
    (hP : ∀ i, g.HasItem i → P.instruction (g.itemNumber i) = g.instructionOf i) :
    pendingArguments P (itemFrames g is ++ stack) = leadingArguments (pendingArguments P stack) is := by
  induction is with
  | nil => rfl
  | cons i is ih =>
    rw [List.forall_mem_cons] at hi
    show pendingArguments P (.node (g.itemNumber i) :: (itemFrames g is ++ stack)) = _
    rw [pendingArguments, hP i hi.1]
    cases i with
    | argument a => exact congrArg _ (ih hi.2)
    | _ => rfl

/-! ## What the stack unfolds to -/

/-- From the token position `k` on the tokens `xs` match what the stack expects up to the end of the input at the position
`m`, with the given tree and memory at first; that turns the tree into the tree `R`, and makes the callbacks. -/
inductive Unfolds (g : Grammar) (P : Program) (xs : List τ) (m : Nat) (R : Option (SyntaxTree τ)) :
    (k : Nat) → (stack : List Frame) → (tree : Option (SyntaxTree τ)) → Memory τ → List (Call τ) → Prop
  | finish {M : Memory τ} : xs[m]?.map Terminal.id = some endToken → Unfolds g P xs m R m [.finish] R M []
  | node {k : Nat} {n : Node} {stack : List Frame} {tree : Option (SyntaxTree τ)} {M : Memory τ} {cs : List (Call τ)}
      {f : Forest τ} : g.HasNode n → g.Grows (g.items n) (f.map Terminal.id) → f.leaves <+: xs.drop k →
      Unfolds g P xs m R (k + f.leaves.length) stack (tree.map (·.graft f))
        (traverse g (pendingArguments P stack) M (g.items n) f).2 cs →
      Unfolds g P xs m R k (.node (g.number n) :: stack) tree M
        ((traverse g (pendingArguments P stack) M (g.items n) f).1 ++ cs)
  | entered {k s : Nat} {stack : List Frame} {tree : Option (SyntaxTree τ)} {M : Memory τ} {cs : List (Call τ)} :
      Unfolds g P xs m R k stack (tree.map (·.close)) M cs →
      Unfolds g P xs m R k (.entered s false :: stack) tree M ((exits g s).map M.call ++ cs)

namespace Unfolds

variable {P : Program} {xs : List τ} {m k : Nat} {R tree : Option (SyntaxTree τ)} {stack : List Frame} {M : Memory τ}
  {cs : List (Call τ)}

theorem exists_forest {n : Node} (hn : g.HasNode n) (h : Unfolds g P xs m R k (.node (g.number n) :: stack) tree M cs) :
    ∃ (f : Forest τ) (ds : List (Call τ)), g.Grows (g.items n) (f.map Terminal.id) ∧ f.leaves <+: xs.drop k ∧
      cs = (traverse g (pendingArguments P stack) M (g.items n) f).1 ++ ds ∧
      Unfolds g P xs m R (k + f.leaves.length) stack (tree.map (·.graft f))
        (traverse g (pendingArguments P stack) M (g.items n) f).2 ds := by
  generalize hl : Frame.node (g.number n) :: stack = l at h
  cases h with
  | finish => cases hl
  | entered => cases hl
  | @node _ n' _ _ _ ds f hn' hg hp h =>
    obtain ⟨hnum, rfl⟩ := List.cons.inj hl
    obtain rfl := Grammar.number_injective hn hn' (Frame.node.inj hnum)
    exact ⟨f, ds, hg, hp, rfl, h⟩

/-- At the end of the input nothing is left. -/
theorem of_finish (h : Unfolds g P xs m R k [.finish] tree M cs) :
    m = k ∧ xs[k]?.map Terminal.id = some endToken ∧ R = tree ∧ cs = [] := by
  cases h with
  | finish hend => exact ⟨rfl, hend, rfl, rfl⟩

/-- A node unfolds to a forest of its items, with the calls that the traversal of the forest makes. -/
theorem of_traverse {n : Node} {f : Forest τ} {new : List (Call τ)} {M' : Memory τ} (hn : g.HasNode n)
    (hf : g.Grows (g.items n) (f.map Terminal.id)) (hp : f.leaves <+: xs.drop k)
    (ht : traverse g (pendingArguments P stack) M (g.items n) f = (new, M'))
    (h : Unfolds g P xs m R (k + f.leaves.length) stack (tree.map (·.graft f)) M' cs) :
    Unfolds g P xs m R k (.node (g.number n) :: stack) tree M (new ++ cs) := by
  obtain ⟨rfl, rfl⟩ := Prod.ext_iff.1 ht
  exact .node hn hf hp h

/-- A node that matches nothing. -/
theorem silent {n : Node} {new : List (Call τ)} {M' : Memory τ} (hn : g.HasNode n) (hg : g.Grows (g.items n) .nil)
    (ht : traverse g (pendingArguments P stack) M (g.items n) .nil = (new, M'))
    (h : Unfolds g P xs m R k stack tree M' cs) :
    Unfolds g P xs m R k (.node (g.number n) :: stack) tree M (new ++ cs) := by
  refine of_traverse (f := .nil) hn hg List.nil_prefix ht ?_
  cases tree with
  | none => exact h
  | some T => exact h

theorem exists_forest_cons {i : Item} {is : List Item} (hi : g.HasItem i)
    (h : Unfolds g P xs m R k (itemFrames g (i :: is) ++ stack) tree M cs) :
    ∃ (f : Forest τ) (ds : List (Call τ)), g.Grows [i] (f.map Terminal.id) ∧ f.leaves <+: xs.drop k ∧
      cs = (traverse g (pendingArguments P (itemFrames g is ++ stack)) M [i] f).1 ++ ds ∧
      Unfolds g P xs m R (k + f.leaves.length) (itemFrames g is ++ stack) (tree.map (·.graft f))
        (traverse g (pendingArguments P (itemFrames g is ++ stack)) M [i] f).2 ds :=
  exists_forest (n := .item i) hi h

/-- The forests of items stand side by side. -/
theorem exists_forest_items {is : List Item} (hi : ∀ i ∈ is, g.HasItem i)
    (hP : ∀ i, g.HasItem i → P.instruction (g.itemNumber i) = g.instructionOf i)
    (h : Unfolds g P xs m R k (itemFrames g is ++ stack) tree M cs) :
    ∃ (f : Forest τ) (ds : List (Call τ)), g.Grows is (f.map Terminal.id) ∧ f.leaves <+: xs.drop k ∧
      cs = (traverse g (pendingArguments P stack) M is f).1 ++ ds ∧
      Unfolds g P xs m R (k + f.leaves.length) stack (tree.map (·.graft f))
        (traverse g (pendingArguments P stack) M is f).2 ds := by
  induction is generalizing k tree M cs with
  | nil =>
    refine ⟨.nil, cs, .nil, List.nil_prefix, by rw [traverse]; rfl, ?_⟩
    rw [traverse]
    cases tree with
    | none => exact h
    | some T => exact h
  | cons i is ih =>
    rw [List.forall_mem_cons] at hi
    obtain ⟨f, ds, hf, hp, hcs, hrest⟩ := exists_forest_cons hi.1 h
    obtain ⟨r, es, hr, hp', hds, hrest⟩ := ih hi.2 hrest
    rw [pendingArguments_items hi.2 hP] at hcs hds hrest
    have htraverse := @traverse_append _ _ g (pendingArguments P stack) M [i] is f r hf
    rw [List.singleton_append] at htraverse
    refine ⟨f.append r, es, ?_, ?_, ?_, ?_⟩
    · rw [Forest.map_append]
      exact Grammar.Grows.append hf hr
    · obtain ⟨ys, hys⟩ := hp
      rw [← List.drop_drop, ← hys, List.drop_left] at hp'
      rw [Forest.leaves_append, ← hys]
      exact (List.prefix_append_right_inj _).2 hp'
    · rw [htraverse, hcs, hds, List.append_assoc]
    · rw [Option.map_map] at hrest
      rw [Forest.leaves_append, List.length_append, ← Nat.add_assoc, htraverse]
      have e : ((fun T : SyntaxTree τ => T.graft (f.append r))) = (fun T => T.graft r) ∘ fun T => T.graft f :=
        funext fun T => T.graft_append f r
      rw [e]
      exact hrest

/-- The items of a sequence unfold for the sequence. -/
theorem sequence (hg : g.WellFormed) {q : Nat} (hq : q < g.sequences.size)
    (hP : ∀ i, g.HasItem i → P.instruction (g.itemNumber i) = g.instructionOf i)
    (h : Unfolds g P xs m R k (itemFrames g (g.sequence q) ++ stack) tree M cs) :
    Unfolds g P xs m R k (.node (g.number (.sequence q)) :: stack) tree M cs := by
  obtain ⟨f, ds, hf, hp, hcs, hrest⟩ := h.exists_forest_items (fun i => hg.hasItem_sequence) hP
  exact hcs ▸ .node (n := .sequence q) hq hf hp hrest

/-- A terminal unfolds to a token that it accepts. -/
theorem token {t : Nat} {x : τ} (ht : t < g.tokenCount) (hx : xs[k]? = some x) (ha : accepts t (Terminal.id x) = true)
    (h : Unfolds g P xs m R (k + 1) stack (tree.map (·.leaf x)) (M.after x) cs) :
    Unfolds g P xs m R k (.node (g.number (Item.token t)) :: stack) tree M cs := by
  have htraverse : traverse g (pendingArguments P stack) M (g.items (Item.token t)) (.leaf x .nil) = ([], M.after x) := by
    show traverse g _ M [.token t] _ = _
    rw [traverse, traverse]
  refine of_traverse (n := Item.token t) ht (.leaf ha .nil) ?_ htraverse h
  obtain ⟨hk, rfl⟩ := List.getElem?_eq_some_iff.1 hx
  rw [List.drop_eq_getElem_cons hk]
  exact (List.prefix_cons_inj _).2 List.nil_prefix

/-- A symbol unfolds to an alternative, with its arguments and its entry before it. -/
theorem symbol (hg : g.WellFormed) {s : Nat} {p : Node} (hs : s < g.symbolCount) (hp : p ∈ (g.symbol s).alts)
    (h : Unfolds g P xs m R k (.node (g.number p) :: .entered s false :: stack) (tree.map (·.enter s)) M cs) :
    Unfolds g P xs m R k (.node (g.number (Item.symbol s)) :: stack) tree M
      ((entries g s (pendingArguments P stack)).map M.call ++ cs) := by
  obtain ⟨f, ds, hf, hpre, hcs, hrest⟩ := h.exists_forest (hg.hasNode_alt hp)
  subst hcs
  cases hrest with
  | @entered _ _ _ _ _ ds hrest =>
    have htraverse : traverse g (pendingArguments P stack) M (g.items (Item.symbol s)) (.node s p f .nil) =
        ((entries g s (pendingArguments P stack)).map M.call ++ (traverse g [] M (g.items p) f).1 ++
          (exits g s).map (traverse g [] M (g.items p) f).2.call, (traverse g [] M (g.items p) f).2) := by
      show traverse g _ M [.symbol s] _ = _
      rw [traverse, traverse, List.append_nil]
      rfl
    have hleaves : (Forest.node s p f .nil).leaves = f.leaves := by rw [Forest.leaves, Forest.leaves, List.append_nil]
    rw [Option.map_map, Option.map_map] at hrest
    have hnode : Unfolds g P xs m R k (.node (g.number (Item.symbol s)) :: stack) tree M _ :=
      of_traverse (n := Item.symbol s) (f := .node s p f .nil) hs (.node hp hf .nil) (hleaves ▸ hpre) htraverse
        (hleaves ▸ hrest)
    simp only [List.append_assoc] at hnode
    exact hnode

end Unfolds

end PredictiveParser.Machine
