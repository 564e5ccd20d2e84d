import Mathlib.Data.List.Basic
import Mathlib.Data.List.Induction
import PredictiveParser.Proofs.Distinct
import PredictiveParser.Proofs.Grammar.Written

/-!
# Handles keep their meaning

A writer of a grammar works with handles: nodes that steps have returned. A named part is always found under the same
handle, which no other name gets (`run_part_eq_iff`), and the parts of a kind stand in the order in which their names
were first asked for (`names_foldl`). `Script.seq` concatenates: the node that it returns stands for the items of the
nodes that it was given, one after another (`denotes_seq`), and later steps do not change what a node stands for
(`Precedes.items_eq`). So it makes no difference how uses of `seq` are nested (`Nesting.build_run`).
-/

namespace PredictiveParser

/-- The kinds of parts that have names. -/
inductive NameKind
  | token
  | symbol
  | action
  | argument
  | beacon
  deriving DecidableEq

namespace NameKind

/-- The part with a number. -/
def node : NameKind → Nat → Node
  | token, i => Item.token i
  | symbol, i => Item.symbol i
  | action, i => Item.action i
  | argument, i => Item.argument i
  | beacon, i => Item.beacon i

/-- Asks for the part with a name. -/
def part : NameKind → String → Script Node
  | token => Script.token
  | symbol => Script.symbol
  | action => Script.action
  | argument => Script.argument
  | beacon => Script.beacon

/-- The step that asks for the part with a name. -/
def call : NameKind → String → Call
  | token => .token
  | symbol => .symbol
  | action => .action
  | argument => .argument
  | beacon => .beacon

/-- The names that there are from the beginning. -/
def reserved : NameKind → List String
  | token => ["$end", "$any"]
  | symbol | action | argument | beacon => []

theorem node_inj {k k' : NameKind} {i i' : Nat} : k.node i = k'.node i' ↔ k = k' ∧ i = i' := by
  cases k <;> cases k' <;> simp [node]

theorem apply_call (k : NameKind) (name : String) (d : Draft) :
    (k.call name).apply d = ((k.part name).run d).2 := by
  cases k <;> rfl

end NameKind

/-- The name of a kind that a step asks for. -/
def Call.name? : NameKind → Call → Option String
  | .token, token name | .symbol, symbol name | .action, action name | .argument, argument name | .beacon, beacon name =>
    some name
  | _, _ => none

theorem NameKind.name?_call (k k' : NameKind) (name : String) :
    (k'.call name).name? k = if k = k' then some name else none := by
  cases k <;> cases k' <;> rfl

theorem NameTable.add_eq (T : NameTable) (name : String) :
    (T.add name).1 = T.names.idxOf name ∧ (T.add name).2.names = insertLast T.names name := by
  have hidx := List.idxOf_eq_getD_idxOf? name T.names
  unfold add
  split
  · next i h =>
    rw [hidx, show T.names.idxOf? name = some i from h,
      insertLast_of_mem (List.mem_of_getElem? (index?_eq_some_iff.1 h))]
    exact ⟨rfl, rfl⟩
  · next h =>
    rw [hidx, show T.names.idxOf? name = none from h, insertLast_of_not_mem (not_mem_of_index? h)]
    exact ⟨rfl, rfl⟩

namespace Draft

variable {d e : Draft}

/-- The names of a kind, in the order of their numbers. -/
def names (d : Draft) : NameKind → List String
  | .token => d.tokens.names
  | .symbol => d.symbols.toList.map (·.name)
  | .action => d.actions.names
  | .argument => d.arguments.names
  | .beacon => d.beacons.names

/-! ## Single steps -/

theorem findIdx?_symbols (d : Draft) (name : String) :
    d.symbols.findIdx? (·.name == name) = (d.names .symbol).idxOf? name := by
  unfold names
  generalize d.symbols = symbols
  obtain ⟨l⟩ := symbols
  rw [List.findIdx?_toArray, List.idxOf?, List.findIdx?_map]
  rfl

/-- The symbol of a name is found, or comes last if the name is new. -/
theorem run_symbol (d : Draft) (name : String) :
    ((Script.symbol name).run d).1 = Item.symbol ((d.names .symbol).idxOf name) ∧
      ((Script.symbol name).run d).2 =
        if name ∈ d.names .symbol then d else { d with symbols := d.symbols.push { name } } := by
  have hidx := List.idxOf_eq_getD_idxOf? name (d.names .symbol)
  have hfind := d.findIdx?_symbols name
  cases h : (d.names .symbol).idxOf? name with
  | some i =>
    have hmem : name ∈ d.names .symbol := List.isSome_idxOf?.1 (by rw [h]; rfl)
    rw [hidx, h, if_pos hmem]
    simp [Script.symbol, hfind, h]
    exact ⟨rfl, rfl⟩
  | none =>
    have hsize : (d.names .symbol).length = d.symbols.size := by simp [names]
    rw [hidx, h, if_neg (List.idxOf?_eq_none_iff.1 h), Option.getD_none, hsize]
    simp [Script.symbol, hfind, h]
    exact ⟨rfl, rfl⟩

/-- A step that neither gives names nor stores a sequence. -/
def Quiet (d e : Draft) : Prop :=
  e.sequences = d.sequences ∧ ∀ k, e.names k = d.names k

/-- A change of a symbol that keeps its name is quiet. -/
theorem quiet_update (d : Draft) (n : Node) (change : Nonterminal → Except String Nonterminal)
    (hname : ∀ x y, change x = .ok y → y.name = x.name) : d.Quiet ((Script.update n change).run d).2 := by
  rcases d.update_cases n change with ⟨s, x, y, hx, hy, e⟩ | ⟨fault, e⟩ | e <;> rw [e]
  · refine ⟨rfl, fun k => ?_⟩
    cases k with
    | symbol =>
      obtain ⟨hs, hget⟩ := Array.getElem?_eq_some_iff.1 hx
      have hlt : s < (d.symbols.toList.map (·.name)).length := by simpa using hs
      have hself : (d.symbols.toList.map (·.name))[s] = y.name := by
        rw [List.getElem_map, Array.getElem_toList, hget, hname x y hy]
      show (d.symbols.setIfInBounds s y).toList.map _ = d.symbols.toList.map _
      rw [Array.toList_setIfInBounds, List.map_set, ← hself, List.set_getElem_self]
    | _ => rfl
  · exact ⟨rfl, fun k => by cases k <;> rfl⟩
  · exact ⟨rfl, fun _ => rfl⟩

/-- A step asks for a named part, stores a sequence or is quiet. -/
theorem apply_cases (c : Call) (d : Draft) :
    (∃ (k : NameKind) (name : String), c = k.call name) ∨ (∃ nodes, c = .seq nodes) ∨
      (∀ k, c.name? k = none) ∧ d.Quiet (c.apply d) := by
  cases c with
  | token name => exact .inl ⟨.token, name, rfl⟩
  | symbol name => exact .inl ⟨.symbol, name, rfl⟩
  | action name => exact .inl ⟨.action, name, rfl⟩
  | argument name => exact .inl ⟨.argument, name, rfl⟩
  | beacon name => exact .inl ⟨.beacon, name, rfl⟩
  | seq nodes => exact .inr (.inl ⟨nodes, rfl⟩)
  | alt s p =>
    refine .inr (.inr ⟨fun k => by cases k <;> rfl, d.quiet_update s _ ?_⟩)
    intro x y hy
    cases hy
    rfl
  | resolver s n priority =>
    refine .inr (.inr ⟨fun k => by cases k <;> rfl, d.quiet_update s _ ?_⟩)
    intro x y hy
    split at hy <;> cases hy
    rfl
  | lookahead s k =>
    refine .inr (.inr ⟨fun k => by cases k <;> rfl, d.quiet_update s _ ?_⟩)
    intro x y hy
    split at hy
    · cases hy
    · split at hy <;> cases hy
      rfl
  | declareNullable s nullable =>
    refine .inr (.inr ⟨fun k => by cases k <;> rfl, d.quiet_update s _ ?_⟩)
    intro x y hy
    split at hy <;> cases hy
    rfl
  | sync s | enter s | leave s =>
    refine .inr (.inr ⟨fun k => by cases k <;> rfl, d.quiet_update s _ ?_⟩)
    intro x y hy
    cases hy
    rfl
  | start s =>
    refine .inr (.inr ⟨fun k => by cases k <;> rfl, ?_⟩)
    rcases s with _ | (_ | s | _ | _ | _) | _ <;> exact ⟨rfl, fun k => by cases k <;> rfl⟩
  | position n p => exact .inr (.inr ⟨fun k => by cases k <;> rfl, rfl, fun k => by cases k <;> rfl⟩)

/-- The part of a name is found, or comes last if the name is new; other kinds and the sequences stay as they are. -/
theorem run_part (d : Draft) (k : NameKind) (name : String) :
    ((k.part name).run d).1 = k.node ((d.names k).idxOf name) ∧
      ((k.part name).run d).2.sequences = d.sequences ∧
      ∀ k', ((k.part name).run d).2.names k' = if k' = k then insertLast (d.names k) name else d.names k' := by
  cases k with
  | symbol =>
    obtain ⟨hi, he⟩ := d.run_symbol name
    refine ⟨hi, ?_, fun k' => ?_⟩
    · show ((Script.symbol name).run d).2.sequences = _
      rw [he]
      split <;> rfl
    · show ((Script.symbol name).run d).2.names k' = _
      rw [he]
      unfold insertLast
      split
      · cases k' <;> rfl
      · cases k' with
        | symbol => simp [names]
        | _ => rfl
  | token =>
    obtain ⟨hi, hnames⟩ := d.tokens.add_eq name
    exact ⟨congrArg (NameKind.node .token) hi, rfl, fun k' => by cases k' <;> first | exact hnames | rfl⟩
  | action =>
    obtain ⟨hi, hnames⟩ := d.actions.add_eq name
    exact ⟨congrArg (NameKind.node .action) hi, rfl, fun k' => by cases k' <;> first | exact hnames | rfl⟩
  | argument =>
    obtain ⟨hi, hnames⟩ := d.arguments.add_eq name
    exact ⟨congrArg (NameKind.node .argument) hi, rfl, fun k' => by cases k' <;> first | exact hnames | rfl⟩
  | beacon =>
    obtain ⟨hi, hnames⟩ := d.beacons.add_eq name
    exact ⟨congrArg (NameKind.node .beacon) hi, rfl, fun k' => by cases k' <;> first | exact hnames | rfl⟩

/-! ## What steps keep -/

/-- The names and sequences of `d` are those of `e` that were there first. -/
structure Precedes (d e : Draft) : Prop where
  names : ∀ k, d.names k <+: e.names k
  sequences : d.sequences.toList <+: e.sequences.toList

namespace Precedes

theorem refl (d : Draft) : d.Precedes d :=
  ⟨fun _ => List.prefix_rfl, List.prefix_rfl⟩

theorem trans {d' : Draft} (h : d.Precedes d') (h' : d'.Precedes e) : d.Precedes e :=
  ⟨fun k => (h.names k).trans (h'.names k), h.sequences.trans h'.sequences⟩

theorem toExtends (h : d.Precedes e) : d.Extends e where
  tokens := (h.names .token).length_le
  symbols := by simpa [Draft.names] using (h.names .symbol).length_le
  sequences := h.sequences.length_le
  actions := (h.names .action).length_le
  arguments := (h.names .argument).length_le
  beacons := (h.names .beacon).length_le

/-- **A handle keeps its meaning.** -/
theorem items_eq (h : d.Precedes e) {n : Node} (hn : d.HasNode n) : e.items n = d.items n := by
  cases n with
  | epsilon | item i => rfl
  | sequence q =>
    have hq : q < d.sequences.toList.length := hn
    have hget : e.sequences[q]? = d.sequences[q]? := by
      obtain ⟨added, hadded⟩ := h.sequences
      rw [← Array.getElem?_toList, ← Array.getElem?_toList, ← hadded, List.getElem?_append_left hq]
    rw [items, items, hget]

/-- Handles that were there first stand for the same items, one after another. -/
theorem flatMap_items (h : d.Precedes e) {nodes : List Node} (hn : ∀ n ∈ nodes, d.HasNode n) :
    nodes.flatMap e.items = nodes.flatMap d.items :=
  List.flatMap_congr fun n hmem => h.items_eq (hn n hmem)

end Precedes

/-- Concatenating keeps the names and sequences that were there first. -/
theorem precedes_seq (d : Draft) (nodes : List Node) : d.Precedes ((Script.seq nodes).run d).2 := by
  rcases d.seq_cases nodes with ⟨-, h⟩ | ⟨i, -, h⟩ | ⟨-, h⟩ <;> rw [h]
  · exact .refl d
  · exact .refl d
  · exact ⟨fun k => by cases k <;> exact List.prefix_rfl, by simp⟩

/-- A step keeps the names and sequences that were there first. -/
theorem precedes_apply (d : Draft) (c : Call) : d.Precedes (c.apply d) := by
  rcases d.apply_cases c with ⟨k, name, rfl⟩ | ⟨nodes, rfl⟩ | ⟨-, hs, hnames⟩
  · obtain ⟨-, hs, hnames⟩ := d.run_part k name
    rw [NameKind.apply_call]
    refine ⟨fun k' => ?_, hs ▸ List.prefix_rfl⟩
    rw [hnames]
    split
    · next h => exact h ▸ prefix_insertLast _ name
    · exact List.prefix_rfl
  · exact d.precedes_seq nodes
  · exact ⟨fun k => hnames k ▸ List.prefix_rfl, hs ▸ List.prefix_rfl⟩

/-- Steps keep the names and sequences that were there first. -/
theorem precedes_foldl (d : Draft) (cs : List Call) : d.Precedes (cs.foldl Call.apply d) :=
  List.foldlRecOn cs Call.apply (.refl d) fun e he c _ => he.trans (e.precedes_apply c)

/-! ## Names -/

/-- A step that asks for a name adds it to the names of its kind. -/
theorem names_apply (d : Draft) (c : Call) (k : NameKind) :
    (c.apply d).names k = (c.name? k).elim (d.names k) (insertLast (d.names k)) := by
  rcases d.apply_cases c with ⟨k', name, rfl⟩ | ⟨nodes, rfl⟩ | ⟨hname, -, hnames⟩
  · rw [NameKind.apply_call, (d.run_part k' name).2.2, NameKind.name?_call]
    split
    · next h => rw [h]; rfl
    · rfl
  · have hname : (Call.seq nodes).name? k = none := by cases k <;> rfl
    rw [hname]
    show ((Script.seq nodes).run d).2.names k = d.names k
    rcases d.seq_cases nodes with ⟨-, h⟩ | ⟨i, -, h⟩ | ⟨-, h⟩ <;> rw [h]
    cases k <;> rfl
  · rw [hname, hnames]
    rfl

/-- **The names of a kind are those that were asked for, in the order in which they first were.** -/
theorem names_foldl (cs : List Call) (k : NameKind) :
    (cs.foldl Call.apply {}).names k = (k.reserved ++ cs.filterMap (Call.name? k)).eraseDups := by
  induction cs using List.reverseRecOn with
  | nil => cases k <;> decide
  | append_singleton cs c ih =>
    rw [List.foldl_append, List.foldl_cons, List.foldl_nil, names_apply, ih, List.filterMap_append]
    cases h : c.name? k with
    | none => simp [h]
    | some name => simp [h, ← List.append_assoc, eraseDups_concat]

/-- A named part is found under its number. -/
theorem getElem?_names_run_part (d : Draft) (k : NameKind) (name : String) :
    ((k.part name).run d).1 = k.node ((d.names k).idxOf name) ∧
      (((k.part name).run d).2.names k)[(d.names k).idxOf name]? = some name := by
  obtain ⟨hnode, -, hnames⟩ := d.run_part k name
  refine ⟨hnode, ?_⟩
  rw [hnames, if_pos rfl, ← idxOf_insertLast]
  exact List.getElem?_idxOf (mem_insertLast _ name)

theorem hasNode_node {k : NameKind} {i : Nat} : d.HasNode (k.node i) ↔ i < (d.names k).length := by
  cases k <;> simp [NameKind.node, names, HasNode, HasItem, NameTable.size]

/-- **A name has one handle, however many steps lie between the times that it is asked for, and no other name of any
kind has it.** -/
theorem run_part_eq_iff (d : Draft) (k k' : NameKind) (name name' : String) (later : List Call) :
    ((k.part name).run d).1 = ((k'.part name').run (later.foldl Call.apply ((k.part name).run d).2)).1 ↔
      k = k' ∧ name = name' := by
  obtain ⟨hnode, -, hnames⟩ := d.run_part k name
  generalize he : ((k.part name).run d).2 = e at hnames ⊢
  obtain ⟨added, hadded⟩ := (e.precedes_foldl later).names k
  rw [hnode, ((later.foldl Call.apply e).run_part k' name').1, NameKind.node_inj]
  refine and_congr_right fun hk => ?_
  have hmem : name ∈ e.names k := by
    rw [hnames, if_pos rfl]
    exact mem_insertLast _ name
  have hfirst : (d.names k).idxOf name = ((later.foldl Call.apply e).names k).idxOf name := by
    rw [← hadded, List.idxOf_append_of_mem hmem, hnames, if_pos rfl, idxOf_insertLast]
  rw [hfirst, ← hk]
  exact List.idxOf_inj (hadded ▸ List.mem_append_left added hmem)

/-! ## Concatenation -/

/-- The node is one of the draft and stands for the items. -/
structure Denotes (d : Draft) (n : Node) (is : List Item) : Prop where
  hasNode : d.HasNode n
  items : d.items n = is

/-- **Later steps do not change what a node stands for.** -/
theorem Denotes.of_precedes {n : Node} {is : List Item} (h : d.Denotes n is) (he : d.Precedes e) : e.Denotes n is :=
  ⟨he.toExtends.hasNode h.hasNode, (he.items_eq h.hasNode).trans h.items⟩

/-- Every sequence that is stored has two items or more. -/
def Collapsed (d : Draft) : Prop :=
  ∀ is ∈ d.sequences, 2 ≤ is.length

theorem Collapsed.apply (hd : d.Collapsed) (c : Call) : (c.apply d).Collapsed := by
  rcases d.apply_cases c with ⟨k, name, rfl⟩ | ⟨nodes, rfl⟩ | ⟨-, hs, -⟩
  · rw [NameKind.apply_call, Collapsed, (d.run_part k name).2.1]
    exact hd
  · show ((Script.seq nodes).run d).2.Collapsed
    rcases d.seq_cases nodes with ⟨-, h⟩ | ⟨i, -, h⟩ | ⟨htwo, h⟩ <;> rw [h]
    · exact hd
    · exact hd
    · intro is his
      rcases Array.mem_push.1 his with his | rfl
      · exact hd is his
      · exact htwo
  · rw [Collapsed, hs]
    exact hd

theorem WellFormed.foldl (hd : d.WellFormed) {cs : List Call} (h : d.Allows cs) : (cs.foldl Call.apply d).WellFormed := by
  induction cs generalizing d with
  | nil => exact hd
  | cons c cs ih => exact ih (hd.apply c h.1) h.2

/-- **A concatenation stands for the items of its parts, one after another.** -/
theorem denotes_seq (hd : d.WellFormed) {nodes : List Node} (hn : ∀ n ∈ nodes, d.HasNode n) :
    ((Script.seq nodes).run d).2.Denotes ((Script.seq nodes).run d).1 (nodes.flatMap d.items) := by
  rcases d.seq_cases nodes with ⟨his, h⟩ | ⟨i, his, h⟩ | ⟨-, h⟩ <;> rw [h]
  · exact ⟨trivial, his.symm⟩
  · obtain ⟨n, hmem, hi⟩ := List.mem_flatMap.1 (his ▸ List.mem_singleton_self i)
    exact ⟨hd.hasItem_items (hn n hmem) hi, his.symm⟩
  · exact ⟨by simp [HasNode], by simp [items]⟩

end Draft

/-- Handles, or what is made of such by `seq`. -/
inductive Nesting
  | handle (n : Node)
  | seq (parts : List Nesting)

namespace Nesting

mutual

/-- The handles, from left to right. -/
def handles : Nesting → List Node
  | handle n => [n]
  | seq parts => handlesOf parts

def handlesOf : List Nesting → List Node
  | [] => []
  | N :: Ns => N.handles ++ handlesOf Ns

end

mutual

/-- Concatenates the handles as they are nested, inner parts first. -/
def build : Nesting → Script Node
  | handle n => return n
  | seq parts => do Script.seq (← buildEach parts)

def buildEach : List Nesting → Script (List Node)
  | [] => return []
  | N :: Ns => do
    let n ← N.build
    let ns ← buildEach Ns
    return n :: ns

end

mutual

/-- **However handles are nested, the node that they make stands for their items, one after another.** -/
theorem build_run : ∀ {d : Draft}, d.WellFormed → ∀ N : Nesting, (∀ n ∈ N.handles, d.HasNode n) →
    (N.build.run d).2.WellFormed ∧ d.Precedes (N.build.run d).2 ∧
      (N.build.run d).2.Denotes (N.build.run d).1 (N.handles.flatMap d.items)
  | d, hd, handle n, h => by
    have hn : d.HasNode n := h n (by simp [handles])
    exact ⟨hd, .refl d, hn, by simp [handles, build]; rfl⟩
  | d, hd, seq parts, h => by
    obtain ⟨hd', hle, hn, hitems⟩ := buildEach_run hd parts (by simpa [handles] using h)
    have e : (seq parts).build.run d =
        (Script.seq ((buildEach parts).run d).1).run ((buildEach parts).run d).2 := by
      simp [build]; rfl
    rw [e]
    refine ⟨hd'.apply (.seq _) hn, hle.trans (Draft.precedes_seq _ _), ?_⟩
    have hseq := Draft.denotes_seq hd' hn
    rwa [hitems] at hseq

theorem buildEach_run : ∀ {d : Draft}, d.WellFormed → ∀ Ns : List Nesting, (∀ n ∈ handlesOf Ns, d.HasNode n) →
    ((buildEach Ns).run d).2.WellFormed ∧ d.Precedes ((buildEach Ns).run d).2 ∧
      (∀ n ∈ ((buildEach Ns).run d).1, ((buildEach Ns).run d).2.HasNode n) ∧
      ((buildEach Ns).run d).1.flatMap ((buildEach Ns).run d).2.items = (handlesOf Ns).flatMap d.items
  | d, hd, [], _ => ⟨hd, .refl d, fun _ hn => absurd hn List.not_mem_nil, rfl⟩
  | d, hd, N :: Ns, h => by
    rw [handlesOf, List.forall_mem_append] at h
    obtain ⟨hd', hle, hN⟩ := build_run hd N h.1
    obtain ⟨hd'', hle', hn, hitems⟩ := buildEach_run hd' Ns fun n hn => hle.toExtends.hasNode (h.2 n hn)
    have e : (buildEach (N :: Ns)).run d = ((N.build.run d).1 :: ((buildEach Ns).run (N.build.run d).2).1,
        ((buildEach Ns).run (N.build.run d).2).2) := by
      simp [buildEach]; rfl
    rw [e]
    -- the node of the first part still stands for its items when the other parts are there
    have hN' := hN.of_precedes hle'
    refine ⟨hd'', hle.trans hle', List.forall_mem_cons.2 ⟨hN'.hasNode, hn⟩, ?_⟩
    rw [List.flatMap_cons, hN'.items, hitems, hle.flatMap_items h.2, handlesOf, List.flatMap_append]

end

end Nesting

namespace Draft

/-- What a writer can rely on after the steps `cs`, which have led to the draft `d`. -/
structure Reliable (cs : List Call) (d : Draft) : Prop where
  /-- What is stored as a sequence is two items or more; an item is neither a sequence nor empty. -/
  stored : ∀ is ∈ d.sequences, 2 ≤ is.length ∧ ∀ i ∈ is, d.HasItem i
  seq : ∀ nodes : List Node, (∀ n ∈ nodes, d.HasNode n) →
    ((Script.seq nodes).run d).2.Denotes ((Script.seq nodes).run d).1 (nodes.flatMap d.items)
  kept : ∀ n is, d.Denotes n is → ∀ later : List Call, (later.foldl Call.apply d).Denotes n is
  /-- Two nestings of the same handles stand for the same items, also if there were other steps in between. -/
  nested : ∀ N N' : Nesting, N'.handles = N.handles → (∀ n ∈ N.handles, d.HasNode n) →
    ∀ later : List Call, (N.build.run d).2.Allows later →
      let e := later.foldl Call.apply (N.build.run d).2
      (N'.build.run e).2.Denotes (N.build.run d).1 (N.handles.flatMap d.items) ∧
        (N'.build.run e).2.Denotes (N'.build.run e).1 (N.handles.flatMap d.items)
  /-- The parts of a kind carry the names that were asked for, in the order in which they first were. -/
  names : ∀ k : NameKind, d.names k = (k.reserved ++ cs.filterMap (Call.name? k)).eraseDups
  named : ∀ (k : NameKind) name, ∃ i, ((k.part name).run d).1 = k.node i ∧
    ((k.part name).run d).2.HasNode (k.node i) ∧ (((k.part name).run d).2.names k)[i]? = some name
  /-- The same name has the same handle, and different names or kinds have different ones. -/
  distinct : ∀ (k k' : NameKind) name name' (later : List Call),
    ((k.part name).run d).1 = ((k'.part name').run (later.foldl Call.apply ((k.part name).run d).2)).1 ↔
      k = k' ∧ name = name'

/-- **A writer who only uses handles of the draft can rely on them.** -/
theorem reliable_foldl {cs : List Call} (h : ({} : Draft).Allows cs) : Reliable cs (cs.foldl Call.apply {}) := by
  have hd : (cs.foldl Call.apply {}).WellFormed := (Written.foldl .empty h).draft_wellFormed
  have htwo : (cs.foldl Call.apply {}).Collapsed :=
    List.foldlRecOn cs Call.apply (fun is his => absurd his (Array.not_mem_empty is)) fun _ hd c _ => hd.apply c
  refine ⟨fun is his => ⟨htwo is his, hd.items is his⟩, fun nodes hn => denotes_seq hd hn,
    fun n is hn later => hn.of_precedes (precedes_foldl _ later), ?_, names_foldl cs, ?_,
    fun k k' name name' later => run_part_eq_iff _ k k' name name' later⟩
  case refine_1 =>
    intro N N' hsame hN later hlater e
    obtain ⟨hd', hle, hdenotes⟩ := Nesting.build_run hd N hN
    have hle' : Precedes _ e := hle.trans (precedes_foldl _ later)
    obtain ⟨-, hle'', hdenotes'⟩ := Nesting.build_run (hd'.foldl hlater) N' fun n hn =>
      hle'.toExtends.hasNode (hN n (hsame ▸ hn))
    refine ⟨hdenotes.of_precedes ((precedes_foldl _ later).trans hle''), ?_⟩
    rwa [hsame, hle'.flatMap_items hN] at hdenotes'
  case refine_2 =>
    intro k name
    obtain ⟨hnode, hget⟩ := getElem?_names_run_part (cs.foldl Call.apply {}) k name
    exact ⟨_, hnode, hasNode_node.2 (List.getElem?_eq_some_iff.1 hget).1, hget⟩

/-- In `e → x a e`, which is written with a sequence inside a sequence, one sequence is stored for each. -/
theorem reliable_foldl_nested :
    let cs : List Call := [.symbol "e", .token "x", .action "a", .seq [Item.token 2, Item.action 0],
      .seq [.sequence 0, .epsilon, Item.symbol 0], .alt (Item.symbol 0) (.sequence 1), .token "x", .start (Item.symbol 0)]
    ({} : Draft).Allows cs ∧ Reliable cs (cs.foldl Call.apply {}) :=
  have h : ({} : Draft).Allows [.symbol "e", .token "x", .action "a", .seq [Item.token 2, Item.action 0],
      .seq [.sequence 0, .epsilon, Item.symbol 0], .alt (Item.symbol 0) (.sequence 1), .token "x",
      .start (Item.symbol 0)] := by
    decide +kernel
  ⟨h, reliable_foldl h⟩

end Draft

end PredictiveParser
