import PredictiveParser.SyntaxTree
import PredictiveParser.Proofs.Grammar.Forest

/-!
# Syntax trees show forests

A tree that is recorded along a forest (`SyntaxTree.graft`) shows that forest afterwards: the nodes can be read back by
number, no node was lost, and none belongs to anything else (`displays_graft`).
-/

namespace PredictiveParser

variable {τ : Type}

namespace TreeNode

/-- Adds children at the end; a token has no children. -/
def addChildren (is : List Nat) : TreeNode τ → TreeNode τ
  | .symbol s children => .symbol s (children ++ is)
  | .leaf t => .leaf t

theorem addChildren_nil (n : TreeNode τ) : n.addChildren [] = n := by
  cases n <;> simp [addChildren]

theorem addChild_eq (i : Nat) (n : TreeNode τ) : n.addChild i = n.addChildren [i] := by
  cases n <;> simp [addChild, addChildren]

theorem addChildren_append (is js : List Nat) (n : TreeNode τ) :
    (n.addChildren is).addChildren js = n.addChildren (is ++ js) := by
  cases n with
  | symbol s children => exact congrArg _ (Array.ext' (by simp))
  | leaf t => rfl

end TreeNode

/-- The nodes with the numbers `is` are the roots of a forest. -/
inductive Shows (node? : Nat → Option (TreeNode τ)) : (is : List Nat) → Forest τ → Prop
  | nil : Shows node? [] .nil
  | leaf {i : Nat} {is : List Nat} {t : τ} {r : Forest τ} : node? i = some (.leaf t) → Shows node? is r →
      Shows node? (i :: is) (.leaf t r)
  | node {i s : Nat} {is : List Nat} {children : Array Nat} {p : Node} {c r : Forest τ} :
      node? i = some (.symbol s children) → Shows node? children.toList c → Shows node? is r →
      Shows node? (i :: is) (.node s p c r)

/-- More nodes show whatever is shown. -/
theorem Shows.mono {node? node?' : Nat → Option (TreeNode τ)} {is : List Nat} {f : Forest τ} (h : Shows node? is f)
    (hle : ∀ i n, node? i = some n → node?' i = some n) : Shows node?' is f := by
  induction h with
  | nil => exact .nil
  | leaf hi _ ih => exact .leaf (hle _ _ hi) ih
  | node hi _ _ ihc ih => exact .node (hle _ _ hi) ihc ih

theorem Shows.append {node? : Nat → Option (TreeNode τ)} {is js : List Nat} {f r : Forest τ} (h : Shows node? is f)
    (h' : Shows node? js r) : Shows node? (is ++ js) (f.append r) := by
  induction h with
  | nil => exact h'
  | leaf hi _ ih => exact .leaf hi ih
  | node hi hc _ _ ih => exact .node hi hc ih

namespace SyntaxTree

/-- Records a forest from left to right. -/
def graft : SyntaxTree τ → Forest τ → SyntaxTree τ
  | T, .nil => T
  | T, .leaf t r => (T.leaf t).graft r
  | T, .node s _ c r => ((T.enter s).graft c).close.graft r

theorem graft_append (T : SyntaxTree τ) (f r : Forest τ) : T.graft (f.append r) = (T.graft f).graft r := by
  induction f generalizing T with
  | nil => rfl
  | leaf t f ih => exact ih _
  | node s p c f _ ih => exact ih _

/-- The nodes from a number on. -/
def from? (T : SyntaxTree τ) (lo i : Nat) : Option (TreeNode τ) :=
  if lo ≤ i then T.nodes[i]? else none

/-- The tree `T'` is `T` with the forest below the innermost open node, or at the top level. -/
structure Grafts (T T' : SyntaxTree τ) (is : List Nat) (f : Forest τ) : Prop where
  opened : T'.opened = T.opened
  size : T'.nodes.size = T.nodes.size + f.size
  roots : T'.roots = if T.opened = [] then T.roots ++ is else T.roots
  older : ∀ i < T.nodes.size,
    T'.nodes[i]? = if T.opened.head? = some i then T.nodes[i]?.map (·.addChildren is) else T.nodes[i]?
  shows : Shows (T'.from? T.nodes.size) is f

theorem attach_opened (T : SyntaxTree τ) (n : TreeNode τ) : (T.attach n).opened = T.opened := by
  unfold attach
  dsimp only
  split <;> simp_all

@[simp] theorem depth_enter (T : SyntaxTree τ) (symbol : Nat) : (T.enter symbol).depth = T.depth + 1 := by
  unfold enter depth
  rw [List.length_cons, attach_opened]

@[simp] theorem depth_leaf (T : SyntaxTree τ) (t : τ) : (T.leaf t).depth = T.depth := by
  unfold leaf depth
  rw [attach_opened]

@[simp] theorem depth_close (T : SyntaxTree τ) : T.close.depth = T.depth - 1 :=
  List.length_tail

theorem attach_size (T : SyntaxTree τ) (n : TreeNode τ) : (T.attach n).nodes.size = T.nodes.size + 1 := by
  unfold attach
  dsimp only
  split <;> simp

theorem opened_enter (T : SyntaxTree τ) (s : Nat) : (T.enter s).opened = T.nodes.size :: T.opened :=
  congrArg (T.nodes.size :: ·) (T.attach_opened _)

theorem size_enter (T : SyntaxTree τ) (s : Nat) : (T.enter s).nodes.size = T.nodes.size + 1 :=
  T.attach_size _

theorem attach_roots (T : SyntaxTree τ) (n : TreeNode τ) :
    (T.attach n).roots = if T.opened = [] then T.roots.push T.nodes.size else T.roots := by
  unfold attach
  dsimp only
  split <;> simp_all

/-- What attaching a node does to the nodes. -/
theorem attach_nodes (T : SyntaxTree τ) (n : TreeNode τ) (i : Nat) : (T.attach n).nodes[i]? =
    if i = T.nodes.size then some n
    else if T.opened.head? = some i then T.nodes[i]?.map (·.addChild T.nodes.size) else T.nodes[i]? := by
  unfold attach
  dsimp only
  split
  · next parent _ ho =>
    rw [Array.getElem?_push, Array.size_modify, Array.getElem?_modify, ho]
    by_cases h : i = T.nodes.size <;> by_cases h' : parent = i <;> simp [h, h']
  · next ho =>
    rw [Array.getElem?_push, ho]
    by_cases h : i = T.nodes.size <;> simp [h]

/-- Nothing is recorded for an empty forest. -/
theorem grafts_nil (T : SyntaxTree τ) : T.Grafts T [] .nil where
  opened := rfl
  size := rfl
  roots := by simp
  older i _ := by
    split
    · cases T.nodes[i]? <;> simp [TreeNode.addChildren_nil]
    · rfl
  shows := .nil

/-- Forests that are recorded one after the other. -/
theorem Grafts.trans {T T₁ T' : SyntaxTree τ} {is js : List Nat} {f r : Forest τ}
    (hp : ∀ p ∈ T.opened.head?, p < T.nodes.size) (h : T.Grafts T₁ is f) (h' : T₁.Grafts T' js r) :
    T.Grafts T' (is ++ js) (f.append r) where
  opened := h'.opened.trans h.opened
  size := by rw [h'.size, h.size, Forest.size_append, Nat.add_assoc]
  roots := by
    rw [h'.roots, h.roots, h.opened]
    split
    · exact Array.ext' (by simp)
    · rfl
  older i hi := by
    rw [h'.older i (by rw [h.size]; omega), h.opened, h.older i hi]
    split
    · cases T.nodes[i]? <;> simp [TreeNode.addChildren_append]
    · rfl
  shows := by
    refine Shows.append (h.shows.mono fun i n hi => ?_) (h'.shows.mono fun i n hi => ?_)
    · unfold from? at hi ⊢
      split at hi
      · next hlo =>
        rw [if_pos hlo]
        have hlt : i < T₁.nodes.size := (Array.getElem?_eq_some_iff.1 hi).1
        -- a node of the first forest is not open any more
        have hne : T₁.opened.head? ≠ some i := fun e => by
          have := hp i (h.opened ▸ e)
          omega
        rw [h'.older i hlt, if_neg hne, hi]
      · cases hi
    · unfold from? at hi ⊢
      split at hi
      · next hlo =>
        rw [if_pos (by rw [h.size] at hlo; omega)]
        exact hi
      · cases hi

theorem grafts_leaf (T : SyntaxTree τ) (t : τ) : T.Grafts (T.leaf t) [T.nodes.size] (.leaf t .nil) where
  opened := T.attach_opened _
  size := T.attach_size _
  roots := by
    rw [leaf, attach_roots]
    split <;> simp
  older i hi := by
    rw [leaf, attach_nodes, if_neg (by omega)]
    simp only [TreeNode.addChild_eq]
  shows := by
    refine .leaf ?_ .nil
    rw [from?, if_pos (Nat.le_refl _), leaf, attach_nodes, if_pos rfl]

/-- A node with the forest that is recorded while it is open. -/
theorem Grafts.node {T T' : SyntaxTree τ} {s : Nat} {is : List Nat} {c : Forest τ} (h : (T.enter s).Grafts T' is c)
    (p : Node) :
    T.Grafts T'.close [T.nodes.size] (.node s p c .nil) := by
  have hsize := T.size_enter s
  have hopened := T.opened_enter s
  have hnodes : ∀ i : Nat, (T.enter s).nodes[i]? = (T.attach (.symbol s #[])).nodes[i]? := fun _ => rfl
  constructor
  · rw [close, h.opened, hopened, List.tail_cons]
  · show T'.nodes.size = _
    rw [h.size, hsize, Forest.size, Forest.size]
    omega
  · show T'.roots = _
    rw [h.roots, hopened, if_neg (List.cons_ne_nil _ _)]
    show (T.attach _).roots = _
    rw [attach_roots]
    split <;> simp
  · intro i hi
    show T'.nodes[i]? = _
    have hne : ¬ (T.enter s).opened.head? = some i := by
      rw [hopened, List.head?_cons, Option.some.injEq]
      omega
    rw [h.older i (by omega), if_neg hne, hnodes, attach_nodes, if_neg (by omega)]
    simp only [TreeNode.addChild_eq]
  · have hself : T'.nodes[T.nodes.size]? = some (.symbol s ((#[] : Array Nat) ++ is)) := by
      rw [h.older _ (by omega), hopened, List.head?_cons, if_pos rfl, hnodes, attach_nodes, if_pos rfl]
      rfl
    have e : ((#[] : Array Nat) ++ is).toList = is := by simp
    refine @Shows.node _ _ _ _ _ ((#[] : Array Nat) ++ is) _ _ _ ?_ ?_ .nil
    · show (if _ then T'.nodes[T.nodes.size]? else none) = _
      rw [if_pos (Nat.le_refl _)]
      exact hself
    · rw [e]
      refine h.shows.mono fun i n hi => ?_
      unfold from? at hi ⊢
      split at hi
      · next hlo =>
        rw [if_pos (by omega)]
        exact hi
      · cases hi

/-- **A tree that is recorded along a forest shows the forest.** -/
theorem grafts_graft (T : SyntaxTree τ) (f : Forest τ) (hp : ∀ p ∈ T.opened.head?, p < T.nodes.size) :
    ∃ is, T.Grafts (T.graft f) is f := by
  induction f generalizing T with
  | nil => exact ⟨[], T.grafts_nil⟩
  | leaf t r ih =>
    have h := T.grafts_leaf t
    obtain ⟨is, hr⟩ := ih (T.leaf t) fun p hp' => by
      rw [h.opened] at hp'
      have := hp p hp'
      rw [h.size]
      omega
    exact ⟨_, h.trans hp hr⟩
  | node s p c r ihc ihr =>
    obtain ⟨is, hc⟩ := ihc (T.enter s) fun p hp' => by
      rw [opened_enter, List.head?_cons] at hp'
      cases hp'
      rw [size_enter]
      omega
    have h := hc.node p
    obtain ⟨js, hr⟩ := ihr ((T.enter s).graft c).close fun p hp' => by
      rw [h.opened] at hp'
      have := hp p hp'
      rw [h.size]
      omega
    exact ⟨_, h.trans hp hr⟩

/-- The nodes of the tree, from the roots on, are those of the forest, and there are no others. -/
structure Displays (T : SyntaxTree τ) (f : Forest τ) : Prop where
  shows : Shows (T.nodes[·]?) T.roots.toList f
  size : T.nodes.size = f.size
  closed : T.opened = []

/-- A tree that is recorded along a forest from the beginning displays the forest. -/
theorem displays_graft (f : Forest τ) : (({} : SyntaxTree τ).graft f).Displays f := by
  obtain ⟨is, h⟩ := grafts_graft ({} : SyntaxTree τ) f fun p hp => nomatch hp
  have hroots : (({} : SyntaxTree τ).graft f).roots.toList = is := by
    rw [h.roots]
    simp
  refine ⟨?_, ?_, h.opened⟩
  · rw [hroots]
    refine h.shows.mono fun i n hi => ?_
    unfold from? at hi
    split at hi
    · exact hi
    · cases hi
  · rw [h.size]
    simp

end SyntaxTree

end PredictiveParser
