import Mathlib.Data.List.Forall2
import Mathlib.Data.List.Induction
import PredictiveParser.Proofs.SyntaxTree

/-!
# Nodes are kept in document order

A tree may be recorded in any way (`SyntaxTree.record`): nodes may be left open, and more may be closed than are open. What
is kept of it is always a forest whose nodes stand in document order, the order of `Forest.arena`, and are linked by their
places in it (`Outlined.exists_forest`). So every node is linked to once and from before it, a walk from the roots meets
the nodes in the order of their numbers and ends, and the text of the tree is the text of the forest
(`inDocumentOrder_record`).
-/

namespace PredictiveParser

variable {τ : Type}

namespace TreeNode

/-- The numbers of the children; a token has none. -/
def children : TreeNode τ → List Nat
  | symbol _ children => children.toList
  | leaf _ => []

/-- The token of a leaf. -/
def token? : TreeNode τ → Option τ
  | symbol _ _ => none
  | leaf t => some t

@[simp] theorem token?_addChild (i : Nat) (n : TreeNode τ) : (n.addChild i).token? = n.token? := by
  cases n <;> rfl

end TreeNode

/-! ## Forests in document order -/

namespace Forest

/-- The numbers of the roots, if the nodes are numbered in document order from `lo` on. -/
def starts (lo : Nat) : Forest τ → List Nat
  | nil => []
  | leaf _ r => lo :: r.starts (lo + 1)
  | node _ _ c r => lo :: r.starts (lo + (c.size + 1))

/-- The nodes in document order, numbered from `lo` on. -/
def arena (lo : Nat) : Forest τ → List (TreeNode τ)
  | nil => []
  | leaf t r => .leaf t :: r.arena (lo + 1)
  | node s _ c r => .symbol s (c.starts (lo + 1)).toArray :: (c.arena (lo + 1) ++ r.arena (lo + (c.size + 1)))

/-- The texts of the trees: a symbol is written as a list of its name and its children, a token as its name. -/
def texts (symbolName : Nat → String) (tokenName : τ → String) : Forest τ → List String
  | nil => []
  | leaf t r => tokenName t :: r.texts symbolName tokenName
  | node s _ c r =>
    ("(" ++ " ".intercalate (symbolName s :: c.texts symbolName tokenName) ++ ")") :: r.texts symbolName tokenName

@[simp] theorem length_arena (lo : Nat) (f : Forest τ) : (f.arena lo).length = f.size := by
  induction f generalizing lo with
  | nil => rfl
  | leaf t r ih => rw [arena, List.length_cons, ih, size]
  | node s p c r ihc ihr =>
    rw [arena, List.length_cons, List.length_append, ihc, ihr, size]

theorem le_of_mem_starts {lo i : Nat} {f : Forest τ} (h : i ∈ f.starts lo) : lo ≤ i := by
  induction f generalizing lo with
  | nil => cases h
  | leaf t r ih =>
    rcases List.mem_cons.1 h with rfl | h
    · exact Nat.le_refl _
    · exact Nat.le_trans (Nat.le_succ lo) (ih h)
  | node s p c r _ ih =>
    rcases List.mem_cons.1 h with rfl | h
    · exact Nat.le_refl _
    · exact Nat.le_trans (Nat.le_add_right _ _) (ih h)

/-- The roots stand in document order. -/
theorem pairwise_starts (lo : Nat) (f : Forest τ) : (f.starts lo).Pairwise (· < ·) := by
  induction f generalizing lo with
  | nil => exact .nil
  | leaf t r ih => exact .cons (fun i hi => le_of_mem_starts hi) (ih _)
  | node s p c r _ ih =>
    refine .cons (fun i hi => ?_) (ih _)
    have := le_of_mem_starts hi
    omega

/-- So do the children of every node. -/
theorem pairwise_children {lo : Nat} {f : Forest τ} {n : TreeNode τ} (hn : n ∈ f.arena lo) :
    n.children.Pairwise (· < ·) := by
  induction f generalizing lo with
  | nil => cases hn
  | leaf t r ih =>
    rcases List.mem_cons.1 hn with rfl | hn
    · exact .nil
    · exact ih hn
  | node s p c r ihc ihr =>
    rcases List.mem_cons.1 hn with rfl | hn
    · exact c.pairwise_starts _
    · exact (List.mem_append.1 hn).elim ihc ihr

/-- The children of a node come behind it. -/
theorem lt_of_mem_children {lo k i : Nat} {f : Forest τ} {n : TreeNode τ} (hn : (f.arena lo)[k]? = some n)
    (hi : i ∈ n.children) : lo + k < i := by
  induction f generalizing lo k with
  | nil => cases hn
  | leaf t r ih =>
    cases k with
    | zero =>
      cases hn
      cases hi
    | succ k =>
      have := ih hn
      omega
  | node s p c r ihc ihr =>
    cases k with
    | zero =>
      cases hn
      exact le_of_mem_starts hi
    | succ k =>
      rw [arena, List.getElem?_cons_succ, List.getElem?_append, length_arena] at hn
      split at hn
      · have := ihc hn
        omega
      · have := ihr hn
        omega

/-- Every node is linked to once, as a root or as a child. -/
theorem links_perm (lo : Nat) (f : Forest τ) :
    (f.starts lo ++ (f.arena lo).flatMap TreeNode.children).Perm (List.range' lo f.size) := by
  induction f generalizing lo with
  | nil => exact .nil
  | leaf t r ih => exact (ih (lo + 1)).cons lo
  | node s p c r ihc ihr =>
    have hrange : List.range' lo (size (.node s p c r)) =
        lo :: (List.range' (lo + 1) c.size ++ List.range' (lo + (c.size + 1)) r.size) := by
      rw [size, List.range'_succ, ← List.range'_append_1, Nat.add_right_comm lo 1, Nat.add_assoc]
    rw [hrange, starts, arena, List.cons_append, List.flatMap_cons, List.flatMap_append]
    refine .cons lo ?_
    -- the links of the children come before those of the roots behind
    change (r.starts _ ++ (c.starts _ ++ (_ ++ _))).Perm _
    rw [← List.append_assoc (c.starts _)]
    exact (List.perm_append_comm_assoc _ _ _).trans ((ihc _).append (ihr _))

end Forest

/-- From the nodes `is` on, a walk that meets each node before its children comes to an end, and it meets these nodes. -/
inductive InPreorder (node? : Nat → Option (TreeNode τ)) : (is met : List Nat) → Prop
  | nil : InPreorder node? [] []
  | cons {i : Nat} {n : TreeNode τ} {is below behind : List Nat} : node? i = some n → InPreorder node? n.children below →
      InPreorder node? is behind → InPreorder node? (i :: is) (i :: (below ++ behind))

/-- The nodes of a forest that stands in document order are met in the order of their numbers. -/
theorem Forest.inPreorder {node? : Nat → Option (TreeNode τ)} {lo : Nat} {f : Forest τ}
    (h : ∀ k n, (f.arena lo)[k]? = some n → node? (lo + k) = some n) :
    InPreorder node? (f.starts lo) (List.range' lo f.size) := by
  induction f generalizing lo with
  | nil => exact .nil
  | leaf t r ih =>
    refine .cons (h 0 _ rfl) .nil (ih fun k n hn => ?_)
    rw [Nat.add_right_comm]
    exact h (k + 1) n hn
  | node s p c r ihc ihr =>
    rw [size, List.range'_succ, ← List.range'_append_1, Nat.add_right_comm lo 1, Nat.add_assoc]
    refine .cons (h 0 _ rfl) (ihc fun k n hn => ?_) (ihr fun k n hn => ?_)
    · rw [Nat.add_right_comm]
      refine h (k + 1) n ?_
      rw [arena, List.getElem?_cons_succ, List.getElem?_append_left (List.getElem?_eq_some_iff.1 hn).1, hn]
    · rw [show lo + (c.size + 1) + k = lo + (c.size + k + 1) by omega]
      refine h _ n ?_
      rw [arena, List.getElem?_cons_succ, List.getElem?_append_right (by rw [length_arena]; omega), length_arena,
        Nat.add_sub_cancel_left, hn]

namespace SyntaxTree

/-! ## What recording a forest does -/

/-- Links nodes to the innermost open node, or to the top level. -/
def adopt (T : SyntaxTree τ) (is : List Nat) : SyntaxTree τ :=
  match T.opened with
  | parent :: _ => { T with nodes := T.nodes.modify parent (·.addChildren is) }
  | [] => { T with roots := T.roots ++ is.toArray }

/-- Adds nodes without linking to them. -/
def extend (T : SyntaxTree τ) (ns : List (TreeNode τ)) : SyntaxTree τ :=
  { T with nodes := T.nodes ++ ns.toArray }

/-- The innermost open node is one of the nodes. -/
def Anchored (T : SyntaxTree τ) : Prop :=
  ∀ p ∈ T.opened.head?, p < T.nodes.size

@[simp] theorem opened_adopt (T : SyntaxTree τ) (is : List Nat) : (T.adopt is).opened = T.opened := by
  unfold adopt
  split <;> simp_all

@[simp] theorem size_adopt (T : SyntaxTree τ) (is : List Nat) : (T.adopt is).nodes.size = T.nodes.size := by
  unfold adopt
  split <;> simp

@[simp] theorem opened_extend (T : SyntaxTree τ) (ns : List (TreeNode τ)) : (T.extend ns).opened = T.opened := rfl

@[simp] theorem size_extend (T : SyntaxTree τ) (ns : List (TreeNode τ)) :
    (T.extend ns).nodes.size = T.nodes.size + ns.length := by
  simp [extend]

theorem extend_extend (T : SyntaxTree τ) (ns ms : List (TreeNode τ)) : (T.extend ns).extend ms = T.extend (ns ++ ms) := by
  simp [extend]

theorem adopt_nil (T : SyntaxTree τ) : T.adopt [] = T := by
  obtain ⟨nodes, roots, opened⟩ := T
  cases opened with
  | nil => simp [adopt]
  | cons parent outer =>
    refine congrArg (SyntaxTree.mk · roots (parent :: outer)) (Array.ext' ?_)
    rw [Array.toList_modify, funext TreeNode.addChildren_nil]
    exact List.modify_id _ _

theorem adopt_adopt (T : SyntaxTree τ) (is js : List Nat) : (T.adopt is).adopt js = T.adopt (is ++ js) := by
  obtain ⟨nodes, roots, opened⟩ := T
  cases opened with
  | nil => simp [adopt]
  | cons parent outer =>
    refine congrArg (SyntaxTree.mk · roots (parent :: outer)) (Array.ext' ?_)
    change ((nodes.modify parent _).modify parent _).toList = (nodes.modify parent _).toList
    rw [Array.toList_modify, Array.toList_modify, Array.toList_modify, List.modify_modify_eq]
    exact congrArg (List.modify _ _) (funext fun n => TreeNode.addChildren_append is js n)

/-- To link nodes to an older one does not change the newer ones. -/
theorem adopt_extend {T : SyntaxTree τ} (hT : T.Anchored) (is : List Nat) (ns : List (TreeNode τ)) :
    (T.extend ns).adopt is = (T.adopt is).extend ns := by
  obtain ⟨nodes, roots, opened⟩ := T
  cases opened with
  | nil => rfl
  | cons parent outer =>
    have hp : parent < nodes.size := hT parent rfl
    refine congrArg (SyntaxTree.mk · roots (parent :: outer)) (Array.ext_getElem? fun i => ?_)
    change ((nodes ++ ns.toArray).modify parent _)[i]? = (nodes.modify parent _ ++ ns.toArray)[i]?
    rw [Array.getElem?_modify, Array.getElem?_append, Array.getElem?_append, Array.size_modify, Array.getElem?_modify]
    by_cases hi : i < nodes.size
    · rw [if_pos hi, if_pos hi]
    · rw [if_neg hi, if_neg hi, if_neg (by omega)]

theorem attach_eq (T : SyntaxTree τ) (n : TreeNode τ) : T.attach n = (T.adopt [T.nodes.size]).extend [n] := by
  obtain ⟨nodes, roots, opened⟩ := T
  cases opened with
  | nil => simp [attach, adopt, extend]
  | cons parent outer => simp [attach, adopt, extend, TreeNode.addChild_eq]

theorem Anchored.adopt {T : SyntaxTree τ} (hT : T.Anchored) (is : List Nat) : (T.adopt is).Anchored := by
  intro p hp
  rw [opened_adopt] at hp
  rw [size_adopt]
  exact hT p hp

theorem Anchored.extend {T : SyntaxTree τ} (hT : T.Anchored) (ns : List (TreeNode τ)) : (T.extend ns).Anchored := by
  intro p hp
  rw [size_extend]
  exact Nat.lt_add_right _ (hT p hp)

theorem anchored_enter (T : SyntaxTree τ) (s : Nat) : (T.enter s).Anchored := by
  intro p hp
  rw [opened_enter] at hp
  cases hp
  exact Nat.lt_of_lt_of_eq (Nat.lt_succ_self _) (T.size_enter s).symm

/-- A node that is opened, linked to its children and closed. -/
theorem close_adopt_enter (T : SyntaxTree τ) (s : Nat) (is : List Nat) :
    ((T.enter s).adopt is).close = (T.adopt [T.nodes.size]).extend [.symbol s is.toArray] := by
  have henter : T.enter s = { (T.adopt [T.nodes.size]).extend [.symbol s #[]] with opened := T.nodes.size :: T.opened } := by
    rw [enter, attach_eq, opened_extend, opened_adopt]
  have hsize : (T.adopt [T.nodes.size]).nodes.size = T.nodes.size := T.size_adopt _
  have hopened : (T.adopt [T.nodes.size]).opened = T.opened := T.opened_adopt _
  rw [henter]
  generalize T.adopt [T.nodes.size] = U at hsize hopened
  obtain ⟨nodes, roots, opened⟩ := U
  refine congr (congrArg (SyntaxTree.mk · roots) (Array.ext_getElem? fun i => ?_)) hopened.symm
  change ((nodes ++ [TreeNode.symbol s #[]].toArray).modify T.nodes.size _)[i]? = (nodes ++ [_].toArray)[i]?
  change nodes.size = _ at hsize
  rw [Array.getElem?_modify, ← hsize, Array.getElem?_append, Array.getElem?_append]
  by_cases hi : i < nodes.size
  · rw [if_pos hi, if_pos hi, if_neg (by omega)]
  · rw [if_neg hi, if_neg hi]
    by_cases he : nodes.size = i
    · subst he
      simp [TreeNode.addChildren]
    · have hout : ¬ i - nodes.size < 1 := by omega
      simp [he, hout]

/-- **Recording a forest adds its nodes in document order,** and links to its roots. -/
theorem graft_eq {T : SyntaxTree τ} (hT : T.Anchored) (f : Forest τ) :
    T.graft f = (T.adopt (f.starts T.nodes.size)).extend (f.arena T.nodes.size) := by
  induction f generalizing T with
  | nil => simp [graft, Forest.starts, Forest.arena, adopt_nil, extend]
  | leaf t r ih =>
    have hleaf : ((T.adopt [T.nodes.size]).extend [.leaf t]).Anchored := (hT.adopt _).extend _
    rw [graft, leaf, attach_eq, ih hleaf, adopt_extend (hT.adopt _), adopt_adopt, extend_extend, size_extend, size_adopt]
    rfl
  | node s p c r ihc ihr =>
    have hclose (X : SyntaxTree τ) (ns : List (TreeNode τ)) : (X.extend ns).close = X.close.extend ns := rfl
    have hsize := T.size_enter s
    have hnode : ((T.adopt [T.nodes.size]).extend
        (.symbol s (c.starts (T.nodes.size + 1)).toArray :: c.arena (T.nodes.size + 1))).Anchored := (hT.adopt _).extend _
    rw [graft, ihc (T.anchored_enter s), hclose, close_adopt_enter, extend_extend, hsize, List.singleton_append, ihr hnode,
      adopt_extend (hT.adopt _), adopt_adopt, extend_extend, size_extend, size_adopt, List.length_cons, Forest.length_arena]
    rfl

/-! ## Nodes that are still open -/

/-- Without an open node nothing is closed. -/
theorem close_of_opened_eq_nil {T : SyntaxTree τ} (h : T.opened = []) : T.close = T := by
  obtain ⟨nodes, roots, opened⟩ := T
  cases h
  rfl

/-- What was recorded of the tree is a forest at the top level, and one in each of `k` open nodes. -/
inductive Outlined : (k : Nat) → SyntaxTree τ → Prop
  | top (f : Forest τ) : Outlined 0 (({} : SyntaxTree τ).graft f)
  | inside {k : Nat} {T : SyntaxTree τ} (s : Nat) (f : Forest τ) : Outlined k T → Outlined (k + 1) ((T.enter s).graft f)

namespace Outlined

variable {k : Nat} {T : SyntaxTree τ}

theorem graft (h : Outlined k T) (f : Forest τ) : Outlined k (T.graft f) := by
  cases h with
  | top f' =>
    rw [← graft_append]
    exact .top _
  | inside s f' h =>
    rw [← graft_append]
    exact .inside s _ h

theorem close (h : Outlined k T) : Outlined (k - 1) T.close := by
  cases h with
  | top f =>
    rw [close_of_opened_eq_nil (displays_graft f).closed]
    exact .top f
  | inside s f h => exact h.graft (.node s .epsilon f .nil)

/-- **What is kept of a tree is a forest in document order.** -/
theorem exists_forest (h : Outlined k T) :
    ∃ f : Forest τ, T.nodes.toList = f.arena 0 ∧ T.roots.toList = f.starts 0 ∧ Shows (T.nodes[·]?) T.roots.toList f := by
  induction k generalizing T with
  | zero =>
    cases h with
    | top f =>
      have hempty : ({} : SyntaxTree τ).Anchored := fun p hp => nomatch hp
      refine ⟨f, ?_, ?_, (displays_graft f).shows⟩
      · rw [graft_eq hempty]
        simp [adopt, extend]
      · rw [graft_eq hempty]
        simp [adopt, extend]
  -- to close a node changes neither the nodes nor the roots
  | succ k ih => exact ih (T := T.close) h.close

end Outlined

/-! ## Recording in any way -/

/-- A step of recording a tree. -/
inductive Entry (τ : Type)
  | enter (symbol : Nat)
  | leaf (token : τ)
  | close

/-- The token of a step. -/
def Entry.token? : Entry τ → Option τ
  | leaf t => some t
  | enter _ | close => none

/-- The tree after one more step. -/
def apply (T : SyntaxTree τ) : Entry τ → SyntaxTree τ
  | .enter s => T.enter s
  | .leaf t => T.leaf t
  | .close => T.close

/-- The tree after the steps, from the empty one on. -/
def record (es : List (Entry τ)) : SyntaxTree τ :=
  es.foldl apply {}

theorem record_concat (es : List (Entry τ)) (e : Entry τ) : record (es ++ [e]) = (record es).apply e := by
  rw [record, List.foldl_concat]
  rfl

theorem exists_outlined (es : List (Entry τ)) : ∃ k, Outlined k (record es) := by
  induction es using List.reverseRecOn with
  | nil => exact ⟨0, .top .nil⟩
  | append_singleton es e ih =>
    obtain ⟨k, h⟩ := ih
    rw [record_concat]
    cases e with
    | enter s => exact ⟨k + 1, .inside s .nil h⟩
    | leaf t => exact ⟨k, h.graft (.leaf t .nil)⟩
    | close => exact ⟨k - 1, h.close⟩

/-! ## The open nodes -/

/-- The nodes `is`, from an inner one outwards, are symbols, each of them a child of the next, and the last one is a root. -/
inductive IsPath (node? : Nat → Option (TreeNode τ)) (roots : Array Nat) : (is : List Nat) → Prop
  | nil : IsPath node? roots []
  | root {i s : Nat} {children : Array Nat} : node? i = some (.symbol s children) → i ∈ roots → IsPath node? roots [i]
  | child {i p s s' : Nat} {children children' : Array Nat} {outer : List Nat} : node? i = some (.symbol s children) →
      node? p = some (.symbol s' children') → i ∈ children' → IsPath node? roots (p :: outer) →
      IsPath node? roots (i :: p :: outer)

namespace IsPath

variable {T : SyntaxTree τ} {is : List Nat} {node? : Nat → Option (TreeNode τ)} {roots : Array Nat}

theorem exists_symbol (h : IsPath node? roots is) : ∀ i ∈ is, ∃ s children, node? i = some (.symbol s children) := by
  induction h with
  | nil => exact List.forall_mem_nil _
  | root hs _ => exact List.forall_mem_singleton.2 ⟨_, _, hs⟩
  | child hs _ _ _ ih => exact List.forall_mem_cons.2 ⟨⟨_, _, hs⟩, ih⟩

theorem tail (h : IsPath node? roots is) : IsPath node? roots is.tail := by
  cases h with
  | nil | root => exact .nil
  | child _ _ _ h => exact h

theorem anchored (h : IsPath (T.nodes[·]?) T.roots T.opened) : T.Anchored := by
  intro p hp
  obtain ⟨s, children, hs⟩ := h.exists_symbol p (List.mem_of_mem_head? hp)
  exact (Array.getElem?_eq_some_iff.1 hs).1

/-- Attaching a node only adds children. -/
theorem exists_symbol_attach {i s : Nat} {children : Array Nat} (h : T.nodes[i]? = some (.symbol s children))
    (n : TreeNode τ) : ∃ more, (T.attach n).nodes[i]? = some (.symbol s more) ∧ ∀ c ∈ children, c ∈ more := by
  have hi : i < T.nodes.size := (Array.getElem?_eq_some_iff.1 h).1
  rw [attach_nodes, if_neg (Nat.ne_of_lt hi), h]
  split
  · exact ⟨_, rfl, fun c hc => Array.mem_push_of_mem _ hc⟩
  · exact ⟨_, rfl, fun c hc => hc⟩

theorem attach (h : IsPath (T.nodes[·]?) T.roots is) (n : TreeNode τ) :
    IsPath ((T.attach n).nodes[·]?) (T.attach n).roots is := by
  induction h with
  | nil => exact .nil
  | root hs hr =>
    obtain ⟨more, hs', -⟩ := exists_symbol_attach hs n
    refine .root hs' ?_
    rw [attach_roots]
    split
    · exact Array.mem_push_of_mem _ hr
    · exact hr
  | child hs hp hc _ ih =>
    obtain ⟨more, hs', -⟩ := exists_symbol_attach hs n
    obtain ⟨more', hp', hmore'⟩ := exists_symbol_attach hp n
    exact .child hs' hp' (hmore' _ hc) ih

/-- A node that is opened goes on with the path of the open nodes. -/
theorem enter (h : IsPath (T.nodes[·]?) T.roots T.opened) (s : Nat) :
    IsPath ((T.enter s).nodes[·]?) (T.enter s).roots (T.enter s).opened := by
  have hself : (T.attach (.symbol s #[])).nodes[T.nodes.size]? = some (.symbol s #[]) := by
    rw [attach_nodes, if_pos rfl]
  have hpath : IsPath ((T.attach (.symbol s #[])).nodes[·]?) (T.attach (.symbol s #[])).roots T.opened := h.attach _
  rw [opened_enter]
  change IsPath ((T.attach (.symbol s #[])).nodes[·]?) (T.attach (.symbol s #[])).roots _
  cases ho : T.opened with
  | nil =>
    refine .root hself ?_
    rw [attach_roots, if_pos ho]
    exact Array.mem_push_self
  | cons p outer =>
    have hp : p < T.nodes.size := h.anchored p (by rw [ho]; rfl)
    obtain ⟨s', children, hs'⟩ := h.exists_symbol p (by rw [ho]; exact List.mem_cons_self)
    have hlink : (T.attach (.symbol s #[])).nodes[p]? = some (.symbol s' (children.push T.nodes.size)) := by
      rw [attach_nodes, if_neg (Nat.ne_of_lt hp), ho, List.head?_cons, if_pos rfl, hs']
      rfl
    exact .child hself hlink Array.mem_push_self (ho ▸ hpath)

end IsPath

/-- **The open nodes are a path from the innermost one up to a root.** -/
theorem isPath_record (es : List (Entry τ)) : IsPath ((record es).nodes[·]?) (record es).roots (record es).opened := by
  induction es using List.reverseRecOn with
  | nil => exact .nil
  | append_singleton es e ih =>
    rw [record_concat]
    cases e with
    | enter s => exact ih.enter s
    | leaf t =>
      have hpath := ih.attach (.leaf t)
      rwa [← attach_opened _ (.leaf t)] at hpath
    | close => exact ih.tail

/-! ## The tokens and the text -/

theorem tokens_modify (ns : List (TreeNode τ)) (i c : Nat) :
    (ns.modify i (·.addChild c)).filterMap TreeNode.token? = ns.filterMap TreeNode.token? := by
  induction ns generalizing i with
  | nil => rw [List.modify_nil]
  | cons n ns ih =>
    cases i with
    | zero => rw [List.modify_zero_cons, List.filterMap_cons, List.filterMap_cons, TreeNode.token?_addChild]
    | succ i => rw [List.modify_succ_cons, List.filterMap_cons, List.filterMap_cons, ih]

theorem tokens_attach (T : SyntaxTree τ) (n : TreeNode τ) :
    (T.attach n).nodes.toList.filterMap TreeNode.token? = T.nodes.toList.filterMap TreeNode.token? ++ n.token?.toList := by
  have hlast : [n].filterMap TreeNode.token? = n.token?.toList := by
    cases n <;> rfl
  unfold attach
  dsimp only
  split
  · rw [Array.toList_push, List.filterMap_append, Array.toList_modify, tokens_modify, hlast]
  · rw [Array.toList_push, List.filterMap_append, hlast]

/-- The leaves are the tokens in the order in which they were added. -/
theorem tokens_record (es : List (Entry τ)) :
    (record es).nodes.toList.filterMap TreeNode.token? = es.filterMap Entry.token? := by
  induction es using List.reverseRecOn with
  | nil => rfl
  | append_singleton es e ih =>
    rw [record_concat, List.filterMap_append, ← ih]
    cases e with
    | enter s => exact tokens_attach _ _
    | leaf t => exact tokens_attach _ _
    | close => exact (List.append_nil _).symm

section Text

variable {symbolName : Nat → String} {tokenName : τ → String} {T : SyntaxTree τ} {k depth : Nat} {is : List Nat}
  {ts : List String}

/-- Writing the nodes appends these texts, one for each node, if at least `k` links are followed. -/
def WritesAs (symbolName : Nat → String) (tokenName : τ → String) (T : SyntaxTree τ) (k : Nat) :
    (is : List Nat) → (ts : List String) → Prop :=
  List.Forall₂ fun i t => ∀ depth, k ≤ depth → ∀ out, T.write symbolName tokenName depth i out = out ++ t

/-- Nodes that are written behind a text, with a blank before each. -/
theorem WritesAs.foldl_eq (h : T.WritesAs symbolName tokenName k is ts) (hd : k ≤ depth) (out : String) :
    is.foldl (fun out i => T.write symbolName tokenName depth i (out ++ " ")) out = " ".intercalate (out :: ts) := by
  induction h generalizing out with
  | nil => exact String.intercalate_singleton.symm
  | cons hi _ ih => rw [List.foldl_cons, hi depth hd, ih, String.intercalate_cons_append, String.intercalate_cons_cons]

/-- Following more links changes nothing. -/
theorem WritesAs.write_eq (h : T.WritesAs symbolName tokenName k is ts) (hd : k ≤ depth) {i : Nat} (hi : i ∈ is)
    (out : String) : T.write symbolName tokenName depth i out = T.write symbolName tokenName k i out := by
  induction h with
  | nil => cases hi
  | cons hwrite _ ih =>
    rcases List.mem_cons.1 hi with rfl | hi
    · rw [hwrite depth hd, hwrite k (Nat.le_refl k)]
    · exact ih hi

/-- Every node is written as its tree, if as many links are followed as the trees have nodes. -/
theorem writesAs_of_shows {f : Forest τ} (h : Shows (T.nodes[·]?) is f) (hk : f.size ≤ k) :
    T.WritesAs symbolName tokenName k is (f.texts symbolName tokenName) := by
  induction h generalizing k with
  | nil => exact .nil
  | @leaf i is t r hi _ ih =>
    rw [Forest.size] at hk
    refine .cons (fun depth hd out => ?_) (ih (by omega))
    obtain ⟨depth, rfl⟩ : ∃ d, depth = d + 1 := ⟨depth - 1, by omega⟩
    rw [write, hi]
  | @node i s is children p c r hi _ _ ihc ihr =>
    rw [Forest.size] at hk
    refine .cons (fun depth hd out => ?_) (ihr (by omega))
    obtain ⟨depth, rfl⟩ : ∃ d, depth = d + 1 := ⟨depth - 1, by omega⟩
    have hc : T.WritesAs symbolName tokenName c.size children.toList (c.texts symbolName tokenName) := ihc (Nat.le_refl _)
    rw [write, hi]
    dsimp only
    rw [← Array.foldl_toList, hc.foldl_eq (by omega), String.append_assoc, String.intercalate_cons_append,
      String.intercalate_cons_append, String.append_assoc]

theorem WritesAs.render_eq (h : T.WritesAs symbolName tokenName T.size T.roots.toList ts) :
    T.render symbolName tokenName = " ".intercalate ts := by
  unfold render
  generalize T.roots.toList = is at h
  cases h with
  | nil => rfl
  | @cons i t is ts hi hrest =>
    have hrest : T.WritesAs symbolName tokenName T.size is ts := hrest
    rw [List.head?_cons, Option.elim_some, hi _ (Nat.le_refl _), String.empty_append, List.drop_succ_cons, List.drop_zero,
      hrest.foldl_eq (Nat.le_refl _)]

end Text

/-! ## Document order -/

/-- The numbers that roots and nodes link to. -/
def links (T : SyntaxTree τ) : List Nat :=
  T.roots.toList ++ T.nodes.toList.flatMap TreeNode.children

/-- The tree is kept in document order, and its leaves are the tokens. -/
structure InDocumentOrder (T : SyntaxTree τ) (tokens : List τ) : Prop where
  /-- Every node is linked to once, from the top level or from another node. -/
  links : T.links.Perm (List.range T.size)
  /-- A node comes behind the one that links to it. -/
  behind : ∀ i n, T.nodes[i]? = some n → ∀ c ∈ TreeNode.children n, i < c
  roots : T.roots.toList.Pairwise (· < ·)
  children : ∀ n ∈ T.nodes, (TreeNode.children n).Pairwise (· < ·)
  preorder : InPreorder (T.nodes[·]?) T.roots.toList (List.range T.size)
  leaves : T.nodes.toList.filterMap TreeNode.token? = tokens
  opened : IsPath (T.nodes[·]?) T.roots T.opened
  /-- Writing comes to an end by itself: the bound on the links that are followed does not show. -/
  ends : ∀ symbolName tokenName depth, T.size ≤ depth → ∀ i ∈ T.roots, ∀ out,
    T.write symbolName tokenName depth i out = T.write symbolName tokenName T.size i out
  /-- The nodes are those of a forest in document order, and the text is that of the forest, node by node. -/
  text : ∃ f : Forest τ, T.nodes.toList = f.arena 0 ∧ T.roots.toList = f.starts 0 ∧ ∀ symbolName tokenName,
    T.render symbolName tokenName = " ".intercalate (f.texts symbolName tokenName)

/-- **Whatever is recorded is kept in document order.** -/
theorem inDocumentOrder_record (es : List (Entry τ)) : (record es).InDocumentOrder (es.filterMap Entry.token?) := by
  obtain ⟨k, hk⟩ := exists_outlined es
  obtain ⟨f, hnodes, hroots, hshows⟩ := hk.exists_forest
  have hsize : (record es).size = f.size := by
    rw [← f.length_arena 0, ← hnodes]
    rfl
  have hget (i : Nat) : (record es).nodes[i]? = (f.arena 0)[i]? := by
    rw [← hnodes, Array.getElem?_toList]
  have hrange : List.range (record es).size = List.range' 0 f.size := by
    rw [hsize, List.range_eq_range']
  have hwrites (symbolName : Nat → String) (tokenName : τ → String) : (record es).WritesAs symbolName tokenName
      (record es).size (record es).roots.toList (f.texts symbolName tokenName) :=
    writesAs_of_shows hshows (Nat.le_of_eq hsize.symm)
  exact {
    links := by
      rw [SyntaxTree.links, hroots, hnodes, hrange]
      exact f.links_perm 0
    behind := fun i n hn c hc => by
      rw [hget] at hn
      have hlt := Forest.lt_of_mem_children hn hc
      rwa [Nat.zero_add] at hlt
    roots := by
      rw [hroots]
      exact f.pairwise_starts 0
    children := fun n hn => by
      rw [← Array.mem_toList_iff, hnodes] at hn
      exact Forest.pairwise_children hn
    preorder := by
      rw [hroots, hrange]
      refine Forest.inPreorder fun k n hn => ?_
      rw [Nat.zero_add, hget, hn]
    leaves := tokens_record es
    opened := isPath_record es
    ends := fun symbolName tokenName depth hd i hi =>
      (hwrites symbolName tokenName).write_eq hd (Array.mem_toList_iff.2 hi)
    text := ⟨f, hnodes, hroots, fun symbolName tokenName => (hwrites symbolName tokenName).render_eq⟩ }

end SyntaxTree

end PredictiveParser
