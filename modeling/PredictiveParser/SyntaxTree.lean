/-!
# Concrete syntax trees

A tree is recorded from left to right: `enter` opens a node below the innermost open one, `leaf` adds a token there,
`close` closes the innermost open node. Nodes are numbered in the order in which they were added, and the children of a
node are kept as numbers, so the numbering is the order of the document.
-/

namespace PredictiveParser

/-- A node of a syntax tree. -/
inductive TreeNode (τ : Type)
  /-- An occurrence of a symbol, with the numbers of its children in order. -/
  | symbol (symbol : Nat) (children : Array Nat)
  /-- A token of the input. -/
  | leaf (token : τ)

/-- A forest under construction: its nodes, its top-level nodes, and its open nodes, the innermost first. -/
structure SyntaxTree (τ : Type) where
  nodes : Array (TreeNode τ) := #[]
  roots : Array Nat := #[]
  opened : List Nat := []

namespace TreeNode

variable {τ : Type}

/-- Adds a child at the end; a token has no children. -/
def addChild (child : Nat) : TreeNode τ → TreeNode τ
  | .symbol s children => .symbol s (children.push child)
  | .leaf t => .leaf t

end TreeNode

namespace SyntaxTree

variable {τ : Type}

instance : Inhabited (SyntaxTree τ) := ⟨{}⟩

/-- Adds a node below the innermost open node, or at the top level. -/
def attach (T : SyntaxTree τ) (node : TreeNode τ) : SyntaxTree τ :=
  let i := T.nodes.size
  match T.opened with
  | parent :: _ => { T with nodes := (T.nodes.modify parent (·.addChild i)).push node }
  | [] => { T with nodes := T.nodes.push node, roots := T.roots.push i }

/-- Opens a node for a symbol. -/
def enter (T : SyntaxTree τ) (symbol : Nat) : SyntaxTree τ :=
  let i := T.nodes.size
  let T := T.attach (.symbol symbol #[])
  { T with opened := i :: T.opened }

/-- Adds a token. -/
def leaf (T : SyntaxTree τ) (token : τ) : SyntaxTree τ :=
  T.attach (.leaf token)

/-- Closes the innermost open node, if there is one. -/
def close (T : SyntaxTree τ) : SyntaxTree τ :=
  { T with opened := T.opened.tail }

/-- The number of the innermost open node. -/
def innermost? (T : SyntaxTree τ) : Option Nat :=
  T.opened.head?

/-- The number of open nodes. -/
def depth (T : SyntaxTree τ) : Nat :=
  T.opened.length

/-- The number of nodes. -/
def size (T : SyntaxTree τ) : Nat :=
  T.nodes.size

/-- The first top-level node. -/
def root? (T : SyntaxTree τ) : Option Nat :=
  T.roots[0]?

/-! ## Rendering -/

/-- Appends the text of node `i` to `out`, following at most `depth` links. -/
def write (symbolName : Nat → String) (tokenName : τ → String) (T : SyntaxTree τ) :
    (depth : Nat) → (i : Nat) → (out : String) → String
  | 0, _, out => out
  | depth + 1, i, out =>
    match T.nodes[i]? with
    | none => out
    | some (.leaf t) => out ++ tokenName t
    | some (.symbol s children) =>
      let body := children.foldl (fun out child => T.write symbolName tokenName depth child (out ++ " "))
        (out ++ "(" ++ symbolName s)
      body ++ ")"

/-- The text of a forest: a symbol is written as a list of its name and its children, a token as its name, and
top-level nodes are separated by blanks. -/
def render (symbolName : Nat → String) (tokenName : τ → String) (T : SyntaxTree τ) : String :=
  let first := T.roots.toList.head?.elim "" fun i => T.write symbolName tokenName T.size i ""
  (T.roots.toList.drop 1).foldl (fun out i => T.write symbolName tokenName T.size i (out ++ " ")) first

end SyntaxTree

end PredictiveParser
