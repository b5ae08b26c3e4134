/-
Derivation trees.

A leaf is a token of the input; a branch is an expression with a child for each
of its terms, in order, and the span of input that it covers.

* `Tree.leaves` — the tokens under a tree, from left to right;
* `Tree.outline` — one line for each node, from the root down, each indented by
  one backtick for every level.

A tree can be as deep as its input is long, so both work through a stack of
trees that are still to be visited instead of calling themselves.
-/
import ChartParser.Grammar.Printer
import ChartParser.Token

namespace ChartParser

open Text

/-- A derivation tree. -/
inductive Tree (g : Grammar) (α : Type) where
  | leaf (position : Nat) (token : Token α)
  | branch (expr : g.ExprId) (start stop : Nat) (children : List (Tree g α))

namespace Tree

variable {g : Grammar} {α : Type}

/-- The name of a leaf's token, or the nonterminal of a branch. -/
def name : Tree g α → Name
  | leaf _ token => token.name
  | branch expr _ _ _ => (g.expr expr).head

/-- Where a tree starts. -/
def start : Tree g α → Nat
  | leaf position _ => position
  | branch _ start _ _ => start

/-- Where a tree ends. -/
def stop : Tree g α → Nat
  | leaf position _ => position + 1
  | branch _ _ stop _ => stop

/-- Whether a tree is a token. -/
def isLeaf : Tree g α → Bool
  | leaf _ _ => true
  | branch _ _ _ _ => false

/-- The children of a branch. -/
def children : Tree g α → List (Tree g α)
  | leaf _ _ => []
  | branch _ _ _ children => children

mutual

/-- The number of nodes of a tree. -/
def numNodes : Tree g α → Nat
  | leaf _ _ => 1
  | branch _ _ _ children => numNodesAll children + 1

/-- The number of nodes of some trees. -/
def numNodesAll : List (Tree g α) → Nat
  | [] => 0
  | tree :: trees => numNodes tree + numNodesAll trees

end

@[simp] theorem numNodesAll_append (ts us : List (Tree g α)) :
    numNodesAll (ts ++ us) = numNodesAll ts + numNodesAll us := by
  induction ts with
  | nil => simp [numNodesAll]
  | cons t ts ih =>
    rw [List.cons_append, numNodesAll, numNodesAll, ih]
    omega

/-- Collects the tokens under the trees of a stack, from left to right, behind
those found already, which are in reverse. -/
def collectLeaves : List (Tree g α) → List (Token α) → List (Token α)
  | [], found => found.reverse
  | leaf _ token :: stack, found => collectLeaves stack (token :: found)
  | branch _ _ _ children :: stack, found => collectLeaves (children ++ stack) found
termination_by stack => numNodesAll stack
decreasing_by
  · simp [numNodesAll, numNodes]
  · simp [numNodesAll, numNodes]

/-- The tokens under a tree, from left to right. -/
def leaves (t : Tree g α) : List (Token α) := collectLeaves [t] []

/-- One line of an outline. -/
def outlineLine (depth : Nat) (name : Name) : String :=
  String.ofList (List.replicate depth '`') ++ name ++ "\n"

/-- Writes the outlines of the trees of a stack, each at its depth, behind the
text written already. -/
def writeOutline (text : String) : List (Tree g α × Nat) → String
  | [] => text
  | (t, depth) :: stack =>
    writeOutline (text ++ outlineLine depth t.name)
      (t.children.map (fun child => (child, depth + 1)) ++ stack)
termination_by stack => numNodesAll (stack.map Prod.fst)
decreasing_by
  cases t <;> simp [numNodesAll, numNodes, children, Function.comp_def]

/-- The outline of a tree: its name, then the outlines of its children one level
down. -/
def outline (t : Tree g α) : String := writeOutline "" [(t, 0)]

mutual

/-- A leaf is shown with its token, a branch with its expression and children. -/
def datum : Tree g String → Datum
  | leaf position token =>
    .record "Leaf" [("position", .number position), ("token", token.datum)]
  | branch expr start stop children =>
    .record "Branch"
      [("expr", g.exprDatum expr), ("start", .number start), ("end", .number stop),
       ("children", .list (datums children))]

/-- Some trees, each as it is shown. -/
def datums : List (Tree g String) → List Datum
  | [] => []
  | tree :: trees => datum tree :: datums trees

end

end Tree

end ChartParser
