/-
Which trees are derivations, and what a tree says when it is read recursively.

* **`Tree.Spans`** — a list of trees matches a sequence of terms, one tree for
  each term: a terminal is matched by the token at that position, a nonterminal
  by a branch with one of its expressions, and each tree starts where the one
  before it ends;
* **`Tree.IsDerivation`** — a tree of the start symbol over the whole input;
* **`Tree.yield`** and **`Tree.preorder`** — the tokens and the outline of a tree
  by recursion on it.

A list of trees that spans terms derives them: `Tree.Spans.derives`.
-/
import ChartParser.Language
import ChartParser.Tree

namespace ChartParser.Tree

variable {g : Grammar} {α : Type}

/-- `Spans tokens terms trees i j`: the trees match the terms over the tokens
from `i` to `j`. -/
inductive Spans (tokens : Tokens α) :
    Expression → List (Tree g α) → (start stop : Nat) → Prop where
  | nil (i : Nat) : Spans tokens [] [] i i
  | leaf {t : Term} {ts : Expression} {trees : List (Tree g α)} {i j : Nat} {token : Token α}
      (kind : t.kind = .terminal) (found : tokens[i]? = some token) (name : token.name = t.name)
      (rest : Spans tokens ts trees (i + 1) j) :
      Spans tokens (t :: ts) (.leaf i token :: trees) i j
  | branch {t : Term} {ts : Expression} {children trees : List (Tree g α)} {i j k : Nat}
      (kind : t.kind = .nonterminal) (id : g.ExprId) (head : (g.expr id).head = t.name)
      (inner : Spans tokens (g.expr id).terms children i j)
      (rest : Spans tokens ts trees j k) :
      Spans tokens (t :: ts) (.branch id i j children :: trees) i k

/-- A derivation of the whole input from the start symbol. -/
def IsDerivation (tokens : Tokens α) (tree : Tree g α) : Prop :=
  ∃ s, g.start = some s ∧ Spans tokens [.nonterminal s] [tree] 0 tokens.size

mutual

/-- The tokens under a tree, from left to right. -/
def yield : Tree g α → List (Token α)
  | .leaf _ token => [token]
  | .branch _ _ _ children => yieldAll children

/-- The tokens under some trees, from left to right. -/
def yieldAll : List (Tree g α) → List (Token α)
  | [] => []
  | tree :: trees => yield tree ++ yieldAll trees

end

mutual

/-- The outline of a tree at some depth: its own line, then its children's
outlines one level down. -/
def preorder (depth : Nat) : Tree g α → String
  | .leaf _ token => outlineLine depth token.name
  | .branch expr _ _ children =>
    outlineLine depth (g.expr expr).head ++ preorderAll (depth + 1) children

/-- The outlines of some trees, one after the other. -/
def preorderAll (depth : Nat) : List (Tree g α) → String
  | [] => ""
  | tree :: trees => preorder depth tree ++ preorderAll depth trees

end

variable {tokens : Tokens α} {ts : Expression} {trees : List (Tree g α)} {i j : Nat}

theorem Spans.le (h : Spans tokens ts trees i j) : i ≤ j := by
  induction h with
  | nil => exact Nat.le_refl _
  | leaf _ _ _ _ ih => omega
  | branch _ _ _ _ _ ih₁ ih₂ => omega

/-- Trees that match terms hold the names that the terms derive. -/
theorem Spans.derives (h : Spans tokens ts trees i j) :
    g.Derives ts ((yieldAll trees).map (·.name)) := by
  induction h with
  | nil => exact .nil
  | leaf kind _ name _ ih =>
    rw [yieldAll, yield, List.map_append, List.map_cons, List.map_nil, List.singleton_append, name]
    exact .terminal kind ih
  | branch kind id head _ _ ih₁ ih₂ =>
    rw [yieldAll, yield, List.map_append]
    exact .nonterminal kind id head ih₁ ih₂

end ChartParser.Tree
