/-
Going through a tree with a stack.

The tokens and the outline of a tree are found without recursion: the tree on top of a
stack is taken off, and its children are put in its place, the first of them on top.  So
at every moment the stack holds what is still to come, from left to right, and what comes
of it is what recursion on its trees would give, one after the other.

* **`collectLeaves_eq`** — the tokens of a stack, behind those found already;
* **`writeOutline_eq`** — the outlines of a stack, behind the text written already;
* **`traversals_exact`** — leaves and outlines are those of the recursion on the tree.

Nothing is asked of a tree: it can be a derivation or not, and its spans do not matter.
-/
import ChartParser.Tree.Derivation

namespace ChartParser.Tree

variable {g : Grammar} {α : Type}

/-! ### Leaves -/

theorem yieldAll_append (ts us : List (Tree g α)) :
    yieldAll (ts ++ us) = yieldAll ts ++ yieldAll us := by
  induction ts with
  | nil => rfl
  | cons t ts ih => rw [List.cons_append, yieldAll, yieldAll, ih, List.append_assoc]

/-- Going through a stack of trees collects what they hold. -/
theorem collectLeaves_eq (stack : List (Tree g α)) (found : List (Token α)) :
    collectLeaves stack found = found.reverse ++ yieldAll stack := by
  fun_induction collectLeaves stack found with
  | case1 found => rw [yieldAll, List.append_nil]
  | case2 found _ token stack ih =>
    rw [ih, yieldAll, yield, List.reverse_cons, List.append_assoc]
  | case3 found _ _ _ children stack ih =>
    rw [ih, yieldAll, yield, yieldAll_append]

theorem leaves_eq_yield (t : Tree g α) : t.leaves = t.yield := by
  rw [leaves, collectLeaves_eq, yieldAll, yieldAll, List.append_nil]
  rfl

/-! ### Outlines -/

/-- The outlines of the trees of a stack, each at its depth. -/
def preorderStack : List (Tree g α × Nat) → String
  | [] => ""
  | (t, depth) :: stack => preorder depth t ++ preorderStack stack

theorem preorder_eq (depth : Nat) (t : Tree g α) :
    preorder depth t = outlineLine depth t.name ++ preorderAll (depth + 1) t.children := by
  cases t with
  | leaf => rw [preorder, children, preorderAll, String.append_empty, name]
  | branch => rw [preorder, children, name]

theorem preorderStack_append_children (depth : Nat) (children : List (Tree g α))
    (stack : List (Tree g α × Nat)) :
    preorderStack (children.map (fun child => (child, depth)) ++ stack) =
      preorderAll depth children ++ preorderStack stack := by
  induction children with
  | nil => rw [preorderAll, String.empty_append]; rfl
  | cons child children ih =>
    rw [List.map_cons, List.cons_append, preorderStack, ih, preorderAll, String.append_assoc]

/-- Going through a stack of trees writes their outlines, behind what is there. -/
theorem writeOutline_eq (text : String) (stack : List (Tree g α × Nat)) :
    writeOutline text stack = text ++ preorderStack stack := by
  fun_induction writeOutline text stack with
  | case1 text => rw [preorderStack, String.append_empty]
  | case2 text t depth stack ih =>
    rw [ih, preorderStack_append_children, preorderStack, preorder_eq, String.append_assoc,
      String.append_assoc]

theorem outline_eq_preorder (t : Tree g α) : t.outline = preorder 0 t := by
  rw [outline, writeOutline_eq, preorderStack, preorderStack, String.empty_append,
    String.append_empty]

/-! ### The text of an outline -/

theorem toList_outlineLine (depth : Nat) (name : Name) :
    (outlineLine depth name).toList = List.replicate depth '`' ++ name.toList ++ ['\n'] := by
  rw [outlineLine, String.toList_append, String.toList_append, String.toList_ofList]
  rfl

theorem toList_preorderAll_eq (depth : Nat) (ts : List (Tree g α)) :
    (preorderAll depth ts).toList = ts.flatMap fun t => (preorder depth t).toList := by
  induction ts with
  | nil => rw [preorderAll, String.toList_empty, List.flatMap_nil]
  | cons t ts ih => rw [preorderAll, String.toList_append, ih, List.flatMap_cons]

/-- **Traversals.**  The leaves of a tree are its tokens from left to right, and its
outline is that of the recursion on the tree: at every node, as many backticks as the node
is deep, its name, a newline, and then the outlines of its children one level down. -/
theorem traversals_exact (t : Tree g α) :
    t.leaves = t.yield ∧ t.outline = preorder 0 t ∧
      ∀ depth, (preorder depth t).toList =
        List.replicate depth '`' ++ t.name.toList ++ ['\n'] ++
          t.children.flatMap fun child => (preorder (depth + 1) child).toList := by
  refine ⟨leaves_eq_yield t, outline_eq_preorder t, ?_⟩
  intro depth
  rw [preorder_eq, String.toList_append, toList_outlineLine, toList_preorderAll_eq]

end ChartParser.Tree
