/-
The derivation trees of a forest.

The trees of all nodes are made bottom up, those of a node after those of the
nodes it refers to, so that the trees of a shared node are made once.  A symbol
has one tree for each sequence of children of each alternative.  An item has,
family by family, every sequence of its first part extended by every tree of its
second part; an item at the start of its expression has the empty sequence.

There may be far too many trees, so the caller gives a limit, and gets an
`AmbiguityLimitExceeded` if there are more, or infinitely many.
-/
import ChartParser.Forest.Count
import ChartParser.Message
import ChartParser.Tree

namespace ChartParser

open Text

/-- There are more derivations than the caller wants to see; `count` is their
number, if it is known. -/
structure AmbiguityLimitExceeded where
  limit : Nat
  count : Option Nat
deriving DecidableEq, Repr

namespace AmbiguityLimitExceeded

/-- The error in words. -/
def message (e : AmbiguityLimitExceeded) : String :=
  let limit := e.limit
  match e.count with
  | some count => s!"input has {count} derivations, more than the limit of {limit}"
  | none => s!"input has unboundedly many derivations, more than the limit of {limit}"

/-- The error is shown as a record of its fields. -/
def datum (e : AmbiguityLimitExceeded) : Datum :=
  .record "AmbiguityLimitExceeded"
    [("limit", .number e.limit), ("count", .option (e.count.map .number))]

/-- What is reported when an enumeration is refused. -/
def report (e : AmbiguityLimitExceeded) : Message :=
  let limit := e.limit
  let count := (Datum.option (e.count.map .number)).line
  ⟨.debug, s!"Refusing to enumerate {count} derivations with a limit of {limit}."⟩

end AmbiguityLimitExceeded

/-- The trees of the symbols and the child sequences of the items made so far. -/
structure Grown (g : Grammar) (α : Type) where
  symbols : Array (Option (List (Tree g α)))
  items : Array (Option (List (List (Tree g α))))

namespace Grown

variable {g : Grammar} {α : Type} (w : Grown g α)

/-- The trees of a symbol node; none if they are not made yet. -/
def treesOf (id : SymbolId) : List (Tree g α) := (w.symbols.getD id none).getD []

/-- The child sequences of an item node; none if they are not made yet. -/
def sequencesOf (id : ItemId) : List (List (Tree g α)) := (w.items.getD id none).getD []

/-- Whether the trees of a node are made. -/
def isDone : Node → Bool
  | .symbol id => (w.symbols.getD id none).isSome
  | .item id => (w.items.getD id none).isSome

end Grown

namespace Forest

variable {g : Grammar} {α : Type} (f : Forest g α)

/-- The trees of a symbol, given those of its alternatives. -/
def growSymbol (w : Grown g α) (id : SymbolId) : List (Tree g α) :=
  (f.alternatives id).flatMap fun itemId =>
    match f.items[itemId]? with
    | none => []
    | some node =>
      (w.sequencesOf itemId).map (.branch node.item.expr node.start node.stop)

/-- The trees of the last term of a family. -/
def lastTrees (w : Grown g α) : Child → List (Tree g α)
  | .token position =>
    match f.tokens[position]? with
    | some token => [.leaf position token]
    | none => []
  | .symbol id => w.treesOf id

/-- The child sequences of an item, given those of its families' parts. -/
def growItem (w : Grown g α) (id : ItemId) : List (List (Tree g α)) :=
  let families := f.families id
  if families.isEmpty then [[]]
  else
    families.flatMap fun family =>
      let lasts := f.lastTrees w family.child
      let firsts := match family.prev with
        | some prev => w.sequencesOf prev
        | none => [[]]
      firsts.flatMap fun first => lasts.map fun last => first ++ [last]

/-- Makes the trees of a node, given those of the nodes it refers to. -/
def grow (w : Grown g α) : Node → Grown g α
  | .symbol id => { w with symbols := w.symbols.setIfInBounds id (some (f.growSymbol w id)) }
  | .item id => { w with items := w.items.setIfInBounds id (some (f.growItem w id)) }

/-- The nodes that a node refers to and whose trees are still to be made. -/
def todo (w : Grown g α) (node : Node) : List Node :=
  (f.children node).filter fun child => !w.isDone child

/-- Works through a stack of visits. -/
def growWalk : (fuel : Nat) → List Visit → Grown g α → Grown g α
  | 0, _, w => w
  | _ + 1, [], w => w
  | fuel + 1, .leave node :: stack, w =>
    if w.isDone node then growWalk fuel stack w else growWalk fuel stack (f.grow w node)
  | fuel + 1, .enter node :: stack, w =>
    if w.isDone node then growWalk fuel stack w
    else growWalk fuel (node.visits (f.todo w node) ++ stack) w

/-- All trees of a forest without cycles. -/
def allTrees : List (Tree g α) :=
  let bare : Grown g α :=
    ⟨Array.replicate f.symbols.size none, Array.replicate f.items.size none⟩
  (f.growWalk (f.walkBound + 1) [.enter (.symbol f.root)] bare).treesOf f.root

/-- All trees, if there are no more than `limit`. -/
def trees (limit : Nat) : Except AmbiguityLimitExceeded (List (Tree g α)) :=
  match f.count? with
  | some count =>
    if count ≤ limit then .ok f.allTrees else .error ⟨limit, some count⟩
  | none => .error ⟨limit, none⟩

end Forest

end ChartParser
