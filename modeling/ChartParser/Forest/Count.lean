/-
How many derivations a forest has.

A depth-first walk counts every node after the nodes it refers to.  A symbol has
as many derivations as its alternatives together; an item has, for each family,
the product of its two parts.  Meeting a node that is still open means that it
can derive itself, and then there are infinitely many derivations.

Counts are given up to `countLimit`.  Beyond it, as for infinitely many, there
is no count.
-/
import ChartParser.Forest.Basic

namespace ChartParser

/-- The largest count that is given: the largest number of 64 binary digits. -/
def countLimit : Nat := 18446744073709551615

/-- A sum, unless it is too large. -/
def boundedAdd (a b : Nat) : Option Nat := if a + b ≤ countLimit then some (a + b) else none

/-- A product, unless it is too large. -/
def boundedMul (a b : Nat) : Option Nat := if a * b ≤ countLimit then some (a * b) else none

/-- What a walk knows about a node. -/
inductive Mark where
  | unvisited
  | visiting
  | counted (count : Nat)
deriving DecidableEq, Repr

/-- The count of a node that has one. -/
def Mark.count? : Mark → Option Nat
  | counted count => some count
  | _ => none

/-- The marks of all nodes. -/
structure Marks where
  symbols : Array Mark
  items : Array Mark

namespace Marks

/-- The mark of a node. -/
def get (m : Marks) : Node → Mark
  | .symbol id => m.symbols.getD id .unvisited
  | .item id => m.items.getD id .unvisited

/-- Marks a node. -/
def set (m : Marks) (n : Node) (mark : Mark) : Marks :=
  match n with
  | .symbol id => { m with symbols := m.symbols.setIfInBounds id mark }
  | .item id => { m with items := m.items.setIfInBounds id mark }

/-- The count of a symbol: the sum over its alternatives. -/
def countAlternatives (m : Marks) (alternatives : List ItemId) : Option Nat :=
  alternatives.foldlM (fun total id => do boundedAdd total (← (m.get (.item id)).count?)) 0

/-- The count of a family: the product of its parts. -/
def countFamily (m : Marks) (f : Family) : Option Nat := do
  let prev ← match f.prev with
    | none => some 1
    | some id => (m.get (.item id)).count?
  let child ← match f.child with
    | .token _ => some 1
    | .symbol id => (m.get (.symbol id)).count?
  boundedMul prev child

/-- The count of an item: the sum over its families, or one if it has none. -/
def countFamilies (m : Marks) (families : List Family) : Option Nat :=
  if families.isEmpty then some 1
  else families.foldlM (fun total f => do boundedAdd total (← m.countFamily f)) 0

end Marks

namespace Forest

variable {g : Grammar} {α : Type} (f : Forest g α)

/-- The count of a node whose references are counted. -/
def countNode (m : Marks) : Node → Option Nat
  | .symbol id => m.countAlternatives (f.alternatives id)
  | .item id => m.countFamilies (f.families id)

/-- Works through a stack of visits. -/
def countWalk : (fuel : Nat) → List Visit → Marks → Option Marks
  | 0, _, _ => none
  | _ + 1, [], marks => some marks
  | fuel + 1, .leave node :: stack, marks =>
    match f.countNode marks node with
    | none => none
    | some count => countWalk fuel stack (marks.set node (.counted count))
  | fuel + 1, .enter node :: stack, marks =>
    match marks.get node with
    | .counted _ => countWalk fuel stack marks
    -- reached again from below itself
    | .visiting => none
    | .unvisited => countWalk fuel (f.visitsOf node ++ stack) (marks.set node .visiting)

/-- The number of derivations, if it is finite and at most `countLimit`. -/
def count? : Option Nat :=
  let blank : Marks :=
    ⟨Array.replicate f.symbols.size .unvisited, Array.replicate f.items.size .unvisited⟩
  match f.countWalk (f.walkBound + 1) [.enter (.symbol f.root)] blank with
  | none => none
  | some marks => (marks.get (.symbol f.root)).count?

end Forest

end ChartParser
