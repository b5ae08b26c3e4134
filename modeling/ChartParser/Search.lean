/-
Breadth-first search over an ordered type.

The search works in rounds.  A round takes the frontier in increasing order,
asks for the successors of each of its elements, and collects those not seen so
far as the next frontier.  It stops when a frontier is empty.

* `Search.run` — the search from a list of starting points; its `bound` is the
  number of rounds allowed, and every round but the last sees something new, so
  one more than the number of reachable elements is always enough.
-/
import Std.Data.TreeSet

namespace ChartParser

open Std (TreeSet)

/-- What a search has found: the elements in the order they were expanded, and
all elements seen. -/
structure Search (α : Type) [Ord α] where
  visited : List α
  seen : TreeSet α

namespace Search

variable {α : Type} [Ord α]

/-- A frontier being collected, together with everything seen. -/
structure Front (α : Type) [Ord α] where
  next : TreeSet α
  seen : TreeSet α

/-- Adds an element to the next frontier unless it has been seen. -/
def Front.add (front : Front α) (a : α) : Front α :=
  if front.seen.contains a then front
  else { next := front.next.insert a, seen := front.seen.insert a }

/-- One round: the unseen successors of a frontier, in order. -/
def round (successors : α → List α) (frontier seen : TreeSet α) : Front α :=
  frontier.toList.foldl (fun front a => (successors a).foldl Front.add front)
    { next := ∅, seen }

/-- Runs rounds until a frontier is empty, for at most `bound` rounds. -/
def rounds (successors : α → List α) : Nat → TreeSet α → TreeSet α → Search α
  | 0, _, seen => { visited := [], seen }
  | bound + 1, frontier, seen =>
    if frontier.isEmpty then { visited := [], seen }
    else
      let front := round successors frontier seen
      let rest := rounds successors bound front.next front.seen
      { visited := frontier.toList ++ rest.visited, seen := rest.seen }

/-- Everything that can be reached from `initial` in at most `bound` rounds. -/
def run (bound : Nat) (initial : List α) (successors : α → List α) : Search α :=
  let frontier := TreeSet.ofList initial
  rounds successors bound frontier frontier

/-- The search over a finite graph given by its adjacency lists: a later entry
for a node replaces an earlier one, and a node without entry has no
successors. -/
def ofEdges [BEq α] (initial : List α) (edges : List (α × List α)) : Search α :=
  let bound := edges.foldr (fun e total => e.2.length + total) (initial.length + 1)
  run bound initial fun a => (edges.reverse.lookup a).getD []

end Search

end ChartParser
