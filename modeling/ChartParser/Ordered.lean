/-
Lists of ordered elements.
-/
import Std.Data.TreeSet

namespace ChartParser

/-- The elements of a list in increasing order, each once. -/
def sortedDistinct {α : Type} [Ord α] (as : List α) : List α := (Std.TreeSet.ofList as).toList

end ChartParser
