/-
The chart without shortcuts.

Settling a set without giving it Leo items makes every completion advance every
state that waits for it.  Such a chart holds all complete states, and so it is
what a chart with Leo items has to agree with.
-/
import ChartParser.Chart.Basic

namespace ChartParser.Chart

variable {g : Grammar} {α : Type}

/-- Closes the frontier and leaves it without Leo items. -/
def plainStep (c : Chart g α) : Chart g α := c.stepBy fun _ _ set => set

/-- The chart of an input after `k` steps. -/
def after (g : Grammar) (tokens : Tokens α) : Nat → Chart g α
  | 0 => start g tokens
  | k + 1 => (after g tokens k).step

/-- The chart of an input after `k` steps without shortcuts. -/
def plainAfter (g : Grammar) (tokens : Tokens α) : Nat → Chart g α
  | 0 => start g tokens
  | k + 1 => (plainAfter g tokens k).plainStep

end ChartParser.Chart
