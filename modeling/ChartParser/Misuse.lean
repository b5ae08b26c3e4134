/-
Requests that no caller should make.

Everything a caller can get wrong about a *grammar* is a `GrammarError`, and an
input that does not parse is a rejection.  What is left are two requests whose
arguments contradict each other.
-/
namespace ChartParser

/-- A request that cannot be met. -/
inductive Misuse where
  /-- A rule was demanded for a name that heads none. -/
  | unknownRule
  /-- A cursor was placed past the end of its expression. -/
  | cursorPastEnd
deriving DecidableEq, Repr

/-- What is said about the request. -/
def Misuse.message : Misuse → String
  | unknownRule => "An NT rule exists in the grammar."
  | cursorPastEnd => "assertion failed: cursor <= expr.len()"

end ChartParser
