/-
Where and why an input does not parse.
-/
import ChartParser.Grammar.Term
import ChartParser.Ordered

namespace ChartParser

open Text

/-- A rejected input: the furthest position that any state reached, the name of
the token there if there is one, and the terminals that could have stood there
instead, in increasing order. -/
structure Rejection where
  position : Nat
  found : Option Name
  expected : List Name
deriving DecidableEq, Repr

namespace Rejection

/-- A rejection that expects a set of names, given in any order. -/
def expecting (position : Nat) (found : Option Name) (names : List Name) : Rejection :=
  { position, found, expected := sortedDistinct names }

/-- A rejection in words. -/
def message (r : Rejection) : String :=
  let position := r.position
  let start := match r.found with
    | some name => s!"unexpected \"{name}\" at {position}"
    | none => s!"unexpected end of input at {position}"
  if r.expected.isEmpty then start
  else start ++ ", expected one of " ++ (Datum.set (r.expected.map .atom)).line

/-- A rejection is shown as a record of its fields. -/
def datum (r : Rejection) : Datum :=
  .record "Rejection"
    [("position", .number r.position), ("found", .option (r.found.map .atom)),
     ("expected", .set (r.expected.map .atom))]

end Rejection

end ChartParser
