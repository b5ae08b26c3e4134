/-
Parsing: from a grammar and tokens to a forest or a rejection.
-/
import ChartParser.Forest.Builder
import ChartParser.Forest.Trees

namespace ChartParser

open Text

/-- The outcome of a parse. -/
inductive Outcome (g : Grammar) (α : Type) where
  /-- The whole input derives from the start symbol. -/
  | accepted (forest : Forest g α)
  | rejected (rejection : Rejection)

/-- The verdict of a finished chart. -/
def Chart.outcome {g : Grammar} {α : Type} (c : Chart g α) : Outcome g α :=
  match c.forest? with
  | some forest => .accepted forest
  | none => .rejected c.diagnosis

/-- Parses tokens. -/
def parse {α : Type} (g : Grammar) (tokens : Tokens α) : Outcome g α :=
  (recognize g tokens).outcome

namespace Outcome

variable {g : Grammar} {α : Type}

/-- Whether the input was accepted. -/
def isAccepted : Outcome g α → Bool
  | accepted _ => true
  | rejected _ => false

/-- The derivations of an accepted input. -/
def forest? : Outcome g α → Option (Forest g α)
  | accepted forest => some forest
  | rejected _ => none

/-- Why the input was rejected. -/
def rejection? : Outcome g α → Option Rejection
  | accepted _ => none
  | rejected rejection => some rejection

/-- All trees, if there are no more than `limit`; a rejected input has none. -/
def trees (o : Outcome g α) (limit : Nat) : Except AmbiguityLimitExceeded (List (Tree g α)) :=
  match o with
  | accepted forest => forest.trees limit
  | rejected _ => .ok []

/-- The outcome in words. -/
def report : Outcome g α → Message
  | accepted forest =>
    let symbols := forest.symbols.size
    let items := forest.items.size
    ⟨.debug, s!"Accepted with {symbols} symbol nodes and {items} item nodes."⟩
  | rejected rejection =>
    let rejection := rejection.message
    ⟨.debug, s!"Rejected: {rejection}."⟩

/-- An outcome is shown with its forest or rejection. -/
def datum : Outcome g α → Datum
  | accepted forest => .tuple "Accepted" [forest.datum]
  | rejected rejection => .tuple "Rejected" [rejection.datum]

end Outcome

/-- Everything that is reported during the parse that made a chart and its
outcome. -/
def parseMessages {g : Grammar} {α : Type} (c : Chart g α) (o : Outcome g α) : List Message :=
  let count := c.tokens.size
  ⟨.debug, s!"Parsing {count} tokens."⟩ :: c.messages ++ [o.report]

end ChartParser
