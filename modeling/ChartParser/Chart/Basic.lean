/-
Charts: the state sets of an input, one for each position.

A chart grows from left to right.  Its *closed* sets will not change any more;
the *frontier*, if there is one, is the set that the last scan has seeded and
that is closed next.  A chart is finished when there is no frontier, because the
input has ended or because no state could scan the next token.

* `Chart.step` — closes the frontier; only the name of the token there matters;
* `Chart.run` — steps until the chart is finished, at most once per position;
* `Chart.skipped` — the completions that Leo items have left out of a set,
  found again by walking down the chains;
* `Chart.isAccepted` and `Chart.rejection?` — the verdict on the whole input.
-/
import ChartParser.Chart.Closing
import ChartParser.Rejection
import ChartParser.Token

namespace ChartParser

/-- The chart of a parse, finished or not. -/
structure Chart (g : Grammar) (α : Type) where
  tokens : Tokens α
  closed : Array (StateSet g)
  frontier : Option (StateSet g)
  /-- What happened so far, latest first. -/
  trace : List (Event g)

/-- The expressions of the start symbol, at the start of the input. -/
def StateSet.seed (g : Grammar) : StateSet g :=
  g.startAlternatives.foldl (fun s id => (s.insert ⟨.atStart id, 0⟩ none).set) .empty

namespace Chart

variable {g : Grammar} {α : Type}

/-- The chart of an input before anything is processed. -/
def start (g : Grammar) (tokens : Tokens α) : Chart g α :=
  { tokens, closed := #[], frontier := some (.seed g), trace := [] }

/-- Whether there is nothing left to process. -/
def isFinished (c : Chart g α) : Bool := c.frontier.isNone

/-- Closes the frontier: saturates it and then settles it, given the closed sets
and the position.  What the scans have found becomes the next frontier. -/
def stepBy (settle : Array (StateSet g) → Nat → StateSet g → StateSet g) (c : Chart g α) :
    Chart g α :=
  match c with
  | ⟨tokens, closed, some frontier, trace⟩ =>
    let position := closed.size
    let closing := frontier.saturated closed position (tokens.nameAt? position)
    let set := settle closed position closing.current
    { tokens
      closed := closed.push set
      frontier := if closing.next.isEmpty then none else some closing.next
      trace := closing.trace ++ trace }
  | finished => finished

/-- Closes the frontier and gives it its Leo items. -/
def step (c : Chart g α) : Chart g α := c.stepBy StateSet.withLeoItems

/-- Steps until the chart is finished, at most `fuel` times. -/
def runFor : Nat → Chart g α → Chart g α
  | 0, c => c
  | fuel + 1, c => if c.isFinished then c else runFor fuel c.step

/-- Processes everything.  There is one step for each position. -/
def run (c : Chart g α) : Chart g α := c.runFor (c.tokens.size + 1)

/-- The state set at a position. -/
def set? (c : Chart g α) (position : Nat) : Option (StateSet g) :=
  if position < c.closed.size then c.closed[position]?
  else if position = c.closed.size then c.frontier
  else none

/-- All state sets, in order. -/
def sets (c : Chart g α) : List (StateSet g) := c.closed.toList ++ c.frontier.toList

/-- The last position that has states. -/
def furthestPosition (c : Chart g α) : Nat :=
  match c.frontier with
  | some _ => c.closed.size
  | none => c.closed.size - 1

/-- Walks down the chain that starts with the completion of `name` from
`position`, listing the complete states below its top, each with the position
where its last term starts.  Every step goes to an earlier position. -/
def chain (sets : Array (StateSet g)) : (fuel position : Nat) → Name → List (Key g × Nat)
  | 0, _, _ => []
  | fuel + 1, position, name =>
    match (sets[position]?).bind (·.leoItem? name) with
    | none => []
    | some leo =>
      match leo.waiter.finish? with
      | none => []
      | some key =>
        if key = leo.top then []
        else (key, position) :: chain sets fuel key.origin key.head

/-- The complete states that Leo items have left out of the set at a position,
each with the position where its last term starts. -/
def skipped (c : Chart g α) (position : Nat) : List (Key g × Nat) :=
  match c.closed[position]? with
  | none => []
  | some set => set.bottoms.flatMap fun (origin, name) => chain c.closed (origin + 1) origin name

/-- Whether the chart is finished and some expression of the start symbol spans
the whole input. -/
def isAccepted (c : Chart g α) : Bool :=
  match g.start, c.closed[c.tokens.size]? with
  | some start, some last =>
    c.isFinished &&
      (!(last.completionsOf start 0).isEmpty ||
        (c.skipped c.tokens.size).any fun (key, _) => key.origin = 0 && key.head = start)
  | _, _ => false

/-- What is to be said about the furthest position. -/
def diagnosis (c : Chart g α) : Rejection :=
  let position := c.furthestPosition
  { position
    found := c.tokens.nameAt? position
    expected := match c.set? position with
      | some set => set.expectedTerminals
      | none => [] }

/-- Why the input is rejected, if the chart is finished and it is. -/
def rejection? (c : Chart g α) : Option Rejection :=
  if c.isFinished && !c.isAccepted then some c.diagnosis else none

/-- What happened so far, in order. -/
def messages (c : Chart g α) : List Message := c.trace.reverse.map Event.message

/-- What happened after the first `count` events, in order. -/
def messagesSince (c : Chart g α) (count : Nat) : List Message :=
  (c.trace.take (c.trace.length - count)).reverse.map Event.message

end Chart

/-- The finished chart of an input. -/
def recognize {α : Type} (g : Grammar) (tokens : Tokens α) : Chart g α :=
  (Chart.start g tokens).run

end ChartParser
