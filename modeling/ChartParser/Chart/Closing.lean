/-
Closing a state set.

The states of a set are processed in the order they were inserted, and
processing one may append others:

* a complete state **completes**: every state that waited for its head at its
  origin advances, unless a Leo item takes the completion straight to the top of
  its chain;
* a state before a nonterminal **predicts** the expressions of that
  nonterminal, and advances at once if the nonterminal was already completed
  here over the empty input;
* a state before a terminal **scans** the token at this position, if it has the
  terminal's name, and its successor goes to the next set.

`saturate` runs until no state is left.  A set at position `k` has no more than
`k + 1` states for each dotted item, one for each origin, which bounds the run.

A set that is saturated gets its Leo items (`withLeoItems`): one for each
nonterminal with a single waiter that completing it would complete.  Such a
chain is continued from the set where the waiter started only if the top there
started strictly earlier, so no chain comes back to where it was.
-/
import ChartParser.Message
import ChartParser.StateSet

namespace ChartParser

/-- What happened while a set was being closed. -/
inductive Event (g : Grammar) where
  | predicted (item : Item g) (position : Nat)
  | scanned (item : Item g) (position : Nat)
  | completed (item : Item g) (origin position : Nat)
  | shortcut (item : Item g) (position : Nat)
  | advanced (item : Item g) (position : Nat)
deriving DecidableEq

/-- An event in words. -/
def Event.message {g : Grammar} (e : Event g) : Message :=
  ⟨.trace,
    match e with
    | predicted item position =>
      let item := item.text
      s!"Predicted {item} at {position}."
    | scanned item position =>
      let item := item.text
      s!"Scanned {item} at {position}."
    | completed item origin position =>
      let item := item.text
      s!"Completed {item} from {origin} at {position}."
    | shortcut item position =>
      let item := item.text
      s!"Completed {item} through a leo item at {position}."
    | advanced item position =>
      let item := item.text
      s!"Advanced {item} at {position}."⟩

/-- A set being closed, the set of the next position, and what happened, latest
first. -/
structure Closing (g : Grammar) where
  current : StateSet g
  next : StateSet g
  trace : List (Event g)

namespace Closing

variable {g : Grammar}

/-- Inserts a key into the current set, and reports it if it is new. -/
def add (c : Closing g) (key : Key g) (link : Option Nat) (event : Event g) : Closing g :=
  let ⟨current, next, trace⟩ := c
  let inserted := current.insert key link
  if inserted.isNew then ⟨inserted.set, next, event :: trace⟩
  else ⟨inserted.set, next, trace⟩

/-- Adds what follows `waiter` once its next nonterminal has matched the tokens
from `split` to `position`. -/
def advanceOver (position split : Nat) (c : Closing g) (waiter : Key g) : Closing g :=
  match waiter.advance? with
  | some advanced => c.add advanced (some split) (.advanced advanced.item position)
  | none => c

/-- Processes a complete state. -/
def complete (earlier : Array (StateSet g)) (position : Nat) (key : Key g) (c : Closing g) :
    Closing g :=
  let ⟨current, next, trace⟩ := c
  let trace := .completed key.item key.origin position :: trace
  if key.origin = position then
    let current := current.addCompletedHere key.head
    (current.waiters key.head).foldl (advanceOver position key.origin) ⟨current, next, trace⟩
  else
    match earlier[key.origin]? with
    | none => ⟨current, next, trace⟩
    | some originSet =>
      match originSet.leoItem? key.head with
      | some leo =>
        add ⟨current.addLeoBottom key.origin key.head, next, trace⟩ leo.top (some leo.topSplit)
          (.shortcut leo.top.item position)
      | none =>
        (originSet.waiters key.head).foldl (advanceOver position key.origin)
          ⟨current, next, trace⟩

/-- Processes a state before a nonterminal. -/
def predict (position : Nat) (name : Name) (place : Nat) (key : Key g) (c : Closing g) :
    Closing g :=
  let ⟨current, next, trace⟩ := c
  let c := (g.alternatives name).foldl
    (fun c id => c.add ⟨.atStart id, position⟩ none (.predicted (.atStart id) position))
    ⟨current.addWaiting name place, next, trace⟩
  if c.current.wasCompletedHere name then advanceOver position position c key else c

/-- Processes a state before a terminal; `token` is the name of the token here. -/
def scan (position : Nat) (token : Option Name) (name : Name) (key : Key g) (c : Closing g) :
    Closing g :=
  let ⟨current, next, trace⟩ := c
  let current := current.addScanning name
  if token = some name then
    match key.advance? with
    | some scanned =>
      ⟨current, (next.insert scanned (some position)).set,
        .scanned scanned.item position :: trace⟩
    | none => ⟨current, next, trace⟩
  else ⟨current, next, trace⟩

/-- Processes the state at `place`. -/
def process (earlier : Array (StateSet g)) (position : Nat) (token : Option Name)
    (place : Nat) (key : Key g) (c : Closing g) : Closing g :=
  match key.item.next? with
  | none => c.complete earlier position key
  | some term =>
    match term.kind with
    | .nonterminal => c.predict position term.name place key
    | .terminal => c.scan position token term.name key

/-- Processes the states from `place` on, at most `fuel` of them. -/
def saturate (earlier : Array (StateSet g)) (position : Nat) (token : Option Name) :
    (fuel place : Nat) → Closing g → Closing g
  | 0, _, c => c
  | fuel + 1, place, c =>
    match c.current.states[place]? with
    | none => c
    | some st =>
      saturate earlier position token fuel (place + 1)
        (c.process earlier position token place st.key)

end Closing

namespace StateSet

variable {g : Grammar}

/-- The number of states a set at a position can have. -/
def capacity (g : Grammar) (position : Nat) : Nat := g.numDottedItems * (position + 1)

/-- Processes all states of a set. -/
def saturated (earlier : Array (StateSet g)) (position : Nat) (token : Option Name)
    (s : StateSet g) : Closing g :=
  Closing.saturate earlier position token (capacity g position) 0 ⟨s, empty, []⟩

/-- The shortcut through a state that is the only one to wait for something: it
continues the chain of its own head if that one leads strictly further back. -/
def leoItemOf (earlier : Array (StateSet g)) (position : Nat) (waiter : Key g) :
    Option (LeoItem g) :=
  waiter.finish?.map fun done =>
    match (earlier[waiter.origin]?).bind (·.leoItem? done.head) with
    | some above =>
      if above.top.origin < waiter.origin then ⟨waiter, above.top, above.topSplit⟩
      else ⟨waiter, done, position⟩
    | none => ⟨waiter, done, position⟩

/-- Adds the shortcuts of a saturated set. -/
def withLeoItems (earlier : Array (StateSet g)) (position : Nat) (s : StateSet g) :
    StateSet g :=
  s.singleWaiters.foldl
    (fun s (name, waiter) =>
      match leoItemOf earlier position waiter with
      | some item => s.addLeoItem name item
      | none => s)
    s

end StateSet

end ChartParser
