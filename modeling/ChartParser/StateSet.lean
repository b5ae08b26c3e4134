/-
State sets: what a chart knows about one position.

A state is a key with its *links*, the positions where the last matched term may
have started.  A state set lists its states in the order they were first
inserted, one for each key, and keeps indexes beside the list:

* `index` — where the state of a key is;
* `waiting` — for a nonterminal, the states whose next term it is;
* `scanning` — the terminals that are some state's next term;
* `completions` — for a nonterminal and an origin, the complete states;
* `completedHere` — the nonterminals completed over the empty input;
* `leoItems` and `leoBottoms` — shortcuts through chains of completions, and
  the completions that took one.

Only `insert` changes the states, the key index and the completions.
-/
import ChartParser.Item
import Std.Data.TreeMap
import Std.Data.TreeSet

namespace ChartParser

open Std (TreeMap TreeSet)
open Text

/-- A key and the positions where its last matched term may have started. -/
structure State (g : Grammar) where
  key : Key g
  links : TreeSet Nat

/-- A shortcut for the completion of a nonterminal with a single waiter.

Completing the nonterminal completes the waiter, which may in turn be the only
way on for its own head, and so forth.  `top` is the last state of that chain
and `topSplit` the position where its last term starts. -/
structure LeoItem (g : Grammar) where
  waiter : Key g
  top : Key g
  topSplit : Nat
deriving DecidableEq

/-- Pairs of a head and an origin are ordered by head first. -/
abbrev headFirst : Name × Nat → Name × Nat → Ordering :=
  compareLex (compareOn (·.1)) (compareOn (·.2))

/-- Pairs of an origin and a head are ordered by origin first. -/
abbrev originFirst : Nat × Name → Nat × Name → Ordering :=
  compareLex (compareOn (·.1)) (compareOn (·.2))

instance : Std.LawfulEqCmp headFirst where
  eq_of_compare {p q} h := by
    obtain ⟨hname, horigin⟩ := compareLex_eq_eq.mp h
    exact Prod.ext (Std.LawfulEqOrd.eq_of_compare hname) (Std.LawfulEqOrd.eq_of_compare horigin)

instance : Std.LawfulEqCmp originFirst where
  eq_of_compare {p q} h := by
    obtain ⟨horigin, hname⟩ := compareLex_eq_eq.mp h
    exact Prod.ext (Std.LawfulEqOrd.eq_of_compare horigin) (Std.LawfulEqOrd.eq_of_compare hname)

/-- The states at one position, with their indexes. -/
structure StateSet (g : Grammar) where
  states : Array (State g) := #[]
  index : TreeMap (Key g) Nat := ∅
  waiting : TreeMap Name (Array Nat) := ∅
  scanning : TreeSet Name := ∅
  completions : TreeMap (Name × Nat) (Array Nat) headFirst := ∅
  completedHere : TreeSet Name := ∅
  leoItems : TreeMap Name (LeoItem g) := ∅
  leoBottoms : TreeSet (Nat × Name) originFirst := ∅

/-- The outcome of an insertion: the set after it, the place of the key, and
whether the key is new. -/
structure Insertion (g : Grammar) where
  set : StateSet g
  place : Nat
  isNew : Bool

namespace StateSet

variable {g : Grammar}

/-- The set without states. -/
def empty : StateSet g := {}

/-- The number of states. -/
def size (s : StateSet g) : Nat := s.states.size

/-- Whether there are no states. -/
def isEmpty (s : StateSet g) : Bool := s.states.isEmpty

/-- The state of a key. -/
def find? (s : StateSet g) (key : Key g) : Option (State g) :=
  (s.index[key]?).bind (s.states[·]?)

/-- Adds a link to the state at a place. -/
def addLink (s : StateSet g) (place : Nat) (link : Nat) : StateSet g :=
  { s with states := s.states.modify place fun st => { st with links := st.links.insert link } }

/-- Adds a state with a new key at the end. -/
def append (s : StateSet g) (key : Key g) (link : Option Nat) : StateSet g :=
  let place := s.states.size
  { s with
    states := s.states.push ⟨key, TreeSet.ofList link.toList⟩
    index := s.index.insert key place
    completions :=
      if key.item.isComplete then
        s.completions.alter (key.head, key.origin) fun places =>
          some ((places.getD #[]).push place)
      else s.completions }

/-- Makes sure that there is a state of `key` and that it has the given link. -/
def insert (s : StateSet g) (key : Key g) (link : Option Nat) : Insertion g :=
  match s.index[key]? with
  | some place =>
    match link with
    | some l => ⟨s.addLink place l, place, false⟩
    | none => ⟨s, place, false⟩
  | none =>
    let place := s.states.size
    ⟨s.append key link, place, true⟩

/-- Notes that the state at `place` waits for a nonterminal. -/
def addWaiting (s : StateSet g) (name : Name) (place : Nat) : StateSet g :=
  { s with waiting := s.waiting.alter name fun places => some ((places.getD #[]).push place) }

/-- Notes that some state waits for a terminal. -/
def addScanning (s : StateSet g) (name : Name) : StateSet g :=
  { s with scanning := s.scanning.insert name }

/-- Notes that a nonterminal was completed over the empty input. -/
def addCompletedHere (s : StateSet g) (name : Name) : StateSet g :=
  { s with completedHere := s.completedHere.insert name }

/-- Sets the shortcut of a nonterminal. -/
def addLeoItem (s : StateSet g) (name : Name) (item : LeoItem g) : StateSet g :=
  { s with leoItems := s.leoItems.insert name item }

/-- Notes that the completion of a nonterminal from `origin` took a shortcut. -/
def addLeoBottom (s : StateSet g) (origin : Nat) (name : Name) : StateSet g :=
  { s with leoBottoms := s.leoBottoms.insert (origin, name) }

/-- The places of the states that wait for a nonterminal. -/
def waitingOn (s : StateSet g) (name : Name) : Array Nat := s.waiting.getD name #[]

/-- The keys of the states that wait for a nonterminal. -/
def waiters (s : StateSet g) (name : Name) : List (Key g) :=
  (s.waitingOn name).toList.filterMap fun place => (s.states[place]?).map (·.key)

/-- Whether a nonterminal was completed over the empty input. -/
def wasCompletedHere (s : StateSet g) (name : Name) : Bool := s.completedHere.contains name

/-- The places of the complete states of a nonterminal from an origin. -/
def completionsOf (s : StateSet g) (name : Name) (origin : Nat) : Array Nat :=
  s.completions.getD (name, origin) #[]

/-- The items of the complete states of a nonterminal from an origin. -/
def completedItems (s : StateSet g) (name : Name) (origin : Nat) : List (Item g) :=
  (s.completionsOf name origin).toList.filterMap fun place =>
    (s.states[place]?).map (·.key.item)

/-- The terminals that some state waits for, in increasing order. -/
def expectedTerminals (s : StateSet g) : List Name := s.scanning.toList

/-- The nonterminals that exactly one state waits for, in increasing order, with
the key of that state. -/
def singleWaiters (s : StateSet g) : List (Name × Key g) :=
  s.waiting.toList.filterMap fun (name, places) =>
    match places.toList with
    | [place] => (s.states[place]?).map fun st => (name, st.key)
    | _ => none

/-- The shortcut of a nonterminal. -/
def leoItem? (s : StateSet g) (name : Name) : Option (LeoItem g) := s.leoItems[name]?

/-- The completions that took a shortcut, by origin and nonterminal. -/
def bottoms (s : StateSet g) : List (Nat × Name) := s.leoBottoms.toList

end StateSet

/-- A state is shown with its item, origin and links. -/
def State.datum {g : Grammar} (st : State g) : Datum :=
  .record "EarleyState"
    [("state", st.key.item.datum), ("origin", .number st.key.origin),
     ("links", .set (st.links.toList.map .number))]

/-- A shortcut is shown with its waiter, its top, and the top's split. -/
def LeoItem.datum {g : Grammar} (leo : LeoItem g) : Datum :=
  .record "LeoItem"
    [("waiter", leo.waiter.datum), ("top", leo.top.datum), ("top_split", .number leo.topSplit)]

/-- A state set is shown as the set of its states, in order of insertion. -/
def StateSet.datum {g : Grammar} (s : StateSet g) : Datum :=
  .set (s.states.toList.map State.datum)

end ChartParser
