/-
Checked runs.

Building a chart and a forest takes things for granted: that every nonterminal has
a rule, that every position referred to has a set, that the loops come to an end.
A checked run does the same work and looks at each of them first; it stops with a
`Fault` at the first that fails.

* `Chart.stepChecked` and `Chart.runChecked` — closing one set, and all of them;
* `Chart.skippedChecked` — walking down the chains of Leo items;
* `Chart.forestChecked` — building the forest of an accepted chart;
* `Forest.countChecked` and `Forest.treesChecked` — the two walks through a forest.

What is looked at before a single piece of work is a function of its own
(`Closing.fault?`, `Builder.symbolFault?`, `Forest.countFault?` and so on), and the
work itself is that of the plain run.
-/
import ChartParser.Forest.Builder
import ChartParser.Forest.Trees

namespace ChartParser

/-- What a checked run can stumble over. -/
inductive Fault where
  /-- A loop has work left when its bound is reached. -/
  | unfinished
  /-- A nonterminal that is waited for has no rule. -/
  | unknownRule (name : Name)
  /-- There is no set at a position. -/
  | missingSet (position : Nat)
  /-- An index of a set lists a place where there is no state. -/
  | missingState (place : Nat)
  /-- A set has more states than it has room for. -/
  | overfull (position size : Nat)
  /-- The waiter of a Leo item is not complete once it has advanced. -/
  | incompleteWaiter
  /-- There is no node with a number. -/
  | missingNode (node : Node)
  /-- An item node is neither a state of the chart nor left out of it. -/
  | unbackedItem (id : ItemId)
  /-- The only matched term of an item does not start where the item does. -/
  | misplacedSplit (split : Nat)
  /-- A token of a family lies behind the end of the input. -/
  | missingToken (position : Nat)
  /-- A node is left before a node that it refers to is settled. -/
  | unsettled (node : Node)
deriving DecidableEq, Repr

variable {g : Grammar} {α : Type}

/-! ### Charts -/

namespace StateSet

/-- The first of some places where a set has no state. -/
def placeFault? (s : StateSet g) (places : Array Nat) : Option Fault :=
  (places.toList.find? fun place => s.size ≤ place).map .missingState

end StateSet

namespace Closing

/-- What processing a state of the given key would stumble over. -/
def fault? (earlier : Array (StateSet g)) (position : Nat) (key : Key g) (s : StateSet g) :
    Option Fault :=
  match key.item.next? with
  | none =>
    if key.origin = position then s.placeFault? (s.waitingOn key.head)
    else
      match earlier[key.origin]? with
      | none => some (.missingSet key.origin)
      | some originSet =>
        match originSet.leoItem? key.head with
        | some _ => none
        | none => originSet.placeFault? (originSet.waitingOn key.head)
  | some term =>
    match term.kind with
    | .nonterminal => if (g.rule? term.name).isSome then none else some (.unknownRule term.name)
    | .terminal => none

/-- Processes the states from `place` on, at most `fuel` of them, and expects that
no more are left then. -/
def saturateChecked (earlier : Array (StateSet g)) (position : Nat) (token : Option Name) :
    (fuel place : Nat) → Closing g → Except Fault (Closing g)
  | 0, place, c => if place < c.current.size then .error .unfinished else .ok c
  | fuel + 1, place, c =>
    match c.current.states[place]? with
    | none => .ok c
    | some st =>
      match fault? earlier position st.key c.current with
      | some fault => .error fault
      | none =>
        saturateChecked earlier position token fuel (place + 1)
          (c.process earlier position token place st.key)

end Closing

namespace StateSet

/-- What settling a saturated set would stumble over: too many states, or a state on
a waiting list that is not there. -/
def fault? (s : StateSet g) (position : Nat) : Option Fault :=
  if capacity g position < s.size then some (.overfull position s.size)
  else s.waiting.toList.findSome? fun (_, places) => s.placeFault? places

/-- Processes all states of a set, and expects that it can be settled then. -/
def saturatedChecked (earlier : Array (StateSet g)) (position : Nat) (token : Option Name)
    (s : StateSet g) : Except Fault (Closing g) := do
  let closing ←
    Closing.saturateChecked earlier position token (capacity g position) 0 ⟨s, empty, []⟩
  match closing.current.fault? position with
  | some fault => throw fault
  | none => return closing

end StateSet

namespace Chart

/-- Closes the frontier. -/
def stepChecked (c : Chart g α) : Except Fault (Chart g α) :=
  match c with
  | ⟨tokens, closed, some frontier, trace⟩ => do
    let position := closed.size
    let closing ← frontier.saturatedChecked closed position (tokens.nameAt? position)
    return {
      tokens
      closed := closed.push (closing.current.withLeoItems closed position)
      frontier := if closing.next.isEmpty then none else some closing.next
      trace := closing.trace ++ trace }
  | finished => return finished

/-- Steps until the chart is finished, and expects that to take at most the given
number of steps. -/
def runChecked : Nat → Chart g α → Except Fault (Chart g α)
  | 0, c => if c.isFinished then .ok c else .error .unfinished
  | steps + 1, c => if c.isFinished then .ok c else c.stepChecked >>= runChecked steps

/-- Walks down the chain that starts with the completion of `name` from
`position`. -/
def chainChecked (sets : Array (StateSet g)) :
    (fuel position : Nat) → Name → Except Fault (List (Key g × Nat))
  | 0, _, _ => .error .unfinished
  | fuel + 1, position, name =>
    match sets[position]? with
    | none => .error (.missingSet position)
    | some set =>
      match set.leoItem? name with
      | none => .ok []
      | some leo =>
        match leo.waiter.finish? with
        | none => .error .incompleteWaiter
        | some key =>
          if key = leo.top then .ok []
          else (chainChecked sets fuel key.origin key.head).map ((key, position) :: ·)

/-- The complete states that Leo items have left out of the set at a position. -/
def skippedChecked (c : Chart g α) (position : Nat) : Except Fault (List (Key g × Nat)) :=
  match c.closed[position]? with
  | none => .ok []
  | some set =>
    (set.bottoms.mapM fun (origin, name) => chainChecked c.closed (origin + 1) origin name).map
      List.flatten

end Chart

/-! ### Forests -/

namespace Chart

/-- What looking at a position of a chart would stumble over. -/
def positionFault? (c : Chart g α) (position : Nat) : Option Fault :=
  match c.closed[position]?, c.skippedChecked position with
  | none, _ => some (.missingSet position)
  | _, .error fault => some fault
  | _, _ => none

/-- Whether a chart has a state at a position, in the set or left out of it. -/
def backs (c : Chart g α) (key : Key g) (position : Nat) : Bool :=
  ((c.closed[position]?).bind (·.find? key)).isSome ||
    key.item.isComplete && (c.skipped position).any (·.1 = key)

end Chart

namespace Builder

/-- What filling in a symbol node would stumble over. -/
def symbolFault? (c : Chart g α) (b : Builder g) (id : SymbolId) : Option Fault :=
  match b.symbols[id]? with
  | none => some (.missingNode (.symbol id))
  | some node =>
    match c.positionFault? node.stop, c.closed[node.stop]? with
    | none, some set => set.placeFault? (set.completionsOf node.name node.start)
    | fault, _ => fault

/-- What filling in an item node would stumble over. -/
def itemFault? (c : Chart g α) (leftOut : Array (Thunk (LeftOut g))) (b : Builder g)
    (id : ItemId) : Option Fault :=
  match b.items[id]? with
  | none => some (.missingNode (.item id))
  | some node =>
    match node.item.retreat? with
    | none => none
    | some prev =>
      let key : Key g := ⟨node.item, node.start⟩
      match c.positionFault? node.stop with
      | some fault => some fault
      | none =>
        if !c.backs key node.stop then some (.unbackedItem id)
        else if prev.cursor = 0 then
          ((c.splits leftOut key node.stop).find? (· ≠ node.start)).map .misplacedSplit
        else none

/-- Fills in pending nodes, at most `fuel` of them, and expects that none is left
then. -/
def drainChecked (c : Chart g α) (leftOut : Array (Thunk (LeftOut g))) :
    Nat → Builder g → Except Fault (Builder g)
  | 0, b =>
    if b.pendingSymbols.isEmpty && b.pendingItems.isEmpty then .ok b else .error .unfinished
  | fuel + 1, b =>
    match b.pendingSymbols with
    | id :: rest =>
      match symbolFault? c b id with
      | some fault => .error fault
      | none =>
        drainChecked c leftOut fuel (fillSymbol c leftOut { b with pendingSymbols := rest } id)
    | [] =>
      match b.pendingItems with
      | id :: rest =>
        match itemFault? c leftOut b id with
        | some fault => .error fault
        | none =>
          drainChecked c leftOut fuel (fillItem c leftOut { b with pendingItems := rest } id)
      | [] => .ok b

end Builder

/-- All derivations of the input, if the chart accepts it. -/
def Chart.forestChecked (c : Chart g α) : Except Fault (Option (Forest g α)) :=
  match g.start with
  | none => .ok none
  | some start =>
    if c.isAccepted then do
      let (root, b) := Builder.requestSymbol {} ⟨start, 0, c.tokens.size⟩
      let b ← Builder.drainChecked c c.leftOut c.nodeBound b
      return some { tokens := c.tokens, symbols := b.symbols, items := b.items, root }
    else .ok none

/-! ### Walks -/

namespace Forest

variable (f : Forest g α)

/-- What coming to a node would stumble over. -/
def nodeFault? (node : Node) : Option Fault :=
  if node ∈ f.nodes then none else some (.missingNode node)

/-- What leaving a node would stumble over, given which nodes are settled. -/
def leaveFault? (settled : Node → Bool) (node : Node) : Option Fault :=
  (f.nodeFault? node).or <|
    (f.children node).findSome? fun child =>
      (f.nodeFault? child).or <| if settled child then none else some (.unsettled child)

/-- A token of a node that is not in the input. -/
def tokenFault? : Node → Option Fault
  | .symbol _ => none
  | .item id => (f.families id).findSome? fun family =>
    match family.child with
    | .token position =>
      if position < f.tokens.size then none else some (.missingToken position)
    | .symbol _ => none

/-- What counting a node would stumble over. -/
def countFault? (m : Marks) (node : Node) : Option Fault :=
  f.leaveFault? (fun child => (m.get child).count?.isSome) node

/-- What making the trees of a node would stumble over. -/
def growFault? (w : Grown g α) (node : Node) : Option Fault :=
  (f.leaveFault? w.isDone node).or (f.tokenFault? node)

/-- Works through a stack of visits, counting; there is no result if a node has no
count. -/
def countWalkChecked : (fuel : Nat) → List Visit → Marks → Except Fault (Option Marks)
  | 0, _, _ => .error .unfinished
  | _ + 1, [], marks => .ok (some marks)
  | fuel + 1, .leave node :: stack, marks =>
    match f.countFault? marks node with
    | some fault => .error fault
    | none =>
      match f.countNode marks node with
      | none => .ok none
      | some count => countWalkChecked fuel stack (marks.set node (.counted count))
  | fuel + 1, .enter node :: stack, marks =>
    match f.nodeFault? node with
    | some fault => .error fault
    | none =>
      match marks.get node with
      | .counted _ => countWalkChecked fuel stack marks
      | .visiting => .ok none
      | .unvisited => countWalkChecked fuel (f.visitsOf node ++ stack) (marks.set node .visiting)

/-- The number of derivations, if it is finite and at most `countLimit`. -/
def countChecked : Except Fault (Option Nat) := do
  let blank : Marks :=
    ⟨Array.replicate f.symbols.size .unvisited, Array.replicate f.items.size .unvisited⟩
  let marks ← f.countWalkChecked (f.walkBound + 1) [.enter (.symbol f.root)] blank
  return marks.bind fun marks => (marks.get (.symbol f.root)).count?

/-- Works through a stack of visits, making trees. -/
def growWalkChecked : (fuel : Nat) → List Visit → Grown g α → Except Fault (Grown g α)
  | 0, _, _ => .error .unfinished
  | _ + 1, [], w => .ok w
  | fuel + 1, .leave node :: stack, w =>
    match f.nodeFault? node with
    | some fault => .error fault
    | none =>
      if w.isDone node then growWalkChecked fuel stack w
      else
        match f.growFault? w node with
        | some fault => .error fault
        | none => growWalkChecked fuel stack (f.grow w node)
  | fuel + 1, .enter node :: stack, w =>
    match f.nodeFault? node with
    | some fault => .error fault
    | none =>
      if w.isDone node then growWalkChecked fuel stack w
      else
        match (f.children node).findSome? f.nodeFault? with
        | some fault => .error fault
        | none => growWalkChecked fuel (node.visits (f.todo w node) ++ stack) w

/-- All trees of a forest without cycles. -/
def treesChecked : Except Fault (List (Tree g α)) := do
  let bare : Grown g α :=
    ⟨Array.replicate f.symbols.size none, Array.replicate f.items.size none⟩
  let w ← f.growWalkChecked (f.walkBound + 1) [.enter (.symbol f.root)] bare
  return w.treesOf f.root

end Forest

end ChartParser
