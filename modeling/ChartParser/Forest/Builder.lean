/-
The forest of an accepted chart.

Nodes are numbered in the order they are first asked for, starting with the
start symbol over the whole input.  A node that is asked for is put on a stack
and later filled, symbol nodes before item nodes and the latest first:

* the alternatives of a symbol are its complete states in the chart set where it
  ends, followed by those that Leo items have left out;
* the families of an item are the links of its state, in increasing order,
  together with the splits of its left-out completions.
-/
import ChartParser.Chart.Basic
import ChartParser.Forest.Basic

namespace ChartParser

open Std (TreeMap TreeSet)

/-- The completions left out of one set, indexed for look-up. -/
structure LeftOut (g : Grammar) where
  /-- For a head and an origin, the left-out items. -/
  items : TreeMap (Name × Nat) (TreeSet (Item g)) headFirst := ∅
  /-- For a key, the positions where its last term starts. -/
  splits : TreeMap (Key g) (TreeSet Nat) := ∅

namespace LeftOut

variable {g : Grammar}

/-- Adds one left-out completion. -/
def add (table : LeftOut g) (entry : Key g × Nat) : LeftOut g :=
  let (key, split) := entry
  { items := table.items.alter (key.head, key.origin) fun items =>
      some ((items.getD ∅).insert key.item)
    splits := table.splits.alter key fun splits => some ((splits.getD ∅).insert split) }

/-- Indexes a list of left-out completions. -/
def ofList (entries : List (Key g × Nat)) : LeftOut g := entries.foldl add {}

/-- The left-out items of a head and an origin, in increasing order. -/
def itemsOf (table : LeftOut g) (name : Name) (origin : Nat) : List (Item g) :=
  (table.items.getD (name, origin) ∅).toList

/-- The splits of a left-out completion, in increasing order. -/
def splitsOf (table : LeftOut g) (key : Key g) : List Nat := (table.splits.getD key ∅).toList

end LeftOut

/-- The left-out completions of every closed set.  Each table is only made if it
is asked for, and then once. -/
def Chart.leftOut {g : Grammar} {α : Type} (c : Chart g α) : Array (Thunk (LeftOut g)) :=
  Array.ofFn fun i : Fin c.closed.size => Thunk.mk fun _ => LeftOut.ofList (c.skipped i)

/-- What identifies a symbol node. -/
structure SymbolKey where
  name : Name
  start : Nat
  stop : Nat
deriving DecidableEq, Repr

/-- Symbol keys are ordered by name, then by span. -/
instance : Ord SymbolKey where
  compare := compareLex (compareOn (·.name)) (compareLex (compareOn (·.start)) (compareOn (·.stop)))

instance : Std.TransOrd SymbolKey :=
  inferInstanceAs (Std.TransCmp (compareLex (compareOn fun k : SymbolKey => k.name)
    (compareLex (compareOn fun k => k.start) (compareOn fun k => k.stop))))

instance : Std.LawfulEqOrd SymbolKey where
  eq_of_compare {k l} h := by
    obtain ⟨hname, hspan⟩ := compareLex_eq_eq.mp h
    obtain ⟨hstart, hstop⟩ := compareLex_eq_eq.mp hspan
    have hname : k.name = l.name := Std.LawfulEqOrd.eq_of_compare hname
    have hstart : k.start = l.start := Std.LawfulEqOrd.eq_of_compare hstart
    have hstop : k.stop = l.stop := Std.LawfulEqOrd.eq_of_compare hstop
    cases k
    cases l
    subst hname hstart hstop
    rfl

/-- What identifies an item node. -/
structure ItemKey (g : Grammar) where
  item : Item g
  start : Nat
  stop : Nat
deriving DecidableEq

/-- Item keys are ordered by item, then by span. -/
instance {g : Grammar} : Ord (ItemKey g) where
  compare := compareLex (compareOn (·.item)) (compareLex (compareOn (·.start)) (compareOn (·.stop)))

instance {g : Grammar} : Std.TransOrd (ItemKey g) :=
  inferInstanceAs (Std.TransCmp (compareLex (compareOn fun k : ItemKey g => k.item)
    (compareLex (compareOn fun k => k.start) (compareOn fun k => k.stop))))

instance {g : Grammar} : Std.LawfulEqOrd (ItemKey g) where
  eq_of_compare {k l} h := by
    obtain ⟨hitem, hspan⟩ := compareLex_eq_eq.mp h
    obtain ⟨hstart, hstop⟩ := compareLex_eq_eq.mp hspan
    have hitem : k.item = l.item := Std.LawfulEqOrd.eq_of_compare hitem
    have hstart : k.start = l.start := Std.LawfulEqOrd.eq_of_compare hstart
    have hstop : k.stop = l.stop := Std.LawfulEqOrd.eq_of_compare hstop
    cases k
    cases l
    subst hitem hstart hstop
    rfl

/-- A forest under construction: the nodes so far, their numbers, and the nodes
that are still to be filled. -/
structure Builder (g : Grammar) where
  symbols : Array SymbolNode := #[]
  items : Array (ItemNode g) := #[]
  symbolIds : TreeMap SymbolKey SymbolId := ∅
  itemIds : TreeMap (ItemKey g) ItemId := ∅
  pendingSymbols : List SymbolId := []
  pendingItems : List ItemId := []

namespace Builder

variable {g : Grammar} {α : Type}

/-- The number of a symbol node, which is made if there is none. -/
def requestSymbol (b : Builder g) (key : SymbolKey) : SymbolId × Builder g :=
  match b.symbolIds[key]? with
  | some id => (id, b)
  | none =>
    let id := b.symbols.size
    (id,
      { b with
        symbols := b.symbols.push ⟨key.name, key.start, key.stop, []⟩
        symbolIds := b.symbolIds.insert key id
        pendingSymbols := id :: b.pendingSymbols })

/-- The number of an item node, which is made if there is none. -/
def requestItem (b : Builder g) (key : ItemKey g) : ItemId × Builder g :=
  match b.itemIds[key]? with
  | some id => (id, b)
  | none =>
    let id := b.items.size
    (id,
      { b with
        items := b.items.push ⟨key.item, key.start, key.stop, []⟩
        itemIds := b.itemIds.insert key id
        pendingItems := id :: b.pendingItems })

/-- The numbers of several item nodes over one span, without repetition. -/
def requestItems (start stop : Nat) (b : Builder g) (items : List (Item g)) :
    List ItemId × Builder g :=
  items.foldl
    (fun (ids, b) item =>
      let (id, b) := b.requestItem ⟨item, start, stop⟩
      (if id ∈ ids then ids else ids ++ [id], b))
    ([], b)

/-- The family of an item over `start` to `stop` for one split of its last term;
`prev` is the item with one term fewer. -/
def requestFamily (b : Builder g) (prev : Item g) (term : Term) (start stop split : Nat) :
    Family × Builder g :=
  let (prevId, b) :=
    if prev.cursor = 0 then (none, b)
    else
      let (id, b) := b.requestItem ⟨prev, start, split⟩
      (some id, b)
  match term.kind with
  | .terminal => (⟨prevId, .token split⟩, b)
  | .nonterminal =>
    let (id, b) := b.requestSymbol ⟨term.name, split, stop⟩
    (⟨prevId, .symbol id⟩, b)

/-- The families of an item for several splits. -/
def requestFamilies (b : Builder g) (prev : Item g) (term : Term) (start stop : Nat)
    (splits : List Nat) : List Family × Builder g :=
  let (families, b) := splits.foldl
    (fun (families, b) split =>
      let (family, b) := b.requestFamily prev term start stop split
      (family :: families, b))
    ([], b)
  (families.reverse, b)

end Builder

namespace Chart

variable {g : Grammar} {α : Type}

/-- The items of the complete states of a nonterminal over a span: those in the
chart, then those left out. -/
def completedItems (c : Chart g α) (leftOut : Array (Thunk (LeftOut g))) (name : Name)
    (start stop : Nat) : List (Item g) :=
  (match c.closed[stop]? with
    | some set => set.completedItems name start
    | none => []) ++
  (match leftOut[stop]? with
    | some table => table.get.itemsOf name start
    | none => [])

/-- The positions where the last term of a state ending at `stop` may start, in
increasing order. -/
def splits (c : Chart g α) (leftOut : Array (Thunk (LeftOut g))) (key : Key g) (stop : Nat) :
    List Nat :=
  let links := match (c.closed[stop]?).bind (·.find? key) with
    | some st => st.links
    | none => ∅
  if key.item.isComplete then
    match leftOut[stop]? with
    | some table => (links.insertMany (table.get.splitsOf key)).toList
    | none => links.toList
  else links.toList

end Chart

namespace Builder

variable {g : Grammar} {α : Type}

/-- Fills in the alternatives of a symbol node. -/
def fillSymbol (c : Chart g α) (leftOut : Array (Thunk (LeftOut g))) (b : Builder g)
    (id : SymbolId) : Builder g :=
  match b.symbols[id]? with
  | none => b
  | some node =>
    let (ids, b) := b.requestItems node.start node.stop
      (c.completedItems leftOut node.name node.start node.stop)
    { b with symbols := b.symbols.modify id fun node => { node with alternatives := ids } }

/-- Fills in the families of an item node.  An item at the start of its
expression has none. -/
def fillItem (c : Chart g α) (leftOut : Array (Thunk (LeftOut g))) (b : Builder g)
    (id : ItemId) : Builder g :=
  match b.items[id]? with
  | none => b
  | some node =>
    match node.item.retreat?, node.item.previous? with
    | some prev, some term =>
      let (families, b) := b.requestFamilies prev term node.start node.stop
        (c.splits leftOut ⟨node.item, node.start⟩ node.stop)
      { b with items := b.items.modify id fun node => { node with families } }
    | _, _ => b

/-- Fills in pending nodes until none is left, at most `fuel` of them. -/
def drain (c : Chart g α) (leftOut : Array (Thunk (LeftOut g))) : Nat → Builder g → Builder g
  | 0, b => b
  | fuel + 1, b =>
    match b.pendingSymbols with
    | id :: rest => drain c leftOut fuel (fillSymbol c leftOut { b with pendingSymbols := rest } id)
    | [] =>
      match b.pendingItems with
      | id :: rest => drain c leftOut fuel (fillItem c leftOut { b with pendingItems := rest } id)
      | [] => b

end Builder

namespace Chart

variable {g : Grammar} {α : Type}

/-- The number of nodes a forest can have: one for each rule and each dotted item
over each span. -/
def nodeBound (c : Chart g α) : Nat :=
  (g.rules.length + g.numDottedItems) * ((c.tokens.size + 1) * (c.tokens.size + 1))

/-- All derivations of the input, if the chart accepts it. -/
def forest? (c : Chart g α) : Option (Forest g α) :=
  match g.start with
  | none => none
  | some start =>
    if c.isAccepted then
      let (root, b) := Builder.requestSymbol {} ⟨start, 0, c.tokens.size⟩
      let b := Builder.drain c c.leftOut c.nodeBound b
      some { tokens := c.tokens, symbols := b.symbols, items := b.items, root }
    else none

end Chart

end ChartParser
