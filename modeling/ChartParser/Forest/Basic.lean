/-
Shared packed parse forests: all derivations of an accepted input.

A forest has two kinds of nodes, each with the span of input it covers:

* a **symbol node** is a nonterminal; its alternatives are item nodes, one for
  each expression that derives the span;
* an **item node** is an expression with the cursor behind its matched terms;
  its families are the ways to split the span into the item with one term fewer
  (absent if no term is left before it) and the last matched term, which is a
  token or a symbol node.

Nodes are shared, so a forest is small even if it has very many derivations, or
infinitely many, in which case it is a cyclic graph.
-/
import ChartParser.Item
import ChartParser.Token

namespace ChartParser

open Text

/-- The number of a symbol node. -/
abbrev SymbolId := Nat

/-- The number of an item node. -/
abbrev ItemId := Nat

/-- The last matched term of a family. -/
inductive Child where
  | token (position : Nat)
  | symbol (id : SymbolId)
deriving DecidableEq, Repr

/-- One way to split the span of an item node. -/
structure Family where
  prev : Option ItemId
  child : Child
deriving DecidableEq, Repr

/-- A nonterminal over a span. -/
structure SymbolNode where
  name : Name
  start : Nat
  stop : Nat
  alternatives : List ItemId
deriving DecidableEq, Repr

/-- An item over a span. -/
structure ItemNode (g : Grammar) where
  item : Item g
  start : Nat
  stop : Nat
  families : List Family
deriving DecidableEq

/-- The derivations of an input. -/
structure Forest (g : Grammar) (α : Type) where
  tokens : Tokens α
  symbols : Array SymbolNode
  items : Array (ItemNode g)
  root : SymbolId

/-- A node of either kind. -/
inductive Node where
  | symbol (id : SymbolId)
  | item (id : ItemId)
deriving DecidableEq, Repr

/-- What a walk through a forest still has to do. -/
inductive Visit where
  /-- Come to a node, and go where it refers to. -/
  | enter (node : Node)
  /-- Leave a node when everything it refers to is settled. -/
  | leave (node : Node)
deriving DecidableEq, Repr

/-- The visits that coming to a node leads to, if there are some nodes to go to first:
these are entered, the last one before the others, and then the node is left. -/
def Node.visits (node : Node) (first : List Node) : List Visit :=
  first.reverse.map .enter ++ [.leave node]

/-- The nodes a family refers to. -/
def Family.nodes (f : Family) : List Node :=
  (f.prev.toList.map Node.item) ++
    match f.child with
    | .token _ => []
    | .symbol id => [.symbol id]

namespace Forest

variable {g : Grammar} {α : Type} (f : Forest g α)

/-- The alternatives of a symbol node. -/
def alternatives (id : SymbolId) : List ItemId :=
  match f.symbols[id]? with
  | some node => node.alternatives
  | none => []

/-- The families of an item node. -/
def families (id : ItemId) : List Family :=
  match f.items[id]? with
  | some node => node.families
  | none => []

/-- The nodes that a node refers to, in order. -/
def children : Node → List Node
  | .symbol id => (f.alternatives id).map .item
  | .item id => (f.families id).flatMap Family.nodes

/-- All nodes, symbols before items. -/
def nodes : List Node :=
  (List.range f.symbols.size).map .symbol ++ (List.range f.items.size).map .item

/-- The visits that coming to a node leads to if everything it refers to is entered. -/
def visitsOf (node : Node) : List Visit := node.visits (f.children node)

/-- The number of visits of a walk that looks behind each node at most once: it
enters the root and every reference, and leaves every node. -/
def walkBound : Nat := f.nodes.foldr (fun n total => (f.children n).length + 1 + total) 1

/-- Whether some node can be derived in more than one way. -/
def isAmbiguous : Bool :=
  f.symbols.any (fun s => 1 < s.alternatives.length) ||
    f.items.any (fun i => 1 < i.families.length)

end Forest

/-- A child is shown with its position or number. -/
def Child.datum : Child → Datum
  | token position => .tuple "Token" [.number position]
  | symbol id => .tuple "Symbol" [.tuple "SymbolId" [.number id]]

/-- A family is shown with its two parts. -/
def Family.datum (f : Family) : Datum :=
  .record "Family"
    [("prev", .option (f.prev.map fun id => .tuple "ItemId" [.number id])),
     ("child", f.child.datum)]

/-- A symbol node is shown with its name, span and alternatives. -/
def SymbolNode.datum (s : SymbolNode) : Datum :=
  .record "SymbolNode"
    [("name", .atom s.name), ("start", .number s.start), ("end", .number s.stop),
     ("alternatives", .list (s.alternatives.map fun id => .tuple "ItemId" [.number id]))]

/-- An item node is shown with its item, span and families. -/
def ItemNode.datum {g : Grammar} (i : ItemNode g) : Datum :=
  .record "ItemNode"
    [("state", i.item.datum), ("start", .number i.start), ("end", .number i.stop),
     ("families", .list (i.families.map Family.datum))]

/-- A forest is shown with its root and all nodes. -/
def Forest.datum {g : Grammar} {α : Type} (f : Forest g α) : Datum :=
  .record "Forest"
    [("root", .tuple "SymbolId" [.number f.root]),
     ("symbols", .list (f.symbols.toList.map SymbolNode.datum)),
     ("items", .list (f.items.toList.map ItemNode.datum))]

end ChartParser
