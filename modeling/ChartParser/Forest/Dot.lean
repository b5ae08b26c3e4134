/-
Forests as graphs, in the DOT language.

The graph has a node for each symbol, each item, each family and each token
that some family refers to.  A symbol points to its alternatives, an item to its
families, and a family to its two parts.
-/
import ChartParser.Forest.Basic
import ChartParser.Ordered
import ChartParser.Text.Quoted

namespace ChartParser

open Text

/-- A node of the graph of a forest. -/
inductive DotNode where
  | symbol (id : SymbolId)
  | item (id : ItemId)
  /-- A family, by its item and its place there. -/
  | family (id : ItemId) (place : Nat)
  | token (position : Nat)
deriving DecidableEq, Repr

/-- What an edge leads to. -/
inductive DotRole where
  | alternative
  | family
  | prev
  | child
deriving DecidableEq, Repr

/-- The label of an edge. -/
def DotRole.label : DotRole → String
  | alternative => "alt"
  | family => ""
  | prev => "prev"
  | child => "child"

/-- A labelled edge. -/
structure DotEdge where
  source : DotNode
  target : DotNode
  role : DotRole
deriving DecidableEq, Repr

/-- A graph, with its nodes and edges in the order they are written. -/
structure DotGraph where
  nodes : List DotNode
  edges : List DotEdge
deriving DecidableEq, Repr

/-- The identifier of a node. -/
def DotNode.id : DotNode → String
  | symbol i => s!"s{i}"
  | item i => s!"i{i}"
  | family i j => s!"f{i}_{j}"
  | token i => s!"t{i}"

/-- The graph node of a child. -/
def Child.dotNode : Child → DotNode
  | token position => .token position
  | symbol id => .symbol id

namespace Forest

variable {g : Grammar} {α : Type} (f : Forest g α)

/-- The edges out of a symbol. -/
def symbolEdges (id : SymbolId) (s : SymbolNode) : List DotEdge :=
  s.alternatives.map fun item => ⟨.symbol id, .item item, .alternative⟩

/-- The edges into and out of a family. -/
def familyEdges (id : ItemId) (place : Nat) (family : Family) : List DotEdge :=
  ⟨.item id, .family id place, .family⟩ ::
    ((family.prev.toList.map fun prev => ⟨.family id place, .item prev, .prev⟩) ++
      [⟨.family id place, family.child.dotNode, .child⟩])

/-- The token positions that families refer to, in increasing order. -/
def tokenPositions : List Nat :=
  sortedDistinct (f.items.toList.flatMap fun i =>
    i.families.filterMap fun family =>
      match family.child with
      | .token position => some position
      | .symbol _ => none)

/-- The graph of a forest: symbols, items each followed by its families, and
tokens. -/
def dotGraph : DotGraph where
  nodes :=
    (List.range f.symbols.size).map .symbol ++
    (f.items.toList.zipIdx.flatMap fun (i, id) =>
      .item id :: (List.range i.families.length).map (.family id)) ++
    f.tokenPositions.map .token
  edges :=
    (f.symbols.toList.zipIdx.flatMap fun (s, id) => symbolEdges id s) ++
    (f.items.toList.zipIdx.flatMap fun (i, id) =>
      i.families.zipIdx.flatMap fun (family, place) => familyEdges id place family)

/-- What is written on a node. -/
def dotLabel : DotNode → String
  | .symbol id =>
    match f.symbols[id]? with
    | some s =>
      let (name, start, stop) := (s.name, s.start, s.stop)
      s!"{name} {start}..{stop}"
    | none => ""
  | .item id =>
    match f.items[id]? with
    | some i =>
      let (item, start, stop) := (i.item.text, i.start, i.stop)
      s!"{item} {start}..{stop}"
    | none => ""
  | .family _ _ => ""
  | .token position =>
    match f.tokens.nameAt? position with
    | some name => s!"{name} @{position}"
    | none => s!"@{position}"

/-- The line of a node. -/
def dotNodeLine (n : DotNode) : String :=
  "    " ++ n.id ++ "[label=\"" ++ labelText (f.dotLabel n) ++ "\"];\n"

/-- The line of an edge. -/
def dotEdgeLine (e : DotEdge) : String :=
  "    " ++ e.source.id ++ " -> " ++ e.target.id ++ "[label=\"" ++ labelText e.role.label
    ++ "\"];\n"

/-- The forest in the DOT language. -/
def dot : String :=
  let graph := f.dotGraph
  String.join
    (("digraph forest \x7b\n" :: graph.nodes.map f.dotNodeLine) ++
      graph.edges.map dotEdgeLine ++ ["\x7d\n"])

end Forest

end ChartParser
