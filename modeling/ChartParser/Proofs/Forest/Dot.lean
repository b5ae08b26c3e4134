/-
The graph of a forest is a faithful picture.

Nodes and edges are written in different orders: each item is followed by its families,
edges come in the order of what they start from, and the tokens are gathered on the side.
Still, nothing is merged and nothing is lost.

* **`DotNode.id_injective`** — different nodes have different identifiers, although those
  of families are made from two numbers; so a graph is known from what is written of it
  (**`DotGraph.written_injective`**);
* **`nodup_dotNodes`** and **`mem_dotNodes`** — what is drawn, each node once;
* **`Packed.ends_drawn`** — edges run between nodes that are drawn;
* **`DotGraph.alternatives`** and **`DotGraph.families`** — what can be read off any graph:
  a node's edges of one role, followed in order;
* **`alternatives_dotGraph`** and **`families_dotGraph`** — from the graph of a forest
  they read the alternatives of every symbol and the families of every item;
* **`dot_graph_faithful`** — all this of the forest of every chart, and so forests that
  are written alike have the same alternatives and families.
-/
import ChartParser.Forest.Dot
import ChartParser.Proofs.Forest.Derivations
import Mathlib.Data.List.Nodup

namespace ChartParser

/-! ### What is written of a graph -/

namespace DotNode

/-- An identifier is a letter and one or two numbers. -/
theorem toList_id (n : DotNode) :
    n.id.toList =
      match n with
      | symbol i => 's' :: Nat.toDigits 10 i
      | item i => 'i' :: Nat.toDigits 10 i
      | family i j => 'f' :: (Nat.toDigits 10 i ++ '_' :: Nat.toDigits 10 j)
      | token i => 't' :: Nat.toDigits 10 i := by
  cases n <;> simp [id] <;> rfl

theorem toDigits_inj {i j : Nat} (h : Nat.toDigits 10 i = Nat.toDigits 10 j) : i = j := by
  have hvalue := congrArg (Nat.ofDigitChars 10 · 0) h
  simpa only [Nat.ofDigitChars_ten_toDigits] using hvalue

/-- The letter tells the kind of a node, and the only underscore divides two numbers. -/
theorem id_injective : Function.Injective DotNode.id := by
  intro m n h
  have hchars := congrArg String.toList h
  rw [toList_id, toList_id] at hchars
  cases m <;> cases n <;> simp only [List.cons.injEq, Char.reduceEq, false_and] at hchars
  case symbol.symbol i j => rw [toDigits_inj hchars.2]
  case item.item i j => rw [toDigits_inj hchars.2]
  case token.token i j => rw [toDigits_inj hchars.2]
  case family.family i j i' j' =>
    obtain ⟨hi, -, hj⟩ := (List.append_cons_inj_of_notMem Nat.underscore_not_in_toDigits
      Nat.underscore_not_in_toDigits).mp hchars.2
    rw [toDigits_inj hi, toDigits_inj hj]

/-- The item that a node is for. -/
def item? : DotNode → Option ItemId
  | item id => some id
  | _ => none

/-- The child that a node is for. -/
def child? : DotNode → Option Child
  | token position => some (.token position)
  | symbol id => some (.symbol id)
  | _ => none

/-- The item that a node is drawn with. -/
def owner? : DotNode → Option ItemId
  | item id => some id
  | family id _ => some id
  | _ => none

theorem child?_dotNode (child : Child) : child.dotNode.child? = some child := by
  cases child <;> rfl

end DotNode

theorem DotRole.label_injective : Function.Injective DotRole.label := by
  intro r s
  cases r <;> cases s <;> decide

namespace DotEdge

/-- The ends and the label of an edge, as they are written. -/
def written (e : DotEdge) : String × String × String := (e.source.id, e.target.id, e.role.label)

theorem written_injective : Function.Injective written := by
  rintro ⟨source, target, role⟩ ⟨source', target', role'⟩ h
  simp only [written, Prod.mk.injEq] at h
  obtain ⟨hsource, htarget, hrole⟩ := h
  rw [DotNode.id_injective hsource, DotNode.id_injective htarget, DotRole.label_injective hrole]

/-- Where an edge leads to, if it has a role and comes from a node. -/
def target? (source : DotNode) (role : DotRole) (e : DotEdge) : Option DotNode :=
  if e.source = source ∧ e.role = role then some e.target else none

end DotEdge

namespace DotGraph

variable (graph : DotGraph)

/-- The identifiers of all nodes, and the edges between identifiers. -/
def written : List String × List (String × String × String) :=
  (graph.nodes.map DotNode.id, graph.edges.map DotEdge.written)

/-- Graphs that are written alike are the same. -/
theorem written_injective : Function.Injective written := by
  rintro ⟨nodes, edges⟩ ⟨nodes', edges'⟩ h
  simp only [written, Prod.mk.injEq] at h
  obtain ⟨hnodes, hedges⟩ := h
  rw [List.map_injective_iff.mpr DotNode.id_injective hnodes,
    List.map_injective_iff.mpr DotEdge.written_injective hedges]

/-! ### What can be read off a graph -/

/-- Where the edges of a role lead to from a node, in order. -/
def targets (source : DotNode) (role : DotRole) : List DotNode :=
  graph.edges.filterMap (DotEdge.target? source role)

/-- The items that a symbol points to. -/
def alternatives (id : SymbolId) : List ItemId :=
  (graph.targets (.symbol id) .alternative).filterMap DotNode.item?

/-- The two parts that a node points to. -/
def family? (n : DotNode) : Option Family :=
  ((graph.targets n .child).head?.bind DotNode.child?).map fun child =>
    ⟨(graph.targets n .prev).head?.bind DotNode.item?, child⟩

/-- The families that an item points to. -/
def families (id : ItemId) : List Family :=
  (graph.targets (.item id) .family).filterMap graph.family?

end DotGraph

namespace Forest

variable {g : Grammar} {α : Type} {f : Forest g α}

/-! ### The edges of one node -/

/-- What only one place of a list gives something for. -/
theorem flatMap_zipIdx {β γ : Type} {F : β → Nat → List γ} {k : Nat}
    (hF : ∀ x i, i ≠ k → F x i = []) (xs : List β) :
    (xs.zipIdx.flatMap fun p => F p.1 p.2) = xs[k]?.toList.flatMap (F · k) := by
  induction xs using List.reverseRecOn with
  | nil => rfl
  | append_singleton xs x ih =>
    rw [List.zipIdx_append, List.flatMap_append, ih, Nat.zero_add]
    rcases Nat.lt_trichotomy k xs.length with hlt | rfl | hlt
    · rw [List.getElem?_append_left hlt]
      simp [hF x xs.length (by omega)]
    · simp
    · rw [List.getElem?_eq_none (by omega), List.getElem?_eq_none (by simp; omega)]
      simp [hF x xs.length (by omega)]

/-- The edges that start at symbols come before those around families. -/
theorem targets_dotGraph (source : DotNode) (role : DotRole) :
    f.dotGraph.targets source role =
      (f.symbols.toList.zipIdx.flatMap fun p =>
        (symbolEdges p.2 p.1).filterMap (DotEdge.target? source role)) ++
      f.items.toList.zipIdx.flatMap fun p => p.1.families.zipIdx.flatMap fun q =>
        (familyEdges p.2 q.2 q.1).filterMap (DotEdge.target? source role) := by
  simp only [DotGraph.targets, dotGraph, List.filterMap_append, List.filterMap_flatMap]

/-- Only symbols have alternatives. -/
theorem filterMap_symbolEdges (source : DotNode) (role : DotRole) (id : SymbolId)
    (s : SymbolNode) :
    (symbolEdges id s).filterMap (DotEdge.target? source role) =
      if source = .symbol id ∧ role = .alternative then s.alternatives.map .item else [] := by
  rw [symbolEdges, List.filterMap_map]
  split
  · next h => simp [DotEdge.target?, h, List.filterMap_eq_map']
  · next h =>
    rw [List.filterMap_eq_nil_iff]
    rintro m -
    rw [Function.comp_apply, DotEdge.target?, if_neg]
    rintro ⟨rfl, rfl⟩
    exact h ⟨rfl, rfl⟩

/-- The edges around a family, by their roles. -/
theorem filterMap_familyEdges (source : DotNode) (role : DotRole) (id : ItemId) (place : Nat)
    (family : Family) :
    (familyEdges id place family).filterMap (DotEdge.target? source role) =
      match role with
      | .alternative => []
      | .family => if source = .item id then [.family id place] else []
      | .prev => if source = .family id place then family.prev.toList.map .item else []
      | .child => if source = .family id place then [family.child.dotNode] else [] := by
  obtain ⟨prev, child⟩ := family
  rw [familyEdges]
  cases role <;> cases prev <;>
    simp [DotEdge.target?, List.filterMap_cons, eq_comm (a := source)]
  all_goals split_ifs <;> rfl

/-- A symbol points to its alternatives. -/
theorem targets_symbol (id : SymbolId) :
    f.dotGraph.targets (.symbol id) .alternative = (f.alternatives id).map .item := by
  have hfamilies : (f.items.toList.zipIdx.flatMap fun p => p.1.families.zipIdx.flatMap fun q =>
      (familyEdges p.2 q.2 q.1).filterMap (DotEdge.target? (.symbol id) .alternative)) = [] := by
    simp [filterMap_familyEdges]
  rw [targets_dotGraph, hfamilies, List.append_nil, flatMap_zipIdx (k := id)
    (F := fun s i => (symbolEdges i s).filterMap (DotEdge.target? (.symbol id) .alternative)),
    alternatives, Array.getElem?_toList]
  · cases f.symbols[id]? with
    | none => rfl
    | some s => simp [filterMap_symbolEdges]
  · intro s i hi
    simp [filterMap_symbolEdges, hi.symm]

/-- Edges that only one item has come from its families. -/
theorem targets_families {source : DotNode} {role : DotRole} (id : ItemId)
    (hrole : role ≠ .alternative)
    (hsource : ∀ i ≠ id, ∀ place family,
      (familyEdges i place family).filterMap (DotEdge.target? source role) = []) :
    f.dotGraph.targets source role =
      (f.families id).zipIdx.flatMap fun q =>
        (familyEdges id q.2 q.1).filterMap (DotEdge.target? source role) := by
  have hsymbols : (f.symbols.toList.zipIdx.flatMap fun p =>
      (symbolEdges p.2 p.1).filterMap (DotEdge.target? source role)) = [] := by
    simp [filterMap_symbolEdges, hrole]
  rw [targets_dotGraph, hsymbols, List.nil_append, flatMap_zipIdx (k := id)
    (F := fun (node : ItemNode g) i => node.families.zipIdx.flatMap fun q =>
      (familyEdges i q.2 q.1).filterMap (DotEdge.target? source role)),
    families, Array.getElem?_toList]
  · cases f.items[id]? with
    | none => rfl
    | some node => exact List.append_nil _
  · intro node i hi
    exact List.flatMap_eq_nil_iff.mpr fun q _ => hsource i hi q.2 q.1

/-- An item points to its families, by their places. -/
theorem targets_item (id : ItemId) :
    f.dotGraph.targets (.item id) .family =
      (f.families id).zipIdx.map fun q => .family id q.2 := by
  rw [targets_families id (by decide)]
  · simp only [filterMap_familyEdges, if_true, List.map_eq_flatMap]
  · intro i hi place family
    simp [filterMap_familyEdges, hi.symm]

/-- Edges out of a family come from its place among the families of its item. -/
theorem targets_family {role : DotRole} (hrole : role = .prev ∨ role = .child) (id : ItemId)
    (place : Nat) :
    f.dotGraph.targets (.family id place) role =
      (f.families id)[place]?.toList.flatMap fun family =>
        (familyEdges id place family).filterMap (DotEdge.target? (.family id place) role) := by
  -- neither another item nor another place has an edge out of this family
  have hother : ∀ i j family, ¬ (i = id ∧ j = place) →
      (familyEdges i j family).filterMap (DotEdge.target? (.family id place) role) = [] := by
    intro i j family hne
    rcases hrole with rfl | rfl <;>
      simp only [filterMap_familyEdges, DotNode.family.injEq, eq_comm (a := id),
        eq_comm (a := place), if_neg hne]
  rw [targets_families id (by rcases hrole with rfl | rfl <;> decide)
    fun i hi j family => hother i j family fun h => hi h.1]
  exact flatMap_zipIdx (fun family j hj => hother id j family fun h => hj h.2) _

/-- A family points to the item before its last term, if there is one. -/
theorem targets_prev (id : ItemId) (place : Nat) :
    f.dotGraph.targets (.family id place) .prev =
      (f.families id)[place]?.toList.flatMap fun family => family.prev.toList.map .item := by
  rw [targets_family (.inl rfl)]
  simp only [filterMap_familyEdges, if_true]

/-- A family points to its last term. -/
theorem targets_child (id : ItemId) (place : Nat) :
    f.dotGraph.targets (.family id place) .child =
      (f.families id)[place]?.toList.map (·.child.dotNode) := by
  rw [targets_family (.inr rfl)]
  simp only [filterMap_familyEdges, if_true, List.map_eq_flatMap]

/-! ### Reading a forest back -/

/-- **Alternatives.**  The graph has the alternatives of every symbol, in order. -/
theorem alternatives_dotGraph (id : SymbolId) :
    f.dotGraph.alternatives id = f.alternatives id := by
  rw [DotGraph.alternatives, targets_symbol, List.filterMap_map]
  exact List.filterMap_some

/-- The graph has the two parts of the family at each place. -/
theorem family?_dotGraph (id : ItemId) (place : Nat) :
    f.dotGraph.family? (.family id place) = (f.families id)[place]? := by
  rw [DotGraph.family?, targets_child, targets_prev]
  cases (f.families id)[place]? with
  | none => rfl
  | some family =>
    obtain ⟨prev, child⟩ := family
    cases prev <;> simp [DotNode.child?_dotNode, DotNode.item?]

/-- **Families.**  The graph has the families of every item, in order. -/
theorem families_dotGraph (id : ItemId) : f.dotGraph.families id = f.families id := by
  have hplace : ∀ q ∈ (f.families id).zipIdx,
      f.dotGraph.family? (.family id q.2) = some q.1 := by
    intro q hq
    rw [family?_dotGraph]
    exact List.mk_mem_zipIdx_iff_getElem?.mp hq
  calc f.dotGraph.families id
      = (f.families id).zipIdx.filterMap fun q => f.dotGraph.family? (.family id q.2) := by
        rw [DotGraph.families, targets_item, List.filterMap_map]
        rfl
    _ = (f.families id).zipIdx.map (·.1) := by
        rw [List.filterMap_congr hplace, List.filterMap_eq_map']
    _ = f.families id := List.zipIdx_map_fst 0 _

/-! ### What is drawn -/

/-- The tokens on the side are those that families refer to. -/
theorem mem_tokenPositions {position : Nat} :
    position ∈ f.tokenPositions ↔
      ∃ node ∈ f.items, ∃ family ∈ node.families, family.child = .token position := by
  rw [tokenPositions, sortedDistinct, Std.TreeSet.mem_toList, Std.TreeSet.mem_ofList,
    List.contains_iff_mem]
  simp only [List.mem_flatMap, List.mem_filterMap, Array.mem_toList_iff]
  refine exists_congr fun node => and_congr_right fun _ => exists_congr fun family =>
    and_congr_right fun _ => ?_
  cases family.child <;> simp

theorem nodup_tokenPositions : f.tokenPositions.Nodup :=
  (Chart.increasing_toList _).imp Nat.ne_of_lt

/-- The nodes that the graph of a forest has. -/
def Draws (f : Forest g α) : DotNode → Prop
  | .symbol id => id < f.symbols.size
  | .item id => id < f.items.size
  | .family id place => place < (f.families id).length
  | .token position =>
    ∃ node ∈ f.items, ∃ family ∈ node.families, family.child = .token position

theorem mem_dotNodes {n : DotNode} : n ∈ f.dotGraph.nodes ↔ f.Draws n := by
  simp only [dotGraph, List.mem_append, List.mem_map, List.mem_range, List.mem_flatMap,
    List.mem_cons, Prod.exists, List.mk_mem_zipIdx_iff_getElem?, mem_tokenPositions]
  cases n with
  | symbol id => simp [Draws]
  | item id => simp [Draws, ← Option.isSome_iff_exists]
  | family id place =>
    rw [Draws, families]
    cases hnode : f.items[id]? with
    | none => simp [hnode]
    | some node => simp [hnode]
  | token position => simp [Draws]

/-- An item and its families are drawn together, each once. -/
theorem nodup_itemNodes (id : ItemId) (count : Nat) :
    (DotNode.item id :: (List.range count).map (.family id)).Nodup := by
  rw [List.nodup_cons]
  constructor
  · simp
  · exact List.nodup_range.map fun _ _ h => (DotNode.family.inj h).2

theorem owner?_of_mem_itemNodes {id : ItemId} {count : Nat} {n : DotNode}
    (h : n ∈ DotNode.item id :: (List.range count).map (.family id)) : n.owner? = some id := by
  rw [List.mem_cons, List.mem_map] at h
  rcases h with rfl | ⟨place, -, rfl⟩ <;> rfl

/-- No node is drawn twice: items are told apart by their numbers, and the families of
one item by their places. -/
theorem nodup_dotNodes : f.dotGraph.nodes.Nodup := by
  have hsymbols : ((List.range f.symbols.size).map DotNode.symbol).Nodup :=
    List.nodup_range.map fun _ _ h => DotNode.symbol.inj h
  have htokens : (f.tokenPositions.map DotNode.token).Nodup :=
    nodup_tokenPositions.map fun _ _ h => DotNode.token.inj h
  have hitems : (f.items.toList.zipIdx.flatMap fun p =>
      DotNode.item p.2 :: (List.range p.1.families.length).map (.family p.2)).Nodup := by
    have hids : f.items.toList.zipIdx.Pairwise fun p q => p.2 ≠ q.2 := by
      rw [← List.pairwise_map, List.zipIdx_map_snd]
      exact List.nodup_range'
    rw [List.nodup_flatMap]
    refine ⟨fun p _ => nodup_itemNodes p.2 _, hids.imp fun hne n hp hq => hne ?_⟩
    exact Option.some.inj ((owner?_of_mem_itemNodes hp).symm.trans (owner?_of_mem_itemNodes hq))
  -- symbols and tokens are of no item
  have howner : ∀ n ∈ f.items.toList.zipIdx.flatMap fun p =>
      DotNode.item p.2 :: (List.range p.1.families.length).map (.family p.2),
      ∃ id, n.owner? = some id := by
    intro n hn
    obtain ⟨p, -, hp⟩ := List.mem_flatMap.mp hn
    exact ⟨p.2, owner?_of_mem_itemNodes hp⟩
  rw [dotGraph, List.nodup_append, List.nodup_append]
  refine ⟨⟨hsymbols, hitems, ?_⟩, htokens, ?_⟩
  · rintro _ hm n hn rfl
    obtain ⟨i, -, rfl⟩ := List.mem_map.mp hm
    obtain ⟨id, hid⟩ := howner _ hn
    cases hid
  · rintro _ hm n hn rfl
    obtain ⟨position, -, rfl⟩ := List.mem_map.mp hn
    rcases List.mem_append.mp hm with hm | hm
    · simp at hm
    · obtain ⟨id, hid⟩ := howner _ hm
      cases hid

/-! ### Edges run between nodes that are drawn -/

theorem mem_dotEdges {e : DotEdge} :
    e ∈ f.dotGraph.edges ↔
      (∃ s id, f.symbols[id]? = some s ∧ e ∈ symbolEdges id s) ∨
        ∃ i id, f.items[id]? = some i ∧ ∃ family place, i.families[place]? = some family ∧
          e ∈ familyEdges id place family := by
  simp only [dotGraph, List.mem_append, List.mem_flatMap, Prod.exists,
    List.mk_mem_zipIdx_iff_getElem?, Array.getElem?_toList]

theorem draws_family {id : ItemId} {node : ItemNode g} (hnode : f.items[id]? = some node)
    {place : Nat} {family : Family} (hfamily : node.families[place]? = some family) :
    f.Draws (.family id place) := by
  rw [Draws, families_eq hnode]
  exact (List.getElem?_eq_some_iff.mp hfamily).1

/-- **Edges.**  Both ends of every edge are drawn, since nodes refer to nodes of the
forest. -/
theorem Packed.ends_drawn {tokens : Tokens α} (h : f.Packed tokens) {e : DotEdge}
    (he : e ∈ f.dotGraph.edges) : f.Draws e.source ∧ f.Draws e.target := by
  rcases mem_dotEdges.mp he with ⟨s, id, hs, he⟩ | ⟨node, id, hnode, family, place, hfamily, he⟩
  · rw [symbolEdges, List.mem_map] at he
    obtain ⟨m, hm, rfl⟩ := he
    have hrefers : f.Refers (.symbol id) (.item m) := (refers_symbol_iff hs).mpr ⟨m, hm, rfl⟩
    exact ⟨lt_size_of_mem_nodes_symbol (mem_nodes_symbol.mpr ⟨s, hs⟩),
      lt_size_of_mem_nodes_item (h.refers_cases hrefers).1⟩
  · have hdrawn := draws_family hnode hfamily
    have hmem := List.mem_of_getElem? hfamily
    have hrefers : ∀ m ∈ family.nodes, m ∈ f.nodes := fun m hm =>
      (h.refers_cases ((refers_item_iff hnode).mpr ⟨family, hmem, hm⟩)).1
    rw [familyEdges, List.mem_cons, List.mem_append, List.mem_map, List.mem_singleton] at he
    rcases he with rfl | ⟨prev, hprev, rfl⟩ | rfl
    · exact ⟨lt_size_of_mem_nodes_item (mem_nodes_item.mpr ⟨node, hnode⟩), hdrawn⟩
    · refine ⟨hdrawn, lt_size_of_mem_nodes_item (hrefers _ ?_)⟩
      exact mem_nodes_family.mpr (.inl ⟨prev, Option.mem_toList.mp hprev, rfl⟩)
    · refine ⟨hdrawn, ?_⟩
      cases hchild : family.child with
      | token position => exact ⟨node, Array.mem_of_getElem? hnode, family, hmem, hchild⟩
      | symbol m =>
        exact lt_size_of_mem_nodes_symbol (hrefers _ (mem_nodes_family.mpr (.inr ⟨m, hchild, rfl⟩)))

/-! ### Faithful pictures -/

/-- A graph shows all of a forest: its nodes are the symbols, the items, the families and
the tokens that families refer to, with identifiers of their own, its edges run between
its nodes, and the alternatives and families can be read off it. -/
structure Pictured (f : Forest g α) (graph : DotGraph) : Prop where
  nodup : graph.nodes.Nodup
  nodup_ids : (graph.nodes.map DotNode.id).Nodup
  ends : ∀ e ∈ graph.edges, e.source ∈ graph.nodes ∧ e.target ∈ graph.nodes
  symbol : ∀ id, .symbol id ∈ graph.nodes ↔ id < f.symbols.size
  item : ∀ id, .item id ∈ graph.nodes ↔ id < f.items.size
  family : ∀ id place, .family id place ∈ graph.nodes ↔ place < (f.families id).length
  token : ∀ position, .token position ∈ graph.nodes ↔
    ∃ node ∈ f.items, ∃ family ∈ node.families, family.child = .token position
  alternatives : ∀ id, graph.alternatives id = f.alternatives id
  families : ∀ id, graph.families id = f.families id

theorem Packed.pictured {tokens : Tokens α} (h : f.Packed tokens) : f.Pictured f.dotGraph where
  nodup := nodup_dotNodes
  nodup_ids := nodup_dotNodes.map DotNode.id_injective
  ends e he := by
    rw [mem_dotNodes, mem_dotNodes]
    exact h.ends_drawn he
  symbol _ := mem_dotNodes
  item _ := mem_dotNodes
  family _ _ := mem_dotNodes
  token _ := mem_dotNodes
  alternatives := alternatives_dotGraph
  families := families_dotGraph

/-- The nodes of two forests refer to the same nodes in the same order. -/
structure LinkedAlike {g' : Grammar} {β : Type} (f : Forest g α) (f' : Forest g' β) : Prop where
  size_symbols : f.symbols.size = f'.symbols.size
  size_items : f.items.size = f'.items.size
  alternatives : ∀ id, f.alternatives id = f'.alternatives id
  families : ∀ id, f.families id = f'.families id

/-- A graph shows one forest only. -/
theorem Pictured.linkedAlike {g' : Grammar} {β : Type} {f' : Forest g' β} {graph : DotGraph}
    (h : f.Pictured graph) (h' : f'.Pictured graph) : f.LinkedAlike f' where
  size_symbols := eq_of_forall_lt_iff fun id => (h.symbol id).symm.trans (h'.symbol id)
  size_items := eq_of_forall_lt_iff fun id => (h.item id).symm.trans (h'.item id)
  alternatives id := (h.alternatives id).symm.trans (h'.alternatives id)
  families id := (h.families id).symm.trans (h'.families id)

end Forest

open Chart

/-- The forest of a chart packs all derivations, whatever number of steps finished it. -/
theorem packed_of_after {g : Grammar} {α : Type} {tokens : Tokens α} {n : Nat} {f : Forest g α}
    (hforest : (after g tokens n).forest? = some f) : f.Packed tokens := by
  have haccepted : (after g tokens n).isAccepted = true := by
    rw [← isSome_forest?, hforest]
    rfl
  rw [← recognize_eq_of_finished (frontier_of_isAccepted haccepted)] at hforest
  exact packed_of_forest? hforest

/-- **The graph of a forest is a faithful picture.**  It shows all of the forest of every
accepted chart, and forests of any two charts that are written alike are linked alike. -/
theorem dot_graph_faithful {g : Grammar} {α : Type} (tokens : Tokens α) (n : Nat)
    (f : Forest g α) (hforest : (after g tokens n).forest? = some f) :
    f.Pictured f.dotGraph ∧
      ∀ {g' : Grammar} {β : Type} (tokens' : Tokens β) (n' : Nat) (f' : Forest g' β),
        (after g' tokens' n').forest? = some f' →
          f.dotGraph.written = f'.dotGraph.written → f.LinkedAlike f' := by
  have hpictured := (packed_of_after hforest).pictured
  refine ⟨hpictured, ?_⟩
  intro g' β tokens' n' f' hforest' hwritten
  have hpictured' := (packed_of_after hforest').pictured
  rw [← DotGraph.written_injective hwritten] at hpictured'
  exact hpictured.linkedAlike hpictured'

/-- The forest of `n + n + n` has six symbols and that of `n + n` three, so they are not
written alike. -/
theorem dot_graph_faithful_sumOfThree :
    ∃ f f', (after Examples.ambiguousSum Examples.sumOfThree 6).forest? = some f ∧
      (after Examples.ambiguousSum (Examples.sumOfThree.take 3) 4).forest? = some f' ∧
      f.Pictured f.dotGraph ∧ f.dotGraph.written ≠ f'.dotGraph.written := by
  have hsize : (after Examples.ambiguousSum Examples.sumOfThree 6).forest?.map
      (·.symbols.size) = some 6 := by decide +kernel
  have hsize' : (after Examples.ambiguousSum (Examples.sumOfThree.take 3) 4).forest?.map
      (·.symbols.size) = some 3 := by decide +kernel
  obtain ⟨f, hforest, hsix⟩ := Option.map_eq_some_iff.mp hsize
  obtain ⟨f', hforest', hthree⟩ := Option.map_eq_some_iff.mp hsize'
  obtain ⟨hpictured, hlinked⟩ := dot_graph_faithful _ _ f hforest
  refine ⟨f, f', hforest, hforest', hpictured, fun hwritten => ?_⟩
  have heq := (hlinked _ _ f' hforest' hwritten).size_symbols
  omega

end ChartParser
