/-
Every node of a forest takes part in a derivation.

Nodes are only made when a node that is being filled asks for them, starting with
the root.  So a property of nodes that the root has, and that what a node asks for
has whenever the node has it, is a property of all nodes; being below the root in
the finished forest is such a property.

* **`Builder.Only.drain`** — filling makes no nodes but those that are asked for;
* **`reaches_of_forest?`** — every node of the forest of an accepted input is below
  its root;
* **`Unfolds`** — choosing an alternative at every symbol and a family at every item
  gives a finite tree;
* **`Packed.unfolds`** — everything that a node stands for is found in this way.
-/
import ChartParser.Proofs.Forest.Derivations

namespace ChartParser

open ChartParser.Tree Relation

variable {g : Grammar} {α : Type} {tokens : Tokens α}

/-! ### What is asked for -/

namespace Builder

/-- All nodes are of a given kind. -/
structure Only (P : SymbolKey → Prop) (Q : ItemKey g → Prop) (b : Builder g) : Prop where
  symbols : ∀ key ∈ b.symbolKeys, P key
  items : ∀ key ∈ b.itemKeys, Q key

/-- A node of a given kind asks only for nodes of that kind when it is filled. -/
structure Asks (c : Chart g α) (leftOut : Array (Thunk (LeftOut g))) (P : SymbolKey → Prop)
    (Q : ItemKey g → Prop) : Prop where
  alternative : ∀ {key : SymbolKey}, P key →
    ∀ item ∈ c.completedItems leftOut key.name key.start key.stop,
      Q ⟨item, key.start, key.stop⟩
  family : ∀ {key : ItemKey g} {prev : Item g} {term : Term}, Q key →
    key.item.retreat? = some prev → key.item.previous? = some term →
    ∀ j ∈ c.splits leftOut ⟨key.item, key.start⟩ key.stop,
      (prev.cursor ≠ 0 → Q ⟨prev, key.start, j⟩) ∧
        (term.kind = .nonterminal → P ⟨term.name, j, key.stop⟩)

variable {P : SymbolKey → Prop} {Q : ItemKey g → Prop} {b : Builder g}

theorem only_empty (P : SymbolKey → Prop) (Q : ItemKey g → Prop) : ({} : Builder g).Only P Q where
  symbols _ hkey := absurd hkey List.not_mem_nil
  items _ hkey := absurd hkey List.not_mem_nil

/-- The keys of the nodes after one was appended. -/
theorem of_mem_map_push {β κ : Type} {key : β → κ} {R : κ → Prop} {nodes : Array β} {new : β}
    (h : ∀ k ∈ nodes.toList.map key, R k) (hnew : R (key new)) :
    ∀ k ∈ (nodes.push new).toList.map key, R k := by
  intro k hk
  rw [Array.toList_push, List.map_append, List.mem_append, List.map_singleton,
    List.mem_singleton] at hk
  rcases hk with hk | rfl
  · exact h k hk
  · exact hnew

theorem Only.requestSymbol (h : b.Only P Q) {key : SymbolKey} (hkey : P key) :
    (b.requestSymbol key).2.Only P Q := by
  unfold Builder.requestSymbol
  split
  · exact h
  · exact ⟨of_mem_map_push h.symbols hkey, h.items⟩

theorem Only.requestItem (h : b.Only P Q) {key : ItemKey g} (hkey : Q key) :
    (b.requestItem key).2.Only P Q := by
  unfold Builder.requestItem
  split
  · exact h
  · exact ⟨h.symbols, of_mem_map_push h.items hkey⟩

theorem Only.requestItems (h : b.Only P Q) {start stop : Nat} {items : List (Item g)}
    (hitems : ∀ item ∈ items, Q ⟨item, start, stop⟩) :
    (b.requestItems start stop items).2.Only P Q := by
  induction items using List.reverseRecOn with
  | nil => exact h
  | append_singleton items item ih =>
    rw [requestItems_concat]
    have hbefore := ih fun i hi => hitems i (List.mem_append_left _ hi)
    exact hbefore.requestItem (hitems item (List.mem_append_right _ List.mem_cons_self))

theorem Only.requestFamily (h : b.Only P Q) {prev : Item g} {term : Term}
    {start stop split : Nat}
    (hparts : (prev.cursor ≠ 0 → Q ⟨prev, start, split⟩) ∧
      (term.kind = .nonterminal → P ⟨term.name, split, stop⟩)) :
    (b.requestFamily prev term start stop split).2.Only P Q := by
  have hbefore : (if prev.cursor = 0 then (none, b)
      else (some (b.requestItem ⟨prev, start, split⟩).1,
        (b.requestItem ⟨prev, start, split⟩).2)).2.Only P Q := by
    split
    · exact h
    · rename_i hcursor
      exact h.requestItem (hparts.1 hcursor)
  unfold Builder.requestFamily
  dsimp only
  split
  · exact hbefore
  · rename_i hkind
    exact hbefore.requestSymbol (hparts.2 hkind)

theorem Only.requestFamilies (h : b.Only P Q) {prev : Item g} {term : Term} {start stop : Nat}
    {splits : List Nat}
    (hparts : ∀ j ∈ splits, (prev.cursor ≠ 0 → Q ⟨prev, start, j⟩) ∧
      (term.kind = .nonterminal → P ⟨term.name, j, stop⟩)) :
    (b.requestFamilies prev term start stop splits).2.Only P Q := by
  induction splits using List.reverseRecOn with
  | nil => exact h
  | append_singleton splits split ih =>
    rw [requestFamilies_concat]
    have hbefore := ih fun j hj => hparts j (List.mem_append_left _ hj)
    exact hbefore.requestFamily (hparts split (List.mem_append_right _ List.mem_cons_self))

variable {c : Chart g α} {leftOut : Array (Thunk (LeftOut g))}

theorem Only.fillSymbol (h : b.Only P Q) (hasks : Asks c leftOut P Q) (id : SymbolId) :
    (b.fillSymbol c leftOut id).Only P Q := by
  unfold Builder.fillSymbol
  split
  · exact h
  · rename_i node hnode
    have hrequest := h.requestItems (hasks.alternative (h.symbols _ (mem_symbolKeys hnode)))
    refine ⟨?_, hrequest.items⟩
    rw [symbolKeys_modify]
    exact hrequest.symbols

theorem Only.fillItem (h : b.Only P Q) (hasks : Asks c leftOut P Q) (id : ItemId) :
    (b.fillItem c leftOut id).Only P Q := by
  unfold Builder.fillItem
  split
  · exact h
  · rename_i node hnode
    have hkey := h.items _ (mem_itemKeys hnode)
    split
    · rename_i prev term hretreat hprevious
      have hrequest := h.requestFamilies (hasks.family hkey hretreat hprevious)
      refine ⟨hrequest.symbols, ?_⟩
      rw [itemKeys_modify]
      exact hrequest.items
    · exact h

/-- **What is asked for is all there is.**  Taking a node from a stack changes no
node, and filling one keeps to what it asks for. -/
theorem Only.drain (h : b.Only P Q) (hasks : Asks c leftOut P Q) (fuel : Nat) :
    (b.drain c leftOut fuel).Only P Q := by
  induction fuel generalizing b with
  | zero => exact h
  | succ fuel ih =>
    rw [Builder.drain]
    split
    · rename_i id rest _
      have htaken : ({ b with pendingSymbols := rest } : Builder g).Only P Q := ⟨h.symbols, h.items⟩
      exact ih (htaken.fillSymbol hasks id)
    · split
      · rename_i id rest _
        have htaken : ({ b with pendingItems := rest } : Builder g).Only P Q := ⟨h.symbols, h.items⟩
        exact ih (htaken.fillItem hasks id)
      · exact h

end Builder

/-! ### Nodes below the root -/

namespace Forest

variable {f : Forest g α}

/-- A node is below the root. -/
def Reaches (f : Forest g α) (n : Node) : Prop := ReflTransGen f.Refers (.symbol f.root) n

/-- The node of a nonterminal over a span is below the root. -/
def ReachesSymbol (f : Forest g α) (key : SymbolKey) : Prop :=
  ∃ id, f.symbolKeys[id]? = some key ∧ f.Reaches (.symbol id)

/-- The node of an item over a span is below the root. -/
def ReachesItem (f : Forest g α) (key : ItemKey g) : Prop :=
  ∃ id, f.itemKeys[id]? = some key ∧ f.Reaches (.item id)

/-- An item has a family for every link. -/
theorem Packed.exists_family (h : f.Packed tokens) {id : ItemId} {node : ItemNode g}
    (hnode : f.items[id]? = some node) {prev : Item g} {term : Term}
    (hretreat : node.item.retreat? = some prev) (hprevious : node.item.previous? = some term)
    {j : Nat} (hj : Linked tokens ⟨node.item, node.start⟩ node.stop j) :
    ∃ family ∈ node.families,
      family.SplitsAt f.symbolKeys f.itemKeys prev term node.start node.stop j := by
  rcases (h.item hnode).2 with ⟨hcursor, -⟩ |
    ⟨prev', term', cuts, hadvance, hnext, hfamilies, -, hmem, hcuts⟩
  · rw [Item.retreat?, if_pos hcursor] at hretreat
    contradiction
  · obtain rfl := Option.some.inj (hretreat.symm.trans (Item.retreat?_of_advance? hadvance))
    rw [Item.previous?_of_advance? hadvance, hnext] at hprevious
    obtain rfl := Option.some.inj hprevious
    obtain ⟨cut, hcut, rfl⟩ := List.mem_map.mp ((hmem j).mpr hj)
    refine ⟨cut.2, ?_, hcuts cut hcut⟩
    rw [hfamilies]
    exact List.mem_map_of_mem hcut

/-- Among nodes with different keys, a key belongs to one node. -/
theorem eq_of_getElem?_map {β κ : Type} {key : β → κ} {nodes : Array β}
    (hnodup : (nodes.toList.map key).Nodup) {i j : Nat} {node : β} (hnode : nodes[i]? = some node)
    (hkey : (nodes.toList.map key)[j]? = some (key node)) : i = j := by
  have hi : (nodes.toList.map key)[i]? = some (key node) := by
    rw [List.getElem?_map, Array.getElem?_toList, hnode, Option.map_some]
  have hlt := (List.getElem?_eq_some_iff.mp hi).1
  exact (List.getElem?_inj hlt hnodup).mp (hi.trans hkey.symm)

/-- Being below the root is passed on to everything a node asks for. -/
theorem Packed.asks (h : f.Packed tokens) {c : Chart g α} {leftOut : Array (Thunk (LeftOut g))}
    (hc : c.Supplies tokens leftOut) :
    Builder.Asks c leftOut f.ReachesSymbol f.ReachesItem where
  alternative := by
    rintro key ⟨id, hkey, hreaches⟩ item hitem
    obtain ⟨node, hnode, rfl⟩ := exists_symbol_of_key hkey
    obtain ⟨hcharted, hcomplete, hhead⟩ := hc.mem_completedItems.mp hitem
    obtain ⟨m, hm, hinner⟩ := (h.symbol hnode).2.complete item hcharted hcomplete hhead
    exact ⟨m, hinner, hreaches.tail ((refers_symbol_iff hnode).mpr ⟨m, hm, rfl⟩)⟩
  family := by
    rintro key prev term ⟨id, hkey, hreaches⟩ hretreat hprevious j hj
    obtain ⟨node, hnode, rfl⟩ := exists_item_of_key hkey
    obtain ⟨family, hfamily, hsplits⟩ :=
      h.exists_family hnode hretreat hprevious (hc.mem_splits.mp hj)
    have hbelow : ∀ n ∈ family.nodes, f.Reaches n := fun n hn =>
      hreaches.tail ((refers_item_iff hnode).mpr ⟨family, hfamily, hn⟩)
    constructor
    · intro hcursor
      rcases hsplits.prev with ⟨hzero, -⟩ | ⟨m, hprev, hinner⟩
      · exact absurd hzero hcursor
      · exact ⟨m, hinner, hbelow _ (mem_nodes_family.mpr (.inl ⟨m, hprev, rfl⟩))⟩
    · intro hkind
      rcases hsplits.child with ⟨hterminal, -⟩ | ⟨-, m, hchild, hinner⟩
      · rw [hkind] at hterminal
        contradiction
      · exact ⟨m, hinner, hbelow _ (mem_nodes_family.mpr (.inr ⟨m, hchild, rfl⟩))⟩

/-- **Every node is below the root.**  The nodes below the root of the finished forest
ask only for each other, so no others were ever made, and a node over a span is there
only once. -/
theorem reaches_of_forest? (hforest : (recognize g tokens).forest? = some f) {n : Node}
    (hn : n ∈ f.nodes) : f.Reaches n := by
  have h := packed_of_forest? hforest
  have hasks := h.asks (supplies_recognize g tokens)
  obtain ⟨s, hs, hroot⟩ := h.root
  rw [Chart.forest?, hs] at hforest
  simp only [(regular_recognize g tokens).tokens_eq] at hforest
  split at hforest
  · have hstart := (Builder.only_empty f.ReachesSymbol f.ReachesItem).requestSymbol
      ⟨f.root, hroot, .refl⟩
    have honly := hstart.drain hasks (recognize g tokens).nodeBound
    obtain rfl := Option.some.inj hforest
    cases n with
    | symbol id =>
      obtain ⟨node, hnode⟩ := mem_nodes_symbol.mp hn
      obtain ⟨m, hkey, hreaches⟩ := honly.symbols _ (Builder.mem_symbolKeys hnode)
      have heq := eq_of_getElem?_map h.nodup_symbolKeys hnode hkey
      exact heq ▸ hreaches
    | item id =>
      obtain ⟨node, hnode⟩ := mem_nodes_item.mp hn
      obtain ⟨m, hkey, hreaches⟩ := honly.items _ (Builder.mem_itemKeys hnode)
      have heq := eq_of_getElem?_map h.nodup_itemKeys hnode hkey
      exact heq ▸ hreaches
  · contradiction

/-! ### Finite derivations -/

/-- `f.Unfolds n ts`: choosing an alternative at every symbol and a family at every
item, the node `n` gives the trees `ts` after finitely many choices. -/
inductive Unfolds (f : Forest g α) : Node → List (Tree g α) → Prop where
  | symbol {id : SymbolId} {node : SymbolNode} {m : ItemId} {inner : ItemNode g}
      {children : List (Tree g α)} (found : f.symbols[id]? = some node)
      (chosen : m ∈ node.alternatives) (alternative : f.items[m]? = some inner)
      (unfolds : Unfolds f (.item m) children) :
      Unfolds f (.symbol id) [.branch inner.item.expr inner.start inner.stop children]
  | start {id : ItemId} {node : ItemNode g} (found : f.items[id]? = some node)
      (families : node.families = []) : Unfolds f (.item id) []
  | family {id : ItemId} {node : ItemNode g} {family : Family} {xs zs : List (Tree g α)}
      (found : f.items[id]? = some node) (chosen : family ∈ node.families)
      (first : family.prev = none → xs = [])
      (prev : ∀ m, family.prev = some m → Unfolds f (.item m) xs)
      (token : ∀ position, family.child = .token position →
        ∃ token, f.tokens[position]? = some token ∧ zs = [.leaf position token])
      (child : ∀ m, family.child = .symbol m → Unfolds f (.symbol m) zs) :
      Unfolds f (.item id) (xs ++ zs)

/-- **Everything unfolds.**  The parts of what a node stands for are smaller, so the
choices come to an end, even if the node is below itself. -/
theorem Packed.unfolds (h : f.Packed tokens) {n : Node} {ts : List (Tree g α)}
    (hts : ts ∈ f.meaning tokens n) : f.Unfolds n ts := by
  induction hw : weight n ts using Nat.strong_induction_on generalizing n ts with
  | _ w ih =>
    subst hw
    cases n with
    | symbol id =>
      obtain ⟨node, hnode⟩ := mem_nodes_symbol.mp (mem_nodes_of_nonempty ⟨ts, hts⟩)
      obtain ⟨m, hm, inner, hinner, children, hchildren, rfl⟩ := (h.mem_meaning_symbol hnode).mp hts
      refine .symbol hnode hm hinner (ih _ ?_ hchildren rfl)
      rw [weight, weight, numNodesAll, numNodesAll, numNodes]
      omega
    | item id =>
      obtain ⟨node, hnode⟩ := mem_nodes_item.mp (mem_nodes_of_nonempty ⟨ts, hts⟩)
      rcases h.mem_meaning_item hnode with ⟨hnil, hmem⟩ |
        ⟨cuts, -, hfamilies, -, hcuts, hmem⟩
      · obtain rfl := (hmem ts).mp hts
        exact .start hnode hnil
      · obtain ⟨cut, hcut, xs, hxs, zs, hzs, rfl⟩ := (hmem ts).mp hts
        obtain ⟨z, rfl, -⟩ := (hcuts cut hcut).start_eq zs hzs
        have hpos := numNodes_pos z
        rw [weight, numNodesAll_append, numNodesAll, numNodesAll] at ih
        refine .family hnode (hfamilies ▸ List.mem_map_of_mem hcut) ?_ ?_ ?_ ?_
        · intro hprev
          rwa [firsts, hprev] at hxs
        · intro m hprev
          rw [firsts, hprev] at hxs
          refine ih _ ?_ hxs rfl
          rw [weight]
          omega
        · intro position hchild
          rw [lasts, hchild] at hzs
          rw [h.tokens_eq]
          exact hzs
        · intro m hchild
          rw [lasts, hchild] at hzs
          refine ih _ ?_ hzs rfl
          rw [weight, numNodesAll, numNodesAll]
          omega

end Forest

end ChartParser
