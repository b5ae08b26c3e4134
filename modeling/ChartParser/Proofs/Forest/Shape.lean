/-
The shape of a forest.

A forest is a graph that shares as much as possible and holds nothing beside the
derivations of its input.

* **`FamilyShape`**, **`SymbolShape`** and **`ItemShape`** — what a node refers to:
  each reference is to the node that its name or item, and its span, ask for;
* **`WellFormed`** — nodes are told apart by what they derive, each has its shape,
  is below the root and has a finite derivation;
* **`forest_wellFormed`** — the forest of every accepted chart is well-formed.
-/
import ChartParser.Proofs.Forest.Reachability

namespace ChartParser

variable {g : Grammar} {α : Type} {tokens : Tokens α}

namespace Forest

variable {f : Forest g α}

/-- The alternatives of a symbol are different complete items of its nonterminal, all
over its span. -/
structure SymbolShape (f : Forest g α) (node : SymbolNode) : Prop where
  nodup : node.alternatives.Nodup
  alternative : ∀ m ∈ node.alternatives, ∃ inner, f.items[m]? = some inner ∧
    inner.item.isComplete = true ∧ inner.item.head = node.name ∧
    inner.start = node.start ∧ inner.stop = node.stop

/-- What stands before the split of a family: nothing if only one term is matched, and
else the item with one term fewer, up to the split. -/
def PrevShape (f : Forest g α) (node : ItemNode g) (split : Nat) : Option ItemId → Prop
  | none => node.item.cursor = 1 ∧ split = node.start
  | some m => node.item.cursor ≠ 1 ∧ ∃ before, f.items[m]? = some before ∧
      before.item.expr = node.item.expr ∧ before.item.cursor + 1 = node.item.cursor ∧
      before.start = node.start ∧ before.stop = split

/-- What stands behind the split of a family: the token that a terminal matches, or the
symbol of a nonterminal, up to the end. -/
def ChildShape (tokens : Tokens α) (f : Forest g α) (term : Term) (split stop : Nat) : Child → Prop
  | .token position => term.kind = .terminal ∧ position = split ∧ split + 1 = stop ∧
      tokens.nameAt? split = some term.name
  | .symbol m => term.kind = .nonterminal ∧ ∃ inner, f.symbols[m]? = some inner ∧
      inner.name = term.name ∧ inner.start = split ∧ inner.stop = stop

/-- A family cuts the span of an item in two, before the last matched term. -/
structure FamilyShape (tokens : Tokens α) (f : Forest g α) (node : ItemNode g) (split : Nat)
    (family : Family) : Prop where
  prev : f.PrevShape node split family.prev
  child : ∃ term, node.item.previous? = some term ∧
    f.ChildShape tokens term split node.stop family.child

/-- An item that has matched something has families, for different splits in increasing
order.  An item that has matched nothing has none, and there is nothing to match. -/
structure ItemShape (tokens : Tokens α) (f : Forest g α) (node : ItemNode g) : Prop where
  families : 1 ≤ node.item.cursor → node.families ≠ [] ∧
    ∃ splits : List Nat, splits.Pairwise (· < ·) ∧
      List.Forall₂ (f.FamilyShape tokens node) splits node.families
  start : node.item.cursor = 0 → node.families = [] ∧ node.item.terms = []

/-- A forest that shares as much as possible and in which everything belongs to a
derivation of the input. -/
structure WellFormed (tokens : Tokens α) (f : Forest g α) : Prop where
  tokens_eq : f.tokens = tokens
  symbols_differ : f.symbolKeys.Nodup
  items_differ : f.itemKeys.Nodup
  root : ∃ node, f.symbols[f.root]? = some node ∧ g.start = some node.name ∧ node.start = 0 ∧
    node.stop = tokens.size
  symbol : ∀ {id : SymbolId} {node : SymbolNode}, f.symbols[id]? = some node → f.SymbolShape node
  item : ∀ {id : ItemId} {node : ItemNode g}, f.items[id]? = some node → f.ItemShape tokens node
  reaches : ∀ n ∈ f.nodes, f.Reaches n
  unfolds : ∀ n ∈ f.nodes, ∃ ts, f.Unfolds n ts

theorem Packed.symbolShape (h : f.Packed tokens) {id : SymbolId} {node : SymbolNode}
    (hnode : f.symbols[id]? = some node) : f.SymbolShape node where
  nodup := (h.symbol hnode).2.nodup
  alternative m hm := by
    obtain ⟨item, hkey, hcomplete, hhead⟩ := (h.symbol hnode).2.sound m hm
    obtain ⟨inner, hinner, heq⟩ := exists_item_of_key hkey
    obtain ⟨rfl, hstart, hstop⟩ := ItemKey.mk.inj heq
    exact ⟨inner, hinner, hcomplete, hhead, hstart, hstop⟩

theorem Packed.prevShape (h : f.Packed tokens) {node : ItemNode g} {prev : Item g} {split : Nat}
    (hadvance : prev.advance? = some node.item)
    (hcharted : Charted tokens ⟨prev, node.start⟩ split) {previous : Option ItemId}
    (hprevious : prev.cursor = 0 ∧ previous = none ∨
      ∃ m, previous = some m ∧ f.itemKeys[m]? = some ⟨prev, node.start, split⟩) :
    f.PrevShape node split previous := by
  obtain ⟨hlt, hexpr, hcursor⟩ := Item.advance?_eq_some_iff.mp hadvance
  rcases hprevious with ⟨hzero, rfl⟩ | ⟨m, rfl, hkey⟩
  · refine ⟨?_, (hcharted.origin_eq_of_cursor_eq_zero hzero).symm⟩
    rw [hcursor, hzero]
  · obtain ⟨before, hbefore, heq⟩ := exists_item_of_key hkey
    obtain ⟨rfl, hstart, hstop⟩ := ItemKey.mk.inj heq
    refine ⟨fun hone => ?_, before, hbefore, hexpr.symm, hcursor.symm, hstart, hstop⟩
    -- at the start of an expression only an item with nothing to match has a node
    have hcomplete : before.item.cursor = before.item.terms.length :=
      Item.isComplete_iff.mp ((h.item hbefore).1.complete (show before.item.cursor = 0 by omega))
    omega

/-- A link gives a family its shape. -/
theorem Packed.familyShape (h : f.Packed tokens) {node : ItemNode g} {prev : Item g} {term : Term}
    (hadvance : prev.advance? = some node.item) (hnext : prev.next? = some term) {split : Nat}
    (hlinked : Linked tokens ⟨node.item, node.start⟩ node.stop split) {family : Family}
    (hsplits : family.SplitsAt f.symbolKeys f.itemKeys prev term node.start node.stop split) :
    f.FamilyShape tokens node split family := by
  obtain ⟨hcharted, hterm⟩ := (linked_iff hadvance hnext).mp hlinked
  refine ⟨h.prevShape hadvance hcharted hsplits.prev, term, ?_, ?_⟩
  · rw [Item.previous?_of_advance? hadvance, hnext]
  · rcases hsplits.child with ⟨hkind, hchild⟩ | ⟨hkind, m, hchild, hkey⟩
    · rw [hchild]
      rcases hterm with ⟨-, hname, hstop⟩ | ⟨hkind', -⟩
      · exact ⟨hkind, rfl, hstop.symm, hname⟩
      · rw [hkind] at hkind'
        contradiction
    · rw [hchild]
      obtain ⟨inner, hinner, heq⟩ := exists_symbol_of_key hkey
      obtain ⟨hname, hstart, hstop⟩ := SymbolKey.mk.inj heq
      exact ⟨hkind, inner, hinner, hname, hstart, hstop⟩

theorem Packed.itemShape (h : f.Packed tokens) {id : ItemId} {node : ItemNode g}
    (hnode : f.items[id]? = some node) : f.ItemShape tokens node := by
  obtain ⟨hgenuine, hfilled⟩ := h.item hnode
  rcases hfilled with ⟨hcursor, hfamilies⟩ |
    ⟨prev, term, cuts, hadvance, hnext, hfamilies, hsorted, hmem, hcuts⟩
  · refine ⟨fun hpos => ?_, fun _ => ⟨hfamilies, ?_⟩⟩
    · omega
    · have hcomplete : node.item.cursor = node.item.terms.length :=
        Item.isComplete_iff.mp (hgenuine.complete hcursor)
      rw [hcursor] at hcomplete
      exact List.eq_nil_of_length_eq_zero hcomplete.symm
  · obtain ⟨-, -, hcursor⟩ := Item.advance?_eq_some_iff.mp hadvance
    refine ⟨fun _ => ⟨?_, cuts.map (·.1), hsorted, ?_⟩, fun hzero => ?_⟩
    · have hcharted : Charted tokens ⟨node.item, node.start⟩ node.stop := hgenuine.charted
      obtain ⟨j, hj⟩ := hcharted.exists_linked (show node.item.cursor ≠ 0 by omega)
      obtain ⟨cut, hcut, -⟩ := List.mem_map.mp ((hmem j).mpr hj)
      rw [hfamilies]
      exact List.ne_nil_of_mem (List.mem_map_of_mem hcut)
    · rw [hfamilies, List.forall₂_map_left_iff, List.forall₂_map_right_iff, List.forall₂_same]
      intro cut hcut
      have hlinked := (hmem cut.1).mp (List.mem_map_of_mem hcut)
      exact h.familyShape hadvance hnext hlinked (hcuts cut hcut)
    · omega

end Forest

open Chart

/-- **The forest of an accepted chart is well-formed.**  A chart that accepts is
finished, so it has all that the rules of a chart give, and its forest packs that. -/
theorem forest_wellFormed (g : Grammar) (tokens : Tokens α) (n : Nat)
    (haccepted : (after g tokens n).isAccepted = true) :
    ∃ f, (after g tokens n).forest? = some f ∧ f.WellFormed tokens := by
  obtain ⟨f, hforest⟩ : ∃ f, (after g tokens n).forest? = some f := by
    rw [← Option.isSome_iff_exists, isSome_forest?]
    exact haccepted
  refine ⟨f, hforest, ?_⟩
  rw [← recognize_eq_of_finished (frontier_of_isAccepted haccepted)] at hforest
  have h := packed_of_forest? hforest
  refine ⟨h.tokens_eq, h.nodup_symbolKeys, h.nodup_itemKeys, ?_, h.symbolShape, h.itemShape,
    fun n hn => Forest.reaches_of_forest? hforest hn, fun n hn => ?_⟩
  · obtain ⟨s, hs, hkey⟩ := h.root
    obtain ⟨node, hnode, heq⟩ := Forest.exists_symbol_of_key hkey
    obtain ⟨rfl, hstart, hstop⟩ := SymbolKey.mk.inj heq
    exact ⟨node, hnode, hs, hstart, hstop⟩
  · obtain ⟨ts, hts⟩ := h.nonempty hn
    exact ⟨ts, h.unfolds hts⟩

/-- The forest of `n + n + n` has a node for each of the six sums in it. -/
theorem forest_wellFormed_sumOfThree :
    (after Examples.ambiguousSum Examples.sumOfThree 6).isAccepted = true ∧
      ∃ f, (after Examples.ambiguousSum Examples.sumOfThree 6).forest? = some f ∧
        f.symbols.size = 6 ∧ f.WellFormed Examples.sumOfThree := by
  have haccepted : (after Examples.ambiguousSum Examples.sumOfThree 6).isAccepted = true := by
    decide +kernel
  have hsize : (after Examples.ambiguousSum Examples.sumOfThree 6).forest?.map (·.symbols.size) =
      some 6 := by decide +kernel
  obtain ⟨f, hforest, hwellFormed⟩ := forest_wellFormed _ _ _ haccepted
  rw [hforest] at hsize
  exact ⟨haccepted, f, hforest, Option.some.inj hsize, hwellFormed⟩

end ChartParser
