/-
What the nodes of a forest stand for.

A node stands for the sequences of trees that match its terms over its span: one
tree for a symbol, a tree for each matched term for an item.

* **`Packed.mem_meaning_symbol`** and **`Packed.mem_meaning_item`** — what a node
  stands for, in terms of the nodes it refers to.  Nothing is lost and nothing is
  added, because alternatives are all complete states and families are all links;
* **`Packed.encard_le`** — a node stands for at least as much as any node below
  it, because every node has trees that fill in the rest;
* **`Packed.infinite_of_cycle`** — a node that is below itself stands for
  infinitely many trees, since each of them is part of a larger one.
-/
import ChartParser.Proofs.Forest.Builder
import Mathlib.Data.Set.Card
import Mathlib.Data.Set.Finite.Lemmas
import Mathlib.Logic.Relation

namespace ChartParser

open ChartParser.Tree

variable {g : Grammar} {α : Type} {tokens : Tokens α}

/-- Only the kind and the name of a term matter to its trees. -/
theorem Tree.spans_nonterminal_congr {t : Term} {zs : List (Tree g α)} {i k : Nat}
    (kind : t.kind = .nonterminal) :
    Spans tokens [t] zs i k ↔ Spans tokens [.nonterminal t.name] zs i k := by
  rw [spans_nonterminal_iff kind, spans_nonterminal_iff (t := .nonterminal t.name) rfl]
  rfl

namespace Forest

variable {f : Forest g α}

/-- What a node stands for. -/
def meaning (tokens : Tokens α) (f : Forest g α) : Node → Set (List (Tree g α))
  | .symbol id =>
    {ts | ∃ node, f.symbols[id]? = some node ∧
      Spans tokens [.nonterminal node.name] ts node.start node.stop}
  | .item id =>
    {ts | ∃ node, f.items[id]? = some node ∧
      Spans tokens node.item.matched ts node.start node.stop}

/-- What the earlier terms of a family stand for. -/
def firsts (tokens : Tokens α) (f : Forest g α) (family : Family) : Set (List (Tree g α)) :=
  match family.prev with
  | none => {[]}
  | some id => f.meaning tokens (.item id)

/-- What the last term of a family stands for. -/
def lasts (tokens : Tokens α) (f : Forest g α) (family : Family) : Set (List (Tree g α)) :=
  match family.child with
  | .token position => {ts | ∃ token, tokens[position]? = some token ∧ ts = [.leaf position token]}
  | .symbol id => f.meaning tokens (.symbol id)

theorem mem_meaning_symbol_iff {id : SymbolId} {node : SymbolNode}
    (hnode : f.symbols[id]? = some node) {ts : List (Tree g α)} :
    ts ∈ f.meaning tokens (.symbol id) ↔
      Spans tokens [.nonterminal node.name] ts node.start node.stop := by
  simp only [meaning, Set.mem_ofPred_eq, hnode, Option.some.injEq, exists_eq_left']

theorem mem_meaning_item_iff {id : ItemId} {node : ItemNode g}
    (hnode : f.items[id]? = some node) {ts : List (Tree g α)} :
    ts ∈ f.meaning tokens (.item id) ↔
      Spans tokens node.item.matched ts node.start node.stop := by
  simp only [meaning, Set.mem_ofPred_eq, hnode, Option.some.injEq, exists_eq_left']

theorem exists_symbol_of_key {id : SymbolId} {key : SymbolKey}
    (h : f.symbolKeys[id]? = some key) : ∃ node, f.symbols[id]? = some node ∧ node.key = key := by
  rw [symbolKeys, List.getElem?_map, Array.getElem?_toList, Option.map_eq_some_iff] at h
  exact h

theorem exists_item_of_key {id : ItemId} {key : ItemKey g}
    (h : f.itemKeys[id]? = some key) : ∃ node, f.items[id]? = some node ∧ node.key = key := by
  rw [itemKeys, List.getElem?_map, Array.getElem?_toList, Option.map_eq_some_iff] at h
  exact h

/-- A symbol node of a key stands for the trees of that key. -/
theorem mem_meaning_of_symbolKey {id : SymbolId} {key : SymbolKey}
    (h : f.symbolKeys[id]? = some key) {ts : List (Tree g α)} :
    ts ∈ f.meaning tokens (.symbol id) ↔
      Spans tokens [.nonterminal key.name] ts key.start key.stop := by
  obtain ⟨node, hnode, rfl⟩ := exists_symbol_of_key h
  exact mem_meaning_symbol_iff hnode

theorem mem_meaning_of_itemKey {id : ItemId} {key : ItemKey g}
    (h : f.itemKeys[id]? = some key) {ts : List (Tree g α)} :
    ts ∈ f.meaning tokens (.item id) ↔ Spans tokens key.item.matched ts key.start key.stop := by
  obtain ⟨node, hnode, rfl⟩ := exists_item_of_key h
  exact mem_meaning_item_iff hnode

/-! ### What a node stands for, in terms of the nodes it refers to -/

/-- **Symbols.**  A tree of a symbol is a branch with the children of one of its
alternatives. -/
theorem Packed.mem_meaning_symbol (h : f.Packed tokens) {id : SymbolId} {node : SymbolNode}
    (hnode : f.symbols[id]? = some node) {ts : List (Tree g α)} :
    ts ∈ f.meaning tokens (.symbol id) ↔
      ∃ m ∈ node.alternatives, ∃ inner, f.items[m]? = some inner ∧
        ∃ children ∈ f.meaning tokens (.item m),
          ts = [.branch inner.item.expr inner.start inner.stop children] := by
  obtain ⟨hgenuine, hfilled⟩ := h.symbol hnode
  rw [mem_meaning_symbol_iff hnode, spans_nonterminal_iff rfl]
  constructor
  · rintro ⟨e, children, hhead, hchildren, rfl⟩
    -- the expression is predicted here, so it is charted as complete
    have hcharted := (hgenuine.predicted e hhead).atEnd hchildren
    obtain ⟨m, hm, hkey⟩ := hfilled.complete _ hcharted (Item.isComplete_atEnd e) hhead
    obtain ⟨inner, hinner, heq⟩ := exists_item_of_key hkey
    obtain ⟨hitem, hstart, hstop⟩ := ItemKey.mk.inj heq
    refine ⟨m, hm, inner, hinner, children, (mem_meaning_of_itemKey hkey).mpr ?_, ?_⟩
    · rw [Item.matched_of_isComplete (Item.isComplete_atEnd e)]
      exact hchildren
    · rw [hitem, hstart, hstop]
      rfl
  · rintro ⟨m, hm, inner, hinner, children, hchildren, rfl⟩
    obtain ⟨item, hkey, hcomplete, hhead⟩ := hfilled.sound m hm
    obtain ⟨inner', hinner', heq⟩ := exists_item_of_key hkey
    obtain rfl := Option.some.inj (hinner.symm.trans hinner')
    obtain ⟨rfl, hstart, hstop⟩ := ItemKey.mk.inj heq
    rw [mem_meaning_item_iff hinner, hstart, hstop, Item.matched_of_isComplete hcomplete]
      at hchildren
    refine ⟨inner.item.expr, children, hhead, hchildren, ?_⟩
    rw [hstart, hstop]

/-- Different alternatives are different expressions. -/
theorem Packed.eq_of_alternatives (h : f.Packed tokens) {id : SymbolId} {node : SymbolNode}
    (hnode : f.symbols[id]? = some node) {m m' : ItemId} (hm : m ∈ node.alternatives)
    (hm' : m' ∈ node.alternatives) {inner inner' : ItemNode g} (hinner : f.items[m]? = some inner)
    (hinner' : f.items[m']? = some inner') (heq : inner.item.expr = inner'.item.expr) :
    m = m' := by
  obtain ⟨-, hfilled⟩ := h.symbol hnode
  obtain ⟨item, hkey, hcomplete, -⟩ := hfilled.sound m hm
  obtain ⟨item', hkey', hcomplete', -⟩ := hfilled.sound m' hm'
  obtain ⟨_, hfound, hsame⟩ := exists_item_of_key hkey
  obtain ⟨_, hfound', hsame'⟩ := exists_item_of_key hkey'
  obtain rfl := Option.some.inj (hinner.symm.trans hfound)
  obtain rfl := Option.some.inj (hinner'.symm.trans hfound')
  obtain ⟨rfl, -, -⟩ := ItemKey.mk.inj hsame
  obtain ⟨rfl, -, -⟩ := ItemKey.mk.inj hsame'
  -- complete items of one expression are the same, and an item over a span has one node
  have hitem : inner.item = inner'.item := by
    rw [Item.eq_atEnd_of_isComplete hcomplete, Item.eq_atEnd_of_isComplete hcomplete', heq]
  rw [← hitem] at hkey'
  have hlt := (List.getElem?_eq_some_iff.mp hkey).1
  exact (List.getElem?_inj hlt h.nodup_itemKeys).mp (hkey.trans hkey'.symm)

/-- A split of an item: what the parts of its family stand for. -/
theorem parts_of_splitsAt {prev item : Item g} {term : Term}
    {start stop j : Nat} {family : Family} (hadvance : prev.advance? = some item)
    (hnext : prev.next? = some term) (hlinked : Linked tokens ⟨item, start⟩ stop j)
    (hsplits : family.SplitsAt f.symbolKeys f.itemKeys prev term start stop j) :
    (∀ xs, xs ∈ f.firsts tokens family ↔ Spans tokens prev.matched xs start j) ∧
      ∀ zs, zs ∈ f.lasts tokens family ↔ Spans tokens [term] zs j stop := by
  obtain ⟨hcharted, hterm⟩ := (linked_iff hadvance hnext).mp hlinked
  constructor
  · intro xs
    rw [firsts]
    rcases hsplits.prev with ⟨hcursor, hprev⟩ | ⟨id, hprev, hkey⟩
    · rw [hprev, hcharted.spans_iff_of_cursor_eq_zero hcursor, Set.mem_singleton_iff]
    · rw [hprev]
      exact mem_meaning_of_itemKey hkey
  · intro zs
    rw [lasts]
    rcases hsplits.child with ⟨hkind, hchild⟩ | ⟨hkind, id, hchild, hkey⟩
    · rcases hterm with ⟨-, htoken, rfl⟩ | ⟨hkind', -⟩
      · obtain ⟨token, htoken, hname⟩ := Tokens.nameAt?_eq_some_iff.mp htoken
        rw [hchild, spans_terminal_iff hkind]
        simp only [htoken, Set.mem_ofPred_eq, Option.some.injEq, exists_eq_left', hname, true_and,
          and_true]
      · rw [hkind] at hkind'
        contradiction
    · rw [hchild, spans_nonterminal_congr hkind]
      exact mem_meaning_of_symbolKey hkey

/-- What is known of the families of an item that has matched something. -/
structure Cut (tokens : Tokens α) (f : Forest g α) (cut : Nat × Family) : Prop where
  nonempty_firsts : (f.firsts tokens cut.2).Nonempty
  nonempty_lasts : (f.lasts tokens cut.2).Nonempty
  start_eq : ∀ zs ∈ f.lasts tokens cut.2, ∃ z, zs = [z] ∧ z.start = cut.1

/-- **Items.**  An item at the start of its expression stands for the empty
sequence.  Any other item stands for what its families stand for, which are told
apart by where the last tree starts. -/
theorem Packed.mem_meaning_item (h : f.Packed tokens) {id : ItemId} {node : ItemNode g}
    (hnode : f.items[id]? = some node) :
    (node.families = [] ∧ ∀ ts, ts ∈ f.meaning tokens (.item id) ↔ ts = []) ∨
      ∃ cuts : List (Nat × Family), cuts ≠ [] ∧ node.families = cuts.map (·.2) ∧
        (cuts.map (·.1)).Nodup ∧ (∀ cut ∈ cuts, f.Cut tokens cut) ∧
        ∀ ts, ts ∈ f.meaning tokens (.item id) ↔
          ∃ cut ∈ cuts, ∃ xs ∈ f.firsts tokens cut.2, ∃ zs ∈ f.lasts tokens cut.2,
            ts = xs ++ zs := by
  obtain ⟨hgenuine, hfilled⟩ := h.item hnode
  have hcharted : Charted tokens ⟨node.item, node.start⟩ node.stop := hgenuine.charted
  simp only [mem_meaning_item_iff hnode]
  rcases hfilled with ⟨hcursor, hfamilies⟩ |
    ⟨prev, term, cuts, hadvance, hnext, hfamilies, hsorted, hmem, hcuts⟩
  · left
    exact ⟨hfamilies, fun ts => hcharted.spans_iff_of_cursor_eq_zero hcursor⟩
  · right
    have hmatched : node.item.matched = prev.matched ++ [term] :=
      Item.matched_of_advance? hadvance hnext
    have hlinked : ∀ cut ∈ cuts, Linked tokens ⟨node.item, node.start⟩ node.stop cut.1 :=
      fun cut hcut => (hmem cut.1).mp (List.mem_map_of_mem hcut)
    have hparts := fun cut hcut =>
      parts_of_splitsAt hadvance hnext (hlinked cut hcut) (hcuts cut hcut)
    have hspans : ∀ ts, Spans tokens node.item.matched ts node.start node.stop ↔
        ∃ cut ∈ cuts, ∃ xs ∈ f.firsts tokens cut.2, ∃ zs ∈ f.lasts tokens cut.2,
          ts = xs ++ zs := by
      intro ts
      rw [hmatched, spans_snoc_iff]
      constructor
      · -- where the last tree starts there is a link, and so a family
        rintro ⟨xs, z, j, rfl, hxs, hz⟩
        have hkey : (⟨prev, node.start⟩ : Key g).advance? = some ⟨node.item, node.start⟩ :=
          Key.advance?_eq_some_iff.mpr ⟨hadvance, rfl⟩
        have hj : j ∈ cuts.map (·.1) :=
          (hmem j).mpr (Linked.of_spans hcharted.atStart hkey hnext hxs hz)
        obtain ⟨cut, hcut, rfl⟩ := List.mem_map.mp hj
        exact ⟨cut, hcut, xs, ((hparts cut hcut).1 xs).mpr hxs, [z],
          ((hparts cut hcut).2 [z]).mpr hz, rfl⟩
      · rintro ⟨cut, hcut, xs, hxs, zs, hzs, rfl⟩
        rw [(hparts cut hcut).1] at hxs
        rw [(hparts cut hcut).2] at hzs
        obtain ⟨z, rfl⟩ := hzs.eq_singleton
        exact ⟨xs, z, cut.1, rfl, hxs, hzs⟩
    refine ⟨cuts, ?_, hfamilies, hsorted.imp Nat.ne_of_lt, ?_, hspans⟩
    · -- the item is charted, so it has trees, and they come from some family
      obtain ⟨zs, hzs⟩ := hcharted.exists_spans
      obtain ⟨cut, hcut, -⟩ := (hspans zs).mp hzs
      exact List.ne_nil_of_mem hcut
    · intro cut hcut
      obtain ⟨hfirsts, hlasts⟩ := hparts cut hcut
      obtain ⟨hprev, hterm⟩ := (linked_iff hadvance hnext).mp (hlinked cut hcut)
      refine ⟨?_, ?_, ?_⟩
      · obtain ⟨xs, hxs⟩ := hprev.exists_spans
        exact ⟨xs, (hfirsts xs).mpr hxs⟩
      · rcases hterm with ⟨hkind, htoken, hstop⟩ | ⟨hkind, hcompleted⟩
        · obtain ⟨token, htoken, hname⟩ := Tokens.nameAt?_eq_some_iff.mp htoken
          exact ⟨_, (hlasts _).mpr
            ((spans_terminal_iff hkind).mpr ⟨token, htoken, hname, rfl, hstop⟩)⟩
        · obtain ⟨z, hz⟩ := hcompleted.exists_spans
          exact ⟨[z], (hlasts _).mpr ((spans_nonterminal_congr hkind).mpr hz)⟩
      · intro zs hzs
        rw [hlasts] at hzs
        obtain ⟨z, rfl⟩ := hzs.eq_singleton
        exact ⟨z, rfl, hzs.start_eq⟩

/-! ### Nodes below nodes -/

/-- A node refers to another. -/
def Refers (f : Forest g α) (n m : Node) : Prop := m ∈ f.children n

theorem alternatives_eq {id : SymbolId} {node : SymbolNode} (hnode : f.symbols[id]? = some node) :
    f.alternatives id = node.alternatives := by
  rw [alternatives, hnode]

theorem families_eq {id : ItemId} {node : ItemNode g} (hnode : f.items[id]? = some node) :
    f.families id = node.families := by
  rw [families, hnode]

theorem mem_nodes_symbol {id : SymbolId} :
    .symbol id ∈ f.nodes ↔ ∃ node, f.symbols[id]? = some node := by
  rw [nodes, List.mem_append, ← Option.isSome_iff_exists]
  simp

theorem mem_nodes_item {id : ItemId} : .item id ∈ f.nodes ↔ ∃ node, f.items[id]? = some node := by
  rw [nodes, List.mem_append, ← Option.isSome_iff_exists]
  simp

theorem mem_nodes_of_refers_left {n m : Node} (h : f.Refers n m) : n ∈ f.nodes := by
  cases n with
  | symbol id =>
    rw [mem_nodes_symbol]
    cases hnode : f.symbols[id]? with
    | none => simp [Refers, children, alternatives, hnode] at h
    | some node => exact ⟨node, rfl⟩
  | item id =>
    rw [mem_nodes_item]
    cases hnode : f.items[id]? with
    | none => simp [Refers, children, families, hnode] at h
    | some node => exact ⟨node, rfl⟩

theorem refers_symbol_iff {id : SymbolId} {node : SymbolNode} (hnode : f.symbols[id]? = some node)
    {m : Node} : f.Refers (.symbol id) m ↔ ∃ i ∈ node.alternatives, m = .item i := by
  rw [Refers, children, alternatives_eq hnode, List.mem_map]
  simp only [eq_comm]

theorem mem_nodes_family {family : Family} {m : Node} :
    m ∈ family.nodes ↔
      (∃ id, family.prev = some id ∧ m = .item id) ∨
        ∃ id, family.child = .symbol id ∧ m = .symbol id := by
  rw [Family.nodes, List.mem_append, List.mem_map]
  simp only [Option.mem_toList, eq_comm (a := m)]
  cases family.child with
  | token position => simp
  | symbol id => simp [eq_comm]

theorem refers_item_iff {id : ItemId} {node : ItemNode g} (hnode : f.items[id]? = some node)
    {m : Node} : f.Refers (.item id) m ↔ ∃ family ∈ node.families, m ∈ family.nodes := by
  rw [Refers, children, families_eq hnode, List.mem_flatMap]

/-- Every node of a forest stands for something. -/
theorem Packed.nonempty (h : f.Packed tokens) {n : Node} (hn : n ∈ f.nodes) :
    (f.meaning tokens n).Nonempty := by
  cases n with
  | symbol id =>
    obtain ⟨node, hnode⟩ := mem_nodes_symbol.mp hn
    obtain ⟨z, hz⟩ := (h.symbol hnode).1.completed.exists_spans
    exact ⟨[z], (mem_meaning_symbol_iff hnode).mpr hz⟩
  | item id =>
    obtain ⟨node, hnode⟩ := mem_nodes_item.mp hn
    obtain ⟨zs, hzs⟩ := (h.item hnode).1.charted.exists_spans
    exact ⟨zs, (mem_meaning_item_iff hnode).mpr hzs⟩

theorem mem_nodes_of_nonempty {n : Node} (h : (f.meaning tokens n).Nonempty) : n ∈ f.nodes := by
  obtain ⟨ts, hts⟩ := h
  cases n with
  | symbol id =>
    obtain ⟨node, hnode, -⟩ := hts
    exact mem_nodes_symbol.mpr ⟨node, hnode⟩
  | item id =>
    obtain ⟨node, hnode, -⟩ := hts
    exact mem_nodes_item.mpr ⟨node, hnode⟩

/-- **References.**  What a node refers to is part of what it stands for: the rest
can be filled in, always in the same way. -/
theorem Packed.refers_cases (h : f.Packed tokens) {n m : Node} (hnm : f.Refers n m) :
    m ∈ f.nodes ∧
      ((∃ id i e start stop, n = .symbol id ∧ m = .item i ∧
        ∀ ts ∈ f.meaning tokens m, [.branch e start stop ts] ∈ f.meaning tokens n) ∨
      (∃ id i z, n = .item id ∧ m = .item i ∧
        ∀ xs ∈ f.meaning tokens m, xs ++ [z] ∈ f.meaning tokens n) ∨
      ∃ id i xs, n = .item id ∧ m = .symbol i ∧
        ∀ zs ∈ f.meaning tokens m, xs ++ zs ∈ f.meaning tokens n) := by
  cases n with
  | symbol id =>
    obtain ⟨node, hnode⟩ := mem_nodes_symbol.mp (mem_nodes_of_refers_left hnm)
    obtain ⟨i, hi, rfl⟩ := (refers_symbol_iff hnode).mp hnm
    obtain ⟨item, hkey, -⟩ := (h.symbol hnode).2.sound i hi
    obtain ⟨inner, hinner, -⟩ := exists_item_of_key hkey
    refine ⟨mem_nodes_item.mpr ⟨inner, hinner⟩, .inl ⟨id, i, inner.item.expr, inner.start,
      inner.stop, rfl, rfl, fun ts hts => ?_⟩⟩
    exact (h.mem_meaning_symbol hnode).mpr ⟨i, hi, inner, hinner, ts, hts, rfl⟩
  | item id =>
    obtain ⟨node, hnode⟩ := mem_nodes_item.mp (mem_nodes_of_refers_left hnm)
    obtain ⟨family, hfamily, hm⟩ := (refers_item_iff hnode).mp hnm
    rcases h.mem_meaning_item hnode with ⟨hnil, -⟩ | ⟨cuts, -, hfamilies, -, hcuts, hmem⟩
    · rw [hnil] at hfamily
      exact absurd hfamily List.not_mem_nil
    · rw [hfamilies] at hfamily
      obtain ⟨cut, hcut, rfl⟩ := List.mem_map.mp hfamily
      obtain ⟨⟨first, hfirst⟩, ⟨last, hlast⟩, hstart⟩ := hcuts cut hcut
      rcases mem_nodes_family.mp hm with ⟨i, hprev, rfl⟩ | ⟨i, hchild, rfl⟩
      · have hfirsts : f.firsts tokens cut.2 = f.meaning tokens (.item i) := by
          rw [firsts, hprev]
        obtain ⟨z, rfl, -⟩ := hstart last hlast
        refine ⟨mem_nodes_of_nonempty ⟨first, hfirsts ▸ hfirst⟩,
          .inr (.inl ⟨id, i, z, rfl, rfl, fun xs hxs => ?_⟩)⟩
        exact (hmem _).mpr ⟨cut, hcut, xs, hfirsts ▸ hxs, [z], hlast, rfl⟩
      · have hlasts : f.lasts tokens cut.2 = f.meaning tokens (.symbol i) := by
          rw [lasts, hchild]
        refine ⟨mem_nodes_of_nonempty ⟨last, hlasts ▸ hlast⟩,
          .inr (.inr ⟨id, i, first, rfl, rfl, fun zs hzs => ?_⟩)⟩
        exact (hmem _).mpr ⟨cut, hcut, first, hfirst, zs, hlasts ▸ hzs, rfl⟩

/-- The size of what a node stands for.  An item counts for a little more, so that
the size grows from a symbol to an item with nothing but that symbol. -/
def weight : Node → List (Tree g α) → Nat
  | .symbol _, ts => 2 * numNodesAll ts
  | .item _, ts => 2 * numNodesAll ts + 1

/-- What one node stands for can be made into what another one stands for, and
into something larger. -/
def Embeds (tokens : Tokens α) (f : Forest g α) (m n : Node) : Prop :=
  ∃ φ : List (Tree g α) → List (Tree g α), Function.Injective φ ∧
    ∀ ts ∈ f.meaning tokens m, φ ts ∈ f.meaning tokens n ∧ weight m ts < weight n (φ ts)

theorem Embeds.trans {k m n : Node} (h : f.Embeds tokens k m) (h' : f.Embeds tokens m n) :
    f.Embeds tokens k n := by
  obtain ⟨φ, hφ, hmaps⟩ := h
  obtain ⟨ψ, hψ, hmaps'⟩ := h'
  refine ⟨ψ ∘ φ, hψ.comp hφ, fun ts hts => ?_⟩
  obtain ⟨hmem, hlt⟩ := hmaps ts hts
  obtain ⟨hmem', hlt'⟩ := hmaps' _ hmem
  exact ⟨hmem', Nat.lt_trans hlt hlt'⟩

theorem numNodes_pos (t : Tree g α) : 0 < numNodes t := by
  cases t with
  | leaf => exact Nat.one_pos
  | branch => exact Nat.succ_pos _

theorem Packed.embeds_of_refers (h : f.Packed tokens) {n m : Node} (hnm : f.Refers n m) :
    f.Embeds tokens m n := by
  obtain ⟨-, ⟨id, i, e, start, stop, rfl, rfl, hpart⟩ | ⟨id, i, z, rfl, rfl, hpart⟩ |
    ⟨id, i, xs, rfl, rfl, hpart⟩⟩ := h.refers_cases hnm
  · refine ⟨fun ts => [.branch e start stop ts], ?_, fun ts hts => ⟨hpart ts hts, ?_⟩⟩
    · intro ts ts' heq
      simpa using heq
    · show 2 * numNodesAll ts + 1 < 2 * numNodesAll [.branch e start stop ts]
      rw [numNodesAll, numNodesAll, numNodes]
      omega
  · refine ⟨fun xs => xs ++ [z], List.append_left_injective [z], fun xs hxs => ⟨hpart xs hxs, ?_⟩⟩
    show 2 * numNodesAll xs + 1 < 2 * numNodesAll (xs ++ [z]) + 1
    have hpos := numNodes_pos z
    rw [numNodesAll_append, numNodesAll, numNodesAll]
    omega
  · refine ⟨fun zs => xs ++ zs, List.append_right_injective xs, fun zs hzs => ⟨hpart zs hzs, ?_⟩⟩
    show 2 * numNodesAll zs < 2 * numNodesAll (xs ++ zs) + 1
    rw [numNodesAll_append]
    omega

theorem Packed.embeds_of_below (h : f.Packed tokens) {n m : Node}
    (hnm : Relation.TransGen f.Refers n m) : f.Embeds tokens m n := by
  induction hnm with
  | single hnm => exact h.embeds_of_refers hnm
  | tail _ hmk ih => exact (h.embeds_of_refers hmk).trans ih

/-- A node stands for at least as much as any node below it. -/
theorem Packed.encard_le (h : f.Packed tokens) {n m : Node}
    (hnm : Relation.ReflTransGen f.Refers n m) :
    (f.meaning tokens m).encard ≤ (f.meaning tokens n).encard := by
  rcases Relation.reflTransGen_iff_eq_or_transGen.mp hnm with rfl | hnm
  · exact le_refl _
  · obtain ⟨φ, hφ, hmaps⟩ := h.embeds_of_below hnm
    exact Set.encard_le_encard_of_injOn (fun ts hts => (hmaps ts hts).1) hφ.injOn

/-- A node below itself stands for infinitely much: there is no largest part. -/
theorem Packed.infinite_of_cycle (h : f.Packed tokens) {n : Node}
    (hcycle : Relation.TransGen f.Refers n n) : (f.meaning tokens n).Infinite := by
  intro hfinite
  have hn : n ∈ f.nodes := by
    obtain ⟨m, hnm, -⟩ := Relation.TransGen.head'_iff.mp hcycle
    exact mem_nodes_of_refers_left hnm
  obtain ⟨φ, -, hmaps⟩ := h.embeds_of_below hcycle
  -- the largest part would be embedded into a larger one
  obtain ⟨ts, hts, hmax⟩ := Set.exists_max_image _ (weight n) hfinite (h.nonempty hn)
  obtain ⟨hmem, hlt⟩ := hmaps ts hts
  exact Nat.lt_irrefl _ (Nat.lt_of_lt_of_le hlt (hmax _ hmem))

end Forest

end ChartParser
