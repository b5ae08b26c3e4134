/-
A forest packs what its chart supplies.

Nodes are numbered by what identifies them, a nonterminal or an item with its
span, and filled one after the other.

* **`Builder.Extends`** — what a request does: it may append nodes, which are
  pending, and changes nothing else;
* **`Builder.Progress`** — what holds while nodes are being filled: every node is
  genuine, and it is filled or pending;
* **`Builder.Progress.drain`** — with enough fuel no node is left pending;
* **`packed_of_parse`** — in the forest of an accepted input every node is genuine
  and filled: a symbol has one alternative for each expression that is charted
  over its span, and an item one family for each of its links.

The fuel is enough because a node that is genuine is one of finitely many.
-/
import ChartParser.Proofs.Capacity
import ChartParser.Proofs.Forest.Supply
import Mathlib.Data.List.Induction

namespace ChartParser

variable {g : Grammar} {α : Type}

/-! ### Genuine and filled nodes -/

def SymbolNode.key (n : SymbolNode) : SymbolKey := ⟨n.name, n.start, n.stop⟩

def ItemNode.key (n : ItemNode g) : ItemKey g := ⟨n.item, n.start, n.stop⟩

/-- A nonterminal that is predicted where it starts and completed where it ends. -/
structure SymbolKey.Genuine (g : Grammar) (tokens : Tokens α) (key : SymbolKey) : Prop where
  predicted : ∀ id : g.ExprId, (g.expr id).head = key.name →
    Charted tokens ⟨.atStart id, key.start⟩ key.start
  completed : Completed g tokens key.name key.start key.stop

/-- An item that is charted over its span.  An item at the start of its expression
gets a node only if there is nothing to match. -/
structure ItemKey.Genuine (tokens : Tokens α) (key : ItemKey g) : Prop where
  charted : Charted tokens ⟨key.item, key.start⟩ key.stop
  complete : key.item.cursor = 0 → key.item.isComplete = true

/-- The alternatives of a symbol node are the complete states of its nonterminal
over its span, each once. -/
structure SymbolNode.Filled (tokens : Tokens α) (itemKeys : List (ItemKey g))
    (node : SymbolNode) : Prop where
  nodup : node.alternatives.Nodup
  sound : ∀ id ∈ node.alternatives, ∃ item : Item g,
    itemKeys[id]? = some ⟨item, node.start, node.stop⟩ ∧ item.isComplete = true ∧
      item.head = node.name
  complete : ∀ item : Item g, Charted tokens ⟨item, node.start⟩ node.stop →
    item.isComplete = true → item.head = node.name →
    ∃ id ∈ node.alternatives, itemKeys[id]? = some ⟨item, node.start, node.stop⟩

/-- A family refers to the earlier terms up to a split and to the last term behind
it. -/
structure Family.SplitsAt (symbolKeys : List SymbolKey) (itemKeys : List (ItemKey g))
    (prev : Item g) (term : Term) (start stop split : Nat) (family : Family) : Prop where
  prev : prev.cursor = 0 ∧ family.prev = none ∨
    ∃ id, family.prev = some id ∧ itemKeys[id]? = some ⟨prev, start, split⟩
  child : term.kind = .terminal ∧ family.child = .token split ∨
    term.kind = .nonterminal ∧
      ∃ id, family.child = .symbol id ∧ symbolKeys[id]? = some ⟨term.name, split, stop⟩

/-- The families of an item node are its links, in increasing order; an item at the
start of its expression has none. -/
def ItemNode.Filled (tokens : Tokens α) (symbolKeys : List SymbolKey)
    (itemKeys : List (ItemKey g)) (node : ItemNode g) : Prop :=
  node.item.cursor = 0 ∧ node.families = [] ∨
  ∃ (prev : Item g) (term : Term) (cuts : List (Nat × Family)),
    prev.advance? = some node.item ∧ prev.next? = some term ∧
    node.families = cuts.map (·.2) ∧ (cuts.map (·.1)).Pairwise (· < ·) ∧
    (∀ j, j ∈ cuts.map (·.1) ↔ Linked tokens ⟨node.item, node.start⟩ node.stop j) ∧
    ∀ cut ∈ cuts,
      cut.2.SplitsAt symbolKeys itemKeys prev term node.start node.stop cut.1

section Mono

variable {tokens : Tokens α} {symbolKeys symbolKeys' : List SymbolKey}
  {itemKeys itemKeys' : List (ItemKey g)}

theorem SymbolNode.Filled.mono {node : SymbolNode} (h : node.Filled tokens itemKeys)
    (hitems : itemKeys <+: itemKeys') : node.Filled tokens itemKeys' where
  nodup := h.nodup
  sound id hid := by
    obtain ⟨item, hitem, hcomplete⟩ := h.sound id hid
    exact ⟨item, getElem?_of_prefix hitems hitem, hcomplete⟩
  complete item hcharted hcomplete hhead := by
    obtain ⟨id, hid, hitem⟩ := h.complete item hcharted hcomplete hhead
    exact ⟨id, hid, getElem?_of_prefix hitems hitem⟩

theorem Family.SplitsAt.mono {prev : Item g} {term : Term} {start stop split : Nat}
    {family : Family} (h : family.SplitsAt symbolKeys itemKeys prev term start stop split)
    (hsymbols : symbolKeys <+: symbolKeys') (hitems : itemKeys <+: itemKeys') :
    family.SplitsAt symbolKeys' itemKeys' prev term start stop split where
  prev := h.prev.imp_right fun ⟨id, hid, hkey⟩ => ⟨id, hid, getElem?_of_prefix hitems hkey⟩
  child := h.child.imp_right fun ⟨hkind, id, hid, hkey⟩ =>
    ⟨hkind, id, hid, getElem?_of_prefix hsymbols hkey⟩

theorem ItemNode.Filled.mono {node : ItemNode g} (h : node.Filled tokens symbolKeys itemKeys)
    (hsymbols : symbolKeys <+: symbolKeys') (hitems : itemKeys <+: itemKeys') :
    node.Filled tokens symbolKeys' itemKeys' := by
  rcases h with hstart | ⟨prev, term, cuts, hadvance, hnext, hfamilies, hsorted, hmem, hcuts⟩
  · exact .inl hstart
  · exact .inr ⟨prev, term, cuts, hadvance, hnext, hfamilies, hsorted, hmem,
      fun cut hcut => (hcuts cut hcut).mono hsymbols hitems⟩

end Mono

namespace Builder

/-! ### Requests -/

def symbolKeys (b : Builder g) : List SymbolKey := b.symbols.toList.map (·.key)

def itemKeys (b : Builder g) : List (ItemKey g) := b.items.toList.map (·.key)

theorem mem_symbolKeys {b : Builder g} {id : SymbolId} {node : SymbolNode}
    (h : b.symbols[id]? = some node) : node.key ∈ b.symbolKeys :=
  List.mem_map_of_mem (Array.mem_toList_iff.mpr (Array.mem_of_getElem? h))

theorem mem_itemKeys {b : Builder g} {id : ItemId} {node : ItemNode g}
    (h : b.items[id]? = some node) : node.key ∈ b.itemKeys :=
  List.mem_map_of_mem (Array.mem_toList_iff.mpr (Array.mem_of_getElem? h))

/-- The numbers are right, every node is genuine, and what is pending is there. -/
structure Sound (tokens : Tokens α) (b : Builder g) : Prop where
  symbolIds : Numbers b.symbolIds b.symbolKeys
  itemIds : Numbers b.itemIds b.itemKeys
  symbols : ∀ key ∈ b.symbolKeys, key.Genuine g tokens
  items : ∀ key ∈ b.itemKeys, key.Genuine tokens
  pendingSymbols : ∀ id ∈ b.pendingSymbols, id < b.symbols.size
  pendingItems : ∀ id ∈ b.pendingItems, id < b.items.size

/-- The number of nodes that are still to be filled. -/
def numPending (b : Builder g) : Nat := b.pendingSymbols.length + b.pendingItems.length

/-- Nodes are only appended, without content, and what is appended is pending. -/
structure Extends (b b' : Builder g) : Prop where
  symbols : b.symbols.toList <+: b'.symbols.toList
  items : b.items.toList <+: b'.items.toList
  oldSymbol : ∀ {id : SymbolId} {node : SymbolNode}, b'.symbols[id]? = some node →
    id ∉ b'.pendingSymbols → b.symbols[id]? = some node ∧ id ∉ b.pendingSymbols
  oldItem : ∀ {id : ItemId} {node : ItemNode g}, b'.items[id]? = some node →
    id ∉ b'.pendingItems → b.items[id]? = some node ∧ id ∉ b.pendingItems
  empty : ∀ node ∈ b'.items, node ∈ b.items ∨ node.families = []
  count : b'.symbols.size + b'.items.size + b.numPending =
    b.symbols.size + b.items.size + b'.numPending

variable {b b' b'' : Builder g} {tokens : Tokens α}

theorem Extends.refl (b : Builder g) : Extends b b where
  symbols := List.prefix_refl _
  items := List.prefix_refl _
  oldSymbol hnode hid := ⟨hnode, hid⟩
  oldItem hnode hid := ⟨hnode, hid⟩
  empty _ hnode := .inl hnode
  count := rfl

theorem Extends.trans (h : Extends b b') (h' : Extends b' b'') : Extends b b'' where
  symbols := h.symbols.trans h'.symbols
  items := h.items.trans h'.items
  oldSymbol hnode hid := h.oldSymbol (h'.oldSymbol hnode hid).1 (h'.oldSymbol hnode hid).2
  oldItem hnode hid := h.oldItem (h'.oldItem hnode hid).1 (h'.oldItem hnode hid).2
  empty node hnode := (h'.empty node hnode).elim (h.empty node) .inr
  count := by
    have hcount := h.count
    have hcount' := h'.count
    omega

theorem Extends.symbolKeys (h : Extends b b') : b.symbolKeys <+: b'.symbolKeys :=
  h.symbols.map _

theorem Extends.itemKeys (h : Extends b b') : b.itemKeys <+: b'.itemKeys := h.items.map _

/-- What is not pending after a node was appended was there before. -/
theorem getElem?_of_push_of_not_mem {β : Type} {nodes : Array β} {new node : β} {id : Nat}
    {pending : List Nat} (hnode : (nodes.push new)[id]? = some node)
    (hid : id ∉ nodes.size :: pending) : nodes[id]? = some node ∧ id ∉ pending := by
  rw [List.mem_cons, not_or] at hid
  rw [Array.getElem?_push, if_neg hid.1] at hnode
  exact ⟨hnode, hid.2⟩

theorem lt_size_push {β : Type} {nodes : Array β} {pending : List Nat}
    (h : ∀ id ∈ pending, id < nodes.size) (new : β) :
    ∀ id ∈ nodes.size :: pending, id < (nodes.push new).size := by
  intro id hid
  rw [Array.size_push]
  rcases List.mem_cons.mp hid with rfl | hid
  · exact Nat.lt_succ_self _
  · exact Nat.lt_succ_of_lt (h id hid)

theorem requestSymbol_spec (hb : b.Sound tokens) {key : SymbolKey}
    (hkey : key.Genuine g tokens) :
    Extends b (b.requestSymbol key).2 ∧ (b.requestSymbol key).2.Sound tokens ∧
      (b.requestSymbol key).2.symbolKeys[(b.requestSymbol key).1]? = some key := by
  unfold requestSymbol
  split
  · rename_i id hid
    exact ⟨.refl b, hb, (hb.symbolIds key id).mp hid⟩
  · rename_i hnone
    obtain ⟨hids, hmem, hget⟩ := hb.symbolIds.push ⟨key.name, key.start, key.stop, []⟩ hnone
    refine ⟨⟨?_, List.prefix_refl _, getElem?_of_push_of_not_mem, fun h h' => ⟨h, h'⟩,
      fun _ h => .inl h, ?_⟩, ⟨hids, hb.itemIds, ?_, hb.items, lt_size_push hb.pendingSymbols _,
      hb.pendingItems⟩, hget⟩
    · rw [Array.toList_push]
      exact List.prefix_append _ _
    · simp only [numPending, Array.size_push, List.length_cons]
      omega
    · intro k hk
      rcases (hmem k).mp hk with hk | rfl
      · exact hb.symbols k hk
      · exact hkey

theorem requestItem_spec (hb : b.Sound tokens) {key : ItemKey g} (hkey : key.Genuine tokens) :
    Extends b (b.requestItem key).2 ∧ (b.requestItem key).2.Sound tokens ∧
      (b.requestItem key).2.itemKeys[(b.requestItem key).1]? = some key := by
  unfold requestItem
  split
  · rename_i id hid
    exact ⟨.refl b, hb, (hb.itemIds key id).mp hid⟩
  · rename_i hnone
    obtain ⟨hids, hmem, hget⟩ := hb.itemIds.push ⟨key.item, key.start, key.stop, []⟩ hnone
    refine ⟨⟨List.prefix_refl _, ?_, fun h h' => ⟨h, h'⟩, getElem?_of_push_of_not_mem, ?_, ?_⟩,
      ⟨hb.symbolIds, hids, hb.symbols, ?_, hb.pendingSymbols, lt_size_push hb.pendingItems _⟩, hget⟩
    · rw [Array.toList_push]
      exact List.prefix_append _ _
    · intro node hnode
      rcases Array.mem_push.mp hnode with hnode | rfl
      · exact .inl hnode
      · exact .inr rfl
    · simp only [numPending, Array.size_push, List.length_cons]
      omega
    · intro k hk
      rcases (hmem k).mp hk with hk | rfl
      · exact hb.items k hk
      · exact hkey

theorem requestItems_concat (b : Builder g) (start stop : Nat) (items : List (Item g))
    (item : Item g) :
    b.requestItems start stop (items ++ [item]) =
      let before := b.requestItems start stop items
      let last := before.2.requestItem ⟨item, start, stop⟩
      (if last.1 ∈ before.1 then before.1 else before.1 ++ [last.1], last.2) := by
  rw [requestItems, List.foldl_append]
  rfl

/-- Requested items over one span get one number each. -/
theorem requestItems_spec (hb : b.Sound tokens) {start stop : Nat} {items : List (Item g)}
    (hitems : ∀ item ∈ items, ItemKey.Genuine tokens ⟨item, start, stop⟩) :
    Extends b (b.requestItems start stop items).2 ∧
      (b.requestItems start stop items).2.Sound tokens ∧
      (b.requestItems start stop items).1.Nodup ∧
      (∀ id ∈ (b.requestItems start stop items).1, ∃ item ∈ items,
        (b.requestItems start stop items).2.itemKeys[id]? = some ⟨item, start, stop⟩) ∧
      ∀ item ∈ items, ∃ id ∈ (b.requestItems start stop items).1,
        (b.requestItems start stop items).2.itemKeys[id]? = some ⟨item, start, stop⟩ := by
  -- the requests are made from the front, so the last one comes on top of the others
  induction items using List.reverseRecOn with
  | nil => exact ⟨.refl b, hb, List.nodup_nil, by simp [requestItems], by simp⟩
  | append_singleton items item ih =>
    obtain ⟨hextends, hsound, hnodup, hids, hall⟩ :=
      ih fun i hi => hitems i (List.mem_append_left _ hi)
    rw [requestItems_concat]
    generalize b.requestItems start stop items = before at hextends hsound hnodup hids hall
    obtain ⟨ids, b₁⟩ := before
    obtain ⟨hextends', hsound', hkey⟩ :=
      requestItem_spec hsound (hitems item (List.mem_append_right _ List.mem_cons_self))
    dsimp only at hextends hsound hnodup hids hall ⊢
    generalize b₁.requestItem ⟨item, start, stop⟩ = request at hextends' hsound' hkey
    obtain ⟨id, b₂⟩ := request
    dsimp only at hextends' hsound' hkey ⊢
    have hmem : ∀ i, i ∈ (if id ∈ ids then ids else ids ++ [id]) ↔ i ∈ ids ∨ i = id := by
      intro i
      split
      · constructor
        · exact .inl
        · rintro (hi | rfl) <;> assumption
      · rw [List.mem_append, List.mem_singleton]
    refine ⟨hextends.trans hextends', hsound', ?_, ?_, ?_⟩
    · split
      · exact hnodup
      · rename_i hnew
        rw [← List.concat_eq_append]
        exact hnodup.concat hnew
    · intro i hi
      rcases (hmem i).mp hi with hi | rfl
      · obtain ⟨item', hitem', hkey'⟩ := hids i hi
        exact ⟨item', List.mem_append_left _ hitem',
          getElem?_of_prefix hextends'.itemKeys hkey'⟩
      · exact ⟨item, List.mem_append_right _ List.mem_cons_self, hkey⟩
    · intro item' hitem'
      rcases List.mem_append.mp hitem' with hitem' | hitem'
      · obtain ⟨i, hi, hkey'⟩ := hall item' hitem'
        exact ⟨i, (hmem i).mpr (.inl hi), getElem?_of_prefix hextends'.itemKeys hkey'⟩
      · obtain rfl := List.mem_singleton.mp hitem'
        exact ⟨id, (hmem id).mpr (.inr rfl), hkey⟩

theorem requestFamily_spec (hb : b.Sound tokens) {prev : Item g} {term : Term}
    {start stop split : Nat}
    (hprev : prev.cursor ≠ 0 → ItemKey.Genuine tokens ⟨prev, start, split⟩)
    (hchild : term.kind = .nonterminal → SymbolKey.Genuine g tokens ⟨term.name, split, stop⟩) :
    Extends b (b.requestFamily prev term start stop split).2 ∧
      (b.requestFamily prev term start stop split).2.Sound tokens ∧
      (b.requestFamily prev term start stop split).1.SplitsAt
        (b.requestFamily prev term start stop split).2.symbolKeys
        (b.requestFamily prev term start stop split).2.itemKeys prev term start stop split := by
  -- the earlier terms first: what they need is there before the last term is asked for
  obtain ⟨prevId, b₁, heq, hextends, hsound, hpart⟩ : ∃ (prevId : Option ItemId) (b₁ : Builder g),
      (if prev.cursor = 0 then (none, b)
        else (some (b.requestItem ⟨prev, start, split⟩).1,
          (b.requestItem ⟨prev, start, split⟩).2)) =
        (prevId, b₁) ∧ Extends b b₁ ∧ b₁.Sound tokens ∧
      (prev.cursor = 0 ∧ prevId = none ∨
        ∃ id, prevId = some id ∧ b₁.itemKeys[id]? = some ⟨prev, start, split⟩) := by
    by_cases hcursor : prev.cursor = 0
    · exact ⟨none, b, if_pos hcursor, .refl b, hb, .inl ⟨hcursor, rfl⟩⟩
    · obtain ⟨hextends, hsound, hkey⟩ := requestItem_spec hb (hprev hcursor)
      exact ⟨_, _, if_neg hcursor, hextends, hsound, .inr ⟨_, rfl, hkey⟩⟩
  rw [requestFamily]
  simp only [heq]
  split
  · rename_i hkind
    exact ⟨hextends, hsound, hpart, .inl ⟨hkind, rfl⟩⟩
  · rename_i hkind
    obtain ⟨hextends', hsound', hkey⟩ := requestSymbol_spec hsound (hchild hkind)
    refine ⟨hextends.trans hextends', hsound', ?_, .inr ⟨hkind, _, rfl, hkey⟩⟩
    exact hpart.imp_right fun ⟨id, hid, hitem⟩ =>
      ⟨id, hid, getElem?_of_prefix hextends'.itemKeys hitem⟩

theorem requestFamilies_concat (b : Builder g) (prev : Item g) (term : Term) (start stop : Nat)
    (splits : List Nat) (split : Nat) :
    b.requestFamilies prev term start stop (splits ++ [split]) =
      let before := b.requestFamilies prev term start stop splits
      let last := before.2.requestFamily prev term start stop split
      (before.1 ++ [last.1], last.2) := by
  simp only [requestFamilies, List.foldl_append, List.foldl_cons, List.foldl_nil,
    List.reverse_cons]

/-- Requested families come in the order of their splits. -/
theorem requestFamilies_spec (hb : b.Sound tokens) {prev : Item g} {term : Term}
    {start stop : Nat} {splits : List Nat}
    (hprev : ∀ j ∈ splits, prev.cursor ≠ 0 → ItemKey.Genuine tokens ⟨prev, start, j⟩)
    (hchild : ∀ j ∈ splits, term.kind = .nonterminal →
      SymbolKey.Genuine g tokens ⟨term.name, j, stop⟩) :
    Extends b (b.requestFamilies prev term start stop splits).2 ∧
      (b.requestFamilies prev term start stop splits).2.Sound tokens ∧
      ∃ cuts : List (Nat × Family),
        (b.requestFamilies prev term start stop splits).1 = cuts.map (·.2) ∧
        cuts.map (·.1) = splits ∧
        ∀ cut ∈ cuts, cut.2.SplitsAt (b.requestFamilies prev term start stop splits).2.symbolKeys
          (b.requestFamilies prev term start stop splits).2.itemKeys prev term start stop cut.1 := by
  induction splits using List.reverseRecOn with
  | nil => exact ⟨.refl b, hb, [], rfl, rfl, by simp⟩
  | append_singleton splits split ih =>
    obtain ⟨hextends, hsound, cuts, hfamilies, hsplits, hcuts⟩ :=
      ih (fun j hj => hprev j (List.mem_append_left _ hj))
        fun j hj => hchild j (List.mem_append_left _ hj)
    rw [requestFamilies_concat]
    generalize b.requestFamilies prev term start stop splits = before
      at hextends hsound hfamilies hcuts
    obtain ⟨families, b₁⟩ := before
    have hlast : split ∈ splits ++ [split] := List.mem_append_right _ List.mem_cons_self
    obtain ⟨hextends', hsound', hfamily⟩ :=
      requestFamily_spec hsound (hprev split hlast) (hchild split hlast)
    dsimp only at hextends hsound hfamilies hcuts ⊢
    generalize b₁.requestFamily prev term start stop split = request at hextends' hsound' hfamily
    obtain ⟨family, b₂⟩ := request
    dsimp only at hextends' hsound' hfamily ⊢
    refine ⟨hextends.trans hextends', hsound', cuts ++ [(split, family)], ?_, ?_, ?_⟩
    · rw [hfamilies, List.map_append]
      rfl
    · rw [List.map_append, hsplits]
      rfl
    · intro cut hcut
      rcases List.mem_append.mp hcut with hcut | hcut
      · exact (hcuts cut hcut).mono hextends'.symbolKeys hextends'.itemKeys
      · obtain rfl := List.mem_singleton.mp hcut
        exact hfamily

/-! ### Filling nodes -/

/-- What holds when `done` nodes are filled: the others are pending, except for
the one that is being filled. -/
structure Progress (tokens : Tokens α) (done : Nat) (current : Option Node) (b : Builder g) : Prop
    extends b.Sound tokens where
  filledSymbol : ∀ {id : SymbolId} {node : SymbolNode}, b.symbols[id]? = some node →
    id ∉ b.pendingSymbols → current ≠ some (.symbol id) → node.Filled tokens b.itemKeys
  filledItem : ∀ {id : ItemId} {node : ItemNode g}, b.items[id]? = some node →
    id ∉ b.pendingItems → current ≠ some (.item id) → node.Filled tokens b.symbolKeys b.itemKeys
  startItem : ∀ node ∈ b.items, node.item.cursor = 0 → node.families = []
  count : b.symbols.size + b.items.size = done + b.numPending

theorem progress_empty (tokens : Tokens α) : ({} : Builder g).Progress tokens 0 none where
  symbolIds := numbers_empty
  itemIds := numbers_empty
  symbols key hkey := absurd hkey List.not_mem_nil
  items key hkey := absurd hkey List.not_mem_nil
  pendingSymbols id hid := absurd hid List.not_mem_nil
  pendingItems id hid := absurd hid List.not_mem_nil
  filledSymbol hnode := by simp at hnode
  filledItem hnode := by simp at hnode
  startItem node hnode := by simp at hnode
  count := rfl

variable {done : Nat} {current : Option Node}

theorem Progress.popSymbol (h : b.Progress tokens done none) {id : SymbolId}
    {rest : List SymbolId} (hpending : b.pendingSymbols = id :: rest) :
    ({ b with pendingSymbols := rest } : Builder g).Progress tokens (done + 1)
      (some (.symbol id)) where
  toSound := ⟨h.symbolIds, h.itemIds, h.symbols, h.items,
    fun i hi => h.pendingSymbols i (by rw [hpending]; exact List.mem_cons_of_mem id hi),
    h.pendingItems⟩
  filledSymbol {i node} hnode hi hne := by
    refine h.filledSymbol hnode ?_ nofun
    rw [hpending, List.mem_cons, not_or]
    exact ⟨fun heq => hne (by rw [heq]), hi⟩
  filledItem hnode hi _ := h.filledItem hnode hi nofun
  startItem := h.startItem
  count := by
    have hcount := h.count
    simp only [numPending, hpending, List.length_cons] at hcount ⊢
    omega

theorem Progress.popItem (h : b.Progress tokens done none) {id : ItemId} {rest : List ItemId}
    (hpending : b.pendingItems = id :: rest) :
    ({ b with pendingItems := rest } : Builder g).Progress tokens (done + 1)
      (some (.item id)) where
  toSound := ⟨h.symbolIds, h.itemIds, h.symbols, h.items, h.pendingSymbols,
    fun i hi => h.pendingItems i (by rw [hpending]; exact List.mem_cons_of_mem id hi)⟩
  filledSymbol hnode hi _ := h.filledSymbol hnode hi nofun
  filledItem {i node} hnode hi hne := by
    refine h.filledItem hnode ?_ nofun
    rw [hpending, List.mem_cons, not_or]
    exact ⟨fun heq => hne (by rw [heq]), hi⟩
  startItem := h.startItem
  count := by
    have hcount := h.count
    simp only [numPending, hpending, List.length_cons] at hcount ⊢
    omega

/-- Requests leave what is filled as it is. -/
theorem Progress.extend (h : b.Progress tokens done current) (hextends : Extends b b')
    (hsound : b'.Sound tokens) : b'.Progress tokens done current where
  toSound := hsound
  filledSymbol hnode hid hne := by
    obtain ⟨hnode, hid⟩ := hextends.oldSymbol hnode hid
    exact (h.filledSymbol hnode hid hne).mono hextends.itemKeys
  filledItem hnode hid hne := by
    obtain ⟨hnode, hid⟩ := hextends.oldItem hnode hid
    exact (h.filledItem hnode hid hne).mono hextends.symbolKeys hextends.itemKeys
  startItem node hnode hcursor :=
    (hextends.empty node hnode).elim (fun hnode => h.startItem node hnode hcursor) id
  count := by
    have hcount := h.count
    have hcount' := hextends.count
    omega

/-- A node that is there and filled, or not there at all, need not be filled. -/
theorem Progress.settle {n : Node} (h : b.Progress tokens done (some n))
    (hsymbol : ∀ {id : SymbolId} {node : SymbolNode}, n = .symbol id →
      b.symbols[id]? = some node → node.Filled tokens b.itemKeys)
    (hitem : ∀ {id : ItemId} {node : ItemNode g}, n = .item id →
      b.items[id]? = some node → node.Filled tokens b.symbolKeys b.itemKeys) :
    b.Progress tokens done none where
  toSound := h.toSound
  filledSymbol {id node} hnode hid _ := by
    by_cases heq : n = .symbol id
    · exact hsymbol heq hnode
    · exact h.filledSymbol hnode hid fun hsome => heq (Option.some.inj hsome)
  filledItem {id node} hnode hid _ := by
    by_cases heq : n = .item id
    · exact hitem heq hnode
    · exact h.filledItem hnode hid fun hsome => heq (Option.some.inj hsome)
  startItem := h.startItem
  count := h.count

@[simp] theorem symbolKeys_modify (b : Builder g) (id : SymbolId) (ids : List ItemId) :
    ({ b with symbols := b.symbols.modify id fun n => { n with alternatives := ids } } :
      Builder g).symbolKeys = b.symbolKeys := by
  rw [Builder.symbolKeys, map_toList_modify, Builder.symbolKeys]
  exact fun _ => rfl

@[simp] theorem itemKeys_modify (b : Builder g) (id : ItemId) (families : List Family) :
    ({ b with items := b.items.modify id fun n => { n with families } } :
      Builder g).itemKeys = b.itemKeys := by
  rw [Builder.itemKeys, map_toList_modify, Builder.itemKeys]
  exact fun _ => rfl

/-- Filling in a symbol node settles it. -/
theorem Progress.setAlternatives {id : SymbolId} {node : SymbolNode} {ids : List ItemId}
    (h : b.Progress tokens done (some (.symbol id))) (hnode : b.symbols[id]? = some node)
    (hfilled : SymbolNode.Filled tokens b.itemKeys { node with alternatives := ids }) :
    ({ b with symbols := b.symbols.modify id fun n => { n with alternatives := ids } } :
      Builder g).Progress tokens done none := by
  refine ⟨⟨?_, h.itemIds, ?_, h.items, ?_, h.pendingItems⟩, ?_, ?_, h.startItem, ?_⟩
  · rw [symbolKeys_modify]
    exact h.symbolIds
  · rw [symbolKeys_modify]
    exact h.symbols
  · intro i hi
    rw [Array.size_modify]
    exact h.pendingSymbols i hi
  · intro i node' hnode' hi _
    dsimp only at hnode'
    rw [Array.getElem?_modify] at hnode'
    split at hnode'
    · rename_i heq
      subst heq
      rw [hnode, Option.map_some, Option.some.injEq] at hnode'
      exact hnode' ▸ hfilled
    · rename_i hne
      refine h.filledSymbol hnode' hi ?_
      rintro ⟨⟩
      exact hne rfl
  · intro i node' hnode' hi _
    rw [symbolKeys_modify]
    exact h.filledItem hnode' hi nofun
  · show (b.symbols.modify id _).size + b.items.size = done + b.numPending
    rw [Array.size_modify]
    exact h.count

/-- Filling in an item node settles it. -/
theorem Progress.setFamilies {id : ItemId} {node : ItemNode g} {families : List Family}
    (h : b.Progress tokens done (some (.item id))) (hnode : b.items[id]? = some node)
    (hcursor : node.item.cursor ≠ 0)
    (hfilled : ItemNode.Filled tokens b.symbolKeys b.itemKeys { node with families }) :
    ({ b with items := b.items.modify id fun n => { n with families } } :
      Builder g).Progress tokens done none := by
  have hget : ∀ {i : Nat} {node' : ItemNode g},
      (b.items.modify id fun n => { n with families })[i]? = some node' →
      i = id ∧ node' = { node with families } ∨ i ≠ id ∧ b.items[i]? = some node' := by
    intro i node' hnode'
    rw [Array.getElem?_modify] at hnode'
    split at hnode'
    · rename_i heq
      subst heq
      rw [hnode, Option.map_some, Option.some.injEq] at hnode'
      exact .inl ⟨rfl, hnode'.symm⟩
    · rename_i hne
      exact .inr ⟨fun heq => hne heq.symm, hnode'⟩
  refine ⟨⟨h.symbolIds, ?_, h.symbols, ?_, h.pendingSymbols, ?_⟩, ?_, ?_, ?_, ?_⟩
  · rw [itemKeys_modify]
    exact h.itemIds
  · rw [itemKeys_modify]
    exact h.items
  · intro i hi
    rw [Array.size_modify]
    exact h.pendingItems i hi
  · intro i node' hnode' hi _
    rw [itemKeys_modify]
    exact h.filledSymbol hnode' hi nofun
  · intro i node' hnode' hi _
    rw [itemKeys_modify]
    rcases hget hnode' with ⟨rfl, rfl⟩ | ⟨hne, hnode'⟩
    · exact hfilled
    · refine h.filledItem hnode' hi ?_
      rintro ⟨⟩
      exact hne rfl
  · intro node' hnode' hzero
    obtain ⟨i, hi⟩ := Array.mem_iff_getElem?.mp hnode'
    rcases hget hi with ⟨-, rfl⟩ | ⟨-, hi⟩
    · exact absurd hzero hcursor
    · exact h.startItem node' (Array.mem_of_getElem? hi) hzero
  · show b.symbols.size + (b.items.modify id _).size = done + b.numPending
    rw [Array.size_modify]
    exact h.count

variable {c : Chart g α} {leftOut : Array (Thunk (LeftOut g))}

theorem Progress.fillSymbol (hc : c.Supplies tokens leftOut) {id : SymbolId}
    (h : b.Progress tokens done (some (.symbol id))) :
    (b.fillSymbol c leftOut id).Progress tokens done none ∧
      b.symbolKeys <+: (b.fillSymbol c leftOut id).symbolKeys := by
  unfold Builder.fillSymbol
  split
  · rename_i hnone
    refine ⟨h.settle ?_ nofun, List.prefix_refl _⟩
    rintro _ node ⟨⟩ hnode
    rw [hnone] at hnode
    contradiction
  · rename_i node hnode
    have hitems : ∀ item ∈ c.completedItems leftOut node.name node.start node.stop,
        ItemKey.Genuine tokens ⟨item, node.start, node.stop⟩ := by
      intro item hitem
      obtain ⟨hcharted, hcomplete, -⟩ := hc.mem_completedItems.mp hitem
      exact ⟨hcharted, fun _ => hcomplete⟩
    obtain ⟨hextends, hsound, hnodup, hids, hall⟩ := requestItems_spec h.toSound hitems
    generalize b.requestItems node.start node.stop
      (c.completedItems leftOut node.name node.start node.stop) = request
      at hextends hsound hnodup hids hall
    obtain ⟨ids, b'⟩ := request
    dsimp only at hextends hsound hnodup hids hall ⊢
    have hnode' : b'.symbols[id]? = some node := by
      rw [← Array.getElem?_toList] at hnode ⊢
      exact getElem?_of_prefix hextends.symbols hnode
    rw [symbolKeys_modify]
    refine ⟨(h.extend hextends hsound).setAlternatives hnode' ⟨hnodup, ?_, ?_⟩,
      hextends.symbolKeys⟩
    · intro i hi
      obtain ⟨item, hitem, hkey⟩ := hids i hi
      obtain ⟨-, hcomplete, hhead⟩ := hc.mem_completedItems.mp hitem
      exact ⟨item, hkey, hcomplete, hhead⟩
    · intro item hcharted hcomplete hhead
      exact hall item (hc.mem_completedItems.mpr ⟨hcharted, hcomplete, hhead⟩)

theorem Progress.fillItem (hc : c.Supplies tokens leftOut) {id : ItemId}
    (h : b.Progress tokens done (some (.item id))) :
    (b.fillItem c leftOut id).Progress tokens done none ∧
      b.symbolKeys <+: (b.fillItem c leftOut id).symbolKeys := by
  unfold Builder.fillItem
  split
  · rename_i hnone
    refine ⟨h.settle nofun ?_, List.prefix_refl _⟩
    rintro _ node ⟨⟩ hnode
    rw [hnone] at hnode
    contradiction
  · rename_i node hnode
    by_cases hcursor : node.item.cursor = 0
    · -- nothing to do: the node was made without families
      have hretreat : node.item.retreat? = none := if_pos hcursor
      rw [hretreat]
      refine ⟨h.settle nofun ?_, List.prefix_refl _⟩
      rintro _ node' ⟨⟩ hnode'
      obtain rfl := Option.some.inj (hnode.symm.trans hnode')
      exact .inl ⟨hcursor, h.startItem node (Array.mem_of_getElem? hnode) hcursor⟩
    · obtain ⟨prev, term, hretreat, hprevious, hadvance, hnext⟩ := Item.exists_advance?_eq hcursor
      rw [hretreat, hprevious]
      dsimp only
      have hprev : ∀ j ∈ c.splits leftOut ⟨node.item, node.start⟩ node.stop, prev.cursor ≠ 0 →
          ItemKey.Genuine tokens ⟨prev, node.start, j⟩ := by
        intro j hj hprev
        obtain ⟨hcharted, -⟩ := (linked_iff hadvance hnext).mp (hc.mem_splits.mp hj)
        exact ⟨hcharted, fun hzero => absurd hzero hprev⟩
      have hchild : ∀ j ∈ c.splits leftOut ⟨node.item, node.start⟩ node.stop,
          term.kind = .nonterminal → SymbolKey.Genuine g tokens ⟨term.name, j, node.stop⟩ := by
        intro j hj hkind
        obtain ⟨hcharted, ⟨hkind', -⟩ | ⟨-, hcompleted⟩⟩ :=
          (linked_iff hadvance hnext).mp (hc.mem_splits.mp hj)
        · rw [hkind] at hkind'
          contradiction
        · exact ⟨fun _ hhead => .predict hcharted ⟨term, hnext, hkind, rfl⟩ hhead, hcompleted⟩
      obtain ⟨hextends, hsound, cuts, hfamilies, hsplits, hcuts⟩ :=
        requestFamilies_spec h.toSound hprev hchild
      generalize b.requestFamilies prev term node.start node.stop
        (c.splits leftOut ⟨node.item, node.start⟩ node.stop) = request
        at hextends hsound hfamilies hcuts
      obtain ⟨families, b'⟩ := request
      dsimp only at hextends hsound hfamilies hcuts ⊢
      have hnode' : b'.items[id]? = some node := by
        rw [← Array.getElem?_toList] at hnode ⊢
        exact getElem?_of_prefix hextends.items hnode
      refine ⟨(h.extend hextends hsound).setFamilies hnode' hcursor
        (.inr ⟨prev, term, cuts, hadvance, hnext, hfamilies, ?_, ?_, hcuts⟩), hextends.symbolKeys⟩
      · rw [hsplits]
        exact hc.increasing_splits _ _
      · intro j
        rw [hsplits]
        exact hc.mem_splits

/-- The number of nodes that can be genuine. -/
theorem Sound.size_le (hb : b.Sound tokens) :
    b.symbols.size + b.items.size ≤
      (g.rules.length + g.numDottedItems) * ((tokens.size + 1) * (tokens.size + 1)) := by
  -- a genuine node is a nonterminal or an item, and a span of the input
  have hspan : ∀ {start stop : Nat}, start ≤ stop → stop ≤ tokens.size →
      (start, stop) ∈ List.range (tokens.size + 1) ×ˢ List.range (tokens.size + 1) := by
    intro start stop hle hsize
    rw [List.mem_product, List.mem_range, List.mem_range]
    omega
  have hsymbols : b.symbolKeys.map (fun key => (key.name, key.start, key.stop)) ⊆
      g.heads ×ˢ (List.range (tokens.size + 1) ×ˢ List.range (tokens.size + 1)) := by
    intro p hp
    obtain ⟨key, hkey, rfl⟩ := List.mem_map.mp hp
    obtain ⟨done, hdone, -, hhead, horigin⟩ := (hb.symbols key hkey).completed
    refine List.mem_product.mpr ⟨?_, hspan (horigin ▸ hdone.origin_le) hdone.le_size⟩
    rw [← hhead]
    exact g.head_mem_heads _
  have hitems : b.itemKeys.map (fun key => (key.item, key.start, key.stop)) ⊆
      Item.all g ×ˢ (List.range (tokens.size + 1) ×ˢ List.range (tokens.size + 1)) := by
    intro p hp
    obtain ⟨key, hkey, rfl⟩ := List.mem_map.mp hp
    have hcharted := (hb.items key hkey).charted
    exact List.mem_product.mpr ⟨Item.mem_all _, hspan hcharted.origin_le hcharted.le_size⟩
  have hsymbolsInj : Function.Injective
      fun key : SymbolKey => (key.name, key.start, key.stop) := by
    rintro ⟨n, i, k⟩ ⟨n', i', k'⟩ h
    simp only [Prod.mk.injEq] at h
    obtain ⟨rfl, rfl, rfl⟩ := h
    rfl
  have hitemsInj : Function.Injective
      fun key : ItemKey g => (key.item, key.start, key.stop) := by
    rintro ⟨n, i, k⟩ ⟨n', i', k'⟩ h
    simp only [Prod.mk.injEq] at h
    obtain ⟨rfl, rfl, rfl⟩ := h
    rfl
  have hsymbolsLe := length_le_of_nodup_of_subset (hb.symbolIds.nodup.map hsymbolsInj) hsymbols
  have hitemsLe := length_le_of_nodup_of_subset (hb.itemIds.nodup.map hitemsInj) hitems
  simp only [Builder.symbolKeys, Builder.itemKeys, List.length_map, Array.length_toList,
    List.length_product, List.length_range, Item.length_all] at hsymbolsLe hitemsLe
  rw [← g.map_head_rules, List.length_map] at hsymbolsLe
  rw [Nat.add_mul]
  omega

/-- **Everything gets filled.**  Each step fills one node, and there are no more
nodes than the fuel allows for. -/
theorem Progress.drain (hc : c.Supplies tokens leftOut) {fuel : Nat}
    (h : b.Progress tokens done none)
    (hfuel : (g.rules.length + g.numDottedItems) * ((tokens.size + 1) * (tokens.size + 1)) ≤
      done + fuel) :
    ∃ total, (b.drain c leftOut fuel).Progress tokens total none ∧
      (b.drain c leftOut fuel).pendingSymbols = [] ∧
      (b.drain c leftOut fuel).pendingItems = [] ∧
      b.symbolKeys <+: (b.drain c leftOut fuel).symbolKeys := by
  induction fuel generalizing b done with
  | zero =>
    -- as many nodes are filled as there can be, so none is pending
    have hsize := h.size_le
    have hcount := h.count
    rw [numPending] at hcount
    exact ⟨done, h, List.eq_nil_of_length_eq_zero (show b.pendingSymbols.length = 0 by omega),
      List.eq_nil_of_length_eq_zero (show b.pendingItems.length = 0 by omega),
      List.prefix_refl _⟩
  | succ fuel ih =>
    rw [Builder.drain]
    split
    · rename_i id rest hpending
      obtain ⟨hfill, hkeys⟩ := (h.popSymbol hpending).fillSymbol hc
      obtain ⟨total, hprogress, hsymbols, hitems, hkeys'⟩ := ih hfill (by omega)
      exact ⟨total, hprogress, hsymbols, hitems, hkeys.trans hkeys'⟩
    · rename_i hsymbols
      split
      · rename_i id rest hpending
        obtain ⟨hfill, hkeys⟩ := (h.popItem hpending).fillItem hc
        obtain ⟨total, hprogress, hsymbols, hitems, hkeys'⟩ := ih hfill (by omega)
        exact ⟨total, hprogress, hsymbols, hitems, hkeys.trans hkeys'⟩
      · rename_i hitems
        exact ⟨done, h, hsymbols, hitems, List.prefix_refl _⟩

/-- A forest begins with its root, the start symbol over the whole input: it is
predicted at the start, and completed at the end of an accepted input. -/
theorem progress_root {s : Name} (hs : g.start = some s)
    (hcompleted : Completed g tokens s 0 tokens.size) :
    (requestSymbol ({} : Builder g) ⟨s, 0, tokens.size⟩).2.Progress tokens 0 none ∧
      (requestSymbol ({} : Builder g) ⟨s, 0, tokens.size⟩).2.symbolKeys[
        (requestSymbol ({} : Builder g) ⟨s, 0, tokens.size⟩).1]? = some ⟨s, 0, tokens.size⟩ := by
  have hroot : SymbolKey.Genuine g tokens ⟨s, 0, tokens.size⟩ := by
    refine ⟨fun id hhead => .seed ?_, hcompleted⟩
    rw [Grammar.startAlternatives, hs]
    exact Grammar.mem_alternatives.mpr hhead
  have hempty := progress_empty (g := g) tokens
  obtain ⟨hextends, hsound, hkey⟩ := requestSymbol_spec hempty.toSound hroot
  exact ⟨hempty.extend hextends hsound, hkey⟩

end Builder

/-! ### The forest of an input -/

namespace Forest

def symbolKeys (f : Forest g α) : List SymbolKey := f.symbols.toList.map (·.key)

def itemKeys (f : Forest g α) : List (ItemKey g) := f.items.toList.map (·.key)

/-- A forest of the input whose nodes are all genuine and filled. -/
structure Packed (tokens : Tokens α) (f : Forest g α) : Prop where
  tokens_eq : f.tokens = tokens
  nodup_symbolKeys : f.symbolKeys.Nodup
  nodup_itemKeys : f.itemKeys.Nodup
  symbol : ∀ {id : SymbolId} {node : SymbolNode}, f.symbols[id]? = some node →
    node.key.Genuine g tokens ∧ node.Filled tokens f.itemKeys
  item : ∀ {id : ItemId} {node : ItemNode g}, f.items[id]? = some node →
    node.key.Genuine tokens ∧ node.Filled tokens f.symbolKeys f.itemKeys
  root : ∃ s, g.start = some s ∧ f.symbolKeys[f.root]? = some ⟨s, 0, tokens.size⟩

end Forest

/-- The bound on the number of nodes is what all that are genuine need. -/
theorem nodeBound_recognize (g : Grammar) (tokens : Tokens α) :
    (recognize g tokens).nodeBound =
      (g.rules.length + g.numDottedItems) * ((tokens.size + 1) * (tokens.size + 1)) := by
  rw [Chart.nodeBound, (regular_recognize g tokens).tokens_eq]

theorem packed_of_forest? {tokens : Tokens α} {f : Forest g α}
    (h : (recognize g tokens).forest? = some f) : f.Packed tokens := by
  have htokens := (regular_recognize g tokens).tokens_eq
  have haccepted : (recognize g tokens).isAccepted = true := by
    rw [← Chart.isSome_forest?, h]
    rfl
  obtain ⟨s, hs, hcompleted⟩ := (isAccepted_recognize g tokens).mp haccepted
  rw [Chart.forest?, hs, htokens] at h
  simp only [haccepted, if_true, Option.some.injEq] at h
  obtain ⟨hstart, hkey⟩ := Builder.progress_root hs hcompleted
  generalize Builder.requestSymbol {} ⟨s, 0, tokens.size⟩ = request at h hstart hkey
  obtain ⟨root, b⟩ := request
  dsimp only at h hstart hkey
  obtain ⟨total, hprogress, hsymbols, hitems, hkeys⟩ :=
    hstart.drain (supplies_recognize g tokens)
      (Nat.le_of_eq ((nodeBound_recognize g tokens).symm.trans (Nat.zero_add _).symm))
  generalize b.drain (recognize g tokens) _ _ = final at h hprogress hsymbols hitems hkeys
  subst h
  refine ⟨rfl, hprogress.symbolIds.nodup, hprogress.itemIds.nodup, ?_, ?_, s, hs,
    getElem?_of_prefix hkeys hkey⟩
  · intro id node hnode
    refine ⟨hprogress.symbols _ (Builder.mem_symbolKeys hnode),
      hprogress.filledSymbol hnode ?_ (by simp)⟩
    rw [hsymbols]
    exact List.not_mem_nil
  · intro id node hnode
    refine ⟨hprogress.items _ (Builder.mem_itemKeys hnode),
      hprogress.filledItem hnode ?_ (by simp)⟩
    rw [hitems]
    exact List.not_mem_nil

/-- An accepted input comes with the forest of its finished chart. -/
theorem forest?_of_parse {tokens : Tokens α} {f : Forest g α}
    (h : parse g tokens = .accepted f) : (recognize g tokens).forest? = some f := by
  rw [parse, Chart.outcome] at h
  split at h
  · rename_i forest hforest
    rw [hforest, Outcome.accepted.inj h]
  · contradiction

/-- **The forest of an accepted input is packed.** -/
theorem packed_of_parse {tokens : Tokens α} {f : Forest g α}
    (h : parse g tokens = .accepted f) : f.Packed tokens :=
  packed_of_forest? (forest?_of_parse h)

end ChartParser
