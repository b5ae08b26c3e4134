/-
One node at a time: its trees and their number.

If the trees of all nodes that a node refers to are made, each once, then so are
those of the node, and its count is their number.

* **`Lists`** — a list holds what a node stands for, each once;
* **`Packed.lists_grow`** — growing a node lists what it stands for;
* **`Packed.countNode_eq`** — counting a node gives the length of that list, unless
  it is too large.

A sum or product that is too large makes everything above it too large, so it
does not matter where a count is given up.
-/
import ChartParser.Forest.Trees
import ChartParser.Proofs.Forest.Meaning

namespace ChartParser

open ChartParser.Tree

variable {g : Grammar} {α : Type} {tokens : Tokens α}

/-- A number, unless it is too large. -/
def bounded (n : Nat) : Option Nat := if n ≤ countLimit then some n else none

theorem boundedMul_eq (a b : Nat) : boundedMul a b = bounded (a * b) := rfl

/-- A count that is given up is too large. -/
def Counts (count : Option Nat) (n : Nat) : Prop :=
  count = some n ∨ count = none ∧ countLimit < n

theorem counts_bounded (n : Nat) : Counts (bounded n) n := by
  rw [bounded]
  split
  · exact .inl rfl
  · exact .inr ⟨rfl, by omega⟩

/-- A sum of counts is the count of the sum. -/
theorem foldlM_boundedAdd {β : Type} {count : β → Option Nat} {size : β → Nat} {as : List β}
    (h : ∀ a ∈ as, Counts (count a) (size a)) {total : Nat} (htotal : total ≤ countLimit) :
    as.foldlM (fun total a => do boundedAdd total (← count a)) total =
      bounded (total + (as.map size).sum) := by
  induction as generalizing total with
  | nil => exact (if_pos htotal).symm
  | cons a as ih =>
    have has : ∀ a ∈ as, Counts (count a) (size a) :=
      fun b hb => h b (List.mem_cons_of_mem a hb)
    rw [List.foldlM_cons, List.map_cons, List.sum_cons, ← Nat.add_assoc]
    rcases h a List.mem_cons_self with hsome | ⟨hnone, hlarge⟩
    · -- once the sum is too large it stays so, whatever is added
      rw [hsome]
      show (boundedAdd total (size a)).bind _ = _
      by_cases hle : total + size a ≤ countLimit
      · rw [boundedAdd, if_pos hle]
        exact ih has hle
      · rw [boundedAdd, if_neg hle, bounded, if_neg (by omega)]
        rfl
    · rw [hnone, bounded, if_neg (by omega)]
      rfl

namespace Forest

variable {f : Forest g α}

/-- A list holds what a node stands for, each once. -/
structure Lists (tokens : Tokens α) (f : Forest g α) (n : Node) (l : List (List (Tree g α))) :
    Prop where
  nodup : l.Nodup
  mem_iff : ∀ ts, ts ∈ l ↔ ts ∈ f.meaning tokens n

theorem Lists.length_eq {n : Node} {l l' : List (List (Tree g α))} (h : f.Lists tokens n l)
    (h' : f.Lists tokens n l') : l.length = l'.length := by
  refine ((List.perm_ext_iff_of_nodup h.nodup h'.nodup).mpr fun ts => ?_).length_eq
  rw [h.mem_iff, h'.mem_iff]

theorem Lists.encard_eq {n : Node} {l : List (List (Tree g α))} (h : f.Lists tokens n l) :
    (f.meaning tokens n).encard = l.length := by
  classical
  have hset : f.meaning tokens n = ↑l.toFinset := by
    ext ts
    rw [List.coe_toFinset, Set.mem_ofPred_eq, h.mem_iff]
  rw [hset, Set.encard_coe_eq_coe_finsetCard, List.toFinset_card_of_nodup h.nodup]

end Forest

/-- What is made of a node so far; a tree of a symbol as a sequence of one. -/
def Grown.listsOf (w : Grown g α) : Node → List (List (Tree g α))
  | .symbol id => (w.treesOf id).map ([·])
  | .item id => w.sequencesOf id

namespace Forest

variable {f : Forest g α}

/-- What growing makes of a node. -/
def growLists (f : Forest g α) (w : Grown g α) : Node → List (List (Tree g α))
  | .symbol id => (f.growSymbol w id).map ([·])
  | .item id => f.growItem w id

/-! ### Symbols -/

/-- The trees of one alternative of a symbol. -/
def branches (f : Forest g α) (w : Grown g α) (m : ItemId) : List (Tree g α) :=
  match f.items[m]? with
  | none => []
  | some inner => (w.sequencesOf m).map (.branch inner.item.expr inner.start inner.stop)

theorem branches_eq {m : ItemId} {inner : ItemNode g} (hinner : f.items[m]? = some inner)
    (w : Grown g α) :
    f.branches w m =
      (w.sequencesOf m).map (.branch inner.item.expr inner.start inner.stop) := by
  rw [branches, hinner]

theorem growSymbol_eq {id : SymbolId} {node : SymbolNode} (hnode : f.symbols[id]? = some node)
    (w : Grown g α) : f.growSymbol w id = node.alternatives.flatMap (f.branches w) := by
  rw [growSymbol, alternatives_eq hnode]
  rfl

theorem Packed.exists_alternative (h : f.Packed tokens) {id : SymbolId} {node : SymbolNode}
    (hnode : f.symbols[id]? = some node) {m : ItemId} (hm : m ∈ node.alternatives) :
    ∃ inner, f.items[m]? = some inner := by
  obtain ⟨item, hkey, -⟩ := (h.symbol hnode).2.sound m hm
  obtain ⟨inner, hinner, -⟩ := exists_item_of_key hkey
  exact ⟨inner, hinner⟩

theorem Packed.lists_growSymbol (h : f.Packed tokens) {id : SymbolId} {node : SymbolNode}
    (hnode : f.symbols[id]? = some node) {w : Grown g α}
    (hw : ∀ m ∈ node.alternatives, f.Lists tokens (.item m) (w.sequencesOf m)) :
    f.Lists tokens (.symbol id) ((f.growSymbol w id).map ([·])) := by
  rw [growSymbol_eq hnode]
  constructor
  · refine List.Nodup.map (fun t t' heq => List.cons.inj heq |>.1) ?_
    rw [List.nodup_flatMap]
    constructor
    · intro m hm
      obtain ⟨inner, hinner⟩ := h.exists_alternative hnode hm
      rw [branches_eq hinner]
      exact (hw m hm).nodup.map fun ts ts' heq => (Tree.branch.inj heq).2.2.2
    · -- trees of different alternatives have different expressions
      refine (h.symbol hnode).2.nodup.imp_of_mem ?_
      intro m m' hm hm' hne
      obtain ⟨inner, hinner⟩ := h.exists_alternative hnode hm
      obtain ⟨inner', hinner'⟩ := h.exists_alternative hnode hm'
      show (f.branches w m).Disjoint (f.branches w m')
      rw [branches_eq hinner, branches_eq hinner']
      intro t ht ht'
      obtain ⟨ts, -, rfl⟩ := List.mem_map.mp ht
      obtain ⟨ts', -, heq⟩ := List.mem_map.mp ht'
      exact hne (h.eq_of_alternatives hnode hm hm' hinner hinner' (Tree.branch.inj heq).1.symm)
  · intro ts
    rw [h.mem_meaning_symbol hnode, List.mem_map]
    constructor
    · rintro ⟨t, ht, rfl⟩
      obtain ⟨m, hm, ht⟩ := List.mem_flatMap.mp ht
      obtain ⟨inner, hinner⟩ := h.exists_alternative hnode hm
      rw [branches_eq hinner] at ht
      obtain ⟨children, hchildren, rfl⟩ := List.mem_map.mp ht
      exact ⟨m, hm, inner, hinner, children, ((hw m hm).mem_iff children).mp hchildren, rfl⟩
    · rintro ⟨m, hm, inner, hinner, children, hchildren, rfl⟩
      refine ⟨_, List.mem_flatMap.mpr ⟨m, hm, ?_⟩, rfl⟩
      rw [branches_eq hinner]
      exact List.mem_map_of_mem (((hw m hm).mem_iff children).mpr hchildren)

theorem Packed.length_growSymbol (h : f.Packed tokens) {id : SymbolId} {node : SymbolNode}
    (hnode : f.symbols[id]? = some node) (w : Grown g α) :
    (f.growSymbol w id).length =
      (node.alternatives.map fun m => (w.sequencesOf m).length).sum := by
  rw [growSymbol_eq hnode, List.length_flatMap]
  congr 1
  refine List.map_congr_left fun m hm => ?_
  obtain ⟨inner, hinner⟩ := h.exists_alternative hnode hm
  rw [branches_eq hinner, List.length_map]

/-! ### Items -/

/-- What is made of the earlier terms of a family. -/
def firstLists (w : Grown g α) (family : Family) : List (List (Tree g α)) :=
  match family.prev with
  | some prev => w.sequencesOf prev
  | none => [[]]

/-- The child sequences of one family of an item. -/
def sequences (f : Forest g α) (w : Grown g α) (family : Family) : List (List (Tree g α)) :=
  (firstLists w family).flatMap fun first =>
    (f.lastTrees w family.child).map fun last => first ++ [last]

theorem growItem_eq {id : ItemId} {node : ItemNode g} (hnode : f.items[id]? = some node)
    (w : Grown g α) :
    f.growItem w id =
      if node.families.isEmpty then [[]] else node.families.flatMap (f.sequences w) := by
  rw [growItem, families_eq hnode]
  rfl

/-- The parts of a family are made. -/
structure PartsListed (tokens : Tokens α) (f : Forest g α) (w : Grown g α) (family : Family) :
    Prop where
  nodup_firsts : (firstLists w family).Nodup
  mem_firsts : ∀ xs, xs ∈ firstLists w family ↔ xs ∈ f.firsts tokens family
  nodup_lasts : (f.lastTrees w family.child).Nodup
  mem_lasts : ∀ z, z ∈ f.lastTrees w family.child ↔ [z] ∈ f.lasts tokens family

theorem Packed.partsListed (h : f.Packed tokens) {cut : Nat × Family} (hcut : f.Cut tokens cut)
    {w : Grown g α} (hw : ∀ m ∈ cut.2.nodes, f.Lists tokens m (w.listsOf m)) :
    f.PartsListed tokens w cut.2 := by
  obtain ⟨hnodup, hmem⟩ : (firstLists w cut.2).Nodup ∧
      ∀ xs, xs ∈ firstLists w cut.2 ↔ xs ∈ f.firsts tokens cut.2 := by
    rw [firstLists, firsts]
    cases hprev : cut.2.prev with
    | none => exact ⟨List.nodup_singleton _, fun xs => List.mem_singleton⟩
    | some id =>
      have hlists := hw (.item id) (mem_nodes_family.mpr (.inl ⟨id, hprev, rfl⟩))
      exact ⟨hlists.nodup, hlists.mem_iff⟩
  obtain ⟨hnodup', hmem'⟩ : (f.lastTrees w cut.2.child).Nodup ∧
      ∀ z, z ∈ f.lastTrees w cut.2.child ↔ [z] ∈ f.lasts tokens cut.2 := by
    have hnonempty := hcut.nonempty_lasts
    rw [lasts] at hnonempty ⊢
    cases hchild : cut.2.child with
    | token position =>
      rw [hchild] at hnonempty
      obtain ⟨zs, token, htoken, -⟩ := hnonempty
      have htrees : f.lastTrees w (.token position) = [.leaf position token] := by
        rw [lastTrees, h.tokens_eq, htoken]
      rw [htrees]
      refine ⟨List.nodup_singleton _, fun z => ?_⟩
      simp only [List.mem_singleton, Set.mem_ofPred_eq, htoken, Option.some.injEq,
        exists_eq_left', List.cons.injEq, and_true]
    | symbol id =>
      have hlists := hw (.symbol id) (mem_nodes_family.mpr (.inr ⟨id, hchild, rfl⟩))
      refine ⟨hlists.nodup.of_map _, fun z => ?_⟩
      show z ∈ w.treesOf id ↔ [z] ∈ f.meaning tokens (.symbol id)
      rw [← hlists.mem_iff, Grown.listsOf, List.mem_map]
      simp only [List.cons.injEq, and_true, exists_eq_right]
  exact ⟨hnodup, hmem, hnodup', hmem'⟩

theorem PartsListed.nodup_sequences {w : Grown g α} {family : Family}
    (h : f.PartsListed tokens w family) : (f.sequences w family).Nodup := by
  rw [sequences, List.nodup_flatMap]
  constructor
  · intro first _
    refine h.nodup_lasts.map fun last last' heq => ?_
    simpa using heq
  · refine h.nodup_firsts.imp fun {first first'} hne => ?_
    intro ts hts hts'
    obtain ⟨last, -, rfl⟩ := List.mem_map.mp hts
    obtain ⟨last', -, heq⟩ := List.mem_map.mp hts'
    exact hne (List.append_inj_left' heq rfl).symm

theorem Cut.mem_sequences {w : Grown g α} {cut : Nat × Family} (hcut : f.Cut tokens cut)
    (h : f.PartsListed tokens w cut.2) {ts : List (Tree g α)} :
    ts ∈ f.sequences w cut.2 ↔
      ∃ xs ∈ f.firsts tokens cut.2, ∃ zs ∈ f.lasts tokens cut.2, ts = xs ++ zs := by
  rw [sequences, List.mem_flatMap]
  constructor
  · rintro ⟨xs, hxs, hts⟩
    obtain ⟨z, hz, rfl⟩ := List.mem_map.mp hts
    exact ⟨xs, (h.mem_firsts xs).mp hxs, [z], (h.mem_lasts z).mp hz, rfl⟩
  · rintro ⟨xs, hxs, zs, hzs, rfl⟩
    obtain ⟨z, rfl, -⟩ := hcut.start_eq zs hzs
    exact ⟨xs, (h.mem_firsts xs).mpr hxs, List.mem_map_of_mem ((h.mem_lasts z).mpr hzs)⟩

theorem length_sequences (w : Grown g α) (family : Family) :
    (f.sequences w family).length =
      (firstLists w family).length * (f.lastTrees w family.child).length := by
  rw [sequences, List.length_flatMap]
  simp only [List.length_map, List.map_const', List.sum_replicate_nat]

theorem Packed.lists_growItem (h : f.Packed tokens) {id : ItemId} {node : ItemNode g}
    (hnode : f.items[id]? = some node) {w : Grown g α}
    (hw : ∀ family ∈ node.families, ∀ m ∈ family.nodes, f.Lists tokens m (w.listsOf m)) :
    f.Lists tokens (.item id) (f.growItem w id) := by
  rw [growItem_eq hnode]
  rcases h.mem_meaning_item hnode with ⟨hnil, hmem⟩ | ⟨cuts, hne, hfamilies, hnodup, hcuts, hmem⟩
  · rw [hnil]
    refine ⟨List.nodup_singleton _, fun ts => ?_⟩
    rw [hmem]
    exact List.mem_singleton
  · have hempty : ¬ node.families.isEmpty = true := by
      rw [hfamilies, List.isEmpty_iff, List.map_eq_nil_iff]
      exact hne
    have hparts : ∀ cut ∈ cuts, f.PartsListed tokens w cut.2 := by
      intro cut hcut
      refine h.partsListed (hcuts cut hcut) (hw cut.2 ?_)
      rw [hfamilies]
      exact List.mem_map_of_mem hcut
    rw [if_neg hempty, hfamilies, List.flatMap_map]
    constructor
    · rw [List.nodup_flatMap]
      refine ⟨fun cut hcut => (hparts cut hcut).nodup_sequences, ?_⟩
      -- the last trees of different families start at different positions
      refine (List.pairwise_map.mp hnodup).imp_of_mem fun {cut cut'} hcut hcut' hsplit => ?_
      show (f.sequences w cut.2).Disjoint (f.sequences w cut'.2)
      intro ts hts hts'
      obtain ⟨xs, -, zs, hzs, rfl⟩ := ((hcuts cut hcut).mem_sequences (hparts cut hcut)).mp hts
      obtain ⟨xs', -, zs', hzs', heq⟩ :=
        ((hcuts cut' hcut').mem_sequences (hparts cut' hcut')).mp hts'
      obtain ⟨z, rfl, hz⟩ := (hcuts cut hcut).start_eq zs hzs
      obtain ⟨z', rfl, hz'⟩ := (hcuts cut' hcut').start_eq zs' hzs'
      have hlast := List.append_inj_right' heq rfl
      rw [List.cons.injEq] at hlast
      exact hsplit (hz.symm.trans (hlast.1 ▸ hz'))
    · intro ts
      rw [hmem, List.mem_flatMap]
      refine exists_congr fun cut => and_congr_right fun hcut => ?_
      exact (hcuts cut hcut).mem_sequences (hparts cut hcut)

/-! ### Any node -/

/-- **Growing is exact.**  If what a node refers to is made, then growing it makes
all it stands for, each once. -/
theorem Packed.lists_grow (h : f.Packed tokens) {n : Node} (hn : n ∈ f.nodes) {w : Grown g α}
    (hw : ∀ m, f.Refers n m → f.Lists tokens m (w.listsOf m)) :
    f.Lists tokens n (f.growLists w n) := by
  cases n with
  | symbol id =>
    obtain ⟨node, hnode⟩ := mem_nodes_symbol.mp hn
    exact h.lists_growSymbol hnode fun m hm =>
      hw (.item m) ((refers_symbol_iff hnode).mpr ⟨m, hm, rfl⟩)
  | item id =>
    obtain ⟨node, hnode⟩ := mem_nodes_item.mp hn
    exact h.lists_growItem hnode fun family hfamily m hm =>
      hw m ((refers_item_iff hnode).mpr ⟨family, hfamily, hm⟩)

/-- The count of a family from the counts of its parts. -/
theorem countFamily_eq {marks : Marks} {family : Family} {first last : Nat}
    (hfirst : family.prev.elim (some 1) (fun id => (marks.get (.item id)).count?) = some first)
    (hlast : ∀ id, family.child = .symbol id → (marks.get (.symbol id)).count? = some last)
    (htoken : ∀ position, family.child = .token position → last = 1) :
    marks.countFamily family = boundedMul first last := by
  obtain ⟨prev, child⟩ := family
  rw [Marks.countFamily]
  cases prev with
  | none =>
    obtain rfl := Option.some.inj hfirst
    cases child with
    | token position =>
      obtain rfl := htoken position rfl
      rfl
    | symbol id =>
      dsimp only
      rw [hlast id rfl]
      rfl
  | some i =>
    rw [Option.elim_some] at hfirst
    dsimp only
    rw [hfirst]
    cases child with
    | token position =>
      obtain rfl := htoken position rfl
      rfl
    | symbol id =>
      dsimp only
      rw [hlast id rfl]
      rfl

theorem Packed.counts_countFamily (h : f.Packed tokens) {cut : Nat × Family}
    (hcut : f.Cut tokens cut) {w : Grown g α} {marks : Marks}
    (hmarks : ∀ m ∈ cut.2.nodes, marks.get m = .counted (w.listsOf m).length) :
    Counts (marks.countFamily cut.2) (f.sequences w cut.2).length := by
  have hfirst : cut.2.prev.elim (some 1) (fun id => (marks.get (.item id)).count?) =
      some (firstLists w cut.2).length := by
    rw [firstLists]
    cases hprev : cut.2.prev with
    | none => rfl
    | some id =>
      rw [Option.elim_some, hmarks (.item id) (mem_nodes_family.mpr (.inl ⟨id, hprev, rfl⟩))]
      rfl
  have hlast : ∀ id, cut.2.child = .symbol id →
      (marks.get (.symbol id)).count? = some (f.lastTrees w cut.2.child).length := by
    intro id hchild
    rw [hmarks (.symbol id) (mem_nodes_family.mpr (.inr ⟨id, hchild, rfl⟩)), hchild,
      Grown.listsOf, List.length_map]
    rfl
  have htoken : ∀ position, cut.2.child = .token position →
      (f.lastTrees w cut.2.child).length = 1 := by
    intro position hchild
    have hnonempty := hcut.nonempty_lasts
    rw [lasts, hchild] at hnonempty
    obtain ⟨zs, token, htoken, -⟩ := hnonempty
    rw [hchild, lastTrees, h.tokens_eq, htoken]
    rfl
  rw [countFamily_eq hfirst hlast htoken, boundedMul_eq, length_sequences]
  exact counts_bounded _

/-- **Counting is exact.**  If what a node refers to is counted, then the count of
the node is the number of its trees, unless that is too large. -/
theorem Packed.countNode_eq (h : f.Packed tokens) {n : Node} (hn : n ∈ f.nodes) {w : Grown g α}
    {marks : Marks} (hmarks : ∀ m, f.Refers n m → marks.get m = .counted (w.listsOf m).length) :
    f.countNode marks n = bounded (f.growLists w n).length := by
  cases n with
  | symbol id =>
    obtain ⟨node, hnode⟩ := mem_nodes_symbol.mp hn
    have hcounts : ∀ m ∈ node.alternatives,
        Counts (marks.get (.item m)).count? (w.sequencesOf m).length := by
      intro m hm
      rw [hmarks (.item m) ((refers_symbol_iff hnode).mpr ⟨m, hm, rfl⟩)]
      exact .inl rfl
    have hsum := foldlM_boundedAdd hcounts (Nat.zero_le _)
    rw [Nat.zero_add] at hsum
    rw [countNode, Marks.countAlternatives, alternatives_eq hnode, growLists, List.length_map,
      h.length_growSymbol hnode]
    exact hsum
  | item id =>
    obtain ⟨node, hnode⟩ := mem_nodes_item.mp hn
    rw [countNode, Marks.countFamilies, families_eq hnode, growLists, growItem_eq hnode]
    rcases h.mem_meaning_item hnode with ⟨hnil, -⟩ | ⟨cuts, hne, hfamilies, -, hcuts, -⟩
    · rw [hnil]
      rfl
    · have hempty : ¬ node.families.isEmpty = true := by
        rw [hfamilies, List.isEmpty_iff, List.map_eq_nil_iff]
        exact hne
      have hcounts : ∀ family ∈ node.families,
          Counts (marks.countFamily family) (f.sequences w family).length := by
        intro family hfamily
        have hrefers := hfamily
        rw [hfamilies] at hfamily
        obtain ⟨cut, hcut, rfl⟩ := List.mem_map.mp hfamily
        exact h.counts_countFamily (hcuts cut hcut) fun m hm =>
          hmarks m ((refers_item_iff hnode).mpr ⟨cut.2, hrefers, hm⟩)
      have hsum := foldlM_boundedAdd hcounts (Nat.zero_le _)
      rw [Nat.zero_add] at hsum
      rw [if_neg hempty, if_neg hempty, List.length_flatMap]
      exact hsum

end Forest

end ChartParser
