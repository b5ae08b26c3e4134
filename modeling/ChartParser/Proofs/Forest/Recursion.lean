/-
The trees of a forest by recursion.

As long as no node is below itself, the trees of a forest can be told by recursion from
node to node, as if nothing were shared: a symbol has the trees of its alternatives, and
an item has every sequence of its earlier terms followed by every tree of its last one.
The walk that enumerates the trees goes through a stack instead, meets shared nodes more
than once and makes their trees the first time only; it gives the same trees, in the same
order.

* **`symbolTrees`** and **`itemSequences`** — the recursion, with its two equations
  `symbolTrees_eq` and `itemSequences_eq`;
* **`Packed.acyclic`** — if every node stands for finitely many trees, the recursion
  comes to an end;
* **`growLists_eq`** — making the trees of a node is one step of the recursion;
* **`FollowsRecursion.visit`** and **`Packed.followsRecursion_growWalk`** — what one visit
  and a whole walk have made is what the recursion gives;
* **`trees_eq_symbolTrees`** — the trees that are enumerated are those of the recursion,
  and there are as many as were counted.
-/
import ChartParser.Proofs.Forest.Reachability
import Mathlib.Order.WellFoundedSet

namespace ChartParser

open ChartParser.Tree Relation

variable {g : Grammar} {α : Type} {tokens : Tokens α}

namespace Forest

variable {f : Forest g α}

/-! ### The recursion -/

theorem refers_alternative {id : SymbolId} {m : ItemId} (hm : m ∈ f.alternatives id) :
    f.Refers (.symbol id) (.item m) := List.mem_map_of_mem hm

theorem refers_prev {id prev : ItemId} {family : Family} (hfamily : family ∈ f.families id)
    (hprev : family.prev = some prev) : f.Refers (.item id) (.item prev) :=
  List.mem_flatMap.mpr ⟨family, hfamily, mem_nodes_family.mpr (.inl ⟨prev, hprev, rfl⟩)⟩

theorem refers_child {id : ItemId} {child : SymbolId} {family : Family}
    (hfamily : family ∈ f.families id) (hchild : family.child = .symbol child) :
    f.Refers (.item id) (.symbol child) :=
  List.mem_flatMap.mpr ⟨family, hfamily, mem_nodes_family.mpr (.inr ⟨child, hchild, rfl⟩)⟩

/-- Going from nodes to nodes they refer to comes to an end. -/
def Acyclic (f : Forest g α) : Prop := WellFounded fun m n => f.Refers n m

mutual

/-- The trees of a symbol: alternative by alternative, a branch for each sequence of
children. -/
def symbolTrees (h : f.Acyclic) (id : SymbolId) : List (Tree g α) :=
  (f.alternatives id).attach.flatMap fun ⟨m, hm⟩ =>
    have := refers_alternative hm
    match f.items[m]? with
    | none => []
    | some node => (itemSequences h m).map (.branch node.item.expr node.start node.stop)
termination_by h.wrap (.symbol id)

/-- The child sequences of an item: the empty one if it has no families, and otherwise,
family by family, each sequence of the earlier terms followed by each tree of the last
term, which is a leaf if the term is a token. -/
def itemSequences (h : f.Acyclic) (id : ItemId) : List (List (Tree g α)) :=
  if (f.families id).isEmpty then [[]]
  else
    (f.families id).attach.flatMap fun ⟨family, hfamily⟩ =>
      let firsts := match hprev : family.prev with
        | none => [[]]
        | some prev =>
          have := refers_prev hfamily hprev
          itemSequences h prev
      let lasts : List (Tree g α) := match hchild : family.child with
        | .token position => (f.tokens[position]?.map (Tree.leaf position)).toList
        | .symbol child =>
          have := refers_child hfamily hchild
          symbolTrees h child
      firsts.flatMap fun first => lasts.map fun last => first ++ [last]
termination_by h.wrap (.item id)

end

/-- What the recursion gives for the earlier terms of a family. -/
def firstSequences (h : f.Acyclic) (family : Family) : List (List (Tree g α)) :=
  match family.prev with
  | none => [[]]
  | some prev => f.itemSequences h prev

/-- What the recursion gives for the last term of a family. -/
def finalTrees (h : f.Acyclic) : Child → List (Tree g α)
  | .token position => (f.tokens[position]?.map (Tree.leaf position)).toList
  | .symbol child => f.symbolTrees h child

theorem symbolTrees_eq (h : f.Acyclic) (id : SymbolId) :
    f.symbolTrees h id = (f.alternatives id).flatMap fun m =>
      match f.items[m]? with
      | none => []
      | some node => (f.itemSequences h m).map (.branch node.item.expr node.start node.stop) := by
  rw [symbolTrees, List.flatMap_subtype, List.unattach_attach]
  intro m hm
  rfl

theorem itemSequences_eq (h : f.Acyclic) (id : ItemId) :
    f.itemSequences h id =
      if (f.families id).isEmpty then [[]]
      else (f.families id).flatMap fun family =>
        (f.firstSequences h family).flatMap fun first =>
          (f.finalTrees h family.child).map fun last => first ++ [last] := by
  rw [itemSequences]
  congr 1
  rw [List.flatMap_subtype, List.unattach_attach]
  rintro ⟨prev, child⟩ hfamily
  cases prev <;> cases child <;> rfl

/-! ### Where the recursion ends -/

/-- A node below itself would stand for infinitely many trees, and there are only finitely
many nodes to go through. -/
theorem Packed.acyclic (h : f.Packed tokens)
    (hfinite : ∀ n ∈ f.nodes, (f.meaning tokens n).Finite) : f.Acyclic := by
  have hirrefl : ∀ n, ¬ TransGen f.Refers n n := by
    intro n hcycle
    obtain ⟨m, hnm, -⟩ := TransGen.head'_iff.mp hcycle
    exact h.infinite_of_cycle hcycle (hfinite n (mem_nodes_of_refers_left hnm))
  have horder : IsStrictOrder Node fun m n => TransGen f.Refers n m :=
    { irrefl := hirrefl, trans := fun _ _ _ hmn hkm => hkm.trans hmn }
  have hwf := Set.wellFoundedOn_iff.mp (f.nodes.finite_toSet.wellFoundedOn
    (r := fun m n => TransGen f.Refers n m))
  refine Subrelation.wf (fun {m n} hnm => ?_) hwf
  exact ⟨.single hnm, (h.refers_cases hnm).1, mem_nodes_of_refers_left hnm⟩

/-- A forest whose derivations are counted has no cycles: all its nodes are below the
root, and stand for no more than the root does. -/
theorem acyclic_of_count? (hforest : (recognize g tokens).forest? = some f) {c : Nat}
    (hcount : f.count? = some c) : f.Acyclic := by
  have h := packed_of_forest? hforest
  refine h.acyclic fun n hn => ?_
  have hle := h.encard_le (reaches_of_forest? hforest hn)
  rw [h.encard_root] at hle
  rcases h.count?_cases with ⟨hfinite, -, -⟩ | ⟨-, hnone⟩
  · exact Set.encard_lt_top_iff.mp (hle.trans_lt hfinite.encard_lt_top)
  · rw [hcount] at hnone
    contradiction

/-! ### One step -/

/-- What the recursion gives for a node; a tree of a symbol as a sequence of one. -/
def listings (h : f.Acyclic) : Node → List (List (Tree g α))
  | .symbol id => (f.symbolTrees h id).map ([·])
  | .item id => f.itemSequences h id

variable {acyclic : f.Acyclic} {w w' : Grown g α}

theorem treesOf_eq_of_listsOf_eq {id : SymbolId}
    (h : w.listsOf (.symbol id) = f.listings acyclic (.symbol id)) :
    w.treesOf id = f.symbolTrees acyclic id :=
  List.map_injective_iff.mpr List.singleton_injective h

/-- Making the trees of a node is one step of the recursion. -/
theorem growLists_eq {n : Node}
    (h : ∀ m, f.Refers n m → w.listsOf m = f.listings acyclic m) :
    f.growLists w n = f.listings acyclic n := by
  cases n with
  | symbol id =>
    rw [growLists, listings, growSymbol, symbolTrees_eq]
    congr 1
    refine List.flatMap_congr fun m hm => ?_
    have hsequences : w.sequencesOf m = f.itemSequences acyclic m :=
      h (.item m) (refers_alternative hm)
    cases f.items[m]? with
    | none => rfl
    | some node =>
      show (w.sequencesOf m).map _ = (f.itemSequences acyclic m).map _
      rw [hsequences]
  | item id =>
    rw [growLists, listings, growItem, itemSequences_eq]
    congr 1
    refine List.flatMap_congr fun family hfamily => ?_
    have hfirsts : firstLists w family = f.firstSequences acyclic family := by
      rw [firstLists, firstSequences]
      cases hprev : family.prev with
      | none => rfl
      | some prev => exact h (.item prev) (refers_prev hfamily hprev)
    have hlasts : f.lastTrees w family.child = f.finalTrees acyclic family.child := by
      cases hchild : family.child with
      | token position =>
        rw [lastTrees, finalTrees]
        cases f.tokens[position]? <;> rfl
      | symbol child =>
        exact treesOf_eq_of_listsOf_eq (h (.symbol child) (refers_child hfamily hchild))
    show (firstLists w family).flatMap _ = _
    rw [hfirsts, hlasts]

/-! ### The walk -/

/-- What is made so far is what the recursion gives. -/
def FollowsRecursion (acyclic : f.Acyclic) (w : Grown g α) : Prop :=
  ∀ n, w.isDone n = true → w.listsOf n = f.listings acyclic n

variable {root : Node} {v : Visit} {stack stack' : List Visit} {marks marks' : Marks}

/-- **One visit** makes at most the trees of the node it leaves, after those of all the
nodes that this one refers to. -/
theorem FollowsRecursion.visit (h : FollowsRecursion acyclic w) (hv : v.node ∈ f.nodes)
    (hwalk : f.Walking tokens root (v :: stack) marks w)
    (hvisits : f.Visits stack marks w v stack' marks' w') : FollowsRecursion acyclic w' := by
  cases hvisits with
  | @leave n _ _ =>
    replace hv : n ∈ f.nodes := hv
    intro m hm
    by_cases hmn : m = n
    · subst hmn
      rw [left]
      split
      · rename_i hdone
        exact h m hdone
      · rw [(hwalk.grow_eq hv m).2, if_pos rfl]
        exact growLists_eq fun k hk => h k (hwalk.isDone_of_refers hk)
    · rw [hwalk.listsOf_left hv hmn]
      exact h m (((hwalk.isDone_left hv m).mp hm).resolve_left hmn)
  | pass => exact h
  | enter => exact h

/-- **A whole walk** follows the recursion, as long as counting is not given up. -/
theorem Packed.followsRecursion_growWalk (hpacked : f.Packed tokens) (hroot : root ∈ f.nodes)
    {fuel : Nat} (hwalk : f.Walking tokens root stack marks w)
    (hfuel : stack.length + f.work marks < fuel)
    (hcount : f.countWalk fuel stack marks ≠ none) (h : FollowsRecursion acyclic w) :
    ∃ result, f.GrowsTo fuel stack w result ∧ FollowsRecursion acyclic result := by
  refine hpacked.walk_induction hroot (motive := fun fuel stack marks w =>
    f.countWalk fuel stack marks ≠ none → FollowsRecursion acyclic w →
      ∃ result, f.GrowsTo fuel stack w result ∧ FollowsRecursion acyclic result)
    ?_ ?_ ?_ hwalk hfuel hcount h
  · intro fuel marks w _ _ h
    exact ⟨w, growsTo_nil, h⟩
  · intro fuel v stack marks w stack' marks' w' hv hwalk hvisits ih hcount h
    rw [hvisits.countWalk] at hcount
    obtain ⟨result, hgrows, hfollows⟩ := ih hcount (h.visit hv hwalk hvisits)
    exact ⟨result, hvisits.growsTo (hwalk.isDone_of_visits hv hvisits) hgrows, hfollows⟩
  · intro fuel v stack marks w _ _ hup _ hcount
    exact absurd (hup.countWalk fuel) hcount

/-- The walk from the root makes the trees that the recursion gives for the root. -/
theorem Packed.allTrees_eq (h : f.Packed tokens) (acyclic : f.Acyclic) {c : Nat}
    (hcount : f.count? = some c) : f.allTrees = f.symbolTrees acyclic f.root := by
  have hstart := walking_start tokens f (.symbol f.root)
  have hfuel := f.start_lt_walkBound (.symbol f.root)
  rcases h.walk h.root_mem_nodes hstart (hfuel _) with
    ⟨marks, result, hsome, hgrows, hwalk⟩ | ⟨hnone, -⟩
  · obtain ⟨result', hgrows', hfollows⟩ : ∃ result', f.GrowsTo (f.walkBound + 1) _ _ result' ∧
        FollowsRecursion acyclic result' :=
      h.followsRecursion_growWalk h.root_mem_nodes hstart (hfuel _)
        (by rw [hsome]; exact Option.some_ne_none marks)
        fun n hn => absurd hn (f.not_isDone_bare n)
    obtain rfl := hgrows.eq.symm.trans hgrows'.eq
    rw [allTrees, hgrows.eq]
    exact treesOf_eq_of_listsOf_eq (hfollows _ hwalk.isDone_root)
  · rw [count?, hnone] at hcount
    contradiction

/-- **Enumeration by recursion.**  If the derivations of an accepted input are counted, and
there are no more of them than asked for, then the trees that are enumerated are those that
the recursion gives for the root, in the same order, and their number is the count. -/
theorem trees_eq_symbolTrees (h : parse g tokens = .accepted f) {c limit : Nat}
    (hcount : f.count? = some c) (hlimit : c ≤ limit) :
    ∃ acyclic : f.Acyclic, f.trees limit = .ok (f.symbolTrees acyclic f.root) ∧
      (f.symbolTrees acyclic f.root).length = c := by
  have hpacked := packed_of_parse h
  have acyclic := acyclic_of_count? (forest?_of_parse h) hcount
  have htrees := hpacked.allTrees_eq acyclic hcount
  refine ⟨acyclic, trees_eq_ok_iff.mpr ⟨⟨c, hlimit, hcount⟩, htrees.symm⟩, ?_⟩
  rcases hpacked.count_cases with ⟨hlength, -⟩ | ⟨hnone, -⟩
  · rw [← htrees]
    exact Option.some.inj (hlength.symm.trans hcount)
  · rw [hcount] at hnone
    contradiction

/-- The recursion gives `n + (n + n)` first, whose last term starts first, and then
`(n + n) + n`. -/
theorem trees_eq_symbolTrees_sumOfThree :
    ∃ (f : Forest Examples.ambiguousSum Unit) (acyclic : f.Acyclic),
      parse Examples.ambiguousSum Examples.sumOfThree = .accepted f ∧ f.count? = some 2 ∧
        2 ≤ 5 ∧ f.trees 5 = .ok (f.symbolTrees acyclic f.root) ∧
        (f.symbolTrees acyclic f.root).length = 2 ∧
        (f.symbolTrees acyclic f.root).map outline =
          ["E\n`E\n``n\n`+\n`E\n``E\n```n\n``+\n``E\n```n\n",
           "E\n`E\n``E\n```n\n``+\n``E\n```n\n`+\n`E\n``n\n"] := by
  have hcount : (parse Examples.ambiguousSum Examples.sumOfThree).forest?.map
      (fun f => (f.count?, f.allTrees.map outline)) =
        some (some 2, ["E\n`E\n``n\n`+\n`E\n``E\n```n\n``+\n``E\n```n\n",
          "E\n`E\n``E\n```n\n``+\n``E\n```n\n`+\n`E\n``n\n"]) := by decide +kernel
  cases hparse : parse Examples.ambiguousSum Examples.sumOfThree with
  | rejected =>
    rw [hparse] at hcount
    contradiction
  | accepted f =>
    rw [hparse] at hcount
    obtain ⟨hcount, houtlines⟩ := Prod.mk.inj (Option.some.inj hcount)
    obtain ⟨acyclic, htrees, hlength⟩ :=
      trees_eq_symbolTrees hparse hcount (show 2 ≤ 5 by decide)
    rw [(trees_eq_ok_iff.mp htrees).2.symm] at houtlines
    exact ⟨f, acyclic, rfl, hcount, by decide, htrees, hlength, houtlines⟩

end Forest

end ChartParser
