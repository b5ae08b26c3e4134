/-
Ambiguity can be seen at the nodes.

Whether an input has more than one derivation is a question about whole trees, but a
forest answers it node by node: it is enough to ask whether some node leaves a choice.

* **`Packed.nontrivial_of_choice`** — a node with a choice stands for different
  sequences of trees, since every choice can be completed and none is there twice;
* **`Unfolds.unique`** — without a choice a node unfolds in only one way, and so a
  node below itself would not unfold at all;
* **`isAmbiguous_exact`** — a forest is ambiguous exactly if its input has two
  derivations, and exactly if they are not counted as one.
-/
import ChartParser.Proofs.Forest.Reachability

namespace ChartParser

open ChartParser.Tree

variable {g : Grammar} {α : Type} {tokens : Tokens α}

namespace Forest

variable {f : Forest g α}

/-- The number of ways to go on from a node. -/
def numChoices (f : Forest g α) : Node → Nat
  | .symbol id => (f.alternatives id).length
  | .item id => (f.families id).length

theorem isAmbiguous_iff : f.isAmbiguous = true ↔ ∃ n ∈ f.nodes, 1 < f.numChoices n := by
  rw [isAmbiguous, Bool.or_eq_true, Array.any_eq_true', Array.any_eq_true']
  simp only [decide_eq_true_eq]
  constructor
  · rintro (⟨node, hmem, hchoice⟩ | ⟨node, hmem, hchoice⟩)
    · obtain ⟨id, hnode⟩ := Array.mem_iff_getElem?.mp hmem
      refine ⟨.symbol id, mem_nodes_symbol.mpr ⟨node, hnode⟩, ?_⟩
      rw [numChoices, alternatives_eq hnode]
      exact hchoice
    · obtain ⟨id, hnode⟩ := Array.mem_iff_getElem?.mp hmem
      refine ⟨.item id, mem_nodes_item.mpr ⟨node, hnode⟩, ?_⟩
      rw [numChoices, families_eq hnode]
      exact hchoice
  · rintro ⟨n, hn, hchoice⟩
    cases n with
    | symbol id =>
      obtain ⟨node, hnode⟩ := mem_nodes_symbol.mp hn
      rw [numChoices, alternatives_eq hnode] at hchoice
      exact .inl ⟨node, Array.mem_of_getElem? hnode, hchoice⟩
    | item id =>
      obtain ⟨node, hnode⟩ := mem_nodes_item.mp hn
      rw [numChoices, families_eq hnode] at hchoice
      exact .inr ⟨node, Array.mem_of_getElem? hnode, hchoice⟩

/-! ### Choices make a difference -/

theorem exists_ne_of_one_lt_length {β : Type} {as : List β} (hnodup : as.Nodup)
    (hlength : 1 < as.length) : ∃ a ∈ as, ∃ b ∈ as, a ≠ b := by
  refine ⟨as[0], List.getElem_mem _, as[1], List.getElem_mem _, fun heq => ?_⟩
  exact absurd (hnodup.getElem_inj_iff.mp heq) Nat.zero_ne_one

/-- Two alternatives are different expressions, and each has trees. -/
theorem Packed.nontrivial_symbol (h : f.Packed tokens) {id : SymbolId} {node : SymbolNode}
    (hnode : f.symbols[id]? = some node) (hchoice : 1 < node.alternatives.length) :
    (f.meaning tokens (.symbol id)).Nontrivial := by
  obtain ⟨m, hm, m', hm', hne⟩ := exists_ne_of_one_lt_length (h.symbol hnode).2.nodup hchoice
  have htree : ∀ m ∈ node.alternatives, ∃ inner children, f.items[m]? = some inner ∧
      [.branch inner.item.expr inner.start inner.stop children] ∈
        f.meaning tokens (.symbol id) := by
    intro m hm
    obtain ⟨inner, hinner⟩ := h.exists_alternative hnode hm
    obtain ⟨children, hchildren⟩ := h.nonempty (mem_nodes_item.mpr ⟨inner, hinner⟩)
    exact ⟨inner, children, hinner,
      (h.mem_meaning_symbol hnode).mpr ⟨m, hm, inner, hinner, children, hchildren, rfl⟩⟩
  obtain ⟨inner, children, hinner, hmem⟩ := htree m hm
  obtain ⟨inner', children', hinner', hmem'⟩ := htree m' hm'
  refine ⟨_, hmem, _, hmem', fun heq => hne ?_⟩
  have hexpr : inner.item.expr = inner'.item.expr := by
    injection heq with heq
    injection heq
  exact h.eq_of_alternatives hnode hm hm' hinner hinner' hexpr

/-- Two families have the last tree start at different positions, and each has
trees. -/
theorem Packed.nontrivial_item (h : f.Packed tokens) {id : ItemId} {node : ItemNode g}
    (hnode : f.items[id]? = some node) (hchoice : 1 < node.families.length) :
    (f.meaning tokens (.item id)).Nontrivial := by
  rcases h.mem_meaning_item hnode with ⟨hnil, -⟩ | ⟨cuts, -, hfamilies, hnodup, hcuts, hmem⟩
  · rw [hnil] at hchoice
    contradiction
  · rw [hfamilies, List.length_map, ← List.length_map (·.1)] at hchoice
    obtain ⟨j, hj, j', hj', hne⟩ := exists_ne_of_one_lt_length hnodup hchoice
    have hlast : ∀ j ∈ cuts.map (·.1), ∃ xs z,
        xs ++ [z] ∈ f.meaning tokens (.item id) ∧ z.start = j := by
      intro j hj
      obtain ⟨cut, hcut, rfl⟩ := List.mem_map.mp hj
      obtain ⟨⟨xs, hxs⟩, ⟨zs, hzs⟩, hstart⟩ := hcuts cut hcut
      obtain ⟨z, rfl, hz⟩ := hstart zs hzs
      exact ⟨xs, z, (hmem _).mpr ⟨cut, hcut, xs, hxs, [z], hzs, rfl⟩, hz⟩
    obtain ⟨xs, z, hxs, rfl⟩ := hlast j hj
    obtain ⟨xs', z', hxs', rfl⟩ := hlast j' hj'
    refine ⟨_, hxs, _, hxs', fun heq => hne ?_⟩
    have hz : z = z' := List.singleton_inj.mp (List.append_inj' heq rfl).2
    rw [hz]

/-- A node with a choice stands for different things. -/
theorem Packed.nontrivial_of_choice (h : f.Packed tokens) {n : Node} (hn : n ∈ f.nodes)
    (hchoice : 1 < f.numChoices n) : (f.meaning tokens n).Nontrivial := by
  cases n with
  | symbol id =>
    obtain ⟨node, hnode⟩ := mem_nodes_symbol.mp hn
    rw [numChoices, alternatives_eq hnode] at hchoice
    exact h.nontrivial_symbol hnode hchoice
  | item id =>
    obtain ⟨node, hnode⟩ := mem_nodes_item.mp hn
    rw [numChoices, families_eq hnode] at hchoice
    exact h.nontrivial_item hnode hchoice

/-! ### Without a choice there is one way -/

theorem eq_of_mem_of_length_le_one {β : Type} {as : List β} (hlength : as.length ≤ 1) {a b : β}
    (ha : a ∈ as) (hb : b ∈ as) : a = b := by
  match as with
  | [] => contradiction
  | [c] => rw [List.mem_singleton.mp ha, List.mem_singleton.mp hb]

/-- **Uniqueness.**  Without a choice, whatever a node unfolds to is the same. -/
theorem Unfolds.unique (hchoice : ∀ n ∈ f.nodes, f.numChoices n ≤ 1) {n : Node}
    {ts us : List (Tree g α)} (hts : f.Unfolds n ts) (hus : f.Unfolds n us) : ts = us := by
  induction hts generalizing us with
  | symbol found chosen alternative unfolds ih =>
    have hlength := hchoice _ (mem_nodes_symbol.mpr ⟨_, found⟩)
    rw [numChoices, alternatives_eq found] at hlength
    cases hus with
    | symbol found' chosen' alternative' unfolds' =>
      obtain rfl := Option.some.inj (found.symm.trans found')
      obtain rfl := eq_of_mem_of_length_le_one hlength chosen chosen'
      obtain rfl := Option.some.inj (alternative.symm.trans alternative')
      rw [ih unfolds']
  | start found families =>
    cases hus with
    | start => rfl
    | family found' chosen' =>
      obtain rfl := Option.some.inj (found.symm.trans found')
      rw [families] at chosen'
      contradiction
  | @family _ _ family xs zs found chosen first prev token child ihPrev ihChild =>
    have hlength := hchoice _ (mem_nodes_item.mpr ⟨_, found⟩)
    rw [numChoices, families_eq found] at hlength
    cases hus with
    | start found' families' =>
      obtain rfl := Option.some.inj (found.symm.trans found')
      rw [families'] at chosen
      contradiction
    | @family _ _ family' xs' zs' found' chosen' first' prev' token' child' =>
      obtain rfl := Option.some.inj (found.symm.trans found')
      obtain rfl := eq_of_mem_of_length_le_one hlength chosen chosen'
      have hxs : xs = xs' := by
        cases hprev : family.prev with
        | none => rw [first hprev, first' hprev]
        | some m => exact ihPrev m hprev (prev' m hprev)
      have hzs : zs = zs' := by
        cases hchild : family.child with
        | token position =>
          obtain ⟨token₁, htoken, rfl⟩ := token position hchild
          obtain ⟨token₂, htoken', rfl⟩ := token' position hchild
          rw [Option.some.inj (htoken.symm.trans htoken')]
        | symbol m => exact ihChild m hchild (child' m hchild)
      rw [hxs, hzs]

/-- An input whose forest leaves a choice has two derivations, because each node is
below the root; an input whose forest leaves none has only one. -/
theorem isAmbiguous_iff_nontrivial (hforest : (recognize g tokens).forest? = some f) :
    f.isAmbiguous = true ↔ (derivations g tokens).Nontrivial := by
  have h := packed_of_forest? hforest
  rw [isAmbiguous_iff]
  constructor
  · rintro ⟨n, hn, hchoice⟩
    have hle := h.encard_le (reaches_of_forest? hforest hn)
    rw [h.encard_root] at hle
    rw [← Set.one_lt_encard_iff_nontrivial]
    exact (Set.one_lt_encard_iff_nontrivial.mpr (h.nontrivial_of_choice hn hchoice)).trans_le hle
  · rintro ⟨t, ht, u, hu, hne⟩
    by_contra hnone
    have hchoice : ∀ n ∈ f.nodes, f.numChoices n ≤ 1 :=
      fun n hn => Nat.le_of_not_lt fun hlt => hnone ⟨n, hn, hlt⟩
    have hunfolds : ∀ v ∈ derivations g tokens, f.Unfolds (.symbol f.root) [v] :=
      fun v hv => h.unfolds (h.mem_meaning_root.mpr ⟨v, hv, rfl⟩)
    exact hne (List.singleton_inj.mp ((hunfolds t ht).unique hchoice (hunfolds u hu)))

/-- The derivations are counted as one exactly if there are no two of them. -/
theorem Packed.count?_eq_one_iff (h : f.Packed tokens) :
    f.count? = some 1 ↔ ¬ (derivations g tokens).Nontrivial := by
  rcases h.count?_cases with ⟨hfinite, -, hcount⟩ | ⟨hlarge, hcount⟩
  · have hpos : 0 < (derivations g tokens).ncard := by
      obtain ⟨ts, hts⟩ := h.nonempty h.root_mem_nodes
      obtain ⟨t, ht, -⟩ := h.mem_meaning_root.mp hts
      exact (Set.ncard_pos hfinite).mpr ⟨t, ht⟩
    have hiff : 1 < (derivations g tokens).ncard ↔ (derivations g tokens).Nontrivial := by
      rw [Set.one_lt_ncard_iff_nontrivial_and_finite, and_iff_left hfinite]
    rw [hcount, Option.some.injEq, ← hiff]
    omega
  · -- there are too many to be counted
    rw [hcount]
    refine iff_of_false nofun (not_not_intro ?_)
    rcases hlarge with hinfinite | hlt
    · exact hinfinite.nontrivial
    · have hone : 1 < countLimit := by decide
      exact (Set.one_lt_ncard_iff_nontrivial_and_finite.mp (hone.trans hlt)).1

/-- **Ambiguity.**  The forest of an accepted input is ambiguous exactly if the input
has two derivations, and exactly if the count is not one. -/
theorem isAmbiguous_exact (h : parse g tokens = .accepted f) :
    (f.isAmbiguous = true ↔ (derivations g tokens).Nontrivial) ∧
      (f.isAmbiguous = true ↔ f.count? ≠ some 1) := by
  have htwo := isAmbiguous_iff_nontrivial (forest?_of_parse h)
  refine ⟨htwo, ?_⟩
  rw [htwo, Ne, (packed_of_parse h).count?_eq_one_iff, not_not]

/-- `n + n + n` leaves a choice, and so it has two derivations. -/
theorem isAmbiguous_exact_sumOfThree :
    ∃ f : Forest Examples.ambiguousSum Unit,
      parse Examples.ambiguousSum Examples.sumOfThree = .accepted f ∧ f.isAmbiguous = true ∧
        (derivations Examples.ambiguousSum Examples.sumOfThree).Nontrivial ∧
        f.count? ≠ some 1 := by
  have hambiguous : (parse Examples.ambiguousSum Examples.sumOfThree).forest?.map (·.isAmbiguous) =
      some true := by decide +kernel
  cases hparse : parse Examples.ambiguousSum Examples.sumOfThree with
  | rejected =>
    rw [hparse] at hambiguous
    contradiction
  | accepted f =>
    rw [hparse] at hambiguous
    have hambiguous : f.isAmbiguous = true := Option.some.inj hambiguous
    obtain ⟨htwo, hcount⟩ := isAmbiguous_exact hparse
    exact ⟨f, rfl, hambiguous, htwo.mp hambiguous, hcount.mp hambiguous⟩

end Forest

end ChartParser
