/-
The forest of an input holds its derivations.

Its root stands for the start symbol over the whole input, so what a walk from
there counts and grows are the derivations of the input.

* **`Packed.count_cases`** — either the derivations are counted and grown, each
  once, or there are too many of them to be counted;
* **`trees_are_derivations`** — the trees that are enumerated are the derivations,
  and no two of them look the same;
* **`count_exact`** — a count is given exactly if there are finitely many
  derivations and their number is not too large, and trees are enumerated exactly
  if there are no more of them than asked for.
-/
import ChartParser.Grammar.Examples
import ChartParser.Proofs.Forest.Walk

namespace ChartParser

open ChartParser.Tree Relation

variable {g : Grammar} {α : Type} {tokens : Tokens α}

/-- All derivations of an input. -/
def derivations (g : Grammar) (tokens : Tokens α) : Set (Tree g α) :=
  {t | IsDerivation tokens t}

/-- The input `n + n + n`. -/
def Examples.sumOfThree : Tokens Unit := #[⟨"n", ()⟩, ⟨"+", ()⟩, ⟨"n", ()⟩, ⟨"+", ()⟩, ⟨"n", ()⟩]

namespace Forest

variable {f : Forest g α}

/-! ### The whole walk -/

/-- Before a walk no trees are made. -/
theorem not_isDone_bare (f : Forest g α) (n : Node) :
    ¬ Grown.isDone (⟨Array.replicate f.symbols.size none,
      Array.replicate f.items.size none⟩ : Grown g α) n = true := by
  cases n with
  | symbol id =>
    rw [Grown.isDone, Array.getD_eq_getD_getElem?, Array.getElem?_replicate]
    split <;> exact Bool.false_ne_true
  | item id =>
    rw [Grown.isDone, Array.getD_eq_getD_getElem?, Array.getElem?_replicate]
    split <;> exact Bool.false_ne_true

/-- A walk that has not started knows nothing. -/
theorem walking_start (tokens : Tokens α) (f : Forest g α) (root : Node) :
    f.Walking tokens root [.enter root]
      ⟨Array.replicate f.symbols.size .unvisited, Array.replicate f.items.size .unvisited⟩
      ⟨Array.replicate f.symbols.size none, Array.replicate f.items.size none⟩ := by
  have hmark : ∀ n, Marks.get ⟨Array.replicate f.symbols.size .unvisited,
      Array.replicate f.items.size .unvisited⟩ n = .unvisited := by
    intro n
    cases n with
    | symbol id =>
      rw [Marks.get, Array.getD_eq_getD_getElem?, Array.getElem?_replicate]
      split <;> rfl
    | item id =>
      rw [Marks.get, Array.getD_eq_getD_getElem?, Array.getElem?_replicate]
      split <;> rfl
  refine ⟨⟨⟨Array.size_replicate, Array.size_replicate, Array.size_replicate,
    Array.size_replicate⟩, ?_, ?_, ?_, ?_⟩, ?_, ?_, ?_, ?_⟩
  · exact fun n hn => absurd hn (f.not_isDone_bare n)
  · exact fun n hn => absurd hn (f.not_isDone_bare n)
  · exact fun n hn => absurd hn (f.not_isDone_bare n)
  · intro n count hn
    rw [hmark n] at hn
    contradiction
  · intro v hv
    obtain rfl := List.mem_singleton.mp hv
    exact .refl
  · exact .inr ⟨.enter root, List.mem_cons_self, rfl⟩
  · intro n hn
    rw [hmark n] at hn
    contradiction
  · intro before rest n hstack
    have hmem : Visit.leave n ∈ [Visit.enter root] := by
      rw [hstack]
      exact List.mem_append_right _ List.mem_cons_self
    have := List.mem_singleton.mp hmem
    contradiction

/-- A walk that has nothing left to do has done its root. -/
theorem Walking.isDone_root {root : Node} {marks : Marks} {w : Grown g α}
    (h : f.Walking tokens root [] marks w) : w.isDone root = true := by
  rcases h.rooted with hdone | ⟨v, hv, -⟩
  · exact hdone
  · exact absurd hv List.not_mem_nil

/-- The bound on the number of visits leaves enough for everything there is. -/
theorem work_lt_walkBound (f : Forest g α) (marks : Marks) : f.work marks < f.walkBound := by
  have hbound : ∀ ns : List Node,
      ns.foldr (fun n total => (f.children n).length + 1 + total) 1 =
        (ns.map fun n => (f.children n).length + 1).sum + 1 := by
    intro ns
    induction ns with
    | nil => rfl
    | cons n ns ih =>
      rw [List.foldr_cons, ih, List.map_cons, List.sum_cons]
      omega
  have hwork : f.work marks ≤ ((f.nodes.filter fun _ => true).map fun n =>
      (f.children n).length + 1).sum := sum_filter_le (fun _ _ => rfl) _ f.nodes
  rw [List.filter_true] at hwork
  rw [walkBound, hbound]
  omega

/-- A walk that has not started has enough fuel. -/
theorem start_lt_walkBound (f : Forest g α) (root : Node) (marks : Marks) :
    [Visit.enter root].length + f.work marks < f.walkBound + 1 := by
  have := f.work_lt_walkBound marks
  rw [List.length_singleton]
  omega

/-! ### The root -/

theorem Packed.mem_meaning_root (h : f.Packed tokens) {ts : List (Tree g α)} :
    ts ∈ f.meaning tokens (.symbol f.root) ↔ ∃ t ∈ derivations g tokens, [t] = ts := by
  obtain ⟨s, hs, hkey⟩ := h.root
  rw [mem_meaning_of_symbolKey hkey]
  constructor
  · intro hts
    obtain ⟨t, rfl⟩ := hts.eq_singleton
    exact ⟨t, ⟨s, hs, hts⟩, rfl⟩
  · rintro ⟨t, ⟨s', hs', hspans⟩, rfl⟩
    rw [Option.some.inj (hs.symm.trans hs')]
    exact hspans

theorem Packed.root_mem_nodes (h : f.Packed tokens) : .symbol f.root ∈ f.nodes := by
  obtain ⟨s, -, hkey⟩ := h.root
  obtain ⟨node, hnode, -⟩ := exists_symbol_of_key hkey
  exact mem_nodes_symbol.mpr ⟨node, hnode⟩

theorem Packed.encard_root (h : f.Packed tokens) :
    (f.meaning tokens (.symbol f.root)).encard = (derivations g tokens).encard := by
  have himage : f.meaning tokens (.symbol f.root) = (fun t => [t]) '' derivations g tokens := by
    ext ts
    rw [h.mem_meaning_root]
    rfl
  rw [himage]
  exact Function.Injective.encard_image (fun t t' heq => (List.cons.inj heq).1) _

/-- **Counting and growing.**  Either all derivations are made, each once, and
counted, or there are too many. -/
theorem Packed.count_cases (h : f.Packed tokens) :
    (f.count? = some f.allTrees.length ∧ f.allTrees.length ≤ countLimit ∧ f.allTrees.Nodup ∧
      ∀ t, t ∈ f.allTrees ↔ t ∈ derivations g tokens) ∨
    (f.count? = none ∧ (countLimit : ℕ∞) < (derivations g tokens).encard) := by
  rcases h.walk h.root_mem_nodes (walking_start tokens f _) (f.start_lt_walkBound _ _) with
    ⟨marks, result, hcount, hgrows, hwalk⟩ | ⟨hcount, hlarge⟩
  · left
    have htrees : f.allTrees = result.treesOf f.root := by rw [allTrees, hgrows.eq]
    have hlists := hwalk.lists _ hwalk.isDone_root
    have hsmall := hwalk.small _ hwalk.isDone_root
    have hmark := hwalk.counted _ hwalk.isDone_root
    rw [Grown.listsOf] at hlists hsmall hmark
    rw [List.length_map] at hsmall hmark
    rw [htrees]
    refine ⟨?_, hsmall, hlists.nodup.of_map _, fun t => ?_⟩
    · rw [count?, hcount]
      dsimp only
      rw [hmark]
      rfl
    · have hmem := hlists.mem_iff [t]
      rw [h.mem_meaning_root, List.mem_map] at hmem
      simp only [List.cons.injEq, and_true, exists_eq_right] at hmem
      exact hmem
  · right
    rw [h.encard_root] at hlarge
    refine ⟨?_, hlarge⟩
    rw [count?, hcount]

/-- The trees that are enumerated. -/
theorem trees_eq_ok_iff {limit : Nat} {list : List (Tree g α)} :
    f.trees limit = .ok list ↔ (∃ c ≤ limit, f.count? = some c) ∧ list = f.allTrees := by
  rw [trees]
  cases f.count? with
  | none => simp
  | some c =>
    by_cases hc : c ≤ limit
    · simp [hc, eq_comm]
    · simp [hc]

theorem trees_eq_error {limit : Nat} (h : ¬ ∃ c ≤ limit, f.count? = some c) :
    f.trees limit = .error ⟨limit, f.count?⟩ := by
  rw [trees]
  cases hcount : f.count? with
  | none => rfl
  | some c =>
    have hc : ¬ c ≤ limit := fun hc => h ⟨c, hc, hcount⟩
    simp only [if_neg hc]

/-- **Enumeration.**  If trees are enumerated, they are the derivations of the
input, no two of them look the same, and each has the whole input as its leaves. -/
theorem trees_are_derivations (h : parse g tokens = .accepted f) {limit : Nat}
    {list : List (Tree g α)} (hlist : f.trees limit = .ok list) :
    (list.map shape).Nodup ∧ (∀ t, t ∈ list ↔ IsDerivation tokens t) ∧
      ∀ t ∈ list, t.leaves = tokens.toList := by
  obtain ⟨⟨c, -, hcount⟩, rfl⟩ := trees_eq_ok_iff.mp hlist
  rcases (packed_of_parse h).count_cases with ⟨-, -, hnodup, hmem⟩ | ⟨hnone, -⟩
  · refine ⟨?_, hmem, fun t ht => IsDerivation.leaves_eq ((hmem t).mp ht)⟩
    refine List.Nodup.map_on (fun t ht u hu heq => ?_) hnodup
    exact IsDerivation.eq_of_shape_eq ((hmem t).mp ht) ((hmem u).mp hu) heq
  · rw [hcount] at hnone
    contradiction

/-- `n + n + n` has two derivations, and they are enumerated. -/
theorem trees_are_derivations_sumOfThree :
    ∃ (f : Forest Examples.ambiguousSum Unit) (list : List (Tree Examples.ambiguousSum Unit)),
      parse Examples.ambiguousSum Examples.sumOfThree = .accepted f ∧ f.trees 2 = .ok list ∧
        list.length = 2 ∧ (list.map shape).Nodup ∧
        (∀ t, t ∈ list ↔ IsDerivation Examples.sumOfThree t) ∧
        ∀ t ∈ list, t.leaves = Examples.sumOfThree.toList := by
  have hcount : (parse Examples.ambiguousSum Examples.sumOfThree).forest?.map
      (fun f => (f.count?, f.allTrees.length)) = some (some 2, 2) := by decide +kernel
  cases hparse : parse Examples.ambiguousSum Examples.sumOfThree with
  | rejected =>
    rw [hparse] at hcount
    contradiction
  | accepted f =>
    rw [hparse] at hcount
    obtain ⟨hcount, hlength⟩ := Prod.mk.inj (Option.some.inj hcount)
    have hlist : f.trees 2 = .ok f.allTrees :=
      trees_eq_ok_iff.mpr ⟨⟨2, Nat.le_refl 2, hcount⟩, rfl⟩
    exact ⟨f, f.allTrees, rfl, hlist, hlength, trees_are_derivations hparse hlist⟩

/-- The number of derivations, as far as it is counted. -/
theorem Packed.count?_cases (h : f.Packed tokens) :
    ((derivations g tokens).Finite ∧ (derivations g tokens).ncard ≤ countLimit ∧
        f.count? = some (derivations g tokens).ncard) ∨
      ((derivations g tokens).Infinite ∨ countLimit < (derivations g tokens).ncard) ∧
        f.count? = none := by
  rcases h.count_cases with ⟨hcount, hsmall, hnodup, hmem⟩ | ⟨hcount, hlarge⟩
  · left
    classical
    have hset : derivations g tokens = ↑f.allTrees.toFinset := by
      ext t
      rw [List.coe_toFinset, Set.mem_ofPred_eq, hmem]
    rw [hset, Set.ncard_coe_finset, List.toFinset_card_of_nodup hnodup]
    exact ⟨Finset.finite_toSet _, hsmall, hcount⟩
  · right
    refine ⟨?_, hcount⟩
    rcases (derivations g tokens).finite_or_infinite with hfinite | hinfinite
    · right
      rw [← hfinite.cast_ncard_eq, Nat.cast_lt] at hlarge
      exact hlarge
    · exact .inl hinfinite

/-- **Counting.**  The count is the number of derivations, if there are finitely
many and their number is not too large; otherwise there is none.  Trees are
enumerated exactly if there are no more than asked for, and otherwise the error
gives the limit and the count. -/
theorem count_exact (h : parse g tokens = .accepted f) :
    (∀ c, f.count? = some c ↔
      (derivations g tokens).Finite ∧ (derivations g tokens).ncard = c ∧ c ≤ countLimit) ∧
    (f.count? = none ↔
      (derivations g tokens).Infinite ∨ countLimit < (derivations g tokens).ncard) ∧
    ∀ limit : UInt64,
      ((∃ list, f.trees limit.toNat = .ok list) ↔
        (derivations g tokens).Finite ∧ (derivations g tokens).ncard ≤ limit.toNat) ∧
      (¬ ((derivations g tokens).Finite ∧ (derivations g tokens).ncard ≤ limit.toNat) →
        f.trees limit.toNat = .error ⟨limit.toNat, f.count?⟩) := by
  have hlimit : ∀ limit : UInt64, limit.toNat ≤ countLimit := by
    intro limit
    have := limit.toNat_lt
    rw [countLimit]
    omega
  have hok : ∀ limit, (∃ list, f.trees limit = .ok list) ↔ ∃ c ≤ limit, f.count? = some c := by
    intro limit
    simp only [trees_eq_ok_iff, exists_and_left, exists_eq, and_true]
  rcases (packed_of_parse h).count?_cases with ⟨hfinite, hsmall, hcount⟩ | ⟨hlarge, hcount⟩
  · have hall : ∀ limit, (∃ c ≤ limit, f.count? = some c) ↔
        (derivations g tokens).Finite ∧ (derivations g tokens).ncard ≤ limit := by
      intro limit
      rw [hcount]
      simp [hfinite]
    refine ⟨?_, ?_, fun limit => ⟨(hok _).trans (hall _), fun hnot => ?_⟩⟩
    · intro c
      rw [hcount, Option.some.injEq]
      constructor
      · rintro rfl
        exact ⟨hfinite, rfl, hsmall⟩
      · exact fun hc => hc.2.1
    · rw [hcount]
      constructor
      · nofun
      · rintro (hinfinite | hlarge)
        · exact absurd hfinite hinfinite
        · omega
    · exact trees_eq_error fun hc => hnot ((hall _).mp hc)
  · -- finitely many, but no more than the largest count, is excluded
    have hnot : ∀ limit ≤ countLimit,
        ¬ ((derivations g tokens).Finite ∧ (derivations g tokens).ncard ≤ limit) := by
      rintro limit hle ⟨hfinite, hsmall⟩
      rcases hlarge with hinfinite | hlarge
      · exact hinfinite hfinite
      · omega
    have hnone : ∀ limit, ¬ ∃ c ≤ limit, f.count? = some c := by
      intro limit
      simp [hcount]
    refine ⟨?_, ⟨fun _ => hlarge, fun _ => hcount⟩, fun limit => ⟨?_, fun _ => ?_⟩⟩
    · intro c
      rw [hcount]
      constructor
      · nofun
      · rintro ⟨hfinite, rfl, hsmall⟩
        exact absurd ⟨hfinite, Nat.le_refl _⟩ (hnot _ hsmall)
    · rw [hok]
      exact iff_of_false (hnone _) (hnot _ (hlimit limit))
    · exact trees_eq_error (hnone _)

/-- `n + n + n` has two derivations, which are too many for a limit of one. -/
theorem count_exact_sumOfThree :
    ∃ f : Forest Examples.ambiguousSum Unit,
      parse Examples.ambiguousSum Examples.sumOfThree = .accepted f ∧
        (derivations Examples.ambiguousSum Examples.sumOfThree).Finite ∧
        (derivations Examples.ambiguousSum Examples.sumOfThree).ncard = 2 ∧
        f.trees 1 = .error ⟨1, some 2⟩ := by
  have hcount : (parse Examples.ambiguousSum Examples.sumOfThree).forest?.map (·.count?) =
      some (some 2) := by decide +kernel
  cases hparse : parse Examples.ambiguousSum Examples.sumOfThree with
  | rejected =>
    rw [hparse] at hcount
    contradiction
  | accepted f =>
    rw [hparse] at hcount
    have hcount : f.count? = some 2 := Option.some.inj hcount
    obtain ⟨hsome, -, htrees⟩ := count_exact hparse
    obtain ⟨hfinite, hncard, -⟩ := (hsome 2).mp hcount
    have herror := (htrees 1).2 (by rw [hncard]; simp)
    rw [hcount] at herror
    exact ⟨f, rfl, hfinite, hncard, herror⟩

end Forest

end ChartParser
