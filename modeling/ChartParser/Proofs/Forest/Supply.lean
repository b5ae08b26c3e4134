/-
What a finished chart supplies to its forest.

A forest is built from two look-ups: the completed items of a nonterminal over a
span, and the splits of a state.  Each puts together what is in the sets and what
shortcuts have left out, and together they say what the rules of a chart say.

* **`LeftOut.mem_itemsOf`** and **`LeftOut.mem_splitsOf`** — the tables of the
  left-out completions hold what was put into them;
* **`supplies_recognize`** — the completed items of a finished chart are the
  charted complete states, and the splits of a state are its links, each once and in
  increasing order.
-/
import ChartParser.Proofs.Recognition

namespace ChartParser

variable {g : Grammar} {α : Type}

/-- An index by sets: a new element is in the set of its entry, and nothing else
changes. -/
theorem mem_getD_alter_insert {β γ : Type} {cmp : β → β → Ordering} [Std.TransCmp cmp]
    [Std.LawfulEqCmp cmp] {cmp' : γ → γ → Ordering} [Std.TransCmp cmp'] [Std.LawfulEqCmp cmp']
    (m : Std.TreeMap β (Std.TreeSet γ cmp') cmp) {a b : β} {x y : γ} :
    y ∈ (m.alter a fun s => some ((s.getD ∅).insert x)).getD b ∅ ↔
      y ∈ m.getD b ∅ ∨ a = b ∧ x = y := by
  rw [Std.TreeMap.getD_alter]
  by_cases hab : a = b
  · subst hab
    rw [if_pos Std.ReflCmp.compare_self, Option.getD_some, Std.TreeSet.mem_insert,
      Std.LawfulEqCmp.compare_eq_iff_eq, ← Std.TreeMap.getD_eq_getD_getElem?, or_comm]
    simp
  · rw [if_neg (fun h => hab (Std.LawfulEqCmp.eq_of_compare h)), or_iff_left (fun h => hab h.1)]

namespace LeftOut

variable {entries : List (Key g × Nat)}

theorem mem_itemsOf_foldl (table : LeftOut g) {name : Name} {origin : Nat} {item : Item g} :
    item ∈ (entries.foldl add table).itemsOf name origin ↔
      item ∈ table.itemsOf name origin ∨
        item.head = name ∧ ∃ j, (⟨item, origin⟩, j) ∈ entries := by
  induction entries generalizing table with
  | nil => simp
  | cons entry entries ih =>
    obtain ⟨⟨item', origin'⟩, j⟩ := entry
    have hadd : item ∈ (table.add (⟨item', origin'⟩, j)).itemsOf name origin ↔
        item ∈ table.itemsOf name origin ∨
          (item'.head, origin') = (name, origin) ∧ item' = item := by
      rw [itemsOf, Std.TreeSet.mem_toList, itemsOf, Std.TreeSet.mem_toList]
      exact mem_getD_alter_insert table.items
    rw [List.foldl_cons, ih, hadd]
    constructor
    · rintro ((h | ⟨h, rfl⟩) | ⟨hhead, j, hj⟩)
      · exact .inl h
      · obtain ⟨hhead, rfl⟩ := Prod.mk.inj h
        exact .inr ⟨hhead, j, List.mem_cons_self⟩
      · exact .inr ⟨hhead, j, List.mem_cons_of_mem _ hj⟩
    · rintro (h | ⟨hhead, j', hj⟩)
      · exact .inl (.inl h)
      · rcases List.mem_cons.mp hj with heq | hj
        · obtain ⟨hkey, rfl⟩ := Prod.mk.inj heq
          obtain ⟨rfl, rfl⟩ := Key.mk.inj hkey
          exact .inl (.inr ⟨Prod.ext hhead rfl, rfl⟩)
        · exact .inr ⟨hhead, j', hj⟩

theorem mem_splitsOf_foldl (table : LeftOut g) {key : Key g} {j : Nat} :
    j ∈ (entries.foldl add table).splitsOf key ↔ j ∈ table.splitsOf key ∨ (key, j) ∈ entries := by
  induction entries generalizing table with
  | nil => simp
  | cons entry entries ih =>
    have hadd : j ∈ (table.add entry).splitsOf key ↔
        j ∈ table.splitsOf key ∨ entry.1 = key ∧ entry.2 = j := by
      rw [splitsOf, Std.TreeSet.mem_toList, splitsOf, Std.TreeSet.mem_toList]
      exact mem_getD_alter_insert table.splits
    rw [List.foldl_cons, ih, hadd, List.mem_cons, Prod.ext_iff, or_assoc, @eq_comm _ key,
      @eq_comm _ j]

theorem mem_itemsOf {name : Name} {origin : Nat} {item : Item g} :
    item ∈ (ofList entries).itemsOf name origin ↔
      item.head = name ∧ ∃ j, (⟨item, origin⟩, j) ∈ entries := by
  rw [ofList, mem_itemsOf_foldl, or_iff_right]
  simp [itemsOf]

theorem mem_splitsOf {key : Key g} {j : Nat} :
    j ∈ (ofList entries).splitsOf key ↔ (key, j) ∈ entries := by
  rw [ofList, mem_splitsOf_foldl, or_iff_right]
  simp [splitsOf]

end LeftOut

namespace Chart

/-- What a forest takes from a chart: the complete states of a nonterminal over a
span, and the splits of a state. -/
structure Supplies (tokens : Tokens α) (c : Chart g α) (leftOut : Array (Thunk (LeftOut g))) :
    Prop where
  mem_completedItems : ∀ {name : Name} {start stop : Nat} {item : Item g},
    item ∈ c.completedItems leftOut name start stop ↔
      Charted tokens ⟨item, start⟩ stop ∧ item.isComplete = true ∧ item.head = name
  mem_splits : ∀ {key : Key g} {stop j : Nat},
    j ∈ c.splits leftOut key stop ↔ Linked tokens key stop j
  increasing_splits : ∀ (key : Key g) (stop : Nat), (c.splits leftOut key stop).Pairwise (· < ·)

variable {tokens : Tokens α} {c : Chart g α}

theorem getElem?_leftOut {k : Nat} (hk : k < c.closed.size) :
    ∃ table, c.leftOut[k]? = some table ∧ table.get = LeftOut.ofList (c.skipped k) := by
  refine ⟨Thunk.mk fun _ => LeftOut.ofList (c.skipped k), ?_, rfl⟩
  rw [leftOut, Array.getElem?_ofFn, dif_pos hk]

theorem getElem?_leftOut_of_size_le {k : Nat} (hk : c.closed.size ≤ k) :
    c.leftOut[k]? = none := by
  rw [leftOut, Array.getElem?_eq_none_iff, Array.size_ofFn]
  exact hk

theorem increasing_toList (s : Std.TreeSet Nat) : s.toList.Pairwise (· < ·) :=
  s.ordered_toList.imp fun h => Nat.compare_eq_lt.mp h

theorem increasing_splits (c : Chart g α) (leftOut : Array (Thunk (LeftOut g))) (key : Key g)
    (stop : Nat) : (c.splits leftOut key stop).Pairwise (· < ·) := by
  unfold splits
  dsimp only
  split
  · split
    · exact increasing_toList _
    · exact increasing_toList _
  · exact increasing_toList _

/-- The links that a set gives for a state. -/
theorem mem_links {s : StateSet g} (hs : s.Consistent) {key : Key g} {j : Nat} :
    j ∈ (s.find? key).elim ∅ (·.links) ↔ s.HasLink key j := by
  rw [hs.hasLink_iff]
  cases s.find? key with
  | none => simp
  | some st => simp

theorem splits_eq {leftOut : Array (Thunk (LeftOut g))} {k : Nat} {s : StateSet g}
    {table : Thunk (LeftOut g)} (hs : c.closed[k]? = some s) (htable : leftOut[k]? = some table)
    (key : Key g) :
    c.splits leftOut key k =
      let links := (s.find? key).elim ∅ (·.links)
      if key.item.isComplete then (links.insertMany (table.get.splitsOf key)).toList
      else links.toList := by
  rw [splits, hs, htable, Option.bind_some]
  cases s.find? key <;> rfl

/-- What a chart holds of a nonterminal over a span. -/
theorem Regular.mem_completedItems (h : c.Regular tokens) {k : Nat} (hk : k < c.closed.size)
    {name : Name} {start : Nat} {item : Item g} :
    item ∈ c.completedItems c.leftOut name start k ↔
      Charted tokens ⟨item, start⟩ k ∧ item.isComplete = true ∧ item.head = name := by
  obtain ⟨s, hs⟩ := exists_closed_of_le hk (Nat.le_refl k)
  obtain ⟨table, htable, hget⟩ := getElem?_leftOut hk
  rw [completedItems, hs, htable, List.mem_append]
  simp only [hget]
  rw [(h.closed hs).consistent.mem_completedItems, LeftOut.mem_itemsOf, ← h.holds_iff hk]
  constructor
  · rintro (⟨hhas, hcomplete, hhead⟩ | ⟨hhead, j, hj⟩)
    · exact ⟨.inl ⟨s, hs, hhas⟩, hcomplete, hhead⟩
    · exact ⟨.inr ⟨j, hj⟩, (h.isComplete_of_mem_skipped hj).1, hhead⟩
  · rintro ⟨⟨s', hs', hhas⟩ | ⟨j, hj⟩, hcomplete, hhead⟩
    · obtain rfl := Option.some.inj (hs.symm.trans hs')
      exact .inl ⟨hhas, hcomplete, hhead⟩
    · exact .inr ⟨hhead, j, hj⟩

/-- What a chart holds of a state's links. -/
theorem Regular.mem_splits (h : c.Regular tokens) {k : Nat} (hk : k < c.closed.size)
    {key : Key g} {j : Nat} : j ∈ c.splits c.leftOut key k ↔ Linked tokens key k j := by
  obtain ⟨s, hs⟩ := exists_closed_of_le hk (Nat.le_refl k)
  obtain ⟨table, htable, hget⟩ := getElem?_leftOut hk
  have hlinks : j ∈ (s.find? key).elim ∅ (·.links) ↔ s.HasLink key j :=
    mem_links (h.closed hs).consistent
  have hholds : Linked tokens key k j ↔ s.HasLink key j ∨ (key, j) ∈ c.skipped k := by
    rw [← h.holdsLink_iff hk, HoldsLink]
    simp only [hs, Option.some.injEq, exists_eq_left']
  rw [hholds, splits_eq hs htable]
  dsimp only
  split
  · rw [hget, Std.TreeSet.mem_toList, Std.TreeSet.mem_insertMany_list, hlinks,
      List.contains_iff_mem, LeftOut.mem_splitsOf]
  · rename_i hincomplete
    rw [Std.TreeSet.mem_toList, hlinks, or_iff_left]
    intro hskipped
    exact hincomplete (h.isComplete_of_mem_skipped hskipped).1

end Chart

open Chart

/-- **A finished chart supplies what the rules of a chart give.**  The completed
items are the charted complete states, and the splits are the links. -/
theorem supplies_recognize (g : Grammar) (tokens : Tokens α) :
    (recognize g tokens).Supplies tokens (recognize g tokens).leftOut where
  mem_completedItems {name start stop item} := by
    by_cases hstop : stop < (recognize g tokens).closed.size
    · exact (regular_recognize g tokens).mem_completedItems hstop
    · -- nothing stands behind the last closed position
      rw [completedItems, Array.getElem?_eq_none (Nat.le_of_not_lt hstop),
        getElem?_leftOut_of_size_le (Nat.le_of_not_lt hstop)]
      constructor
      · intro hmem
        simp at hmem
      · exact fun h => absurd (lt_size_recognize h.1) hstop
  mem_splits {key stop j} := by
    by_cases hstop : stop < (recognize g tokens).closed.size
    · exact (regular_recognize g tokens).mem_splits hstop
    · have hnone : j ∉ (recognize g tokens).splits (recognize g tokens).leftOut key stop := by
        rw [splits, Array.getElem?_eq_none (Nat.le_of_not_lt hstop),
          getElem?_leftOut_of_size_le (Nat.le_of_not_lt hstop)]
        split <;> simp [Std.TreeSet.mem_toList]
      constructor
      · exact fun h => absurd h hnone
      · exact fun h => absurd (lt_size_recognize h.charted) hstop
  increasing_splits key stop := increasing_splits ..

end ChartParser
