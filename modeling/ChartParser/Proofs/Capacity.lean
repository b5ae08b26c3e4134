/-
How many dotted items and keys there are.

A grammar has `numDottedItems` items, and so there are no more than
`StateSet.capacity g k` keys that start at or before position `k`, and no more than
`numDottedItems` if the item of a key determines where it starts.  A list of
distinct items, keys or nodes is never longer than the list of all of them, which
is why bounds computed from the grammar and the input suffice.
-/
import ChartParser.Proofs.StateSet
import Mathlib.Data.List.Perm.Subperm
import Mathlib.Data.List.ProdSigma

namespace ChartParser

variable {g : Grammar}

/-- The items of one expression. -/
def Item.ofExpr (id : g.ExprId) : List (Item g) :=
  (List.finRange ((g.expr id).length + 1)).map fun c : Fin _ =>
    ⟨id, c.val, Nat.le_of_lt_succ c.isLt⟩

/-- All items of a grammar. -/
def Item.all (g : Grammar) : List (Item g) := (List.finRange g.exprs.size).flatMap Item.ofExpr

theorem Item.mem_all (i : Item g) : i ∈ Item.all g := by
  refine List.mem_flatMap.mpr ⟨i.expr, List.mem_finRange _, List.mem_map.mpr ?_⟩
  exact ⟨⟨i.cursor, Nat.lt_succ_of_le i.cursor_le⟩, List.mem_finRange _, rfl⟩

theorem Item.length_all : (Item.all g).length = g.numDottedItems := by
  have hexprs : g.exprs.toList = (List.finRange g.exprs.size).map g.expr :=
    (List.map_getElem_finRange g.exprs.toList).symm
  rw [Item.all, Grammar.numDottedItems, hexprs, List.foldr_map]
  induction List.finRange g.exprs.size with
  | nil => rfl
  | cons id ids ih =>
    rw [List.flatMap_cons, List.length_append, ih, Item.ofExpr, List.length_map,
      List.length_finRange]
    rfl

/-- A list without repetition is no longer than one that has all its elements. -/
theorem length_le_of_nodup_of_subset {β : Type} {as bs : List β} (hnodup : as.Nodup)
    (hsubset : as ⊆ bs) : as.length ≤ bs.length :=
  (List.Nodup.subperm hnodup hsubset).length_le

/-- Distinct keys that start at or before a position fit into a set there. -/
theorem StateSet.Consistent.size_le_capacity {s : StateSet g} (hs : s.Consistent) {k : Nat}
    (horigin : ∀ key, s.Has key → key.origin ≤ k) : s.size ≤ capacity g k := by
  have hsubset : s.keys.map (fun key => (key.item, key.origin)) ⊆
      Item.all g ×ˢ List.range (k + 1) := by
    intro p hp
    obtain ⟨key, hkey, rfl⟩ := List.mem_map.mp hp
    have hle := horigin key hkey
    rw [List.mem_product, List.mem_range]
    exact ⟨Item.mem_all _, Nat.lt_succ_of_le hle⟩
  have hinj : Function.Injective fun key : Key g => (key.item, key.origin) := by
    rintro ⟨i, o⟩ ⟨i', o'⟩ h
    obtain ⟨rfl, rfl⟩ := Prod.mk.injEq .. ▸ h
    rfl
  have hlength := length_le_of_nodup_of_subset (hs.nodup_keys.map hinj) hsubset
  rw [List.length_map, length_keys, List.length_product, Item.length_all, List.length_range]
    at hlength
  exact hlength

/-- If no two keys of a set share their item, there are no more keys than items. -/
theorem StateSet.Consistent.size_le_numDottedItems {s : StateSet g} (hs : s.Consistent)
    (horigin : ∀ key key', s.Has key → s.Has key' → key.item = key'.item →
      key.origin = key'.origin) : s.size ≤ g.numDottedItems := by
  have hnodup : (s.keys.map (·.item)).Nodup := by
    refine hs.nodup_keys.map_on fun key hkey key' hkey' hitem => ?_
    have horigin := horigin key key' hkey hkey' hitem
    cases key
    cases key'
    subst hitem horigin
    rfl
  have hlength := length_le_of_nodup_of_subset hnodup fun item _ => Item.mem_all item
  rw [List.length_map, length_keys, Item.length_all] at hlength
  exact hlength

end ChartParser
