/-
Tables whose entries are referred to by number.

The parser keeps its data in arrays that only grow, and an entry's number is its place
in the array.  What an index into such a table says is said with three notions:

* **`placesOf`** — the increasing list of the places whose elements have a property;
* **`Numbers`** — an index finds every key of a list at its place, and nothing else;
* **`firstAppearances`** — the order in which a table lists what is entered many times.

Each of them comes with what one more element behind the others changes
(`placesOf_concat`, `Numbers.push`, `firstAppearances_concat`).
-/
import Std.Data.TreeMap.Lemmas

namespace ChartParser

/-! ### Order of first appearance -/

section FirstAppearances

variable {α : Type} [DecidableEq α]

/-- The elements of a list without repetition, each at its first place. -/
def firstAppearances : List α → List α
  | [] => []
  | a :: as => a :: (firstAppearances as).filter (· ≠ a)

@[simp] theorem mem_firstAppearances {a : α} {as : List α} :
    a ∈ firstAppearances as ↔ a ∈ as := by
  induction as with
  | nil => rfl
  | cons b bs ih =>
    by_cases h : a = b <;> simp [firstAppearances, ih, h]

/-- Another element behind the others is listed if it is new. -/
theorem firstAppearances_concat (as : List α) (a : α) :
    firstAppearances (as ++ [a]) =
      if a ∈ as then firstAppearances as else firstAppearances as ++ [a] := by
  induction as with
  | nil => rfl
  | cons b as ih =>
    rw [List.cons_append, firstAppearances, firstAppearances, ih]
    by_cases hmem : a ∈ as
    · simp [hmem]
    · by_cases hab : a = b
      · subst hab
        simp [hmem]
      · simp [hmem, hab]

end FirstAppearances

/-! ### Places -/

/-- The places of a list whose elements have a property, in increasing order. -/
def placesOf {β : Type} (p : β → Bool) (as : List β) : List Nat :=
  (List.range as.length).filter fun i => as[i]?.any p

section Places

variable {β : Type} {p : β → Bool} {as : List β}

@[simp] theorem placesOf_nil : placesOf p [] = [] := rfl

theorem mem_placesOf {i : Nat} : i ∈ placesOf p as ↔ ∃ a, as[i]? = some a ∧ p a = true := by
  rw [placesOf, List.mem_filter, List.mem_range, Option.any_eq_true]
  constructor
  · rintro ⟨-, a, ha, hp⟩
    exact ⟨a, ha, hp⟩
  · rintro ⟨a, ha, hp⟩
    exact ⟨(List.getElem?_eq_some_iff.mp ha).1, a, ha, hp⟩

theorem placesOf_concat (a : β) :
    placesOf p (as ++ [a]) = placesOf p as ++ if p a then [as.length] else [] := by
  have hold : ∀ i ∈ List.range as.length,
      (as ++ [a])[i]?.any p = as[i]?.any p := by
    intro i hi
    rw [List.getElem?_append_left (List.mem_range.mp hi)]
  rw [placesOf, List.length_append, List.length_singleton, List.range_succ, List.filter_append,
    List.filter_congr hold, placesOf]
  congr 1
  by_cases hp : p a <;> simp [hp]

theorem pairwise_placesOf : (placesOf p as).Pairwise (· < ·) :=
  List.pairwise_lt_range.filter _

theorem getElem?_of_prefix {bs : List β} (h : as <+: bs) {i : Nat} {a : β}
    (ha : as[i]? = some a) : bs[i]? = some a := by
  obtain ⟨rest, rfl⟩ := h
  rw [List.getElem?_append_left (List.getElem?_eq_some_iff.mp ha).1, ha]

end Places

/-- An index by arrays of places: a new place comes behind the others of its
entry, and the other entries stay. -/
theorem toList_getD_alter_push {β : Type} [DecidableEq β] {cmp : β → β → Ordering}
    [Std.TransCmp cmp] [Std.LawfulEqCmp cmp] (m : Std.TreeMap β (Array Nat) cmp) (a b : β)
    (place : Nat) :
    ((m.alter a fun places => some ((places.getD #[]).push place)).getD b #[]).toList =
      (m.getD b #[]).toList ++ if a = b then [place] else [] := by
  rw [Std.TreeMap.getD_alter]
  by_cases hab : a = b
  · subst hab
    rw [if_pos Std.ReflCmp.compare_self, if_pos rfl, Option.getD_some, Array.toList_push,
      Std.TreeMap.getD_eq_getD_getElem?]
  · rw [if_neg (fun h => hab (Std.LawfulEqCmp.eq_of_compare h)), if_neg hab, List.append_nil]

/-! ### Numbered keys -/

/-- A change that keeps the key of an element keeps the list of keys. -/
theorem map_toList_modify {β κ : Type} (as : Array β) (key : β → κ) {f : β → β}
    (hf : ∀ a, key (f a) = key a) (i : Nat) :
    (as.modify i f).toList.map key = as.toList.map key := by
  apply List.ext_getElem?
  intro j
  rw [List.getElem?_map, List.getElem?_map, Array.getElem?_toList, Array.getElem?_toList,
    Array.getElem?_modify]
  split
  · rw [Option.map_map]
    exact congrArg (Option.map · as[j]?) (funext hf)
  · rfl

/-- An index numbers the keys of a list: it finds every key at its place, and
nothing else. -/
def Numbers {κ : Type} {cmp : κ → κ → Ordering} (index : Std.TreeMap κ Nat cmp)
    (keys : List κ) : Prop :=
  ∀ (key : κ) (place : Nat), index[key]? = some place ↔ keys[place]? = some key

section Numbers

variable {κ : Type} {cmp : κ → κ → Ordering} {index : Std.TreeMap κ Nat cmp} {keys : List κ}
  {key : κ}

theorem numbers_empty [Std.TransCmp cmp] : Numbers (∅ : Std.TreeMap κ Nat cmp) [] := by
  intro key place
  simp

theorem Numbers.nodup (h : Numbers index keys) : keys.Nodup := by
  refine List.pairwise_iff_getElem.mpr fun i j hi hj hlt heq => ?_
  have hfirst := (h keys[i] i).mpr (List.getElem?_eq_getElem hi)
  have hsecond := (h keys[j] j).mpr (List.getElem?_eq_getElem hj)
  rw [heq, hsecond] at hfirst
  have := Option.some.inj hfirst
  omega

theorem Numbers.eq_none_iff (h : Numbers index keys) : index[key]? = none ↔ key ∉ keys := by
  rw [List.mem_iff_getElem?, Option.eq_none_iff_forall_ne_some]
  simp only [ne_eq, h key, not_exists]

/-- A new key gets the next number. -/
theorem Numbers.concat [Std.TransCmp cmp] [Std.LawfulEqCmp cmp] (h : Numbers index keys)
    (hkey : key ∉ keys) : Numbers (index.insert key keys.length) (keys ++ [key]) := by
  intro k p
  have hnone : ∀ i : Nat, keys[i]? ≠ some key :=
    fun i hi => hkey (List.mem_iff_getElem?.mpr ⟨i, hi⟩)
  rw [List.getElem?_append, Std.TreeMap.getElem?_insert]
  by_cases heq : key = k
  · subst heq
    rw [if_pos Std.ReflCmp.compare_self]
    by_cases hp : p < keys.length
    · rw [if_pos hp]
      simp only [Option.some.injEq, hnone p, iff_false]
      exact Nat.ne_of_gt hp
    · rw [if_neg hp, List.getElem?_singleton]
      by_cases hpe : p = keys.length
      · simp [hpe]
      · rw [if_neg (by omega)]
        simpa using Ne.symm hpe
  · rw [if_neg (fun hcmp => heq (Std.LawfulEqCmp.eq_of_compare hcmp)), h]
    by_cases hp : p < keys.length
    · rw [if_pos hp]
    · rw [if_neg hp, List.getElem?_eq_none (by omega), List.getElem?_singleton]
      split
      · simpa using heq
      · rfl

end Numbers

/-- A new element at the end of an array gets the next number. -/
theorem Numbers.push {β κ : Type} {cmp : κ → κ → Ordering} [Std.TransCmp cmp]
    [Std.LawfulEqCmp cmp] {index : Std.TreeMap κ Nat cmp} {as : Array β} {key : β → κ}
    (h : Numbers index (as.toList.map key)) (a : β) (hnew : index[key a]? = none) :
    Numbers (index.insert (key a) as.size) ((as.push a).toList.map key) ∧
      (∀ k, k ∈ (as.push a).toList.map key ↔ k ∈ as.toList.map key ∨ k = key a) ∧
      ((as.push a).toList.map key)[as.size]? = some (key a) := by
  have hlength : (as.toList.map key).length = as.size := by
    rw [List.length_map, Array.length_toList]
  rw [Array.toList_push, List.map_append, List.map_singleton]
  refine ⟨?_, fun k => ?_, ?_⟩
  · rw [← hlength]
    exact h.concat (h.eq_none_iff.mp hnew)
  · rw [List.mem_append, List.mem_singleton]
  · rw [← hlength]
    exact List.getElem?_concat_length

end ChartParser
