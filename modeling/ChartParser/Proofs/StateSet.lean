/-
State sets as sets of keys with links.

What a state set says is which keys it has and which links each of them has
(`StateSet.Has`, `StateSet.HasLink`).  A set is *consistent* if its key index and
its completions agree with the list of its states; every set that is made by
insertions is.

* **`Consistent.insert`** — insertion keeps a set consistent;
* **`has_insert`** and **`hasLink_insert`** — an insertion adds its key and its
  link and nothing else;
* **`keys_insert`** — keys are kept in the order of their first insertion;
* **`Consistent.find?_eq_some_iff`**, **`Consistent.mem_completedItems`** — what
  the look-ups find.

Every index refers to states by their places (see `ChartParser.Places`): `placesOf` is
the increasing list of the places whose keys have a property, and `Numbers` says that
an index finds the keys of a list.
-/
import ChartParser.Proofs.Charted
import Mathlib.Data.List.Nodup

namespace ChartParser

variable {g : Grammar}

instance (key : Key g) (name : Name) : Decidable (key.Awaits name) :=
  decidable_of_iff (key.item.next?.any fun t => t.kind = .nonterminal ∧ t.name = name) <| by
    rw [Option.any_eq_true]
    simp only [Key.Awaits, decide_eq_true_eq]

instance (key : Key g) (name : Name) : Decidable (key.Scans name) :=
  decidable_of_iff (key.item.next?.any fun t => t.kind = .terminal ∧ t.name = name) <| by
    rw [Option.any_eq_true]
    simp only [Key.Scans, decide_eq_true_eq]

instance (key : Key g) (name : Name) (origin : Nat) : Decidable (key.Completes name origin) :=
  inferInstanceAs (Decidable (_ ∧ _ ∧ _))

namespace StateSet

/-- The keys of a set, in the order of insertion. -/
def keys (s : StateSet g) : List (Key g) := s.states.toList.map (·.key)

/-- A set has a state of the given key. -/
def Has (s : StateSet g) (key : Key g) : Prop := key ∈ s.keys

/-- A set has a state of the given key with the given link. -/
def HasLink (s : StateSet g) (key : Key g) (link : Nat) : Prop :=
  ∃ st ∈ s.states, st.key = key ∧ link ∈ st.links

/-- The key index and the completions agree with the states. -/
structure Consistent (s : StateSet g) : Prop where
  index : Numbers s.index s.keys
  completions : ∀ (name : Name) (origin : Nat),
    (s.completionsOf name origin).toList = placesOf (·.Completes name origin) s.keys

variable {s : StateSet g} {key : Key g} {link : Option Nat}

theorem length_keys : s.keys.length = s.size := by
  rw [keys, List.length_map, Array.length_toList, size]

theorem take_keys_size : s.keys.take s.size = s.keys := by
  rw [← length_keys, List.take_length]

theorem getElem?_keys {place : Nat} : s.keys[place]? = s.states[place]?.map (·.key) := by
  rw [keys, List.getElem?_map, Array.getElem?_toList]

theorem getElem?_keys_of_getElem? {place : Nat} {st : State g} (h : s.states[place]? = some st) :
    s.keys[place]? = some st.key := by
  rw [getElem?_keys, h]
  rfl

theorem HasLink.has {j : Nat} (h : s.HasLink key j) : s.Has key := by
  obtain ⟨st, hst, rfl, -⟩ := h
  exact List.mem_map_of_mem (Array.mem_toList_iff.mpr hst)

theorem has_iff_exists_place : s.Has key ↔ ∃ place : Nat, s.keys[place]? = some key :=
  List.mem_iff_getElem?

theorem Consistent.nodup_keys (h : s.Consistent) : s.keys.Nodup := h.index.nodup

theorem consistent_empty : (empty : StateSet g).Consistent where
  index := numbers_empty
  completions name origin := by
    simp [empty, keys, completionsOf]

/-! ### Insertion -/

/-- A key that is there only gets the link. -/
theorem insert_of_has (hs : s.Consistent) (hkey : s.Has key) (link : Option Nat) :
    ∃ place, s.keys[place]? = some key ∧
      s.insert key link = ⟨link.elim s (s.addLink place), place, false⟩ := by
  obtain ⟨place, hplace⟩ := has_iff_exists_place.mp hkey
  refine ⟨place, hplace, ?_⟩
  rw [insert, (hs.index key place).mpr hplace]
  cases link <;> rfl

/-- A new key is put behind the others. -/
theorem insert_of_not_has (hs : s.Consistent) (hkey : ¬ s.Has key) (link : Option Nat) :
    s.insert key link = ⟨s.append key link, s.size, true⟩ := by
  rw [insert, hs.index.eq_none_iff.mpr hkey]
  rfl

@[simp] theorem keys_addLink (place l : Nat) : (s.addLink place l).keys = s.keys := by
  rw [keys, addLink, map_toList_modify, keys]
  intro st
  rfl

@[simp] theorem keys_append : (s.append key link).keys = s.keys ++ [key] := by
  rw [keys, append, Array.toList_push, List.map_append]
  rfl

theorem keys_insert (hs : s.Consistent) (link : Option Nat) :
    (s.insert key link).set.keys = if key ∈ s.keys then s.keys else s.keys ++ [key] := by
  by_cases hkey : key ∈ s.keys
  · obtain ⟨place, -, heq⟩ := insert_of_has hs hkey link
    rw [heq, if_pos hkey]
    cases link with
    | none => rfl
    | some l => exact keys_addLink place l
  · rw [insert_of_not_has hs hkey, if_neg hkey, keys_append]

theorem has_insert (hs : s.Consistent) {k : Key g} :
    (s.insert key link).set.Has k ↔ s.Has k ∨ k = key := by
  rw [Has, keys_insert hs]
  by_cases hkey : key ∈ s.keys
  · rw [if_pos hkey]
    constructor
    · exact .inl
    · rintro (hk | rfl)
      · exact hk
      · exact hkey
  · rw [if_neg hkey, List.mem_append, List.mem_singleton]
    rfl

theorem Consistent.addLink (hs : s.Consistent) (place l : Nat) :
    (s.addLink place l).Consistent where
  index := by
    rw [keys_addLink]
    exact hs.index
  completions name origin := by
    rw [keys_addLink]
    exact hs.completions name origin

theorem Consistent.append (hs : s.Consistent) (hkey : ¬ s.Has key) (link : Option Nat) :
    (s.append key link).Consistent where
  index := by
    rw [keys_append, StateSet.append, ← size, ← length_keys]
    exact hs.index.concat hkey
  completions name origin := by
    rw [keys_append, placesOf_concat, ← hs.completions, length_keys, completionsOf, StateSet.append]
    by_cases hcomplete : key.item.isComplete = true
    · have hiff : key.Completes name origin ↔ key.head = name ∧ key.origin = origin :=
        and_iff_right hcomplete
      rw [if_pos hcomplete, toList_getD_alter_push]
      simp only [hiff, decide_eq_true_eq, Prod.mk.injEq]
      rfl
    · have hnot : ¬ key.Completes name origin := fun h => hcomplete h.1
      simp only [if_neg hcomplete, hnot, decide_false, Bool.false_eq_true, if_false,
        List.append_nil]
      rfl

theorem Consistent.insert (hs : s.Consistent) (key : Key g) (link : Option Nat) :
    (s.insert key link).set.Consistent := by
  by_cases hkey : s.Has key
  · obtain ⟨place, -, heq⟩ := insert_of_has hs hkey link
    rw [heq]
    cases link with
    | none => exact hs
    | some l => exact hs.addLink place l
  · rw [insert_of_not_has hs hkey]
    exact hs.append hkey link

/-! ### Links -/

theorem hasLink_iff_exists_place {j : Nat} :
    s.HasLink key j ↔
      ∃ (place : Nat) (st : State g), s.states[place]? = some st ∧ st.key = key ∧ j ∈ st.links := by
  constructor
  · rintro ⟨st, hst, hkey, hj⟩
    obtain ⟨place, hplace⟩ := Array.mem_iff_getElem?.mp hst
    exact ⟨place, st, hplace, hkey, hj⟩
  · rintro ⟨place, st, hplace, hkey, hj⟩
    exact ⟨st, Array.mem_of_getElem? hplace, hkey, hj⟩

theorem hasLink_addLink {place l j : Nat} {k : Key g} (hplace : s.keys[place]? = some key) :
    (s.addLink place l).HasLink k j ↔ s.HasLink k j ∨ k = key ∧ l = j := by
  rw [getElem?_keys, Option.map_eq_some_iff] at hplace
  obtain ⟨st, hst, rfl⟩ := hplace
  simp only [hasLink_iff_exists_place, addLink, Array.getElem?_modify]
  constructor
  · rintro ⟨p, st', hst', rfl, hj⟩
    by_cases hp : place = p
    · subst hp
      rw [if_pos rfl, hst, Option.map_some, Option.some.injEq] at hst'
      subst hst'
      rw [Std.TreeSet.mem_insert, Std.compare_eq_iff_eq] at hj
      rcases hj with rfl | hj
      · exact .inr ⟨rfl, rfl⟩
      · exact .inl ⟨place, st, hst, rfl, hj⟩
    · rw [if_neg hp] at hst'
      exact .inl ⟨p, st', hst', rfl, hj⟩
  · rintro (⟨p, st', hst', rfl, hj⟩ | ⟨rfl, rfl⟩)
    · by_cases hp : place = p
      · subst hp
        obtain rfl := Option.some.inj (hst.symm.trans hst')
        refine ⟨place, ⟨st.key, st.links.insert l⟩, ?_, rfl, Std.TreeSet.mem_insert.mpr (.inr hj)⟩
        rw [if_pos rfl, hst, Option.map_some]
      · exact ⟨p, st', by rw [if_neg hp, hst'], rfl, hj⟩
    · refine ⟨place, ⟨st.key, st.links.insert l⟩, ?_, rfl, Std.TreeSet.mem_insert_self⟩
      rw [if_pos rfl, hst, Option.map_some]

theorem hasLink_append {j : Nat} {k : Key g} :
    (s.append key link).HasLink k j ↔ s.HasLink k j ∨ k = key ∧ link = some j := by
  have hmem : j ∈ Std.TreeSet.ofList link.toList ↔ link = some j := by
    cases link <;> simp
  simp only [HasLink, append, Array.mem_push]
  constructor
  · rintro ⟨st, hst | rfl, rfl, hj⟩
    · exact .inl ⟨st, hst, rfl, hj⟩
    · exact .inr ⟨rfl, hmem.mp hj⟩
  · rintro (⟨st, hst, rfl, hj⟩ | ⟨rfl, hlink⟩)
    · exact ⟨st, .inl hst, rfl, hj⟩
    · exact ⟨_, .inr rfl, rfl, hmem.mpr hlink⟩

/-- An insertion adds its link to its key. -/
theorem hasLink_insert (hs : s.Consistent) {j : Nat} {k : Key g} :
    (s.insert key link).set.HasLink k j ↔ s.HasLink k j ∨ k = key ∧ link = some j := by
  by_cases hkey : s.Has key
  · obtain ⟨place, hplace, heq⟩ := insert_of_has hs hkey link
    rw [heq]
    cases link with
    | none => simp
    | some l => simpa using hasLink_addLink hplace
  · rw [insert_of_not_has hs hkey]
    exact hasLink_append

/-! ### Several insertions -/

/-- Inserts several keys, each with its link. -/
def insertAll (s : StateSet g) (entries : List (Key g × Option Nat)) : StateSet g :=
  entries.foldl (fun s entry => (s.insert entry.1 entry.2).set) s

variable {entries : List (Key g × Option Nat)}

theorem insertAll_append (s : StateSet g) (first second : List (Key g × Option Nat)) :
    s.insertAll (first ++ second) = (s.insertAll first).insertAll second :=
  List.foldl_append

theorem Consistent.insertAll (hs : s.Consistent) (entries : List (Key g × Option Nat)) :
    (s.insertAll entries).Consistent := by
  induction entries generalizing s with
  | nil => exact hs
  | cons entry entries ih => exact ih (hs.insert entry.1 entry.2)

theorem has_insertAll (hs : s.Consistent) {k : Key g} :
    (s.insertAll entries).Has k ↔ s.Has k ∨ ∃ link, (k, link) ∈ entries := by
  induction entries generalizing s with
  | nil => simp [insertAll]
  | cons entry entries ih =>
    obtain ⟨key, link⟩ := entry
    refine (ih (hs.insert key link)).trans ?_
    rw [has_insert hs, or_assoc]
    refine or_congr_right ?_
    constructor
    · rintro (rfl | ⟨link', h⟩)
      · exact ⟨link, List.mem_cons_self⟩
      · exact ⟨link', List.mem_cons_of_mem _ h⟩
    · rintro ⟨link', h⟩
      rcases List.mem_cons.mp h with h | h
      · exact .inl (congrArg Prod.fst h)
      · exact .inr ⟨link', h⟩

theorem hasLink_insertAll (hs : s.Consistent) {k : Key g} {j : Nat} :
    (s.insertAll entries).HasLink k j ↔ s.HasLink k j ∨ (k, some j) ∈ entries := by
  induction entries generalizing s with
  | nil => simp [insertAll]
  | cons entry entries ih =>
    obtain ⟨key, link⟩ := entry
    refine (ih (hs.insert key link)).trans ?_
    rw [hasLink_insert hs, or_assoc, List.mem_cons, Prod.mk.injEq, eq_comm (a := link)]

theorem prefix_keys_insert (hs : s.Consistent) (key : Key g) (link : Option Nat) :
    s.keys <+: (s.insert key link).set.keys := by
  rw [keys_insert hs]
  split
  · exact List.prefix_refl _
  · exact List.prefix_append _ _

theorem prefix_keys_insertAll (hs : s.Consistent) (entries : List (Key g × Option Nat)) :
    s.keys <+: (s.insertAll entries).keys := by
  induction entries generalizing s with
  | nil => exact List.prefix_refl _
  | cons entry entries ih =>
    exact (prefix_keys_insert hs entry.1 entry.2).trans (ih (hs.insert entry.1 entry.2))

/-- The parts of a set that insertions leave alone. -/
structure SameNotes (s s' : StateSet g) : Prop where
  waiting : s'.waiting = s.waiting
  scanning : s'.scanning = s.scanning
  completedHere : s'.completedHere = s.completedHere
  leoItems : s'.leoItems = s.leoItems
  leoBottoms : s'.leoBottoms = s.leoBottoms

theorem SameNotes.trans {s s' s'' : StateSet g} (h : SameNotes s s') (h' : SameNotes s' s'') :
    SameNotes s s'' where
  waiting := h'.waiting.trans h.waiting
  scanning := h'.scanning.trans h.scanning
  completedHere := h'.completedHere.trans h.completedHere
  leoItems := h'.leoItems.trans h.leoItems
  leoBottoms := h'.leoBottoms.trans h.leoBottoms

theorem sameNotes_insert (s : StateSet g) (key : Key g) (link : Option Nat) :
    SameNotes s (s.insert key link).set := by
  unfold insert
  split
  · split <;> exact ⟨rfl, rfl, rfl, rfl, rfl⟩
  · exact ⟨rfl, rfl, rfl, rfl, rfl⟩

theorem sameNotes_insertAll (s : StateSet g) (entries : List (Key g × Option Nat)) :
    SameNotes s (s.insertAll entries) := by
  induction entries generalizing s with
  | nil => exact ⟨rfl, rfl, rfl, rfl, rfl⟩
  | cons entry entries ih =>
    exact (sameNotes_insert s entry.1 entry.2).trans (ih (s.insert entry.1 entry.2).set)

/-! ### What the look-ups find -/

theorem Consistent.find?_eq_some_iff (hs : s.Consistent) {st : State g} :
    s.find? key = some st ↔ st ∈ s.states ∧ st.key = key := by
  rw [find?, Option.bind_eq_some_iff]
  constructor
  · rintro ⟨place, hplace, hst⟩
    rw [hs.index, getElem?_keys, hst] at hplace
    exact ⟨Array.mem_of_getElem? hst, Option.some.inj hplace⟩
  · rintro ⟨hst, rfl⟩
    obtain ⟨place, hplace⟩ := Array.mem_iff_getElem?.mp hst
    exact ⟨place, (hs.index _ _).mpr (by rw [getElem?_keys, hplace]; rfl), hplace⟩

theorem Consistent.hasLink_iff (hs : s.Consistent) {j : Nat} :
    s.HasLink key j ↔ ∃ st, s.find? key = some st ∧ j ∈ st.links := by
  simp only [HasLink, hs.find?_eq_some_iff, and_assoc]

theorem Consistent.isEmpty_completionsOf_eq_false_iff (hs : s.Consistent) {name : Name}
    {origin : Nat} :
    (s.completionsOf name origin).isEmpty = false ↔
      ∃ key, s.Has key ∧ key.Completes name origin := by
  rw [← Bool.not_eq_true, Array.isEmpty_iff, ← Array.toList_eq_nil_iff, hs.completions,
    List.eq_nil_iff_forall_not_mem, not_forall_not]
  simp only [mem_placesOf, decide_eq_true_eq]
  constructor
  · rintro ⟨place, key, hkey, hcompletes⟩
    exact ⟨key, has_iff_exists_place.mpr ⟨place, hkey⟩, hcompletes⟩
  · rintro ⟨key, hhas, hcompletes⟩
    obtain ⟨place, hkey⟩ := has_iff_exists_place.mp hhas
    exact ⟨place, key, hkey, hcompletes⟩

theorem Consistent.mem_completedItems (hs : s.Consistent) {name : Name} {origin : Nat}
    {item : Item g} :
    item ∈ s.completedItems name origin ↔
      s.Has ⟨item, origin⟩ ∧ item.isComplete = true ∧ item.head = name := by
  rw [completedItems, hs.completions, List.mem_filterMap]
  constructor
  · rintro ⟨place, hplace, hitem⟩
    obtain ⟨key, hkey, hcompletes⟩ := mem_placesOf.mp hplace
    rw [getElem?_keys, Option.map_eq_some_iff] at hkey
    obtain ⟨st, hst, rfl⟩ := hkey
    rw [hst, Option.map_some, Option.some.injEq] at hitem
    subst hitem
    obtain ⟨hcomplete, hhead, rfl⟩ := of_decide_eq_true hcompletes
    refine ⟨has_iff_exists_place.mpr ⟨place, ?_⟩, hcomplete, hhead⟩
    rw [getElem?_keys, hst]
    rfl
  · rintro ⟨hhas, hcomplete, hhead⟩
    obtain ⟨place, hplace⟩ := has_iff_exists_place.mp hhas
    refine ⟨place, mem_placesOf.mpr ⟨_, hplace, decide_eq_true ⟨hcomplete, hhead, rfl⟩⟩, ?_⟩
    rw [getElem?_keys, Option.map_eq_some_iff] at hplace
    obtain ⟨st, hst, hkey⟩ := hplace
    rw [hst, Option.map_some, hkey]

/-- A waiting index that lists the places of the waiting keys finds the waiting
keys among the first `n`. -/
theorem mem_waiters {name : Name} {n : Nat}
    (hwaiting : (s.waitingOn name).toList = placesOf (·.Awaits name) (s.keys.take n)) :
    key ∈ s.waiters name ↔ key ∈ s.keys.take n ∧ key.Awaits name := by
  have hkeys : ∀ {place : Nat} {k : Key g}, (s.keys.take n)[place]? = some k →
      s.keys[place]? = some k := by
    intro place k hk
    exact getElem?_of_prefix (List.take_prefix n s.keys) hk
  rw [waiters, hwaiting, List.mem_filterMap]
  simp only [← getElem?_keys, mem_placesOf, decide_eq_true_eq]
  constructor
  · rintro ⟨place, ⟨key', hkey', hawaits⟩, hkey⟩
    obtain rfl := Option.some.inj ((hkeys hkey').symm.trans hkey)
    exact ⟨List.mem_of_getElem? hkey', hawaits⟩
  · rintro ⟨hmem, hawaits⟩
    obtain ⟨place, hplace⟩ := List.mem_iff_getElem?.mp hmem
    exact ⟨place, ⟨key, hplace, hawaits⟩, hkeys hplace⟩

end StateSet

end ChartParser
