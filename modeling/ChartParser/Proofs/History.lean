/-
State sets under any use.

A state set is changed by six operations, which may be called in any order and with any
arguments.  Its list of states, its key index and its completions are updated in
different branches of `insert`, and nothing but insertions touches them.  So all that
they say can be told from the keys and links that were inserted.

* **`Call`** and **`ofCalls`** — calls of the operations, and what they make of the empty
  set; `entriesOf` is what they insert;
* **`Recorded`** — the states of a set are those that some insertions give;
* **`Recorded.run`** and **`recorded_ofCalls`** — every call keeps it so, and so do all;
* **`Indexed`** — what a caller sees: the order of the states, what the look-ups find and
  what an insertion returns;
* **`indexes_exact`** — after any calls a set is indexed by what they have inserted.
-/
import ChartParser.Proofs.StateSet

namespace ChartParser

variable {g : Grammar}

namespace StateSet

/-! ### Calls -/

/-- A call of an operation that changes a state set. -/
inductive Call (g : Grammar) where
  | insert (key : Key g) (link : Option Nat)
  | addWaiting (name : Name) (place : Nat)
  | addScanning (name : Name)
  | addCompletedHere (name : Name)
  | addLeoItem (name : Name) (item : LeoItem g)
  | addLeoBottom (origin : Nat) (name : Name)

/-- The set after a call. -/
def Call.run : Call g → StateSet g → StateSet g
  | .insert key link, s => (s.insert key link).set
  | .addWaiting name place, s => s.addWaiting name place
  | .addScanning name, s => s.addScanning name
  | .addCompletedHere name, s => s.addCompletedHere name
  | .addLeoItem name item, s => s.addLeoItem name item
  | .addLeoBottom origin name, s => s.addLeoBottom origin name

/-- The key and the link that a call inserts, if it is an insertion. -/
def Call.entry? : Call g → Option (Key g × Option Nat)
  | .insert key link => some (key, link)
  | _ => none

/-- What calls make of the empty set. -/
def ofCalls (calls : List (Call g)) : StateSet g :=
  calls.foldl (fun s call => call.run s) empty

/-- What calls insert, in order. -/
def entriesOf (calls : List (Call g)) : List (Key g × Option Nat) := calls.filterMap Call.entry?

/-! ### What only insertions change -/

/-- The parts of a set that only insertions change. -/
structure SameStates (s s' : StateSet g) : Prop where
  states : s'.states = s.states
  index : s'.index = s.index
  completions : s'.completions = s.completions

theorem Call.sameStates {call : Call g} (h : call.entry? = none) (s : StateSet g) :
    SameStates s (call.run s) := by
  cases call with
  | insert => contradiction
  | addWaiting => exact ⟨rfl, rfl, rfl⟩
  | addScanning => exact ⟨rfl, rfl, rfl⟩
  | addCompletedHere => exact ⟨rfl, rfl, rfl⟩
  | addLeoItem => exact ⟨rfl, rfl, rfl⟩
  | addLeoBottom => exact ⟨rfl, rfl, rfl⟩

namespace SameStates

variable {s s' : StateSet g}

theorem keys_eq (h : SameStates s s') : s'.keys = s.keys := by
  rw [keys, h.states, keys]

theorem find?_eq (h : SameStates s s') (key : Key g) : s'.find? key = s.find? key := by
  rw [find?, h.index, h.states, find?]

theorem completionsOf_eq (h : SameStates s s') (name : Name) (origin : Nat) :
    s'.completionsOf name origin = s.completionsOf name origin := by
  rw [completionsOf, h.completions, completionsOf]

theorem consistent (h : SameStates s s') (hs : s.Consistent) : s'.Consistent where
  index := by
    rw [h.index, h.keys_eq]
    exact hs.index
  completions name origin := by
    rw [h.completionsOf_eq, h.keys_eq]
    exact hs.completions name origin

/-- An insertion returns the same place, and says alike whether the key is new. -/
theorem insert_eq (h : SameStates s s') (key : Key g) (link : Option Nat) :
    (s'.insert key link).place = (s.insert key link).place ∧
      (s'.insert key link).isNew = (s.insert key link).isNew := by
  rw [insert, h.index, insert]
  split
  · split <;> exact ⟨rfl, rfl⟩
  · exact ⟨congrArg Array.size h.states, rfl⟩

end SameStates

/-! ### What calls leave behind -/

/-- The states of a set are those that the insertions of some entries give. -/
structure Recorded (entries : List (Key g × Option Nat)) (s : StateSet g) : Prop where
  consistent : s.Consistent
  keys_eq : s.keys = firstAppearances (entries.map (·.1))
  hasLink_iff : ∀ {key : Key g} {j : Nat}, s.HasLink key j ↔ (key, some j) ∈ entries

variable {entries : List (Key g × Option Nat)} {s s' : StateSet g}

theorem recorded_empty : Recorded [] (empty : StateSet g) where
  consistent := consistent_empty
  keys_eq := rfl
  hasLink_iff := by simp [HasLink, empty]

theorem Recorded.has_iff (h : Recorded entries s) {key : Key g} :
    s.Has key ↔ key ∈ entries.map (·.1) := by
  rw [Has, h.keys_eq, mem_firstAppearances]

theorem Recorded.insert (h : Recorded entries s) (key : Key g) (link : Option Nat) :
    Recorded (entries ++ [(key, link)]) (s.insert key link).set where
  consistent := h.consistent.insert key link
  keys_eq := by
    rw [keys_insert h.consistent, List.map_append, List.map_singleton, firstAppearances_concat,
      ← h.keys_eq]
    exact if_congr h.has_iff rfl rfl
  hasLink_iff {k j} := by
    rw [hasLink_insert h.consistent, h.hasLink_iff, List.mem_append, List.mem_singleton,
      Prod.mk.injEq, @eq_comm _ (some j)]

theorem Recorded.of_sameStates (h : Recorded entries s) (hsame : SameStates s s') :
    Recorded entries s' where
  consistent := hsame.consistent h.consistent
  keys_eq := by
    rw [hsame.keys_eq]
    exact h.keys_eq
  hasLink_iff {k j} := by
    rw [HasLink, hsame.states]
    exact h.hasLink_iff

/-- A call adds what it inserts. -/
theorem Recorded.run (h : Recorded entries s) (call : Call g) :
    Recorded (entries ++ call.entry?.toList) (call.run s) := by
  cases hentry : call.entry? with
  | none =>
    rw [Option.toList_none, List.append_nil]
    exact h.of_sameStates (call.sameStates hentry s)
  | some entry =>
    cases call with
    | insert key link =>
      obtain rfl := Option.some.inj hentry
      exact h.insert key link
    | _ => contradiction

theorem recorded_ofCalls (calls : List (Call g)) : Recorded (entriesOf calls) (ofCalls calls) := by
  -- calls that follow others add to what those have inserted
  have hfrom : ∀ {entries : List (Key g × Option Nat)} {s : StateSet g}, Recorded entries s →
      Recorded (entries ++ entriesOf calls) (calls.foldl (fun s call => call.run s) s) := by
    induction calls with
    | nil =>
      intro entries s h
      rw [entriesOf, List.filterMap_nil, List.append_nil]
      exact h
    | cons call calls ih =>
      intro entries s h
      have hentries : entriesOf (call :: calls) = call.entry?.toList ++ entriesOf calls := by
        rw [entriesOf, List.filterMap_cons]
        cases call.entry? <;> rfl
      rw [hentries, ← List.append_assoc]
      exact ih (h.run call)
  exact hfrom recorded_empty

/-! ### What a caller sees -/

/-- What a caller sees of a set into which some entries were inserted. -/
structure Indexed (entries : List (Key g × Option Nat)) (s : StateSet g) : Prop where
  /-- The states have the inserted keys, each once, in the order of their first insertion. -/
  keys_eq : s.keys = firstAppearances (entries.map (·.1))
  /-- An insertion tells whether its key was there before, ... -/
  isNew_iff : ∀ key link, (s.insert key link).isNew = true ↔ key ∉ entries.map (·.1)
  /-- ... and returns the place of its key. -/
  place : ∀ key link, (s.insert key link).set.keys[(s.insert key link).place]? = some key
  /-- A key is looked up at its place, ... -/
  find : ∀ key (place : Nat), s.keys[place]? = some key → s.find? key = s.states[place]?
  /-- ... unless it was never inserted. -/
  find_none : ∀ key, s.find? key = none ↔ key ∉ entries.map (·.1)
  /-- A state has the links that were inserted with its key. -/
  links : ∀ st ∈ s.states, ∀ j, j ∈ st.links ↔ (st.key, some j) ∈ entries
  /-- The complete states of a nonterminal from an origin are listed by their places, ... -/
  completions : ∀ name origin (place : Nat), place ∈ (s.completionsOf name origin).toList ↔
    ∃ st, s.states[place]? = some st ∧ st.key.Completes name origin
  /-- ... each of them once and in order. -/
  completions_increasing : ∀ name origin, (s.completionsOf name origin).toList.Pairwise (· < ·)
  /-- A call that is no insertion changes nothing of this. -/
  other : ∀ call : Call g, call.entry? = none →
    (call.run s).states = s.states ∧
    (∀ key, (call.run s).find? key = s.find? key) ∧
    (∀ name origin, (call.run s).completionsOf name origin = s.completionsOf name origin) ∧
    ∀ key link, ((call.run s).insert key link).place = (s.insert key link).place ∧
      ((call.run s).insert key link).isNew = (s.insert key link).isNew

theorem Recorded.isNew_iff (h : Recorded entries s) (key : Key g) (link : Option Nat) :
    (s.insert key link).isNew = true ↔ key ∉ entries.map (·.1) := by
  rw [← h.has_iff]
  by_cases hkey : s.Has key
  · obtain ⟨place, -, heq⟩ := insert_of_has h.consistent hkey link
    simp [heq, hkey]
  · simp [insert_of_not_has h.consistent hkey, hkey]

theorem Recorded.getElem?_place (h : Recorded entries s) (key : Key g) (link : Option Nat) :
    (s.insert key link).set.keys[(s.insert key link).place]? = some key := by
  by_cases hkey : s.Has key
  · obtain ⟨place, hplace, heq⟩ := insert_of_has h.consistent hkey link
    have hkeys := prefix_keys_insert h.consistent key link
    rw [heq] at hkeys ⊢
    exact getElem?_of_prefix hkeys hplace
  · rw [insert_of_not_has h.consistent hkey, keys_append, ← length_keys]
    exact List.getElem?_concat_length

theorem Recorded.find?_eq (h : Recorded entries s) {key : Key g} {place : Nat}
    (hplace : s.keys[place]? = some key) : s.find? key = s.states[place]? := by
  rw [find?, (h.consistent.index key place).mpr hplace, Option.bind_some]

theorem Recorded.find?_eq_none_iff (h : Recorded entries s) {key : Key g} :
    s.find? key = none ↔ key ∉ entries.map (·.1) := by
  rw [← h.has_iff, has_iff_exists_place]
  constructor
  · rintro hnone ⟨place, hplace⟩
    rw [h.find?_eq hplace] at hnone
    rw [getElem?_keys, hnone] at hplace
    contradiction
  · intro hkey
    rw [find?, h.consistent.index.eq_none_iff.mpr fun hmem => hkey (has_iff_exists_place.mp hmem)]
    rfl

/-- The links of a state are those inserted with its key: no other state has this key. -/
theorem Recorded.mem_links_iff (h : Recorded entries s) {st : State g} (hst : st ∈ s.states)
    {j : Nat} : j ∈ st.links ↔ (st.key, some j) ∈ entries := by
  have hfind := h.consistent.find?_eq_some_iff.mpr ⟨hst, rfl⟩
  rw [← h.hasLink_iff, h.consistent.hasLink_iff, hfind]
  simp

theorem Recorded.mem_completionsOf_iff (h : Recorded entries s) {name : Name}
    {origin place : Nat} : place ∈ (s.completionsOf name origin).toList ↔
      ∃ st, s.states[place]? = some st ∧ st.key.Completes name origin := by
  rw [h.consistent.completions, mem_placesOf, getElem?_keys]
  simp only [Option.map_eq_some_iff, decide_eq_true_eq]
  constructor
  · rintro ⟨key, ⟨st, hst, rfl⟩, hcompletes⟩
    exact ⟨st, hst, hcompletes⟩
  · rintro ⟨st, hst, hcompletes⟩
    exact ⟨st.key, ⟨st, hst, rfl⟩, hcompletes⟩

/-- **The indexes of a state set are exact under any use.**  Whatever operations are
called on the empty set, in any order and with any arguments, the states, look-ups and
results of insertions are those that the inserted keys and links call for, and the
other operations do not change them. -/
theorem indexes_exact (calls : List (Call g)) : Indexed (entriesOf calls) (ofCalls calls) := by
  have h := recorded_ofCalls calls
  refine ⟨h.keys_eq, h.isNew_iff, h.getElem?_place, fun _ _ => h.find?_eq,
    fun _ => h.find?_eq_none_iff, fun _ hst _ => h.mem_links_iff hst,
    fun _ _ _ => h.mem_completionsOf_iff, ?_, ?_⟩
  · intro name origin
    rw [h.consistent.completions]
    exact pairwise_placesOf
  · intro call hcall
    have hsame := call.sameStates hcall (ofCalls calls)
    exact ⟨hsame.states, hsame.find?_eq, hsame.completionsOf_eq, hsame.insert_eq⟩

end StateSet

end ChartParser
