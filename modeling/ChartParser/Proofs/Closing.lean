/-
What processing one state does.

Processing a state *notes* what the state is (in the waiting, scanning,
completion and shortcut indexes) and *asks for* some keys, each with a link.

* **`Request`** — the five ways in which a state can ask for a key;
* **`process_current`** — processing a state notes it and inserts what it asks
  for, and **`process_next`** — a scanning state puts its successor into the
  next set;
* **`noted_cases`** — what is noted about a state, from which each index is read
  off (`toList_waitingOn_noted`, `mem_scanning_noted`, `wasCompletedHere_noted`,
  `mem_leoBottoms_noted`).
-/
import ChartParser.Proofs.StateSet

namespace ChartParser

variable {g : Grammar} {α : Type}

namespace Closing

/-- The keys that follow some waiters over a nonterminal from `split`. -/
def successors (waiters : List (Key g)) (split : Nat) : List (Key g × Option Nat) :=
  waiters.filterMap fun waiter => waiter.advance?.map (·, some split)

/-- The keys that processing a state of the given key asks for, each with its
link. -/
def requests (earlier : Array (StateSet g)) (position : Nat) (key : Key g) (s : StateSet g) :
    List (Key g × Option Nat) :=
  match key.item.next? with
  | none =>
    if key.origin = position then successors (s.waiters key.head) key.origin
    else
      match earlier[key.origin]? with
      | none => []
      | some originSet =>
        match originSet.leoItem? key.head with
        | some leo => [(leo.top, some leo.topSplit)]
        | none => successors (originSet.waiters key.head) key.origin
  | some term =>
    match term.kind with
    | .nonterminal =>
      ((g.alternatives term.name).map fun id => (⟨.atStart id, position⟩, none)) ++
        if s.wasCompletedHere term.name then successors [key] position else []
    | .terminal => []

/-- A set in which the state at a place is noted. -/
def noted (earlier : Array (StateSet g)) (position place : Nat) (key : Key g) (s : StateSet g) :
    StateSet g :=
  match key.item.next? with
  | none =>
    if key.origin = position then s.addCompletedHere key.head
    else
      match earlier[key.origin]? with
      | none => s
      | some originSet =>
        match originSet.leoItem? key.head with
        | some _ => s.addLeoBottom key.origin key.head
        | none => s
  | some term =>
    match term.kind with
    | .nonterminal => s.addWaiting term.name place
    | .terminal => s.addScanning term.name

/-- The key that processing a state asks for in the next set, with its link. -/
def scans (position : Nat) (token : Option Name) (key : Key g) : List (Key g × Option Nat) :=
  match key.item.next? with
  | none => []
  | some term =>
    if term.kind = .terminal ∧ token = some term.name then successors [key] position else []

/-! ### One state -/

theorem add_current (c : Closing g) (key : Key g) (link : Option Nat) (event : Event g) :
    (c.add key link event).current = (c.current.insert key link).set := by
  unfold add
  dsimp only
  split <;> rfl

theorem add_next (c : Closing g) (key : Key g) (link : Option Nat) (event : Event g) :
    (c.add key link event).next = c.next := by
  unfold add
  dsimp only
  split <;> rfl

theorem successors_append (ws vs : List (Key g)) (split : Nat) :
    successors (ws ++ vs) split = successors ws split ++ successors vs split :=
  List.filterMap_append

theorem advanceOver_current (position split : Nat) (c : Closing g) (waiter : Key g) :
    (advanceOver position split c waiter).current =
      c.current.insertAll (successors [waiter] split) := by
  unfold advanceOver successors
  cases h : waiter.advance? with
  | none => simp [h, StateSet.insertAll]
  | some advanced => simp [h, StateSet.insertAll, add_current]

theorem advanceOver_next (position split : Nat) (c : Closing g) (waiter : Key g) :
    (advanceOver position split c waiter).next = c.next := by
  unfold advanceOver
  split
  · exact add_next ..
  · rfl

theorem foldl_advanceOver_current (position split : Nat) (waiters : List (Key g))
    (c : Closing g) :
    (waiters.foldl (advanceOver position split) c).current =
      c.current.insertAll (successors waiters split) := by
  induction waiters generalizing c with
  | nil => rfl
  | cons waiter waiters ih =>
    rw [List.foldl_cons, ih, advanceOver_current]
    show _ = c.current.insertAll (successors ([waiter] ++ waiters) split)
    rw [successors_append, StateSet.insertAll_append]

theorem foldl_advanceOver_next (position split : Nat) (waiters : List (Key g))
    (c : Closing g) : (waiters.foldl (advanceOver position split) c).next = c.next := by
  induction waiters generalizing c with
  | nil => rfl
  | cons waiter waiters ih => rw [List.foldl_cons, ih, advanceOver_next]

theorem foldl_predicted_current (position : Nat) (ids : List g.ExprId) (c : Closing g) :
    (ids.foldl (fun c id => c.add ⟨.atStart id, position⟩ none (.predicted (.atStart id) position))
        c).current =
      c.current.insertAll (ids.map fun id => (⟨.atStart id, position⟩, none)) := by
  induction ids generalizing c with
  | nil => rfl
  | cons id ids ih =>
    rw [List.foldl_cons, ih, add_current]
    rfl

theorem foldl_predicted_next (position : Nat) (ids : List g.ExprId) (c : Closing g) :
    (ids.foldl (fun c id => c.add ⟨.atStart id, position⟩ none (.predicted (.atStart id) position))
        c).next = c.next := by
  induction ids generalizing c with
  | nil => rfl
  | cons id ids ih => rw [List.foldl_cons, ih, add_next]

theorem predict_current (position : Nat) (name : Name) (place : Nat) (key : Key g)
    (c : Closing g) :
    (c.predict position name place key).current =
      (c.current.addWaiting name place).insertAll
        (((g.alternatives name).map fun id => (⟨.atStart id, position⟩, none)) ++
          if c.current.wasCompletedHere name then successors [key] position else []) := by
  have hnotes := StateSet.sameNotes_insertAll (c.current.addWaiting name place)
    ((g.alternatives name).map fun id => (⟨.atStart id, position⟩, none))
  -- predicting completes nothing, so the test could as well be made before it
  have hhere : ∀ c' : Closing g, c'.current = (c.current.addWaiting name place).insertAll
      ((g.alternatives name).map fun id => (⟨.atStart id, position⟩, none)) →
      c'.current.wasCompletedHere name = c.current.wasCompletedHere name := by
    intro c' hc'
    rw [StateSet.wasCompletedHere, hc', hnotes.completedHere]
    rfl
  rw [predict, StateSet.insertAll_append]
  rw [hhere _ (foldl_predicted_current ..)]
  split
  · rw [advanceOver_current, foldl_predicted_current]
  · exact foldl_predicted_current ..

theorem predict_next (position : Nat) (name : Name) (place : Nat) (key : Key g)
    (c : Closing g) : (c.predict position name place key).next = c.next := by
  rw [predict]
  split
  · rw [advanceOver_next, foldl_predicted_next]
  · exact foldl_predicted_next ..

/-- Processing a state notes it and inserts what it asks for. -/
theorem process_current (earlier : Array (StateSet g)) (position : Nat) (token : Option Name)
    (place : Nat) (key : Key g) (c : Closing g) :
    (c.process earlier position token place key).current =
      (noted earlier position place key c.current).insertAll
        (requests earlier position key c.current) := by
  unfold process noted requests
  cases key.item.next? with
  | none =>
    dsimp only [complete]
    by_cases horigin : key.origin = position
    · rw [if_pos horigin, if_pos horigin, if_pos horigin, foldl_advanceOver_current]
      rfl
    · rw [if_neg horigin, if_neg horigin, if_neg horigin]
      cases earlier[key.origin]? with
      | none => rfl
      | some originSet =>
        dsimp only
        cases originSet.leoItem? key.head with
        | none => exact foldl_advanceOver_current ..
        | some leo => exact add_current ..
  | some term =>
    dsimp only
    cases term.kind with
    | nonterminal => exact predict_current ..
    | terminal =>
      dsimp only [scan]
      split
      · split <;> rfl
      · rfl

/-- Processing a state inserts what it scans into the next set. -/
theorem process_next (earlier : Array (StateSet g)) (position : Nat) (token : Option Name)
    (place : Nat) (key : Key g) (c : Closing g) :
    (c.process earlier position token place key).next =
      c.next.insertAll (scans position token key) := by
  unfold process scans
  cases key.item.next? with
  | none =>
    dsimp only [complete]
    by_cases horigin : key.origin = position
    · rw [if_pos horigin, foldl_advanceOver_next]
      rfl
    · rw [if_neg horigin]
      cases earlier[key.origin]? with
      | none => rfl
      | some originSet =>
        dsimp only
        cases originSet.leoItem? key.head with
        | none => exact foldl_advanceOver_next ..
        | some leo => exact add_next ..
  | some term =>
    dsimp only
    cases hkind : term.kind with
    | nonterminal =>
      rw [if_neg (by simp)]
      exact predict_next ..
    | terminal =>
      dsimp only [scan]
      by_cases htoken : token = some term.name
      · rw [if_pos htoken, if_pos ⟨rfl, htoken⟩]
        cases hadvance : key.advance? with
        | none => simp [successors, hadvance, StateSet.insertAll]
        | some next => simp [successors, hadvance, StateSet.insertAll]
      · rw [if_neg htoken, if_neg (fun h => htoken h.2)]
        rfl

/-! ### What a state asks for -/

/-- `Request earlier position s key next link`: processing a state of the given
key in the set `s` asks for the key `next` with the given link. -/
inductive Request (earlier : Array (StateSet g)) (position : Nat) (s : StateSet g) (key : Key g) :
    Key g → Option Nat → Prop where
  /-- A waiting state asks for the expressions of what it waits for. -/
  | predict {name : Name} {id : g.ExprId} (awaits : key.Awaits name)
      (head : (g.expr id).head = name) : Request earlier position s key ⟨.atStart id, position⟩ none
  /-- A waiting state passes a nonterminal that was completed here. -/
  | pass {name : Name} {next : Key g} (awaits : key.Awaits name)
      (here : s.wasCompletedHere name = true) (advance : key.advance? = some next) :
      Request earlier position s key next (some position)
  /-- A completion over the empty input lets the states waiting here pass. -/
  | wake {name : Name} {waiter next : Key g} (completes : key.Completes name position)
      (waiting : waiter ∈ s.waiters name) (advance : waiter.advance? = some next) :
      Request earlier position s key next (some position)
  /-- A completion lets the states waiting at its origin pass. -/
  | complete {name : Name} {origin : Nat} {originSet : StateSet g} {waiter next : Key g}
      (completes : key.Completes name origin) (before : origin ≠ position)
      (found : earlier[origin]? = some originSet) (plain : originSet.leoItem? name = none)
      (waiting : waiter ∈ originSet.waiters name) (advance : waiter.advance? = some next) :
      Request earlier position s key next (some origin)
  /-- A completion takes a shortcut. -/
  | shortcut {name : Name} {origin : Nat} {originSet : StateSet g} {leo : LeoItem g}
      (completes : key.Completes name origin) (before : origin ≠ position)
      (found : earlier[origin]? = some originSet) (item : originSet.leoItem? name = some leo) :
      Request earlier position s key leo.top (some leo.topSplit)

theorem mem_successors {waiters : List (Key g)} {split : Nat} {next : Key g} {link : Option Nat} :
    (next, link) ∈ successors waiters split ↔
      ∃ waiter ∈ waiters, waiter.advance? = some next ∧ link = some split := by
  rw [successors, List.mem_filterMap]
  simp only [Option.map_eq_some_iff, Prod.mk.injEq]
  constructor
  · rintro ⟨waiter, hmem, next', hadvance, rfl, rfl⟩
    exact ⟨waiter, hmem, hadvance, rfl⟩
  · rintro ⟨waiter, hmem, hadvance, rfl⟩
    exact ⟨waiter, hmem, next, hadvance, rfl, rfl⟩

theorem mem_scans {position : Nat} {token : Option Name} {key next : Key g} {link : Option Nat} :
    (next, link) ∈ scans position token key ↔
      (∃ name, key.Scans name ∧ token = some name) ∧ key.advance? = some next ∧
        link = some position := by
  unfold scans Key.Scans
  cases key.item.next? with
  | none => simp
  | some term =>
    by_cases h : term.kind = .terminal ∧ token = some term.name
    · simp [h, mem_successors]
    · have hnot : ¬ ∃ name, (∃ t, some term = some t ∧ t.kind = .terminal ∧ t.name = name) ∧
          token = some name := by
        rintro ⟨name, ⟨t, ht, hkind, rfl⟩, htoken⟩
        obtain rfl := Option.some.inj ht
        exact h ⟨hkind, htoken⟩
      simp only [if_neg h, List.not_mem_nil, hnot, false_and]

theorem completes_self {key : Key g} (h : key.item.next? = none) :
    key.Completes key.head key.origin :=
  ⟨Item.next?_eq_none_iff.mp h, rfl, rfl⟩

theorem next?_of_completes {key : Key g} {name : Name} {origin : Nat}
    (h : key.Completes name origin) : key.item.next? = none :=
  Item.next?_eq_none_iff.mpr h.1

theorem mem_requests {earlier : Array (StateSet g)} {position : Nat} {s : StateSet g}
    {key next : Key g} {link : Option Nat} :
    (next, link) ∈ requests earlier position key s ↔
      Request earlier position s key next link := by
  constructor
  · intro h
    unfold requests at h
    split at h
    · -- a complete state: it starts here, or a shortcut or the waiters at its origin decide
      rename_i hnext
      split at h
      · rename_i horigin
        obtain ⟨waiter, hwaiter, hadvance, rfl⟩ := mem_successors.mp h
        have hcompletes := completes_self hnext
        rw [horigin] at hcompletes ⊢
        exact .wake hcompletes hwaiter hadvance
      · rename_i horigin
        split at h
        · simp at h
        · rename_i originSet hfound
          split at h
          · rename_i leo hleo
            rw [List.mem_singleton, Prod.mk.injEq] at h
            obtain ⟨rfl, rfl⟩ := h
            exact .shortcut (completes_self hnext) horigin hfound hleo
          · rename_i hleo
            obtain ⟨waiter, hwaiter, hadvance, rfl⟩ := mem_successors.mp h
            exact .complete (completes_self hnext) horigin hfound hleo hwaiter hadvance
    · -- an incomplete state asks for something here only if it waits
      rename_i term hnext
      split at h
      · rename_i hkind
        have hawaits : key.Awaits term.name := ⟨term, hnext, hkind, rfl⟩
        rcases List.mem_append.mp h with h | h
        · obtain ⟨id, hid, heq⟩ := List.mem_map.mp h
          obtain ⟨rfl, rfl⟩ := Prod.mk.injEq .. ▸ heq
          exact .predict hawaits (Grammar.mem_alternatives.mp hid)
        · split at h
          · rename_i hhere
            obtain ⟨waiter, hwaiter, hadvance, rfl⟩ := mem_successors.mp h
            obtain rfl := List.mem_singleton.mp hwaiter
            exact .pass hawaits hhere hadvance
          · simp at h
      · simp at h
  · intro h
    unfold requests
    cases h with
    | predict awaits head =>
      obtain ⟨t, hnext, hkind, rfl⟩ := awaits
      simp only [hnext, hkind]
      refine List.mem_append_left _ (List.mem_map.mpr ⟨_, Grammar.mem_alternatives.mpr head, rfl⟩)
    | pass awaits here advance =>
      obtain ⟨t, hnext, hkind, rfl⟩ := awaits
      simp only [hnext, hkind, here]
      refine List.mem_append_right _ (mem_successors.mpr ⟨key, ?_, advance, rfl⟩)
      exact List.mem_singleton_self key
    | wake completes waiting advance =>
      simp only [next?_of_completes completes]
      obtain ⟨-, rfl, rfl⟩ := completes
      rw [if_pos rfl]
      exact mem_successors.mpr ⟨_, waiting, advance, rfl⟩
    | complete completes before found plain waiting advance =>
      simp only [next?_of_completes completes]
      obtain ⟨-, rfl, rfl⟩ := completes
      rw [if_neg before]
      simp only [found, plain]
      exact mem_successors.mpr ⟨_, waiting, advance, rfl⟩
    | shortcut completes before found item =>
      simp only [next?_of_completes completes]
      obtain ⟨-, rfl, rfl⟩ := completes
      rw [if_neg before]
      simp only [found, item]
      exact List.mem_singleton_self _

/-! ### What is noted about a state -/

section Noted

variable {earlier : Array (StateSet g)} {position place : Nat} {key : Key g} {s : StateSet g}

/-- A completion that takes a shortcut: the set at its origin has a Leo item for
its head. -/
def Shortcut (earlier : Array (StateSet g)) (origin : Nat) (name : Name) : Prop :=
  ∃ originSet leo, earlier[origin]? = some originSet ∧ originSet.leoItem? name = some leo

theorem noted_cases :
    (∃ name, key.Awaits name ∧ noted earlier position place key s = s.addWaiting name place) ∨
    (∃ name, key.Scans name ∧ noted earlier position place key s = s.addScanning name) ∨
    (∃ name, key.Completes name position ∧
      noted earlier position place key s = s.addCompletedHere name) ∨
    (∃ name origin, key.Completes name origin ∧ origin ≠ position ∧
      Shortcut earlier origin name ∧
      noted earlier position place key s = s.addLeoBottom origin name) ∨
    (∃ name origin, key.Completes name origin ∧ origin ≠ position ∧
      ¬ Shortcut earlier origin name ∧ noted earlier position place key s = s) := by
  unfold noted
  split
  · -- a complete state that starts earlier is noted only if it takes a shortcut
    rename_i hnext
    have hcompletes := completes_self hnext
    split
    · rename_i horigin
      rw [horigin] at hcompletes
      exact .inr (.inr (.inl ⟨_, hcompletes, rfl⟩))
    · rename_i horigin
      split
      · rename_i hfound
        refine .inr (.inr (.inr (.inr ⟨_, _, hcompletes, horigin, ?_, rfl⟩)))
        rintro ⟨originSet, leo, hset, -⟩
        rw [hfound] at hset
        contradiction
      · rename_i originSet hfound
        split
        · rename_i leo hleo
          exact .inr (.inr (.inr (.inl
            ⟨_, _, hcompletes, horigin, ⟨originSet, leo, hfound, hleo⟩, rfl⟩)))
        · rename_i hleo
          refine .inr (.inr (.inr (.inr ⟨_, _, hcompletes, horigin, ?_, rfl⟩)))
          rintro ⟨set, leo, hset, hitem⟩
          obtain rfl := Option.some.inj (hfound.symm.trans hset)
          rw [hleo] at hitem
          contradiction
  · rename_i term hnext
    split
    · rename_i hkind
      exact .inl ⟨_, ⟨term, hnext, hkind, rfl⟩, rfl⟩
    · rename_i hkind
      exact .inr (.inl ⟨_, ⟨term, hnext, hkind, rfl⟩, rfl⟩)

/-- Noting a state leaves the states and their look-ups alone. -/
theorem noted_states : (noted earlier position place key s).states = s.states ∧
    (noted earlier position place key s).index = s.index ∧
    (noted earlier position place key s).completions = s.completions ∧
    (noted earlier position place key s).leoItems = s.leoItems := by
  rcases noted_cases (s := s) with ⟨_, -, h⟩ | ⟨_, -, h⟩ | ⟨_, -, h⟩ | ⟨_, _, -, -, -, h⟩ |
    ⟨_, _, -, -, -, h⟩
  all_goals
    rw [h]
    exact ⟨rfl, rfl, rfl, rfl⟩

theorem keys_noted : (noted earlier position place key s).keys = s.keys := by
  rw [StateSet.keys, noted_states.1]
  rfl

theorem hasLink_noted {k : Key g} {j : Nat} :
    (noted earlier position place key s).HasLink k j ↔ s.HasLink k j := by
  rw [StateSet.HasLink, noted_states.1]
  rfl

theorem consistent_noted (hs : s.Consistent) :
    (noted earlier position place key s).Consistent where
  index k p := by
    rw [keys_noted, noted_states.2.1]
    exact hs.index k p
  completions name origin := by
    rw [keys_noted, StateSet.completionsOf, noted_states.2.2.1]
    exact hs.completions name origin

theorem toList_waitingOn_noted (name : Name) :
    ((noted earlier position place key s).waitingOn name).toList =
      (s.waitingOn name).toList ++ if key.Awaits name then [place] else [] := by
  rcases noted_cases (s := s) with ⟨a, hawaits, h⟩ | ⟨_, hscans, h⟩ | ⟨_, hcompletes, h⟩ |
    ⟨_, _, hcompletes, -, -, h⟩ | ⟨_, _, hcompletes, -, -, h⟩
  · have hiff : key.Awaits name ↔ a = name :=
      ⟨fun h => hawaits.unique h, fun h => h ▸ hawaits⟩
    rw [h, StateSet.waitingOn, StateSet.addWaiting, toList_getD_alter_push]
    simp only [hiff]
    rfl
  · rw [h, if_neg (fun h => h.not_scans hscans), List.append_nil]
    rfl
  all_goals
    rw [h, if_neg hcompletes.not_awaits]
    exact (List.append_nil _).symm

theorem mem_scanning_noted (name : Name) :
    name ∈ (noted earlier position place key s).scanning ↔ name ∈ s.scanning ∨ key.Scans name := by
  rcases noted_cases (s := s) with ⟨_, hawaits, h⟩ | ⟨a, hscans, h⟩ | ⟨_, hcompletes, h⟩ |
    ⟨_, _, hcompletes, -, -, h⟩ | ⟨_, _, hcompletes, -, -, h⟩
  · rw [h, or_iff_left hawaits.not_scans]
    rfl
  · have hiff : key.Scans name ↔ a = name :=
      ⟨fun h => hscans.unique h, fun h => h ▸ hscans⟩
    rw [h, StateSet.addScanning, Std.TreeSet.mem_insert, Std.compare_eq_iff_eq, hiff, or_comm]
  all_goals
    rw [h]
    exact (or_iff_left hcompletes.not_scans).symm

theorem wasCompletedHere_noted (name : Name) :
    (noted earlier position place key s).wasCompletedHere name = true ↔
      s.wasCompletedHere name = true ∨ key.Completes name position := by
  rcases noted_cases (s := s) with ⟨_, hawaits, h⟩ | ⟨_, hscans, h⟩ | ⟨a, hcompletes, h⟩ |
    ⟨_, _, hcompletes, hbefore, -, h⟩ | ⟨_, _, hcompletes, hbefore, -, h⟩
  · rw [h, or_iff_left (fun h => h.not_awaits hawaits)]
    rfl
  · rw [h, or_iff_left (fun h => h.not_scans hscans)]
    rfl
  · have hiff : key.Completes name position ↔ a = name :=
      ⟨fun h => hcompletes.2.1.symm.trans h.2.1, fun h => h ▸ hcompletes⟩
    rw [h, StateSet.wasCompletedHere, StateSet.addCompletedHere, Std.TreeSet.contains_iff_mem,
      Std.TreeSet.mem_insert, Std.compare_eq_iff_eq, hiff, or_comm]
    exact or_congr_left Std.TreeSet.contains_iff_mem.symm
  all_goals
    rw [h]
    exact (or_iff_left (fun h => hbefore (hcompletes.2.2.symm.trans h.2.2))).symm

theorem mem_leoBottoms_noted (origin : Nat) (name : Name) :
    (origin, name) ∈ (noted earlier position place key s).leoBottoms ↔
      (origin, name) ∈ s.leoBottoms ∨
        key.Completes name origin ∧ origin ≠ position ∧ Shortcut earlier origin name := by
  rcases noted_cases (s := s) with ⟨_, hawaits, h⟩ | ⟨_, hscans, h⟩ | ⟨_, hcompletes, h⟩ |
    ⟨a, o, hcompletes, hbefore, hshortcut, h⟩ | ⟨a, o, hcompletes, hbefore, hplain, h⟩
  · rw [h, or_iff_left (fun h => h.1.not_awaits hawaits)]
    rfl
  · rw [h, or_iff_left (fun h => h.1.not_scans hscans)]
    rfl
  · rw [h, or_iff_left (fun h => h.2.1 (h.1.2.2.symm.trans hcompletes.2.2))]
    rfl
  · have hiff : (key.Completes name origin ∧ origin ≠ position ∧ Shortcut earlier origin name) ↔
        (o, a) = (origin, name) := by
      rw [Prod.mk.injEq]
      constructor
      · intro h
        exact ⟨hcompletes.2.2.symm.trans h.1.2.2, hcompletes.2.1.symm.trans h.1.2.1⟩
      · rintro ⟨rfl, rfl⟩
        exact ⟨hcompletes, hbefore, hshortcut⟩
    rw [h, StateSet.addLeoBottom, Std.TreeSet.mem_insert, hiff, or_comm]
    exact or_congr_right Std.LawfulEqCmp.compare_eq_iff_eq
  · -- a state completes one nonterminal from one origin, and there is no shortcut there
    rw [h, or_iff_left]
    rintro ⟨hcompletes', -, hshortcut⟩
    obtain rfl := hcompletes.2.2.symm.trans hcompletes'.2.2
    obtain rfl := hcompletes.2.1.symm.trans hcompletes'.2.1
    exact hplain hshortcut

end Noted

end Closing

end ChartParser
