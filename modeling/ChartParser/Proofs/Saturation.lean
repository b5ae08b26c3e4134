/-
Closing a state set reaches a fixpoint.

The states of a set are processed once, in the order of their insertion, while
others are being appended.  Four things hold when those before some place are
processed:

* **`Sound`** — every state and every link is one that the rules of a chart give;
* **`Noted`** — the indexes list exactly the processed states;
* **`Answered`** — whatever a processed state asks for is there, also if it asks
  for it only because of a state that was noted later;
* **`Scanned`** — the next set holds exactly what the processed states scan.

Each is kept by one more state (`sound_process` and so on), and so they hold of
all states of a saturated set (`Processed`, `processed_saturated`): the number of
rounds suffices, because the keys of a set are distinct and start no later than
they stand.
-/
import ChartParser.Proofs.Capacity
import ChartParser.Proofs.Closing

namespace ChartParser

variable {g : Grammar} {α : Type}

/-- The states and links of a set at position `k` follow from the rules of a
chart. -/
structure StateSet.Sound (tokens : Tokens α) (k : Nat) (s : StateSet g) : Prop where
  consistent : s.Consistent
  charted : ∀ {key : Key g}, s.Has key → Charted tokens key k
  linked : ∀ {key : Key g} {j : Nat}, s.HasLink key j → Linked tokens key k j

/-- The states of a sound set fit into it. -/
theorem StateSet.Sound.size_le_capacity {tokens : Tokens α} {k : Nat} {s : StateSet g}
    (h : s.Sound tokens k) : s.size ≤ capacity g k :=
  h.consistent.size_le_capacity fun _ hkey => (h.charted hkey).origin_le

/-- A closed set that later completions can rely on: it also knows all its
waiting states, and its shortcuts lead to where the rules of a chart lead. -/
structure StateSet.Grounded (tokens : Tokens α) (k : Nat) (s : StateSet g) : Prop
    extends s.Sound tokens k where
  waiting : ∀ name : Name, (s.waitingOn name).toList = placesOf (·.Awaits name) s.keys
  shortcuts : ∀ {name : Name} {leo : LeoItem g}, s.leoItem? name = some leo →
    ∀ {stop : Nat}, Completed g tokens name k stop → Linked tokens leo.top stop leo.topSplit

theorem StateSet.Grounded.mem_waiters {tokens : Tokens α} {k : Nat} {s : StateSet g}
    (hs : s.Grounded tokens k) {name : Name} {key : Key g} :
    key ∈ s.waiters name ↔ s.Has key ∧ key.Awaits name := by
  have hwaiting := hs.waiting name
  rw [← List.take_length (l := s.keys)] at hwaiting
  rw [StateSet.mem_waiters hwaiting, List.take_length]
  rfl

theorem take_succ_of_prefix {β : Type} {as bs : List β} (h : as <+: bs) {n : Nat} {a : β}
    (ha : as[n]? = some a) : bs.take (n + 1) = as.take n ++ [a] := by
  have hlt : n < as.length := (List.getElem?_eq_some_iff.mp ha).1
  obtain ⟨rest, rfl⟩ := h
  rw [List.take_append_of_le_length (by omega), List.take_add_one, ha]
  rfl

namespace Closing

/-- A set has a key and, if there is one, a link of it. -/
def Meets (s : StateSet g) (key : Key g) (link : Option Nat) : Prop :=
  s.Has key ∧ ∀ j, link = some j → s.HasLink key j

/-- The indexes of a set list exactly its first states. -/
structure Noted (earlier : Array (StateSet g)) (k place : Nat) (s : StateSet g) : Prop where
  waiting : ∀ name : Name,
    (s.waitingOn name).toList = placesOf (·.Awaits name) (s.keys.take place)
  scanning : ∀ name : Name, name ∈ s.scanning ↔ ∃ key ∈ s.keys.take place, key.Scans name
  completedHere : ∀ name : Name,
    s.wasCompletedHere name = true ↔ ∃ key ∈ s.keys.take place, key.Completes name k
  leoBottoms : ∀ (origin : Nat) (name : Name), (origin, name) ∈ s.leoBottoms ↔
    ∃ key ∈ s.keys.take place,
      key.Completes name origin ∧ origin ≠ k ∧ Shortcut earlier origin name
  leoItems : s.leoItems = ∅

/-- The first states of a set have got what they ask for. -/
def Answered (earlier : Array (StateSet g)) (k place : Nat) (s : StateSet g) : Prop :=
  ∀ key ∈ s.keys.take place, ∀ next link, Request earlier k s key next link → Meets s next link

/-- The next set holds what the first states of the current one scan. -/
structure Scanned (k : Nat) (token : Option Name) (place : Nat) (c : Closing g) : Prop where
  consistent : c.next.Consistent
  has : ∀ next : Key g, c.next.Has next ↔
    ∃ key ∈ c.current.keys.take place, ∃ name, key.Scans name ∧ token = some name ∧
      key.advance? = some next
  hasLink : ∀ (next : Key g) (j : Nat), c.next.HasLink next j ↔ c.next.Has next ∧ j = k
  notes : StateSet.SameNotes .empty c.next

section Step

variable {tokens : Tokens α} {earlier : Array (StateSet g)} {k place : Nat} {token : Option Name}
  {c : Closing g} {key : Key g}

theorem prefix_keys_process (hc : c.current.Consistent) :
    c.current.keys <+: (c.process earlier k token place key).current.keys := by
  have hprefix : (noted earlier k place key c.current).keys <+: _ :=
    StateSet.prefix_keys_insertAll (consistent_noted hc) (requests earlier k key c.current)
  rw [keys_noted] at hprefix
  rw [process_current]
  exact hprefix

theorem take_keys_process (hc : c.current.Consistent)
    (hplace : c.current.keys[place]? = some key) :
    (c.process earlier k token place key).current.keys.take (place + 1) =
      c.current.keys.take place ++ [key] :=
  take_succ_of_prefix (prefix_keys_process hc) hplace

/-- A property of the processed keys holds of an earlier one or of the last
one. -/
theorem exists_mem_take_process (hc : c.current.Consistent)
    (hplace : c.current.keys[place]? = some key) (p : Key g → Prop) :
    (∃ key' ∈ (c.process earlier k token place key).current.keys.take (place + 1), p key') ↔
      (∃ key' ∈ c.current.keys.take place, p key') ∨ p key := by
  rw [take_keys_process hc hplace]
  simp only [List.mem_append, List.mem_singleton, or_and_right, exists_or, exists_eq_left]

theorem has_process (hc : c.current.Consistent) {next : Key g} :
    (c.process earlier k token place key).current.Has next ↔
      c.current.Has next ∨ ∃ link, Request earlier k c.current key next link := by
  rw [process_current, StateSet.has_insertAll (consistent_noted hc), StateSet.Has, keys_noted]
  simp only [mem_requests]
  rfl

theorem hasLink_process (hc : c.current.Consistent) {next : Key g} {j : Nat} :
    (c.process earlier k token place key).current.HasLink next j ↔
      c.current.HasLink next j ∨ Request earlier k c.current key next (some j) := by
  rw [process_current, StateSet.hasLink_insertAll (consistent_noted hc), hasLink_noted,
    mem_requests]

theorem Meets.process (hc : c.current.Consistent) {next : Key g} {link : Option Nat}
    (h : Meets c.current next link) :
    Meets (c.process earlier k token place key).current next link :=
  ⟨(has_process hc).mpr (.inl h.1), fun j hj => (hasLink_process hc).mpr (.inl (h.2 j hj))⟩

theorem Request.meets (hc : c.current.Consistent) {next : Key g} {link : Option Nat}
    (h : Request earlier k c.current key next link) :
    Meets (c.process earlier k token place key).current next link :=
  ⟨(has_process hc).mpr (.inr ⟨link, h⟩),
    fun _ hj => (hasLink_process hc).mpr (.inr (hj ▸ h))⟩

theorem Noted.mem_waiters (h : Noted earlier k place c.current) {name : Name} {waiter : Key g} :
    waiter ∈ c.current.waiters name ↔
      waiter ∈ c.current.keys.take place ∧ waiter.Awaits name :=
  StateSet.mem_waiters (h.waiting name)

/-- What a state asks for follows from the rules of a chart. -/
theorem Request.linked (hearlier : ∀ {j : Nat} {s : StateSet g}, earlier[j]? = some s →
    s.Grounded tokens j) (hsound : c.current.Sound tokens k)
    (hnoted : Noted earlier k place c.current) (hkey : c.current.Has key) {next : Key g}
    {link : Option Nat} (h : Request earlier k c.current key next link) :
    Charted tokens next k ∧ ∀ j, link = some j → Linked tokens next k j := by
  have hcharted := hsound.charted hkey
  -- all requests but predictions come with a link, and a linked key is charted
  have hlink : ∀ j, link = some j → Linked tokens next k j →
      Charted tokens next k ∧ ∀ j, link = some j → Linked tokens next k j := by
    intro j hj hlinked
    refine ⟨hlinked.charted, fun j' hj' => ?_⟩
    obtain rfl := Option.some.inj (hj.symm.trans hj')
    exact hlinked
  cases h with
  | predict awaits head => exact ⟨.predict hcharted awaits head, by simp⟩
  | pass awaits here advance =>
    obtain ⟨done, hdone, hcompletes⟩ := (hnoted.completedHere _).mp here
    have hcompleted : Completed g tokens _ k k :=
      ⟨done, hsound.charted (List.mem_of_mem_take hdone), hcompletes⟩
    exact hlink k rfl ⟨key, advance, hcharted, .inr ⟨_, awaits, hcompleted⟩⟩
  | wake completes waiting advance =>
    obtain ⟨hwaiter, hawaits⟩ := hnoted.mem_waiters.mp waiting
    exact hlink k rfl ⟨_, advance, hsound.charted (List.mem_of_mem_take hwaiter),
      .inr ⟨_, hawaits, key, hcharted, completes⟩⟩
  | complete completes before found plain waiting advance =>
    obtain ⟨hwaiter, hawaits⟩ := (hearlier found).mem_waiters.mp waiting
    exact hlink _ rfl ⟨_, advance, (hearlier found).charted hwaiter,
      .inr ⟨_, hawaits, key, hcharted, completes⟩⟩
  | shortcut completes before found item =>
    exact hlink _ rfl ((hearlier found).shortcuts item ⟨key, hcharted, completes⟩)

theorem consistent_process (hc : c.current.Consistent) :
    (c.process earlier k token place key).current.Consistent := by
  rw [process_current]
  exact (consistent_noted hc).insertAll _

theorem sound_process (hearlier : ∀ {j : Nat} {s : StateSet g}, earlier[j]? = some s →
    s.Grounded tokens j) (hsound : c.current.Sound tokens k)
    (hnoted : Noted earlier k place c.current) (hkey : c.current.Has key) :
    (c.process earlier k token place key).current.Sound tokens k where
  consistent := consistent_process hsound.consistent
  charted {next} hnext := by
    rcases (has_process hsound.consistent).mp hnext with hnext | ⟨link, hrequest⟩
    · exact hsound.charted hnext
    · exact (hrequest.linked hearlier hsound hnoted hkey).1
  linked {next j} hlink := by
    rcases (hasLink_process hsound.consistent).mp hlink with hlink | hrequest
    · exact hsound.linked hlink
    · exact (hrequest.linked hearlier hsound hnoted hkey).2 j rfl

theorem sameNotes_process :
    StateSet.SameNotes (noted earlier k place key c.current)
      (c.process earlier k token place key).current := by
  rw [process_current]
  exact StateSet.sameNotes_insertAll _ _

theorem Noted.process (hnoted : Noted earlier k place c.current) (token : Option Name)
    (hc : c.current.Consistent) (hplace : c.current.keys[place]? = some key) :
    Noted earlier k (place + 1) (c.process earlier k token place key).current where
  waiting name := by
    -- the state is listed with its own place, which is the number of those before it
    have hlength : (c.current.keys.take place).length = place := by
      have := (List.getElem?_eq_some_iff.mp hplace).1
      rw [List.length_take]
      omega
    rw [take_keys_process hc hplace, placesOf_concat, ← hnoted.waiting, hlength,
      StateSet.waitingOn, sameNotes_process.waiting]
    show ((noted earlier k place key c.current).waitingOn name).toList = _
    rw [toList_waitingOn_noted]
    simp only [decide_eq_true_eq]
  scanning name := by
    rw [exists_mem_take_process hc hplace, ← hnoted.scanning, sameNotes_process.scanning]
    exact mem_scanning_noted name
  completedHere name := by
    rw [exists_mem_take_process hc hplace, ← hnoted.completedHere, StateSet.wasCompletedHere,
      sameNotes_process.completedHere]
    exact wasCompletedHere_noted name
  leoBottoms origin name := by
    rw [exists_mem_take_process hc hplace, ← hnoted.leoBottoms, sameNotes_process.leoBottoms]
    exact mem_leoBottoms_noted origin name
  leoItems := by
    rw [sameNotes_process.leoItems, noted_states.2.2.2]
    exact hnoted.leoItems

/-- What an earlier state asks for once the next one is noted: it asked for it
before, or the next state asks for it too. -/
theorem Request.of_process (hc : c.current.Consistent) (hnoted : Noted earlier k place c.current)
    (hplace : c.current.keys[place]? = some key) {old next : Key g} {link : Option Nat}
    (hold : old ∈ c.current.keys.take place)
    (h : Request earlier k (c.process earlier k token place key).current old next link) :
    Request earlier k c.current old next link ∨ Request earlier k c.current key next link := by
  have hnoted' := hnoted.process token hc hplace
  cases h with
  | predict awaits head => exact .inl (.predict awaits head)
  | pass awaits here advance =>
    rw [hnoted'.completedHere, exists_mem_take_process hc hplace, ← hnoted.completedHere] at here
    rcases here with here | completes
    · exact .inl (.pass awaits here advance)
    · -- `key` completes it here and has woken `old`
      exact .inr (.wake completes (hnoted.mem_waiters.mpr ⟨hold, awaits⟩) advance)
  | wake completes waiting advance =>
    obtain ⟨hwaiter, hawaits⟩ := hnoted'.mem_waiters.mp waiting
    rw [take_keys_process hc hplace, List.mem_append, List.mem_singleton] at hwaiter
    rcases hwaiter with hwaiter | rfl
    · exact .inl (.wake completes (hnoted.mem_waiters.mpr ⟨hwaiter, hawaits⟩) advance)
    · -- `key` waits for what `old` has completed here, and has passed it
      exact .inr (.pass hawaits ((hnoted.completedHere _).mpr ⟨old, hold, completes⟩) advance)
  | complete completes before found plain waiting advance =>
    exact .inl (.complete completes before found plain waiting advance)
  | shortcut completes before found item => exact .inl (.shortcut completes before found item)

/-- Noting a state does not change what the state itself asks for. -/
theorem Request.of_process_self (hc : c.current.Consistent)
    (hnoted : Noted earlier k place c.current) (hplace : c.current.keys[place]? = some key)
    {next : Key g} {link : Option Nat}
    (h : Request earlier k (c.process earlier k token place key).current key next link) :
    Request earlier k c.current key next link := by
  have hnoted' := hnoted.process token hc hplace
  cases h with
  | predict awaits head => exact .predict awaits head
  | pass awaits here advance =>
    rw [hnoted'.completedHere, exists_mem_take_process hc hplace, ← hnoted.completedHere] at here
    rcases here with here | completes
    · exact .pass awaits here advance
    · -- a state cannot let itself pass: it would be complete and wait
      exact absurd awaits completes.not_awaits
  | wake completes waiting advance =>
    obtain ⟨hwaiter, hawaits⟩ := hnoted'.mem_waiters.mp waiting
    rw [take_keys_process hc hplace, List.mem_append, List.mem_singleton] at hwaiter
    rcases hwaiter with hwaiter | rfl
    · exact .wake completes (hnoted.mem_waiters.mpr ⟨hwaiter, hawaits⟩) advance
    · exact absurd hawaits completes.not_awaits
  | complete completes before found plain waiting advance =>
    exact .complete completes before found plain waiting advance
  | shortcut completes before found item => exact .shortcut completes before found item

theorem Answered.process (hc : c.current.Consistent) (hnoted : Noted earlier k place c.current)
    (hanswered : Answered earlier k place c.current)
    (hplace : c.current.keys[place]? = some key) :
    Answered earlier k (place + 1) (c.process earlier k token place key).current := by
  intro old hold next link hrequest
  rw [take_keys_process hc hplace, List.mem_append, List.mem_singleton] at hold
  rcases hold with hold | rfl
  · -- an old request is still met, and a new one is met by the state that caused it
    rcases hrequest.of_process hc hnoted hplace hold with hrequest | hrequest
    · exact (hanswered old hold next link hrequest).process hc
    · exact hrequest.meets hc
  · exact (hrequest.of_process_self hc hnoted hplace).meets hc

theorem Scanned.process (hc : c.current.Consistent)
    (hscanned : Scanned k token place c) (hplace : c.current.keys[place]? = some key) :
    Scanned k token (place + 1) (c.process earlier k token place key) := by
  have hnext := process_next earlier k token place key c
  have hhas : ∀ next, (c.process earlier k token place key).next.Has next ↔
      c.next.Has next ∨ (∃ name, key.Scans name ∧ token = some name) ∧
        key.advance? = some next := by
    intro next
    rw [hnext, StateSet.has_insertAll hscanned.consistent]
    simp only [mem_scans, exists_and_left, exists_eq, and_true]
  refine ⟨?_, fun next => ?_, fun next j => ?_, ?_⟩
  · rw [hnext]
    exact hscanned.consistent.insertAll _
  · rw [hhas, exists_mem_take_process hc hplace, ← hscanned.has]
    simp only [← and_assoc, exists_and_right]
  · rw [hhas, hnext, StateSet.hasLink_insertAll hscanned.consistent, hscanned.hasLink, mem_scans,
      Option.some.injEq, or_and_right, and_assoc]
  · rw [hnext]
    exact hscanned.notes.trans (StateSet.sameNotes_insertAll _ _)

end Step

/-! ### All states -/

/-- What holds when the first states of a set that began as `start` are
processed. -/
structure Processed (tokens : Tokens α) (earlier : Array (StateSet g)) (k : Nat)
    (start : StateSet g) (place : Nat) (c : Closing g) : Prop where
  sound : c.current.Sound tokens k
  noted : Noted earlier k place c.current
  answered : Answered earlier k place c.current
  scanned : Scanned k (tokens.nameAt? k) place c
  place_le : place ≤ c.current.size
  has_start : ∀ {key : Key g}, start.Has key → c.current.Has key
  hasLink_start : ∀ {key : Key g} {j : Nat}, start.HasLink key j → c.current.HasLink key j

/-- A set that is not closed yet: its contents are sound and nothing is noted. -/
structure Fresh (tokens : Tokens α) (k : Nat) (s : StateSet g) : Prop
    extends s.Sound tokens k where
  notes : StateSet.SameNotes .empty s

section Run

variable {tokens : Tokens α} {earlier : Array (StateSet g)} {k : Nat} {start : StateSet g}

theorem processed_zero (hstart : Fresh tokens k start) :
    Processed tokens earlier k start 0 ⟨start, .empty, []⟩ where
  sound := hstart.toSound
  noted :=
    { waiting := fun name => by
        rw [StateSet.waitingOn, hstart.notes.waiting]
        rfl
      scanning := fun name => by simp [hstart.notes.scanning, StateSet.empty]
      completedHere := fun name => by
        simp [StateSet.wasCompletedHere, hstart.notes.completedHere, StateSet.empty]
      leoBottoms := fun origin name => by simp [hstart.notes.leoBottoms, StateSet.empty]
      leoItems := hstart.notes.leoItems }
  answered := fun key hkey => by simp at hkey
  scanned :=
    { consistent := StateSet.consistent_empty
      has := fun next => by simp [StateSet.Has, StateSet.keys, StateSet.empty]
      hasLink := fun next j => by
        simp [StateSet.HasLink, StateSet.Has, StateSet.keys, StateSet.empty]
      notes := ⟨rfl, rfl, rfl, rfl, rfl⟩ }
  place_le := Nat.zero_le _
  has_start := id
  hasLink_start := id

theorem Processed.process (hearlier : ∀ {j : Nat} {s : StateSet g}, earlier[j]? = some s →
    s.Grounded tokens j) {place : Nat} {c : Closing g}
    (h : Processed tokens earlier k start place c) {key : Key g}
    (hplace : c.current.keys[place]? = some key) :
    Processed tokens earlier k start (place + 1)
      (c.process earlier k (tokens.nameAt? k) place key) := by
  have hc := h.sound.consistent
  have hhas : c.current.Has key := StateSet.has_iff_exists_place.mpr ⟨place, hplace⟩
  refine ⟨sound_process hearlier h.sound h.noted hhas, h.noted.process _ hc hplace,
    h.answered.process hc h.noted hplace, h.scanned.process hc hplace, ?_, ?_, ?_⟩
  · have hprefix : c.current.keys <+:
        (c.process earlier k (tokens.nameAt? k) place key).current.keys := prefix_keys_process hc
    have hlt := (List.getElem?_eq_some_iff.mp hplace).1
    have hle := hprefix.length_le
    rw [← StateSet.length_keys]
    omega
  · intro key' hkey'
    exact (has_process hc).mpr (.inl (h.has_start hkey'))
  · intro key' j hlink
    exact (hasLink_process hc).mpr (.inl (h.hasLink_start hlink))

/-- Processing goes on until all states are processed. -/
theorem Processed.saturate (hearlier : ∀ {j : Nat} {s : StateSet g}, earlier[j]? = some s →
    s.Grounded tokens j) {fuel place : Nat} {c : Closing g}
    (h : Processed tokens earlier k start place c)
    (hfuel : StateSet.capacity g k ≤ place + fuel) :
    Processed tokens earlier k start
      (c.saturate earlier k (tokens.nameAt? k) fuel place).current.size
      (c.saturate earlier k (tokens.nameAt? k) fuel place) := by
  induction fuel generalizing place c with
  | zero =>
    -- a set that is as large as it can be has no state left
    have hsize := h.sound.size_le_capacity
    have hplace : place = c.current.size := by
      have := h.place_le
      omega
    rw [Closing.saturate, ← hplace]
    exact h
  | succ fuel ih =>
    rw [Closing.saturate]
    cases hst : c.current.states[place]? with
    | none =>
      have hplace : place = c.current.size := by
        have := h.place_le
        have : c.current.size ≤ place := Array.getElem?_eq_none_iff.mp hst
        omega
      dsimp only
      rw [← hplace]
      exact h
    | some st =>
      exact ih (h.process hearlier (StateSet.getElem?_keys_of_getElem? hst)) (by omega)

theorem processed_saturated (hearlier : ∀ {j : Nat} {s : StateSet g}, earlier[j]? = some s →
    s.Grounded tokens j) (hstart : Fresh tokens k start) :
    Processed tokens earlier k start (start.saturated earlier k (tokens.nameAt? k)).current.size
      (start.saturated earlier k (tokens.nameAt? k)) :=
  (processed_zero hstart).saturate hearlier (by omega)

end Run

end Closing

end ChartParser
