/-
Charts hold what the rules of a chart give.

A chart is built step by step: the frontier is saturated, settled and closed.
How it is settled is a parameter here, because the chart with Leo items and the
one without differ in nothing else; `Settles` says what both do.

* **`Regular`** — what holds of a chart after any number of steps: every closed
  set is grounded, closed under what its states ask for, and begins with what
  the set before it scans;
* **`Regular.stepBy`** — a step keeps a chart regular;
* **`Regular.holds_iff`** — at a closed position, a key is in the set or left out
  by a shortcut exactly if it is charted;
* **`Regular.holdsLink_iff`** — and a link is in the set or left out exactly if
  it is one by the rules.
-/
import ChartParser.Chart.Plain
import ChartParser.Proofs.Leo

namespace ChartParser

variable {g : Grammar} {α : Type}

/-- A way to settle a saturated set: it may only add Leo items, each the shortcut
of the only waiter for a nonterminal. -/
structure Settles (settle : Array (StateSet g) → Nat → StateSet g → StateSet g) : Prop where
  eq : ∀ earlier k s, settle earlier k s = { s with leoItems := (settle earlier k s).leoItems }
  leoItem : ∀ {earlier : Array (StateSet g)} {k : Nat} {s : StateSet g}, s.Consistent →
    (∀ name : Name, (s.waitingOn name).toList = placesOf (·.Awaits name) s.keys) →
    s.leoItems = ∅ → ∀ {name : Name} {leo : LeoItem g},
      (settle earlier k s).leoItem? name = some leo →
      ∃ waiter, s.OnlyWaiter name waiter ∧ StateSet.leoItemOf earlier k waiter = some leo

theorem settles_withLeoItems : Settles (g := g) StateSet.withLeoItems where
  eq _ _ _ := StateSet.withLeoItems_eq
  leoItem hs hwaiting hnone _ _ hleo := (StateSet.leoItem?_withLeoItems hs hwaiting hnone).mp hleo

theorem settles_plain : Settles (g := g) fun _ _ s => s where
  eq _ _ _ := rfl
  leoItem _ _ hnone _ _ hleo := by simp [StateSet.leoItem?, hnone] at hleo

/-- A set at position `k` begins with the expressions of the start symbol, or
with what the set before it scans. -/
structure Begun (tokens : Tokens α) (sets : Array (StateSet g)) (k : Nat) (s : StateSet g) :
    Prop where
  seeded : k = 0 → ∀ id ∈ g.startAlternatives, s.Has ⟨.atStart id, 0⟩
  scanned : ∀ {j : Nat} {before : StateSet g} {scanner next : Key g} {name : Name}, k = j + 1 →
    sets[j]? = some before → before.Has scanner → scanner.Scans name →
    tokens.nameAt? j = some name → scanner.advance? = some next → s.HasLink next j
  inhabited : k = 0 ∨ ∃ key, s.Has key

/-- A set that will not change any more. -/
structure ClosedSet (tokens : Tokens α) (sets : Array (StateSet g)) (k : Nat) (s : StateSet g) :
    Prop extends s.Grounded tokens k, Begun tokens sets k s where
  answered : ∀ {key next : Key g} {link : Option Nat}, s.Has key →
    Closing.Request sets k s key next link → Closing.Meets s next link
  scanning : ∀ name : Name, name ∈ s.scanning ↔ ∃ key, s.Has key ∧ key.Scans name
  completedHere : ∀ name : Name,
    s.wasCompletedHere name = true ↔ ∃ key, s.Has key ∧ key.Completes name k
  leoBottoms : ∀ (origin : Nat) (name : Name), (origin, name) ∈ s.leoBottoms ↔
    ∃ key, s.Has key ∧ key.Completes name origin ∧ origin ≠ k ∧
      Closing.Shortcut sets origin name

section Push

variable {tokens : Tokens α} {sets : Array (StateSet g)} {x s : StateSet g} {k : Nat}

theorem getElem?_of_push {β : Type} {as : Array β} {a b : β} {j : Nat} (hj : j < as.size)
    (h : (as.push b)[j]? = some a) : as[j]? = some a := by
  rcases getElem?_push_cases h with ⟨rfl, -⟩ | h
  · omega
  · exact h

/-- What a state asks for depends on the sets before it only. -/
theorem Closing.Request.of_push {key next : Key g} {link : Option Nat} (hk : k ≤ sets.size)
    (horigin : key.origin ≤ k) (h : Closing.Request (sets.push x) k s key next link) :
    Closing.Request sets k s key next link := by
  have hlt : ∀ {name origin}, key.Completes name origin → origin ≠ k → origin < sets.size := by
    rintro name origin ⟨-, -, rfl⟩ hne
    omega
  cases h with
  | predict awaits head => exact .predict awaits head
  | pass awaits here advance => exact .pass awaits here advance
  | wake completes waiting advance => exact .wake completes waiting advance
  | complete completes before found plain waiting advance =>
    exact .complete completes before (getElem?_of_push (hlt completes before) found) plain waiting
      advance
  | shortcut completes before found item =>
    exact .shortcut completes before (getElem?_of_push (hlt completes before) found) item

theorem Begun.push (h : Begun tokens sets k s) (hk : k ≤ sets.size) :
    Begun tokens (sets.push x) k s where
  seeded := h.seeded
  scanned {j} _ _ _ _ hj hfound :=
    h.scanned hj (getElem?_of_push (by omega) hfound)
  inhabited := h.inhabited

theorem ClosedSet.push (h : ClosedSet tokens sets k s) (hk : k ≤ sets.size) :
    ClosedSet tokens (sets.push x) k s where
  toGrounded := h.toGrounded
  toBegun := h.toBegun.push hk
  answered hkey hrequest := h.answered hkey (hrequest.of_push hk (h.charted hkey).origin_le)
  scanning := h.scanning
  completedHere := h.completedHere
  leoBottoms origin name := by
    rw [h.leoBottoms]
    refine exists_congr fun key => and_congr_right fun hkey => and_congr_right fun hcompletes =>
      and_congr_right fun hne => ?_
    have hlt : origin < sets.size := by
      have := (h.charted hkey).origin_le
      obtain ⟨-, -, rfl⟩ := hcompletes
      omega
    constructor
    · rintro ⟨originSet, leo, hfound, hitem⟩
      exact ⟨originSet, leo, getElem?_push_of_getElem? hfound, hitem⟩
    · rintro ⟨originSet, leo, hfound, hitem⟩
      exact ⟨originSet, leo, getElem?_of_push hlt hfound, hitem⟩

end Push

namespace Chart

/-- What holds of a chart after any number of steps. -/
structure Regular (tokens : Tokens α) (c : Chart g α) : Prop where
  tokens_eq : c.tokens = tokens
  closed : ∀ {k : Nat} {s : StateSet g}, c.closed[k]? = some s → ClosedSet tokens c.closed k s
  chained : Chained c.closed
  frontier : ∀ {s : StateSet g}, c.frontier = some s →
    Closing.Fresh tokens c.closed.size s ∧ Begun tokens c.closed c.closed.size s
  finished : c.frontier = none → ∃ k s, c.closed.size = k + 1 ∧ c.closed[k]? = some s ∧
    ∀ scanner name, s.Has scanner → scanner.Scans name → tokens.nameAt? k ≠ some name

variable {tokens : Tokens α} {c : Chart g α}

/-! ### Building a chart -/

theorem seed_eq : StateSet.seed g =
    StateSet.empty.insertAll (g.startAlternatives.map fun id => (⟨.atStart id, 0⟩, none)) := by
  rw [StateSet.seed, StateSet.insertAll, List.foldl_map]

theorem has_seed {key : Key g} :
    (StateSet.seed g).Has key ↔ ∃ id ∈ g.startAlternatives, key = ⟨.atStart id, 0⟩ := by
  rw [seed_eq, StateSet.has_insertAll StateSet.consistent_empty]
  constructor
  · rintro (h | ⟨link, h⟩)
    · simp [StateSet.Has, StateSet.keys, StateSet.empty] at h
    · obtain ⟨id, hid, heq⟩ := List.mem_map.mp h
      exact ⟨id, hid, (congrArg Prod.fst heq).symm⟩
  · rintro ⟨id, hid, rfl⟩
    exact .inr ⟨none, List.mem_map.mpr ⟨id, hid, rfl⟩⟩

theorem not_hasLink_seed {key : Key g} {j : Nat} : ¬ (StateSet.seed g).HasLink key j := by
  rw [seed_eq, StateSet.hasLink_insertAll StateSet.consistent_empty]
  rintro (h | h)
  · simp [StateSet.HasLink, StateSet.empty] at h
  · obtain ⟨id, -, heq⟩ := List.mem_map.mp h
    simp at heq

theorem fresh_seed (tokens : Tokens α) : Closing.Fresh tokens 0 (StateSet.seed g) where
  consistent := by
    rw [seed_eq]
    exact StateSet.consistent_empty.insertAll _
  charted hkey := by
    obtain ⟨id, hid, rfl⟩ := has_seed.mp hkey
    exact .seed hid
  linked hlink := absurd hlink not_hasLink_seed
  notes := by
    rw [seed_eq]
    exact StateSet.sameNotes_insertAll _ _

theorem regular_start (g : Grammar) (tokens : Tokens α) : (start g tokens).Regular tokens where
  tokens_eq := rfl
  closed h := by simp [start] at h
  chained h := by simp [start] at h
  frontier := by
    rintro s ⟨⟩
    refine ⟨fresh_seed tokens, fun _ id hid => has_seed.mpr ⟨id, hid, rfl⟩, ?_, .inl rfl⟩
    intro j _ _ _ _ hj
    exact absurd hj (Nat.succ_ne_zero j).symm
  finished h := by simp [start] at h

/-- A settled set is closed. -/
theorem closedSet_settle {settle : Array (StateSet g) → Nat → StateSet g → StateSet g}
    (hsettle : Settles settle) {earlier : Array (StateSet g)}
    (hearlier : ∀ {j : Nat} {s : StateSet g}, earlier[j]? = some s →
      ClosedSet tokens earlier j s) (hchained : Chained earlier) {start : StateSet g}
    (hbegun : Begun tokens earlier earlier.size start) {c : Closing g}
    (hc : Closing.Processed tokens earlier earlier.size start c.current.size c) :
    ClosedSet tokens earlier earlier.size (settle earlier earlier.size c.current) ∧
      Chained (earlier.push (settle earlier earlier.size c.current)) := by
  have hwaiting : ∀ name : Name,
      (c.current.waitingOn name).toList = placesOf (·.Awaits name) c.current.keys := by
    intro name
    rw [hc.noted.waiting, StateSet.take_keys_size]
  have hleo : ∀ {name : Name} {leo : LeoItem g},
      (settle earlier earlier.size c.current).leoItem? name = some leo →
      ∃ waiter, c.current.OnlyWaiter name waiter ∧
        StateSet.leoItemOf earlier earlier.size waiter = some leo :=
    hsettle.leoItem hc.sound.consistent hwaiting hc.noted.leoItems
  have heq := hsettle.eq earlier earlier.size c.current
  generalize settle earlier earlier.size c.current = s at hleo heq ⊢
  -- nothing but the Leo items of the set has changed
  obtain ⟨items, rfl⟩ : ∃ items, s = { c.current with leoItems := items } := ⟨_, heq⟩
  have hsound : StateSet.Sound tokens earlier.size { c.current with leoItems := items } :=
    ⟨⟨hc.sound.consistent.index, hc.sound.consistent.completions⟩, hc.sound.charted,
      hc.sound.linked⟩
  have hchained' : Chained (earlier.push { c.current with leoItems := items }) := by
    refine hchained.push fun hitem => ?_
    obtain ⟨waiter, honly, hitem⟩ := hleo hitem
    exact ⟨waiter, ⟨honly.has, honly.awaits, honly.only⟩, hitem⟩
  refine ⟨⟨⟨hsound, hwaiting, ?_⟩, ⟨?_, ?_, ?_⟩, ?_, ?_, ?_, ?_⟩, hchained'⟩
  · -- a chain that begins at the new set runs through sound sets only
    intro name leo hitem stop hcompleted
    obtain ⟨skipped, hchain⟩ := hchained' (Array.getElem?_push_size ..) hitem
    refine (hchain.linked ?_ hcompleted).1
    intro j s hfound
    rcases getElem?_push_cases hfound with ⟨rfl, rfl⟩ | hfound
    · exact hsound
    · exact (hearlier hfound).toSound
  · intro hk id hid
    exact hc.has_start (hbegun.seeded hk id hid)
  · intro j before scanner next name hj hfound hhas hscans htoken hadvance
    exact hc.hasLink_start (hbegun.scanned hj hfound hhas hscans htoken hadvance)
  · exact hbegun.inhabited.imp id fun ⟨key, hkey⟩ => ⟨key, hc.has_start hkey⟩
  · intro key next link hkey hrequest
    have hkey' : key ∈ c.current.keys.take c.current.size := by
      rw [StateSet.take_keys_size]
      exact hkey
    refine hc.answered key hkey' next link ?_
    -- what a state asks for does not depend on the Leo items of its own set
    cases hrequest with
    | predict awaits head => exact .predict awaits head
    | pass awaits here advance => exact .pass awaits here advance
    | wake completes waiting advance => exact .wake completes waiting advance
    | complete completes before found plain waiting advance =>
      exact .complete completes before found plain waiting advance
    | shortcut completes before found item => exact .shortcut completes before found item
  · intro name
    have h := hc.noted.scanning name
    rw [StateSet.take_keys_size] at h
    exact h
  · intro name
    have h := hc.noted.completedHere name
    rw [StateSet.take_keys_size] at h
    exact h
  · intro origin name
    have h := hc.noted.leoBottoms origin name
    rw [StateSet.take_keys_size] at h
    exact h

/-- The scanned set, if there is one, is a frontier. -/
theorem fresh_next {earlier : Array (StateSet g)} {k : Nat} {start : StateSet g} {c : Closing g}
    (hc : Closing.Processed tokens earlier k start c.current.size c) :
    Closing.Fresh tokens (k + 1) c.next where
  consistent := hc.scanned.consistent
  charted hnext := by
    obtain ⟨key, hkey, name, hscans, htoken, hadvance⟩ := (hc.scanned.has _).mp hnext
    exact .scan (hc.sound.charted (List.mem_of_mem_take hkey)) hscans htoken hadvance
  linked hlink := by
    obtain ⟨hnext, rfl⟩ := (hc.scanned.hasLink _ _).mp hlink
    obtain ⟨key, hkey, name, hscans, htoken, hadvance⟩ := (hc.scanned.has _).mp hnext
    exact ⟨key, hadvance, hc.sound.charted (List.mem_of_mem_take hkey),
      .inl ⟨name, hscans, htoken, rfl⟩⟩
  notes := hc.scanned.notes

theorem stepBy_of_frontier {settle : Array (StateSet g) → Nat → StateSet g → StateSet g}
    {frontier : StateSet g} (h : c.frontier = some frontier) :
    c.stepBy settle =
      let closing := frontier.saturated c.closed c.closed.size (c.tokens.nameAt? c.closed.size)
      { tokens := c.tokens
        closed := c.closed.push (settle c.closed c.closed.size closing.current)
        frontier := if closing.next.isEmpty then none else some closing.next
        trace := closing.trace ++ c.trace } := by
  obtain ⟨tokens, closed, frontier', trace⟩ := c
  obtain rfl : frontier' = some frontier := h
  rfl

theorem stepBy_of_finished {settle : Array (StateSet g) → Nat → StateSet g → StateSet g}
    (h : c.frontier = none) : c.stepBy settle = c := by
  obtain ⟨tokens, closed, frontier, trace⟩ := c
  obtain rfl : frontier = none := h
  rfl

theorem isEmpty_iff {s : StateSet g} : s.isEmpty = true ↔ ∀ key, ¬ s.Has key := by
  rw [StateSet.isEmpty, Array.isEmpty_iff, ← Array.toList_eq_nil_iff]
  simp only [StateSet.Has, StateSet.keys]
  rw [← List.map_eq_nil_iff (f := (·.key)), List.eq_nil_iff_forall_not_mem]

/-- **A step keeps a chart regular**, with and without Leo items. -/
theorem Regular.stepBy {settle : Array (StateSet g) → Nat → StateSet g → StateSet g}
    (hsettle : Settles settle) (h : c.Regular tokens) : (c.stepBy settle).Regular tokens := by
  cases hfrontier : c.frontier with
  | none =>
    rw [stepBy_of_finished hfrontier]
    exact h
  | some frontier =>
    obtain ⟨hfresh, hbegun⟩ := h.frontier hfrontier
    have hprocessed := Closing.processed_saturated
      (fun hfound => (h.closed hfound).toGrounded) hfresh
    obtain ⟨hclosed, hchained⟩ := closedSet_settle hsettle h.closed h.chained hbegun hprocessed
    have hkeys := congrArg StateSet.keys (hsettle.eq c.closed c.closed.size
      (frontier.saturated c.closed c.closed.size (tokens.nameAt? c.closed.size)).current)
    rw [stepBy_of_frontier hfrontier, h.tokens_eq]
    generalize frontier.saturated c.closed c.closed.size (tokens.nameAt? c.closed.size) = closing
      at hprocessed hclosed hchained hkeys
    have hscans : ∀ {scanner next : Key g} {name : Name},
        (settle c.closed c.closed.size closing.current).Has scanner → scanner.Scans name →
        tokens.nameAt? c.closed.size = some name → scanner.advance? = some next →
        closing.next.Has next := by
      intro scanner next name hhas hscans htoken hadvance
      refine (hprocessed.scanned.has next).mpr ⟨scanner, ?_, name, hscans, htoken, hadvance⟩
      rw [StateSet.take_keys_size]
      rw [StateSet.Has, hkeys] at hhas
      exact hhas
    refine ⟨rfl, ?_, hchained, ?_, ?_⟩
    · intro k s hfound
      rcases getElem?_push_cases hfound with ⟨rfl, rfl⟩ | hfound
      · exact hclosed.push (Nat.le_refl _)
      · exact (h.closed hfound).push (Nat.le_of_lt (Array.getElem?_eq_some_iff.mp hfound).1)
    · intro s hs
      dsimp only at hs ⊢
      rw [Array.size_push]
      split at hs
      · contradiction
      · rename_i hempty
        obtain rfl := Option.some.inj hs
        refine ⟨fresh_next hprocessed, ?_, ?_, ?_⟩
        · intro hzero
          omega
        · intro j before scanner next name hj hfound hhas hscanner htoken hadvance
          obtain rfl : c.closed.size = j := by omega
          rw [Array.getElem?_push_size, Option.some.injEq] at hfound
          subst hfound
          exact (hprocessed.scanned.hasLink next _).mpr
            ⟨hscans hhas hscanner htoken hadvance, rfl⟩
        · rw [isEmpty_iff] at hempty
          exact .inr (not_forall_not.mp hempty)
    · -- nothing was scanned, although every scanner has a successor
      intro hnone
      dsimp only at hnone ⊢
      split at hnone
      · rename_i hempty
        refine ⟨c.closed.size, _, Array.size_push .., Array.getElem?_push_size .., ?_⟩
        intro scanner name hhas hscanner htoken
        obtain ⟨next, hadvance⟩ := Key.exists_advance? hscanner.isComplete_eq_false
        exact isEmpty_iff.mp hempty next (hscans hhas hscanner htoken hadvance)
      · contradiction

theorem regular_after (g : Grammar) (tokens : Tokens α) (n : Nat) :
    (after g tokens n).Regular tokens := by
  induction n with
  | zero => exact regular_start g tokens
  | succ n ih => exact ih.stepBy settles_withLeoItems

theorem regular_plainAfter (g : Grammar) (tokens : Tokens α) (n : Nat) :
    (plainAfter g tokens n).Regular tokens := by
  induction n with
  | zero => exact regular_start g tokens
  | succ n ih => exact ih.stepBy settles_plain

/-! ### Charts are exact -/

/-- A key is in the closed set at a position, or left out of it by a shortcut. -/
def Holds (c : Chart g α) (k : Nat) (key : Key g) : Prop :=
  (∃ s, c.closed[k]? = some s ∧ s.Has key) ∨ ∃ j, (key, j) ∈ c.skipped k

/-- A link of a key is in the closed set at a position, or left out of it by a
shortcut. -/
def HoldsLink (c : Chart g α) (k : Nat) (key : Key g) (j : Nat) : Prop :=
  (∃ s, c.closed[k]? = some s ∧ s.HasLink key j) ∨ (key, j) ∈ c.skipped k

theorem HoldsLink.holds {k j : Nat} {key : Key g} (h : c.HoldsLink k key j) : c.Holds k key :=
  h.imp (fun ⟨s, hs, hlink⟩ => ⟨s, hs, hlink.has⟩) fun h => ⟨j, h⟩

/-- What is left out of a set lies on the chains of the completions that took a
shortcut. -/
theorem Regular.mem_skipped (h : c.Regular tokens) {k j : Nat} {key : Key g} :
    (key, j) ∈ c.skipped k ↔
      ∃ s done name origin top split skipped, c.closed[k]? = some s ∧ s.Has done ∧
        done.Completes name origin ∧ origin ≠ k ∧
        LeoChain c.closed top split origin name skipped ∧ (key, j) ∈ skipped := by
  rw [skipped]
  cases hfound : c.closed[k]? with
  | none => simp
  | some s =>
    have hmem : ∀ origin name, (origin, name) ∈ s.bottoms ↔
        ∃ key, s.Has key ∧ key.Completes name origin ∧ origin ≠ k ∧
          Closing.Shortcut c.closed origin name := by
      intro origin name
      rw [StateSet.bottoms, Std.TreeSet.mem_toList]
      exact (h.closed hfound).leoBottoms origin name
    simp only [List.mem_flatMap, Prod.exists, hmem]
    constructor
    · rintro ⟨origin, name, ⟨done, hdone, hcompletes, hne, originSet, leo, hset, hitem⟩, hkey⟩
      obtain ⟨skipped, hchain⟩ := h.chained hset hitem
      rw [hchain.chain_eq (Nat.lt_succ_self origin)] at hkey
      exact ⟨s, done, name, origin, _, _, skipped, rfl, hdone, hcompletes, hne, hchain, hkey⟩
    · rintro ⟨s', done, name, origin, top, split, skipped, hs', hdone, hcompletes, hne, hchain,
        hkey⟩
      obtain rfl := Option.some.inj hs'
      obtain ⟨originSet, waiter, hset, hitem⟩ := hchain.exists_item
      refine ⟨origin, name, ⟨done, hdone, hcompletes, hne, originSet, _, hset, hitem⟩, ?_⟩
      rw [hchain.chain_eq (Nat.lt_succ_self origin)]
      exact hkey

/-- Left-out states are complete, and start before the position. -/
theorem Regular.isComplete_of_mem_skipped (h : c.Regular tokens) {k j : Nat} {key : Key g}
    (hkey : (key, j) ∈ c.skipped k) : key.item.isComplete = true ∧ key.origin < k := by
  obtain ⟨s, done, name, origin, top, split, skipped, hfound, hdone, ⟨-, -, rfl⟩, hne, hchain,
    hkey⟩ := h.mem_skipped.mp hkey
  obtain ⟨-, hlt, hcomplete⟩ := hchain.origin_of_mem hkey
  have hle := ((h.closed hfound).charted hdone).origin_le
  exact ⟨hcomplete, by omega⟩

/-- What a chart holds follows from the rules. -/
theorem Regular.linked_of_mem_skipped (h : c.Regular tokens) {k j : Nat} {key : Key g}
    (hkey : (key, j) ∈ c.skipped k) : Linked tokens key k j := by
  obtain ⟨s, done, name, origin, top, split, skipped, hfound, hdone, hcompletes, -, hchain,
    hkey⟩ := h.mem_skipped.mp hkey
  have hcompleted : Completed g tokens name origin k :=
    ⟨done, (h.closed hfound).charted hdone, hcompletes⟩
  exact (hchain.linked (fun hfound => (h.closed hfound).toSound) hcompleted).2 key j hkey

/-- A chain that a completion at `k` goes along is held there: its top is in the
set and the rest is left out. -/
theorem holdsLink_of_leoChain {k : Nat} {s : StateSet g} (hs : c.closed[k]? = some s)
    {top waiter next : Key g} {split origin : Nat} {name : Name}
    {skipped : List (Key g × Nat)} {originSet : StateSet g}
    (hchain : LeoChain c.closed top split origin name skipped) (htop : s.HasLink top split)
    (hskipped : ∀ entry ∈ skipped, entry ∈ c.skipped k)
    (hset : c.closed[origin]? = some originSet) (hwaiter : originSet.Has waiter)
    (hawaits : waiter.Awaits name) (hadvance : waiter.advance? = some next) :
    c.HoldsLink k next origin := by
  obtain ⟨set, only, next', hset', honly, hfinish, hnext'⟩ := hchain.exists_waiter
  obtain rfl := Option.some.inj (hset.symm.trans hset')
  obtain rfl := honly.only waiter hwaiter hawaits
  obtain rfl := Option.some.inj (hadvance.symm.trans (Key.finish?_eq_some_iff.mp hfinish).1)
  rcases hnext' with ⟨rfl, rfl⟩ | hmem
  · exact .inl ⟨s, hs, htop⟩
  · exact .inr (hskipped _ hmem)

/-- A completion that a chart holds advances every waiter at its origin. -/
theorem Regular.holdsLink_of_completes (h : c.Regular tokens) {j k : Nat}
    {waiter done next : Key g} {name : Name} {before : StateSet g}
    (hbefore : c.closed[j]? = some before) (hwaiter : before.Has waiter)
    (hawaits : waiter.Awaits name) (hk : k < c.closed.size) (hdone : c.Holds k done)
    (hcompletes : done.Completes name j) (hadvance : waiter.advance? = some next) :
    c.HoldsLink k next j := by
  obtain ⟨s, hs⟩ : ∃ s, c.closed[k]? = some s := ⟨_, Array.getElem?_eq_getElem hk⟩
  have hclosed := h.closed hs
  rcases hdone with ⟨s', hs', hdone⟩ | ⟨i, hskipped⟩
  · obtain rfl := Option.some.inj (hs.symm.trans hs')
    by_cases hjk : j = k
    · -- a completion over the empty input
      subst hjk
      obtain rfl := Option.some.inj (hs.symm.trans hbefore)
      have hrequest : Closing.Request c.closed j s done next (some j) :=
        .wake hcompletes (hclosed.mem_waiters.mpr ⟨hwaiter, hawaits⟩) hadvance
      exact .inl ⟨s, hs, (hclosed.answered hdone hrequest).2 j rfl⟩
    · -- a completion of an earlier position: its waiters pass, or its only waiter
      -- is on the chain of the shortcut
      cases hleo : before.leoItem? name with
      | none =>
        have hrequest : Closing.Request c.closed k s done next (some j) :=
          .complete hcompletes hjk hbefore hleo
            ((h.closed hbefore).mem_waiters.mpr ⟨hwaiter, hawaits⟩) hadvance
        exact .inl ⟨s, hs, (hclosed.answered hdone hrequest).2 j rfl⟩
      | some leo =>
        obtain ⟨skipped, hchain⟩ := h.chained hbefore hleo
        have hrequest : Closing.Request c.closed k s done leo.top (some leo.topSplit) :=
          .shortcut hcompletes hjk hbefore hleo
        refine holdsLink_of_leoChain hs hchain ((hclosed.answered hdone hrequest).2 _ rfl) ?_
          hbefore hwaiter hawaits hadvance
        rintro ⟨key, i⟩ hmem
        exact h.mem_skipped.mpr
          ⟨s, done, name, j, _, _, skipped, hs, hdone, hcompletes, hjk, hchain, hmem⟩
  · -- a left-out completion: its chain goes on above it
    obtain ⟨s', bottom, name', origin, top, split, skipped, hs', hbottom, hcompletes', hne, hchain,
      hmem⟩ := h.mem_skipped.mp hskipped
    obtain rfl := Option.some.inj (hs.symm.trans hs')
    obtain ⟨skipped', habove, hsubset⟩ := hchain.above hmem
    obtain ⟨originSet, waiter', hset, hitem⟩ := hchain.exists_item
    have htop : s.HasLink top split :=
      (hclosed.answered hbottom (.shortcut hcompletes' hne hset hitem)).2 split rfl
    obtain ⟨-, rfl, rfl⟩ := hcompletes
    refine holdsLink_of_leoChain hs habove htop ?_ hbefore hwaiter hawaits hadvance
    rintro ⟨key, i⟩ hmem'
    exact h.mem_skipped.mpr ⟨s, bottom, name', origin, top, split, skipped, hs, hbottom,
      hcompletes', hne, hchain, hsubset hmem'⟩

/-- A position before a closed one is closed. -/
theorem exists_closed_of_le {j k : Nat} (hk : k < c.closed.size) (hj : j ≤ k) :
    ∃ s, c.closed[j]? = some s :=
  ⟨_, Array.getElem?_eq_getElem (Nat.lt_of_le_of_lt hj hk)⟩

/-- A state that is not complete is never left out. -/
theorem Regular.has_of_holds (h : c.Regular tokens) {k : Nat} {s : StateSet g}
    (hs : c.closed[k]? = some s) {key : Key g} (hkey : c.Holds k key)
    (hincomplete : key.item.isComplete = false) : s.Has key := by
  rcases hkey with ⟨s', hs', hkey⟩ | ⟨j, hkey⟩
  · obtain rfl := Option.some.inj (hs.symm.trans hs')
    exact hkey
  · rw [(h.isComplete_of_mem_skipped hkey).1] at hincomplete
    contradiction

/-- Whatever the rules give at a closed position is there or left out. -/
theorem Regular.holds_of_charted (h : c.Regular tokens) {k : Nat} {key : Key g}
    (hkey : Charted tokens key k) (hk : k < c.closed.size) : c.Holds k key := by
  induction hkey with
  | seed start =>
    obtain ⟨s, hs⟩ := exists_closed_of_le hk (Nat.le_refl 0)
    exact .inl ⟨s, hs, (h.closed hs).seeded rfl _ start⟩
  | @predict waiter k name id _ awaits head ih =>
    obtain ⟨s, hs⟩ := exists_closed_of_le hk (Nat.le_refl k)
    have hwaiter := h.has_of_holds hs (ih hk) awaits.isComplete_eq_false
    exact .inl ⟨s, hs, ((h.closed hs).answered hwaiter (.predict awaits head)).1⟩
  | @scan scanner next k name _ scans token advance ih =>
    obtain ⟨s, hs⟩ := exists_closed_of_le hk (Nat.le_refl (k + 1))
    obtain ⟨before, hbefore⟩ := exists_closed_of_le hk (Nat.le_succ k)
    have hscanner := h.has_of_holds hbefore (ih (by omega)) scans.isComplete_eq_false
    exact .inl ⟨s, hs, ((h.closed hs).scanned rfl hbefore hscanner scans token advance).has⟩
  | @complete waiter done next j k name _ awaits inner completes advance ihBefore ihInner =>
    -- the completion may itself be left out, but the waiter is in the set
    have hjk : j ≤ k := by
      obtain ⟨-, -, rfl⟩ := completes
      exact inner.origin_le
    obtain ⟨before, hbefore⟩ := exists_closed_of_le hk hjk
    have hwaiter := h.has_of_holds hbefore (ihBefore (by omega)) awaits.isComplete_eq_false
    exact (h.holdsLink_of_completes hbefore hwaiter awaits hk (ihInner hk) completes
      advance).holds

/-- **The states of a chart.**  At a closed position, a key is in the set or left
out of it exactly if the rules of a chart give it. -/
theorem Regular.holds_iff (h : c.Regular tokens) {k : Nat} (hk : k < c.closed.size)
    {key : Key g} : c.Holds k key ↔ Charted tokens key k := by
  constructor
  · rintro (⟨s, hs, hkey⟩ | ⟨j, hkey⟩)
    · exact (h.closed hs).charted hkey
    · exact (h.linked_of_mem_skipped hkey).charted
  · exact fun hkey => h.holds_of_charted hkey hk

/-- The incomplete states of a set are those that the rules of a chart give. -/
theorem Regular.has_iff_charted (h : c.Regular tokens) {k : Nat} {s : StateSet g}
    (hs : c.closed[k]? = some s) {key : Key g} (hincomplete : key.item.isComplete = false) :
    s.Has key ↔ Charted tokens key k := by
  constructor
  · exact (h.closed hs).charted
  · intro hkey
    have hk := (Array.getElem?_eq_some_iff.mp hs).1
    exact h.has_of_holds hs (h.holds_of_charted hkey hk) hincomplete

/-- **The links of a chart.**  At a closed position, a link is in the set or left
out of it exactly if the rules of a chart give it. -/
theorem Regular.holdsLink_iff (h : c.Regular tokens) {k : Nat} (hk : k < c.closed.size)
    {key : Key g} {j : Nat} : c.HoldsLink k key j ↔ Linked tokens key k j := by
  constructor
  · rintro (⟨s, hs, hlink⟩ | hkey)
    · exact (h.closed hs).linked hlink
    · exact h.linked_of_mem_skipped hkey
  · intro hlink
    obtain ⟨s, hs⟩ := exists_closed_of_le hk (Nat.le_refl k)
    obtain ⟨-, hjk⟩ := hlink.le
    obtain ⟨waiter, hadvance, hwaiter, hterm⟩ := hlink
    obtain ⟨before, hbefore⟩ := exists_closed_of_le hk hjk
    have hholds := h.holds_of_charted hwaiter (by omega)
    rcases hterm with ⟨name, hscans, htoken, rfl⟩ | ⟨name, hawaits, done, hdone, hcompletes⟩
    · have hhas := h.has_of_holds hbefore hholds hscans.isComplete_eq_false
      exact .inl ⟨s, hs, (h.closed hs).scanned rfl hbefore hhas hscans htoken hadvance⟩
    · have hhas := h.has_of_holds hbefore hholds hawaits.isComplete_eq_false
      exact h.holdsLink_of_completes hbefore hhas hawaits hk (h.holds_of_charted hdone hk)
        hcompletes hadvance

end Chart

end ChartParser
