/-
The Leo items of a closed set.

* **`leoItem?_withLeoItems`** — a set has a Leo item for a nonterminal exactly if
  one state alone waits for it and is complete once it has got it;
* **`LeoChain`** — the completions that a Leo item stands for, from the waiter to
  the top: each starts before the position where the one below it was waited
  for, and the top before all of them;
* **`chain_eq`** — walking down from a Leo item finds its chain;
* **`LeoChain.linked`** — completing the nonterminal gives every state of the
  chain by the rules of a chart, each with the link that the walk finds.
-/
import ChartParser.Proofs.Saturation

namespace ChartParser

variable {g : Grammar} {α : Type}

namespace StateSet

variable {s : StateSet g} {earlier : Array (StateSet g)} {k : Nat} {name : Name}

/-! ### Which Leo items there are -/

/-- Adds the shortcuts of some waiters. -/
def addShortcuts (earlier : Array (StateSet g)) (k : Nat) (waiters : List (Name × Key g))
    (s : StateSet g) : StateSet g :=
  waiters.foldl
    (fun s (name, waiter) =>
      match leoItemOf earlier k waiter with
      | some item => s.addLeoItem name item
      | none => s)
    s

/-- Shortcuts are all that is added. -/
theorem addShortcuts_eq (waiters : List (Name × Key g)) (s : StateSet g) :
    addShortcuts earlier k waiters s =
      { s with leoItems := (addShortcuts earlier k waiters s).leoItems } := by
  induction waiters generalizing s with
  | nil => rfl
  | cons waiter waiters ih =>
    obtain ⟨name, key⟩ := waiter
    rw [addShortcuts, List.foldl_cons]
    refine (ih _).trans ?_
    dsimp only
    split <;> rfl

theorem withLeoItems_eq : s.withLeoItems earlier k =
    { s with leoItems := (s.withLeoItems earlier k).leoItems } :=
  addShortcuts_eq s.singleWaiters s

theorem leoItem?_addLeoItem (a : Name) (item : LeoItem g) :
    (s.addLeoItem a item).leoItem? name = if a = name then some item else s.leoItem? name := by
  simp only [leoItem?, addLeoItem, Std.TreeMap.getElem?_insert, Std.compare_eq_iff_eq]

/-- Each of several nonterminals gets the shortcut of its own waiter. -/
theorem leoItem?_addShortcuts {waiters : List (Name × Key g)}
    (hdistinct : waiters.Pairwise fun a b => a.1 ≠ b.1) {leo : LeoItem g} :
    (addShortcuts earlier k waiters s).leoItem? name = some leo ↔
      (∃ waiter, (name, waiter) ∈ waiters ∧ leoItemOf earlier k waiter = some leo) ∨
        (∀ waiter, (name, waiter) ∈ waiters → leoItemOf earlier k waiter = none) ∧
          s.leoItem? name = some leo := by
  induction waiters generalizing s with
  | nil => simp [addShortcuts]
  | cons entry waiters ih =>
    obtain ⟨a, key⟩ := entry
    obtain ⟨hfirst, hrest⟩ := List.pairwise_cons.mp hdistinct
    rw [addShortcuts, List.foldl_cons]
    refine (ih hrest).trans ?_
    dsimp only
    by_cases ha : a = name
    · -- no later waiter can overwrite the shortcut
      subst ha
      have hnot : ∀ waiter, (a, waiter) ∉ waiters := fun waiter h => hfirst _ h rfl
      cases hitem : leoItemOf earlier k key with
      | none => simp [hnot, hitem]
      | some item => simp [hnot, hitem, leoItem?_addLeoItem]
    · have hskip : ∀ waiter, (name, waiter) ∈ (a, key) :: waiters ↔ (name, waiter) ∈ waiters := by
        intro waiter
        simp [Ne.symm ha]
      have hsame : (match leoItemOf earlier k key with
          | some item => s.addLeoItem a item
          | none => s).leoItem? name = s.leoItem? name := by
        split
        · rw [leoItem?_addLeoItem, if_neg ha]
        · rfl
      simp only [hskip, hsame]

theorem mem_singleWaiters_iff {waiter : Key g} :
    (name, waiter) ∈ s.singleWaiters ↔
      ∃ place, (s.waitingOn name).toList = [place] ∧ s.keys[place]? = some waiter := by
  rw [singleWaiters, List.mem_filterMap]
  constructor
  · rintro ⟨⟨a, places⟩, hmem, hsome⟩
    dsimp only at hsome
    split at hsome
    · rename_i place hplaces
      rw [Option.map_eq_some_iff] at hsome
      obtain ⟨st, hst, heq⟩ := hsome
      obtain ⟨rfl, rfl⟩ := Prod.mk.injEq .. ▸ heq
      have hget := Std.TreeMap.mem_toList_iff_getElem?_eq_some.mp hmem
      refine ⟨place, ?_, by rw [getElem?_keys, hst]; rfl⟩
      rw [waitingOn, Std.TreeMap.getD_eq_getD_getElem?, hget, Option.getD_some, hplaces]
    · contradiction
  · rintro ⟨place, hplaces, hkey⟩
    rw [getElem?_keys, Option.map_eq_some_iff] at hkey
    obtain ⟨st, hst, rfl⟩ := hkey
    rw [waitingOn, Std.TreeMap.getD_eq_getD_getElem?] at hplaces
    cases hget : s.waiting[name]? with
    | none => simp [hget] at hplaces
    | some places =>
      rw [hget, Option.getD_some] at hplaces
      refine ⟨(name, places), Std.TreeMap.mem_toList_iff_getElem?_eq_some.mpr hget, ?_⟩
      simp [hplaces, hst]

/-- Entries that keep their nonterminals keep them distinct. -/
theorem pairwise_filterMap_fst {β γ : Type} {pick : Name × β → Option (Name × γ)}
    (hname : ∀ {entry single}, pick entry = some single → single.1 = entry.1)
    {entries : List (Name × β)} (h : entries.Pairwise fun a b => a.1 ≠ b.1) :
    (entries.filterMap pick).Pairwise fun a b => a.1 ≠ b.1 := by
  refine h.filterMap _ ?_
  intro a b hab x hx y hy
  rw [hname hx, hname hy]
  exact hab

theorem pairwise_singleWaiters : s.singleWaiters.Pairwise fun a b => a.1 ≠ b.1 := by
  refine pairwise_filterMap_fst ?_ ?_
  · intro entry single h
    dsimp only at h
    split at h
    · obtain ⟨st, -, rfl⟩ := Option.map_eq_some_iff.mp h
      rfl
    · contradiction
  · refine s.waiting.distinct_keys_toList.imp ?_
    intro a b hab heq
    rw [heq] at hab
    exact hab Std.ReflCmp.compare_self

/-- One state alone waits for a nonterminal. -/
structure OnlyWaiter (s : StateSet g) (name : Name) (waiter : Key g) : Prop where
  has : s.Has waiter
  awaits : waiter.Awaits name
  only : ∀ other, s.Has other → other.Awaits name → other = waiter

/-- The waiter that is the only one is the single waiter. -/
theorem Consistent.mem_singleWaiters (hs : s.Consistent)
    (hwaiting : ∀ name : Name, (s.waitingOn name).toList = placesOf (·.Awaits name) s.keys)
    {waiter : Key g} :
    (name, waiter) ∈ s.singleWaiters ↔
      s.OnlyWaiter name waiter := by
  rw [mem_singleWaiters_iff, hwaiting]
  constructor
  · rintro ⟨place, hplaces, hkey⟩
    have hmem : place ∈ placesOf (·.Awaits name) s.keys := by simp [hplaces]
    obtain ⟨key, hkey', hawaits⟩ := mem_placesOf.mp hmem
    obtain rfl := Option.some.inj (hkey.symm.trans hkey')
    refine ⟨has_iff_exists_place.mpr ⟨place, hkey⟩, of_decide_eq_true hawaits, ?_⟩
    intro other hother hawaits'
    obtain ⟨p, hp⟩ := has_iff_exists_place.mp hother
    have hpmem : p ∈ placesOf (·.Awaits name) s.keys :=
      mem_placesOf.mpr ⟨other, hp, decide_eq_true hawaits'⟩
    rw [hplaces, List.mem_singleton] at hpmem
    subst hpmem
    exact Option.some.inj (hp.symm.trans hkey)
  · rintro ⟨hhas, hawaits, honly⟩
    obtain ⟨place, hplace⟩ := has_iff_exists_place.mp hhas
    refine ⟨place, ?_, hplace⟩
    have hmem : place ∈ placesOf (·.Awaits name) s.keys :=
      mem_placesOf.mpr ⟨waiter, hplace, decide_eq_true hawaits⟩
    have hall : ∀ p ∈ placesOf (·.Awaits name) s.keys, p = place := by
      intro p hp
      obtain ⟨other, hother, hawaits'⟩ := mem_placesOf.mp hp
      have heq := honly other (has_iff_exists_place.mpr ⟨p, hother⟩) (of_decide_eq_true hawaits')
      subst heq
      have hindex := (hs.index other p).mpr hother
      rw [(hs.index other place).mpr hplace] at hindex
      exact (Option.some.inj hindex).symm
    -- an increasing list of equal numbers has one element
    have hpairwise : (placesOf (·.Awaits name) s.keys).Pairwise (· < ·) := pairwise_placesOf
    rcases hlist : placesOf (·.Awaits name) s.keys with _ | ⟨p, _ | ⟨q, rest⟩⟩
    · simp [hlist] at hmem
    · rw [hlist, hall p (by simp [hlist])]
    · rw [hlist] at hpairwise
      have hlt := (List.pairwise_cons.mp hpairwise).1 q List.mem_cons_self
      have hp := hall p (by simp [hlist])
      have hq := hall q (by simp [hlist])
      omega

/-- **Leo items.**  A closed set has a Leo item for a nonterminal exactly if one
state alone waits for it and is complete once it has got it. -/
theorem leoItem?_withLeoItems (hs : s.Consistent)
    (hwaiting : ∀ name : Name, (s.waitingOn name).toList = placesOf (·.Awaits name) s.keys)
    (hnone : s.leoItems = ∅) {leo : LeoItem g} :
    (s.withLeoItems earlier k).leoItem? name = some leo ↔
      ∃ waiter, s.OnlyWaiter name waiter ∧ leoItemOf earlier k waiter = some leo := by
  have hempty : s.leoItem? name = none := by simp [leoItem?, hnone]
  refine (leoItem?_addShortcuts pairwise_singleWaiters).trans ?_
  simp only [hs.mem_singleWaiters hwaiting, hempty, reduceCtorEq, and_false, or_false]

end StateSet

/-! ### Chains -/

/-- `LeoChain sets top split k name skipped`: the set at `k` has a Leo item for
`name` that leads to `top`, whose last term starts at `split`, past the skipped
completions, each of them given with the start of its last term. -/
inductive LeoChain (sets : Array (StateSet g)) (top : Key g) (split : Nat) :
    Nat → Name → List (Key g × Nat) → Prop where
  | last {name : Name} {s : StateSet g} {waiter : Key g} (found : sets[split]? = some s)
      (item : s.leoItem? name = some ⟨waiter, top, split⟩) (only : s.OnlyWaiter name waiter)
      (finish : waiter.finish? = some top) : LeoChain sets top split split name []
  | link {k : Nat} {name : Name} {s : StateSet g} {waiter key : Key g}
      {skipped : List (Key g × Nat)} (found : sets[k]? = some s)
      (item : s.leoItem? name = some ⟨waiter, top, split⟩) (only : s.OnlyWaiter name waiter)
      (finish : waiter.finish? = some key) (before : key.origin < k)
      (below : top.origin < key.origin)
      (rest : LeoChain sets top split key.origin key.head skipped) :
      LeoChain sets top split k name ((key, k) :: skipped)

/-- Keys that start at different positions differ. -/
theorem Key.ne_of_origin_lt {key key' : Key g} (h : key.origin < key'.origin) : key ≠ key' := by
  rintro rfl
  exact Nat.lt_irrefl _ h

namespace LeoChain

variable {sets sets' : Array (StateSet g)} {top : Key g} {split k : Nat} {name : Name}
  {skipped : List (Key g × Nat)}

/-- A chain stays when more sets are closed. -/
theorem mono (hsets : ∀ {j : Nat} {s : StateSet g}, sets[j]? = some s → sets'[j]? = some s)
    (h : LeoChain sets top split k name skipped) : LeoChain sets' top split k name skipped := by
  induction h with
  | last found item only finish => exact .last (hsets found) item only finish
  | link found item only finish before below _ ih =>
    exact .link (hsets found) item only finish before below ih

/-- Walking down from a Leo item finds the skipped completions of its chain. -/
theorem chain_eq (h : LeoChain sets top split k name skipped) {fuel : Nat} (hfuel : k < fuel) :
    Chart.chain sets fuel k name = skipped := by
  induction h generalizing fuel with
  | last found item _ finish =>
    obtain ⟨fuel, rfl⟩ : ∃ n, fuel = n + 1 := ⟨fuel - 1, by omega⟩
    simp only [Chart.chain, found, Option.bind_some, item, finish, if_true]
  | @link k name s waiter key skipped found item _ finish before below _ ih =>
    obtain ⟨fuel, rfl⟩ : ∃ n, fuel = n + 1 := ⟨fuel - 1, by omega⟩
    -- the walk stops at the top only, and the top starts earlier than what it skips
    have hne : key ≠ top := (Key.ne_of_origin_lt below).symm
    simp only [Chart.chain, found, Option.bind_some, item, finish, if_neg hne]
    rw [ih (by omega)]

/-- A chain begins with a Leo item. -/
theorem exists_item (h : LeoChain sets top split k name skipped) :
    ∃ s waiter, sets[k]? = some s ∧ s.leoItem? name = some ⟨waiter, top, split⟩ := by
  cases h with
  | last found item => exact ⟨_, _, found, item⟩
  | link found item => exact ⟨_, _, found, item⟩

/-- The first completion of a chain is that of the only waiter, and it is the top
or skipped. -/
theorem exists_waiter (h : LeoChain sets top split k name skipped) :
    ∃ s waiter next, sets[k]? = some s ∧ s.OnlyWaiter name waiter ∧
      waiter.finish? = some next ∧ (next = top ∧ k = split ∨ (next, k) ∈ skipped) := by
  cases h with
  | last found item only finish => exact ⟨_, _, _, found, only, finish, .inl ⟨rfl, rfl⟩⟩
  | link found item only finish before below rest =>
    exact ⟨_, _, _, found, only, finish, .inr List.mem_cons_self⟩

/-- The chain goes on above every skipped completion. -/
theorem above (h : LeoChain sets top split k name skipped) {key : Key g} {j : Nat}
    (hkey : (key, j) ∈ skipped) :
    ∃ skipped', LeoChain sets top split key.origin key.head skipped' ∧ skipped' ⊆ skipped := by
  induction h with
  | last => simp at hkey
  | @link k name s waiter key' skipped found item only finish before below rest ih =>
    rcases List.mem_cons.mp hkey with heq | hkey
    · obtain ⟨rfl, rfl⟩ := Prod.mk.injEq .. ▸ heq
      exact ⟨skipped, rest, List.subset_cons_self _ _⟩
    · obtain ⟨skipped', hchain, hsubset⟩ := ih hkey
      exact ⟨skipped', hchain, fun x hx => List.mem_cons_of_mem _ (hsubset hx)⟩

/-- A skipped completion starts after the top and before the nonterminal. -/
theorem origin_of_mem (h : LeoChain sets top split k name skipped) {key : Key g} {j : Nat}
    (hkey : (key, j) ∈ skipped) :
    top.origin < key.origin ∧ key.origin < k ∧ key.item.isComplete = true := by
  induction h with
  | last => simp at hkey
  | @link k name s waiter key' skipped found item only finish before below rest ih =>
    rcases List.mem_cons.mp hkey with heq | hkey
    · obtain ⟨rfl, rfl⟩ := Prod.mk.injEq .. ▸ heq
      exact ⟨below, before, (Key.finish?_eq_some_iff.mp finish).2⟩
    · obtain ⟨htop, hlt, hcomplete⟩ := ih hkey
      exact ⟨htop, by omega, hcomplete⟩

/-- **Chains are sound.**  Where the nonterminal is completed, so is every state
of the chain by the rules of a chart. -/
theorem linked {tokens : Tokens α}
    (hsound : ∀ {j : Nat} {s : StateSet g}, sets[j]? = some s → s.Sound tokens j)
    (h : LeoChain sets top split k name skipped) {stop : Nat}
    (hcompleted : Completed g tokens name k stop) :
    Linked tokens top stop split ∧ ∀ key j, (key, j) ∈ skipped → Linked tokens key stop j := by
  induction h with
  | last found item only finish =>
    refine ⟨⟨_, (Key.finish?_eq_some_iff.mp finish).1, (hsound found).charted only.has,
      .inr ⟨_, only.awaits, hcompleted⟩⟩, by simp⟩
  | @link k name s waiter key skipped found item only finish before below rest ih =>
    obtain ⟨hadvance, hcomplete⟩ := Key.finish?_eq_some_iff.mp finish
    have hkey : Linked tokens key stop k :=
      ⟨waiter, hadvance, (hsound found).charted only.has, .inr ⟨name, only.awaits, hcompleted⟩⟩
    -- the skipped key is complete here, so the rest of the chain is entered
    obtain ⟨htop, hrest⟩ := ih ⟨key, hkey.charted, hcomplete, rfl, rfl⟩
    refine ⟨htop, fun key' j hmem => ?_⟩
    rcases List.mem_cons.mp hmem with heq | hmem
    · obtain ⟨rfl, rfl⟩ := Prod.mk.injEq .. ▸ heq
      exact hkey
    · exact hrest key' j hmem

end LeoChain

/-- Every Leo item of the sets leads along a chain. -/
def Chained (sets : Array (StateSet g)) : Prop :=
  ∀ {k : Nat} {s : StateSet g} {name : Name} {leo : LeoItem g}, sets[k]? = some s →
    s.leoItem? name = some leo →
    ∃ skipped, LeoChain sets leo.top leo.topSplit k name skipped

theorem getElem?_push_of_getElem? {β : Type} {as : Array β} {b : β} {j : Nat} {a : β}
    (h : as[j]? = some a) : (as.push b)[j]? = some a := by
  have hlt := (Array.getElem?_eq_some_iff.mp h).1
  rw [Array.getElem?_push, if_neg (by omega), h]

theorem getElem?_push_cases {β : Type} {as : Array β} {b : β} {j : Nat} {a : β}
    (h : (as.push b)[j]? = some a) : j = as.size ∧ a = b ∨ as[j]? = some a := by
  rw [Array.getElem?_push] at h
  split at h
  · exact .inl ⟨‹_›, (Option.some.inj h).symm⟩
  · exact .inr h

/-- A new set whose Leo items continue those of the earlier sets keeps them
chained. -/
theorem Chained.push {earlier : Array (StateSet g)} (h : Chained earlier) {s : StateSet g}
    (hs : ∀ {name : Name} {leo : LeoItem g}, s.leoItem? name = some leo →
      ∃ waiter, s.OnlyWaiter name waiter ∧
        StateSet.leoItemOf earlier earlier.size waiter = some leo) :
    Chained (earlier.push s) := by
  intro k s' name leo hfound hitem
  rcases getElem?_push_cases hfound with ⟨rfl, rfl⟩ | hold
  · obtain ⟨waiter, honly, hleo⟩ := hs hitem
    obtain ⟨done, hfinish, hleo⟩ := Option.map_eq_some_iff.mp hleo
    have horigin := Key.origin_of_advance? (Key.finish?_eq_some_iff.mp hfinish).1
    -- either the chain ends here, or it goes on where the waiter started
    have hlast : leo = ⟨waiter, done, earlier.size⟩ →
        ∃ skipped, LeoChain (earlier.push s') leo.top leo.topSplit earlier.size name skipped := by
      rintro rfl
      exact ⟨[], .last hfound hitem honly hfinish⟩
    split at hleo
    · rename_i above habove
      split at hleo
      · rename_i hbelow
        subst hleo
        obtain ⟨originSet, horiginSet, haboveItem⟩ := Option.bind_eq_some_iff.mp habove
        have hlt := (Array.getElem?_eq_some_iff.mp horiginSet).1
        obtain ⟨skipped, hchain⟩ := h horiginSet haboveItem
        rw [← horigin] at hlt hbelow hchain
        exact ⟨_, .link hfound hitem honly hfinish hlt hbelow
          (hchain.mono getElem?_push_of_getElem?)⟩
      · exact hlast hleo.symm
    · exact hlast hleo.symm
  · obtain ⟨skipped, hchain⟩ := h hold hitem
    exact ⟨skipped, hchain.mono getElem?_push_of_getElem?⟩

end ChartParser
