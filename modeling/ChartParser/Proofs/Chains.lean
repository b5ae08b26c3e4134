/-
Chains of Leo items.

A Leo item says where a chain of completions begins and what is at its top, and nothing of
what lies between.  That is spread over the Leo items of earlier sets, each computed when
its own set was closed, and is found again by walking from one to the next until the top
is reached.

* **`Consistent.onlyWaiter_iff`** — the only waiter, as the list of the states that wait;
* **`Follows`** — one step of the walk, from the Leo item of a nonterminal to that of the
  head of its waiter, where the waiter started;
* **`LeoChain.of_follows`** — a step finds a Leo item with the same top at an earlier
  position, so the walk ends;
* **`LeoChain.exists_last`**, **`LeoChain.mem_iff_passes`** — it ends where the top is
  completed, and comes past the completions that were left out;
* **`Regular.isAccepted_eq`** — these have no say in the verdict, since none of them starts
  at the beginning of the input;
* **`leo_items_exact`** — all this of every chart, after any number of steps.
-/
import ChartParser.Proofs.Fixpoint
import ChartParser.Proofs.Links
import ChartParser.Proofs.Shortcuts
import Mathlib.Logic.Relation

namespace ChartParser

variable {g : Grammar} {α : Type} {tokens : Tokens α}

open Relation (ReflTransGen)

theorem Key.head_of_advance? {key next : Key g} (h : key.advance? = some next) :
    next.head = key.head := by
  have hexpr := (Item.advance?_eq_some_iff.mp (advance?_eq_some_iff.mp h).1).2.1
  rw [head, Item.head, hexpr, head, Item.head]

/-- The only waiter for a nonterminal is all there is among the states that wait. -/
theorem StateSet.Consistent.onlyWaiter_iff {s : StateSet g} (hs : s.Consistent) {name : Name}
    {waiter : Key g} :
    s.OnlyWaiter name waiter ↔ s.keys.filter (fun key => key.Awaits name) = [waiter] := by
  have hmem : ∀ {key : Key g}, key ∈ s.keys.filter (fun key => key.Awaits name) ↔
      s.Has key ∧ key.Awaits name := by
    intro key
    rw [List.mem_filter, decide_eq_true_eq]
    rfl
  constructor
  · rintro ⟨hhas, hawaits, honly⟩
    have hnodup : (s.keys.filter fun key => key.Awaits name).Nodup := hs.nodup_keys.filter _
    have hwaiter := hmem.mpr ⟨hhas, hawaits⟩
    have hall : ∀ key ∈ s.keys.filter (fun key => key.Awaits name), key = waiter :=
      fun key hkey => honly key (hmem.mp hkey).1 (hmem.mp hkey).2
    generalize s.keys.filter (fun key => key.Awaits name) = keys at hnodup hwaiter hall
    rw [List.eq_replicate_of_mem hall] at hnodup hwaiter ⊢
    have hle := List.nodup_replicate.mp hnodup
    have hpos := (List.mem_replicate.mp hwaiter).1
    rw [show keys.length = 1 by omega]
    rfl
  · intro hfilter
    obtain ⟨hhas, hawaits⟩ := hmem.mp (hfilter ▸ List.mem_singleton_self waiter)
    refine ⟨hhas, hawaits, fun other hother hawaits' => ?_⟩
    have hother := hmem.mpr ⟨hother, hawaits'⟩
    rw [hfilter] at hother
    exact List.mem_singleton.mp hother

theorem StateSet.waiter_of_leoItemOf {earlier : Array (StateSet g)} {k : Nat} {waiter : Key g}
    {leo : LeoItem g} (h : leoItemOf earlier k waiter = some leo) : leo.waiter = waiter := by
  obtain ⟨done, -, rfl⟩ := Option.map_eq_some_iff.mp h
  split
  · split <;> rfl
  · rfl

/-! ### Walking down a chain -/

/-- The Leo item of a nonterminal in the set at a position. -/
def leoItemAt? (sets : Array (StateSet g)) (k : Nat) (name : Name) : Option (LeoItem g) :=
  (sets[k]?).bind (·.leoItem? name)

theorem leoItemAt?_eq_some_iff {sets : Array (StateSet g)} {k : Nat} {name : Name}
    {leo : LeoItem g} :
    leoItemAt? sets k name = some leo ↔ ∃ s, sets[k]? = some s ∧ s.leoItem? name = some leo :=
  Option.bind_eq_some_iff

/-- One step of the walk down a chain.  A Leo item whose waiter does not become the top
once it has got the nonterminal leads to where the waiter started, and to its head. -/
inductive Follows (sets : Array (StateSet g)) : Nat × Name → Nat × Name → Prop where
  | next {k : Nat} {name : Name} {leo : LeoItem g} {done : Key g}
      (item : leoItemAt? sets k name = some leo) (advance : leo.waiter.advance? = some done)
      (more : done ≠ leo.top) : Follows sets (k, name) (leo.waiter.origin, leo.waiter.head)

/-- The walk from the Leo item of a nonterminal at `k` comes past one at `j` whose waiter
becomes `key`, which is not the top. -/
def Passes (sets : Array (StateSet g)) (k : Nat) (name : Name) (key : Key g) (j : Nat) : Prop :=
  ∃ middle item, ReflTransGen (Follows sets) (k, name) (j, middle) ∧
    leoItemAt? sets j middle = some item ∧ item.waiter.advance? = some key ∧ key ≠ item.top

section Walk

variable {sets : Array (StateSet g)} {k : Nat} {name : Name} {leo : LeoItem g} {done : Key g}

/-- There is a next step exactly if the waiter does not become the top, and it leads to
what the waiter becomes. -/
theorem follows_iff (item : leoItemAt? sets k name = some leo)
    (advance : leo.waiter.advance? = some done) {next : Nat × Name} :
    Follows sets (k, name) next ↔ done ≠ leo.top ∧ next = (done.origin, done.head) := by
  rw [Key.origin_of_advance? advance, Key.head_of_advance? advance]
  constructor
  · rintro ⟨item', advance', more⟩
    obtain rfl := Option.some.inj (item.symm.trans item')
    obtain rfl := Option.some.inj (advance.symm.trans advance')
    exact ⟨more, rfl⟩
  · rintro ⟨more, rfl⟩
    exact .next item advance more

/-- A walk comes past the first completion, if it is not the top, and past those that the
walk from there comes past. -/
theorem passes_iff (item : leoItemAt? sets k name = some leo)
    (advance : leo.waiter.advance? = some done) {key : Key g} {j : Nat} :
    Passes sets k name key j ↔
      done ≠ leo.top ∧ (key = done ∧ j = k ∨ Passes sets done.origin done.head key j) := by
  constructor
  · rintro ⟨middle, item', hwalk, hitem', hadvance', hmore⟩
    rcases hwalk.cases_head with heq | ⟨next, hnext, hwalk⟩
    · obtain ⟨rfl, rfl⟩ := Prod.mk.injEq .. ▸ heq
      obtain rfl := Option.some.inj (item.symm.trans hitem')
      obtain rfl := Option.some.inj (advance.symm.trans hadvance')
      exact ⟨hmore, .inl ⟨rfl, rfl⟩⟩
    · obtain ⟨hne, rfl⟩ := (follows_iff item advance).mp hnext
      exact ⟨hne, .inr ⟨middle, item', hwalk, hitem', hadvance', hmore⟩⟩
  · rintro ⟨hne, ⟨rfl, rfl⟩ | ⟨middle, item', hwalk, hitem', hadvance', hmore⟩⟩
    · exact ⟨name, leo, .refl, item, advance, hne⟩
    · have hwalk := hwalk.head ((follows_iff item advance).mpr ⟨hne, rfl⟩)
      exact ⟨middle, item', hwalk, hitem', hadvance', hmore⟩

end Walk

namespace LeoChain

variable {sets : Array (StateSet g)} {top : Key g} {split k : Nat} {name : Name}
  {skipped : List (Key g × Nat)}

/-- A step finds another Leo item of the chain, at an earlier position. -/
theorem of_follows (h : LeoChain sets top split k name skipped) {next : Nat × Name}
    (hnext : Follows sets (k, name) next) :
    next.1 < k ∧ ∃ skipped', LeoChain sets top split next.1 next.2 skipped' := by
  cases h with
  | last found item _ finish =>
    have hitem := leoItemAt?_eq_some_iff.mpr ⟨_, found, item⟩
    exact absurd rfl ((follows_iff hitem (Key.finish?_eq_some_iff.mp finish).1).mp hnext).1
  | link found item _ finish before _ rest =>
    have hitem := leoItemAt?_eq_some_iff.mpr ⟨_, found, item⟩
    obtain ⟨-, rfl⟩ := (follows_iff hitem (Key.finish?_eq_some_iff.mp finish).1).mp hnext
    exact ⟨before, _, rest⟩

/-- The walk ends where the top is completed. -/
theorem exists_last (h : LeoChain sets top split k name skipped) :
    ∃ last waiter, ReflTransGen (Follows sets) (k, name) (split, last) ∧
      leoItemAt? sets split last = some ⟨waiter, top, split⟩ ∧ waiter.finish? = some top := by
  induction h with
  | last found item _ finish =>
    exact ⟨_, _, .refl, leoItemAt?_eq_some_iff.mpr ⟨_, found, item⟩, finish⟩
  | link found item _ finish _ below _ ih =>
    have hitem := leoItemAt?_eq_some_iff.mpr ⟨_, found, item⟩
    have hnext := (follows_iff hitem (Key.finish?_eq_some_iff.mp finish).1).mpr
      ⟨(Key.ne_of_origin_lt below).symm, rfl⟩
    obtain ⟨last, waiter, hwalk, hlast, htop⟩ := ih
    exact ⟨last, waiter, hwalk.head hnext, hlast, htop⟩

/-- The walk comes past the skipped completions, and past nothing else. -/
theorem mem_iff_passes (h : LeoChain sets top split k name skipped) {key : Key g} {j : Nat} :
    (key, j) ∈ skipped ↔ Passes sets k name key j := by
  induction h with
  | last found item _ finish =>
    rw [passes_iff (leoItemAt?_eq_some_iff.mpr ⟨_, found, item⟩)
      (Key.finish?_eq_some_iff.mp finish).1]
    simp
  | link found item _ finish _ below _ ih =>
    have hne := (Key.ne_of_origin_lt below).symm
    rw [passes_iff (leoItemAt?_eq_some_iff.mpr ⟨_, found, item⟩)
      (Key.finish?_eq_some_iff.mp finish).1, List.mem_cons, Prod.mk.injEq, ih, and_iff_right hne]

end LeoChain

namespace Chart

variable {c : Chart g α}

theorem Regular.leoChain (h : c.Regular tokens) {k : Nat} {name : Name} {leo : LeoItem g}
    (hleo : leoItemAt? c.closed k name = some leo) :
    ∃ skipped, LeoChain c.closed leo.top leo.topSplit k name skipped := by
  obtain ⟨s, hs, hitem⟩ := leoItemAt?_eq_some_iff.mp hleo
  exact h.chained hs hitem

/-- What is left out of a set are the completions that the walks from the completions with
a shortcut come past. -/
theorem Regular.mem_skipped_iff (h : c.Regular tokens) {k j : Nat} {key : Key g} :
    (key, j) ∈ c.skipped k ↔
      ∃ s origin name, c.closed[k]? = some s ∧ (origin, name) ∈ s.bottoms ∧
        Passes c.closed origin name key j := by
  rw [h.mem_skipped]
  constructor
  · rintro ⟨s, done, name, origin, top, split, skipped, hs, hdone, hcompletes, hne, hchain, hmem⟩
    obtain ⟨originSet, waiter, hset, hitem⟩ := hchain.exists_item
    have hle := ((h.closed hs).charted hdone).origin_le
    rw [hcompletes.2.2] at hle
    have hbottom : (origin, name) ∈ s.bottoms :=
      (h.closed hs).mem_bottoms_iff.mpr
        ⟨Nat.lt_of_le_of_ne hle hne, ⟨done, hdone, hcompletes⟩, originSet, _, hset, hitem⟩
    exact ⟨s, origin, name, hs, hbottom, hchain.mem_iff_passes.mp hmem⟩
  · rintro ⟨s, origin, name, hs, hbottom, hpasses⟩
    obtain ⟨hlt, ⟨done, hdone, hcompletes⟩, originSet, leo, hset, hitem⟩ :=
      (h.closed hs).mem_bottoms_iff.mp hbottom
    obtain ⟨skipped, hchain⟩ := h.chained hset hitem
    exact ⟨s, done, name, origin, _, _, skipped, hs, hdone, hcompletes, Nat.ne_of_lt hlt, hchain,
      hchain.mem_iff_passes.mpr hpasses⟩

/-- A left-out completion never starts at the beginning: the top of its chain starts before
it. -/
theorem Regular.origin_pos_of_mem_skipped (h : c.Regular tokens) {k j : Nat} {key : Key g}
    (hkey : (key, j) ∈ c.skipped k) : 0 < key.origin := by
  obtain ⟨_, _, _, _, _, _, _, -, -, -, -, hchain, hmem⟩ := h.mem_skipped.mp hkey
  exact Nat.zero_lt_of_lt (hchain.origin_of_mem hmem).1

/-- The verdict is that of the completions in the last set: what is left out of it does not
start at the beginning. -/
theorem Regular.isAccepted_eq (h : c.Regular tokens) :
    c.isAccepted =
      match g.start, c.closed[c.tokens.size]? with
      | some start, some last => c.isFinished && !(last.completionsOf start 0).isEmpty
      | _, _ => false := by
  have hskipped : ∀ start : Name, ((c.skipped c.tokens.size).any fun p =>
      p.1.origin = 0 && p.1.head = start) = false := by
    intro start
    rw [List.any_eq_false]
    rintro ⟨key, j⟩ hkey
    have hpos := h.origin_pos_of_mem_skipped hkey
    simp [Nat.ne_of_gt hpos]
  rw [isAccepted]
  cases g.start with
  | none => rfl
  | some start =>
    cases c.closed[c.tokens.size]? with
    | none => rfl
    | some last => simp only [hskipped, Bool.or_false]

/-! ### All charts -/

/-- The Leo items of a chart are exact, and their chains can be walked. -/
structure LeoExact (c : Chart g α) : Prop where
  /-- There is a Leo item exactly if the states that wait for a nonterminal are one, and
  this one is complete once it has got it. -/
  exists_iff : ∀ {k : Nat} {s : StateSet g}, c.closed[k]? = some s → ∀ name : Name,
    (∃ leo, s.leoItem? name = some leo) ↔
      ∃ waiter done, s.keys.filter (fun key => key.Awaits name) = [waiter] ∧
        waiter.advance? = some done ∧ done.item.isComplete = true
  /-- Its waiter is that state. -/
  waiter : ∀ {k : Nat} {s : StateSet g}, c.closed[k]? = some s →
    ∀ {name : Name} {leo : LeoItem g}, s.leoItem? name = some leo →
    s.keys.filter (fun key => key.Awaits name) = [leo.waiter]
  /-- A step of the walk finds another Leo item with the same top, at an earlier position. -/
  follow : ∀ {k : Nat} {name : Name} {leo : LeoItem g} {next : Nat × Name},
    leoItemAt? c.closed k name = some leo → Follows c.closed (k, name) next →
    next.1 < k ∧ ∃ leo', leoItemAt? c.closed next.1 next.2 = some leo' ∧
      leo'.top = leo.top ∧ leo'.topSplit = leo.topSplit
  /-- The walk ends at the Leo item whose waiter becomes the top, and `topSplit` is the
  position of the set with that waiter. -/
  ends : ∀ {k : Nat} {name : Name} {leo : LeoItem g}, leoItemAt? c.closed k name = some leo →
    ∃ last final, ReflTransGen (Follows c.closed) (k, name) (leo.topSplit, last) ∧
      leoItemAt? c.closed leo.topSplit last = some final ∧ final.top = leo.top ∧
      final.waiter.advance? = some leo.top ∧ leo.top.item.isComplete = true ∧
      ∀ next, ¬ Follows c.closed (leo.topSplit, last) next
  /-- What is left out of a set are the completions that the walks from the completions
  with a shortcut come past. -/
  skipped_iff : ∀ {k j : Nat} {key : Key g}, (key, j) ∈ c.skipped k ↔
    ∃ s origin name, c.closed[k]? = some s ∧ (origin, name) ∈ s.bottoms ∧
      Passes c.closed origin name key j
  /-- They start after the top of their chain, ... -/
  top_lt : ∀ {k j : Nat} {name : Name} {leo : LeoItem g} {key : Key g},
    leoItemAt? c.closed k name = some leo → Passes c.closed k name key j →
    leo.top.origin < key.origin
  /-- ... so never at the beginning of the input, ... -/
  origin_pos : ∀ {k j : Nat} {key : Key g}, (key, j) ∈ c.skipped k → 0 < key.origin
  /-- ... and have no say in the verdict. -/
  accepted : c.isAccepted =
    match g.start, c.closed[c.tokens.size]? with
    | some start, some last => c.isFinished && !(last.completionsOf start 0).isEmpty
    | _, _ => false

/-- **Leo items are exact, and their chains are well-founded.**  In every chart, after any
number of steps, there is a Leo item wherever a single state waits and is complete once it
has got what it waits for.  Walking from item to item goes back in the input until the top
is reached.  What is left out on the way starts after the top, so the verdict is that of
the completions in the last set. -/
theorem leo_items_exact (g : Grammar) (tokens : Tokens α) (n : Nat) :
    (after g tokens n).LeoExact := by
  have h := regular_after g tokens n
  have hsettled := settled_after g tokens n
  have hconsistent : ∀ {k : Nat} {s : StateSet g}, (after g tokens n).closed[k]? = some s →
      s.Consistent := fun hs => (h.closed hs).consistent
  refine ⟨?_, ?_, ?_, ?_, h.mem_skipped_iff, ?_, h.origin_pos_of_mem_skipped, h.isAccepted_eq⟩
  · intro k s hs name
    constructor
    · rintro ⟨leo, hleo⟩
      obtain ⟨waiter, honly, hitem⟩ := (hsettled.leoItem hs).mp hleo
      obtain ⟨done, hfinish, -⟩ := Option.map_eq_some_iff.mp hitem
      exact ⟨waiter, done, (hconsistent hs).onlyWaiter_iff.mp honly,
        Key.finish?_eq_some_iff.mp hfinish⟩
    · rintro ⟨waiter, done, hfilter, hfinish⟩
      have honly := (hconsistent hs).onlyWaiter_iff.mpr hfilter
      obtain ⟨leo, hleo, -⟩ :=
        hsettled.exists_leoItem hs honly (Key.finish?_eq_some_iff.mpr hfinish)
      exact ⟨leo, hleo⟩
  · intro k s hs name leo hleo
    obtain ⟨waiter, honly, hitem⟩ := (hsettled.leoItem hs).mp hleo
    rw [StateSet.waiter_of_leoItemOf hitem]
    exact (hconsistent hs).onlyWaiter_iff.mp honly
  · intro k name leo next hleo hnext
    obtain ⟨skipped, hchain⟩ := h.leoChain hleo
    obtain ⟨hlt, skipped', hchain'⟩ := hchain.of_follows hnext
    obtain ⟨s, waiter, hs, hitem⟩ := hchain'.exists_item
    exact ⟨hlt, _, leoItemAt?_eq_some_iff.mpr ⟨s, hs, hitem⟩, rfl, rfl⟩
  · intro k name leo hleo
    obtain ⟨skipped, hchain⟩ := h.leoChain hleo
    obtain ⟨last, waiter, hwalk, hlast, hfinish⟩ := hchain.exists_last
    obtain ⟨hadvance, hcomplete⟩ := Key.finish?_eq_some_iff.mp hfinish
    refine ⟨last, _, hwalk, hlast, rfl, hadvance, hcomplete, fun next hnext => ?_⟩
    exact ((follows_iff hlast hadvance).mp hnext).1 rfl
  · intro k j name leo key hleo hpasses
    obtain ⟨skipped, hchain⟩ := h.leoChain hleo
    exact (hchain.origin_of_mem (hchain.mem_iff_passes.mpr hpasses)).1

/-- At the end of `a a a` there is one Leo item for `S` at 2 and one at 1, with the same
top.  The walk from the first to the second comes past the state that is left out. -/
theorem leo_items_exact_threeLetters :
    ∃ leo final key,
      leoItemAt? (after Examples.rightRecursive Examples.threeLetters 4).closed 2 "S" = some leo ∧
      leo.topSplit = 1 ∧
      (∃ last, ReflTransGen
          (Follows (after Examples.rightRecursive Examples.threeLetters 4).closed)
          (2, "S") (1, last) ∧
        leoItemAt? (after Examples.rightRecursive Examples.threeLetters 4).closed 1 last =
          some final) ∧
      final.waiter.advance? = some leo.top ∧
      (after Examples.rightRecursive Examples.threeLetters 4).skipped 3 = [(key, 2)] ∧
      Passes (after Examples.rightRecursive Examples.threeLetters 4).closed 2 "S" key 2 ∧
      leo.top.origin < key.origin := by
  have h := leo_items_exact Examples.rightRecursive Examples.threeLetters 4
  have hleo : (leoItemAt? (after Examples.rightRecursive Examples.threeLetters 4).closed 2 "S").map
      (·.topSplit) = some 1 := by decide +kernel
  have hskipped : ((after Examples.rightRecursive Examples.threeLetters 4).skipped 3).map
      (·.2) = [2] := by decide +kernel
  have hbottoms : ((after Examples.rightRecursive Examples.threeLetters 4).closed[3]?).map
      (·.bottoms) = some [(2, "S")] := by decide +kernel
  obtain ⟨leo, hitem, hsplit⟩ := Option.map_eq_some_iff.mp hleo
  obtain ⟨⟨key, j⟩, hkey, rfl⟩ := List.map_eq_singleton_iff.mp hskipped
  obtain ⟨last, final, hwalk, hlast, -, hadvance, -⟩ := h.ends hitem
  obtain ⟨s, origin, name, hs, hbottom, hpasses⟩ :=
    h.skipped_iff.mp (hkey ▸ List.mem_singleton_self (key, 2))
  rw [hs, Option.map_some, Option.some.injEq] at hbottoms
  rw [hbottoms, List.mem_singleton, Prod.mk.injEq] at hbottom
  obtain ⟨rfl, rfl⟩ := hbottom
  rw [hsplit] at hwalk hlast
  exact ⟨leo, final, key, hitem, hsplit, ⟨last, hwalk, hlast⟩, hadvance, hkey, hpasses,
    h.top_lt hitem hpasses⟩

end Chart

end ChartParser
