/-
Building a chart never fails.

A checked run stops where something that is taken for granted does not hold.  Here
it is shown that this never happens, whatever the grammar and the input are:

* **`Closing.Processed.fault?_eq_none`** — processing a state finds the rule of what
  it waits for, the set where it started and the states that wait there;
* **`Closing.Processed.saturateChecked_eq`** — no state is left when the bound on
  the number of rounds is reached;
* **`LeoChain.chainChecked_eq`** — a chain leads from set to set until its top is
  reached;
* **`chart_building_safe`** — checked steps, a checked run and checked walks down the
  chains do what the unchecked ones do, and every set has room for its states.
-/
import ChartParser.Checked
import ChartParser.Grammar.Examples
import ChartParser.Proofs.Recognition

namespace ChartParser

variable {g : Grammar} {α : Type} {tokens : Tokens α}

/-- A nonterminal that is waited for has a rule. -/
theorem Key.Awaits.isSome_rule? {key : Key g} {name : Name} (h : key.Awaits name) :
    (g.rule? name).isSome = true := by
  obtain ⟨t, hnext, hkind, rfl⟩ := h
  have hterm : t ∈ (g.expr key.item.expr).terms := List.mem_of_getElem? hnext
  rw [Option.isSome_iff_ne_none, ne_eq, Grammar.rule?_eq_none_iff, not_not]
  exact g.wellFormed.nonterminal_mem _ (g.expr_mem _) t hterm hkind

/-- Places of states are in range. -/
theorem StateSet.placeFault?_eq_none {s : StateSet g} {places : Array Nat} {p : Key g → Bool}
    {n : Nat} (h : places.toList = placesOf p (s.keys.take n)) : s.placeFault? places = none := by
  rw [placeFault?, Option.map_eq_none_iff, List.find?_eq_none]
  intro place hplace
  rw [h] at hplace
  obtain ⟨key, hkey, -⟩ := mem_placesOf.mp hplace
  have hlt := (List.getElem?_eq_some_iff.mp hkey).1
  rw [List.length_take, length_keys] at hlt
  simp only [decide_eq_true_eq]
  omega

/-! ### Closing a set -/

namespace Closing

variable {earlier : Array (StateSet g)} {start : StateSet g} {place : Nat} {c : Closing g}

/-- **Processing a state is safe.** -/
theorem Processed.fault?_eq_none
    (hearlier : ∀ {j : Nat} {s : StateSet g}, earlier[j]? = some s → s.Grounded tokens j)
    (h : Processed tokens earlier earlier.size start place c) {key : Key g}
    (hkey : c.current.Has key) : fault? earlier earlier.size key c.current = none := by
  have horigin := (h.sound.charted hkey).origin_le
  unfold fault?
  split
  · split
    · exact StateSet.placeFault?_eq_none (h.noted.waiting _)
    · -- the set where the state started is closed, and knows who waits there
      rename_i hne
      obtain ⟨originSet, hset⟩ : ∃ s, earlier[key.origin]? = some s :=
        ⟨_, Array.getElem?_eq_getElem (show key.origin < earlier.size by omega)⟩
      rw [hset]
      dsimp only
      split
      · rfl
      · have hwaiting := (hearlier hset).waiting key.head
        rw [← StateSet.take_keys_size] at hwaiting
        exact StateSet.placeFault?_eq_none hwaiting
  · rename_i term hnext
    split
    · rename_i hkind
      have hawaits : key.Awaits term.name := ⟨term, hnext, hkind, rfl⟩
      rw [if_pos hawaits.isSome_rule?]
    · rfl

/-- Checked rounds do what unchecked ones do, and none is missing at the end. -/
theorem Processed.saturateChecked_eq
    (hearlier : ∀ {j : Nat} {s : StateSet g}, earlier[j]? = some s → s.Grounded tokens j)
    {fuel : Nat} (h : Processed tokens earlier earlier.size start place c)
    (hfuel : StateSet.capacity g earlier.size ≤ place + fuel) :
    c.saturateChecked earlier earlier.size (tokens.nameAt? earlier.size) fuel place =
      .ok (c.saturate earlier earlier.size (tokens.nameAt? earlier.size) fuel place) := by
  induction fuel generalizing place c with
  | zero =>
    have hsize := h.sound.size_le_capacity
    rw [Closing.saturateChecked, if_neg (by omega), Closing.saturate]
  | succ fuel ih =>
    rw [Closing.saturateChecked, Closing.saturate]
    cases hst : c.current.states[place]? with
    | none => rfl
    | some st =>
      have hkey := StateSet.getElem?_keys_of_getElem? hst
      have hfault := h.fault?_eq_none hearlier (StateSet.has_iff_exists_place.mpr ⟨place, hkey⟩)
      dsimp only
      rw [hfault]
      exact ih (h.process hearlier hkey) (by omega)

end Closing

/-- A saturated set can be settled: its states are distinct and start no later than
they stand, so there is room for them. -/
theorem Closing.Processed.setFault?_eq_none {earlier : Array (StateSet g)} {k : Nat}
    {start : StateSet g} {c : Closing g}
    (h : Processed tokens earlier k start c.current.size c) : c.current.fault? k = none := by
  rw [StateSet.fault?, if_neg (Nat.not_lt.mpr h.sound.size_le_capacity), List.findSome?_eq_none_iff]
  rintro ⟨name, places⟩ hmem
  have hget := Std.TreeMap.mem_toList_iff_getElem?_eq_some.mp hmem
  have hplaces : c.current.waitingOn name = places := by
    rw [StateSet.waitingOn, Std.TreeMap.getD_eq_getD_getElem?, hget, Option.getD_some]
  exact StateSet.placeFault?_eq_none (hplaces ▸ h.noted.waiting name)

theorem StateSet.saturatedChecked_eq {earlier : Array (StateSet g)} {s : StateSet g}
    (hearlier : ∀ {j : Nat} {s : StateSet g}, earlier[j]? = some s → s.Grounded tokens j)
    (hs : Closing.Fresh tokens earlier.size s) :
    s.saturatedChecked earlier earlier.size (tokens.nameAt? earlier.size) =
      .ok (s.saturated earlier earlier.size (tokens.nameAt? earlier.size)) := by
  have hfault := (Closing.processed_saturated hearlier hs).setFault?_eq_none
  have hsaturate : Closing.saturateChecked earlier earlier.size (tokens.nameAt? earlier.size)
      (capacity g earlier.size) 0 ⟨s, empty, []⟩ =
        .ok (s.saturated earlier earlier.size (tokens.nameAt? earlier.size)) :=
    (Closing.processed_zero hs).saturateChecked_eq hearlier (Nat.le_of_eq (Nat.zero_add _).symm)
  rw [saturatedChecked, hsaturate]
  dsimp only [bind, Except.bind]
  rw [hfault]
  rfl

/-! ### Stepping -/

namespace Chart

variable {c : Chart g α}

theorem Regular.stepChecked_eq (h : c.Regular tokens) : c.stepChecked = .ok c.step := by
  have htokens := h.tokens_eq
  obtain ⟨tokens', closed, frontier, trace⟩ := c
  obtain rfl : tokens' = tokens := htokens
  cases frontier with
  | none => rfl
  | some frontier =>
    rw [stepChecked, StateSet.saturatedChecked_eq (fun hfound => (h.closed hfound).toGrounded)
      (h.frontier rfl).1]
    rfl

/-- The states of every set follow from the rules of a chart, also those of the
frontier. -/
theorem Regular.sound_of_set? (h : c.Regular tokens) {k : Nat} {s : StateSet g}
    (hs : c.set? k = some s) : s.Sound tokens k := by
  rw [set?] at hs
  split at hs
  · exact (h.closed hs).toSound
  · split at hs
    · rename_i hk
      exact hk ▸ (h.frontier hs).1.toSound
    · contradiction

theorem Regular.runChecked_eq (h : c.Regular tokens) {steps : Nat}
    (hfinished : (c.runFor steps).isFinished = true) :
    c.runChecked steps = .ok (c.runFor steps) := by
  induction steps generalizing c with
  | zero =>
    rw [runFor] at hfinished ⊢
    rw [runChecked, if_pos hfinished]
  | succ steps ih =>
    rw [runFor] at hfinished ⊢
    rw [runChecked]
    split
    · rfl
    · rename_i hrunning
      rw [if_neg hrunning] at hfinished
      rw [h.stepChecked_eq]
      exact ih (h.stepBy settles_withLeoItems) hfinished

end Chart

/-! ### Walking down the chains -/

theorem LeoChain.chainChecked_eq {sets : Array (StateSet g)} {top : Key g} {split k : Nat}
    {name : Name} {skipped : List (Key g × Nat)}
    (h : LeoChain sets top split k name skipped) {fuel : Nat} (hfuel : k < fuel) :
    Chart.chainChecked sets fuel k name = .ok skipped := by
  induction h generalizing fuel with
  | last found item _ finish =>
    obtain ⟨fuel, rfl⟩ : ∃ n, fuel = n + 1 := ⟨fuel - 1, by omega⟩
    simp only [Chart.chainChecked, found, item, finish, if_true]
  | @link k name s waiter key skipped found item _ finish before below _ ih =>
    obtain ⟨fuel, rfl⟩ : ∃ n, fuel = n + 1 := ⟨fuel - 1, by omega⟩
    have hne : key ≠ top := (Key.ne_of_origin_lt below).symm
    simp only [Chart.chainChecked, found, item, finish, if_neg hne]
    rw [ih (by omega)]
    rfl

theorem mapM_eq_ok {ε β γ : Type} {f : β → Except ε γ} {h : β → γ} {bs : List β}
    (hf : ∀ b ∈ bs, f b = .ok (h b)) : bs.mapM f = .ok (bs.map h) := by
  induction bs with
  | nil => rfl
  | cons b bs ih =>
    rw [List.mapM_cons, hf b List.mem_cons_self, ih fun b hb => hf b (List.mem_cons_of_mem _ hb)]
    rfl

namespace Chart

variable {c : Chart g α}

theorem Regular.skippedChecked_eq (h : c.Regular tokens) (k : Nat) :
    c.skippedChecked k = .ok (c.skipped k) := by
  rw [skippedChecked, skipped]
  cases hs : c.closed[k]? with
  | none => rfl
  | some s =>
    dsimp only
    rw [mapM_eq_ok (h := fun bottom => chain c.closed (bottom.1 + 1) bottom.1 bottom.2)]
    · rfl
    · rintro ⟨origin, name⟩ hbottom
      rw [StateSet.bottoms, Std.TreeSet.mem_toList] at hbottom
      obtain ⟨_, -, -, -, originSet, leo, hset, hitem⟩ :=
        ((h.closed hs).leoBottoms origin name).mp hbottom
      obtain ⟨skipped, hchain⟩ := h.chained hset hitem
      dsimp only
      rw [hchain.chainChecked_eq (Nat.lt_succ_self origin),
        hchain.chain_eq (Nat.lt_succ_self origin)]

/-- **Building a chart always ends and never fails.**  For every grammar and input,
after any number of steps: the next step runs into no fault; the keys of every set
are distinct, with their cursors in their expressions and their origins no later than
the set, and there are no more of them than there is room for; and walking down the
chains runs into no fault.  One step for each position finishes the chart. -/
theorem chart_building_safe (g : Grammar) (tokens : Tokens α) :
    (∀ n : Nat,
      (after g tokens n).stepChecked = .ok (after g tokens (n + 1)) ∧
      (∀ k s, (after g tokens n).set? k = some s →
        s.keys.Nodup ∧
        (∀ key, s.Has key → key.item.cursor ≤ key.item.terms.length ∧ key.origin ≤ k) ∧
        s.size ≤ g.numDottedItems * (k + 1)) ∧
      ∀ k, (after g tokens n).skippedChecked k = .ok ((after g tokens n).skipped k)) ∧
    (start g tokens).runChecked (tokens.size + 1) = .ok (recognize g tokens) ∧
    (recognize g tokens).isFinished = true := by
  have hfinished := isFinished_recognize g tokens
  refine ⟨fun n => ?_, (regular_start g tokens).runChecked_eq hfinished, hfinished⟩
  have h := regular_after g tokens n
  refine ⟨h.stepChecked_eq, ?_, h.skippedChecked_eq⟩
  intro k s hs
  have hsound := h.sound_of_set? hs
  exact ⟨hsound.consistent.nodup_keys,
    fun key hkey => ⟨key.item.cursor_le_length, (hsound.charted hkey).origin_le⟩,
    hsound.size_le_capacity⟩

-- one step fewer is not enough for an input of two tokens
example : ((start Examples.rightRecursive #[⟨"a", ()⟩, ⟨"a", ()⟩]).runChecked 2).isOk = false := by
  decide +kernel

-- a chart that has lost its closed sets misses the one where a state started
example : ({ after Examples.rightRecursive #[⟨"a", ()⟩, ⟨"a", ()⟩] 2 with
    closed := #[] } : Chart Examples.rightRecursive Unit).stepChecked.isOk = false := by
  decide +kernel

end Chart

end ChartParser
