/-
Which shortcuts a chart has, and which states it adds because of them.

That every Leo item leads along a chain is enough to see that shortcuts do no harm.
To see what they spare one has to know more: that there is a Leo item wherever there
could be one, and that a state is in a set only because some completion has really
asked for it.

* **`Settled`** — a closed set has exactly the Leo items that the sets before it call
  for, every state with a matched term has a link of its own in the set, and a frontier
  holds nothing that was not scanned;
* **`Settled.step`** — a step keeps it so;
* **`exists_leoItem`** — if a single state waits for a nonterminal and is complete once it
  has got it, there is a Leo item, and its top is that state unless a chain leads
  further back.
-/
import ChartParser.Proofs.Links

namespace ChartParser

variable {g : Grammar} {α : Type} {tokens : Tokens α}

/-- Every state that has matched a term has a link. -/
def StateSet.Traced (s : StateSet g) : Prop :=
  ∀ key, s.Has key → key.item.cursor ≠ 0 → ∃ j, s.HasLink key j

namespace Closing

variable {earlier : Array (StateSet g)} {k place : Nat} {token : Option Name}

/-- Only predictions come without a link. -/
theorem Request.exists_link {s : StateSet g} {key next : Key g} {link : Option Nat}
    (h : Request earlier k s key next link) (hcursor : next.item.cursor ≠ 0) :
    ∃ j, link = some j := by
  cases h with
  | predict => exact absurd rfl hcursor
  | pass => exact ⟨_, rfl⟩
  | wake => exact ⟨_, rfl⟩
  | complete => exact ⟨_, rfl⟩
  | shortcut => exact ⟨_, rfl⟩

theorem traced_process {c : Closing g} (hc : c.current.Consistent) (h : c.current.Traced)
    (key : Key g) : (c.process earlier k token place key).current.Traced := by
  intro next hnext hcursor
  rcases (has_process hc).mp hnext with hnext | ⟨link, hrequest⟩
  · obtain ⟨j, hlink⟩ := h next hnext hcursor
    exact ⟨j, (hasLink_process hc).mpr (.inl hlink)⟩
  · obtain ⟨j, rfl⟩ := hrequest.exists_link hcursor
    exact ⟨j, (hasLink_process hc).mpr (.inr hrequest)⟩

theorem traced_saturate {fuel : Nat} {c : Closing g} (hc : c.current.Consistent)
    (h : c.current.Traced) : (c.saturate earlier k token fuel place).current.Traced := by
  induction fuel generalizing place c with
  | zero => exact h
  | succ fuel ih =>
    rw [Closing.saturate]
    cases c.current.states[place]? with
    | none => exact h
    | some st => exact ih (consistent_process hc) (traced_process hc h st.key)

end Closing

namespace Chart

variable {c : Chart g α}

/-- The Leo items of a chart are those that the sets before them call for, its states
have links, and those of its frontier were scanned. -/
structure Settled (c : Chart g α) : Prop where
  leoItem : ∀ {k : Nat} {s : StateSet g}, c.closed[k]? = some s →
    ∀ {name : Name} {leo : LeoItem g}, s.leoItem? name = some leo ↔
      ∃ waiter, s.OnlyWaiter name waiter ∧
        StateSet.leoItemOf (c.closed.extract 0 k) k waiter = some leo
  traced : ∀ {k : Nat} {s : StateSet g}, c.closed[k]? = some s → s.Traced
  frontier : ∀ {s : StateSet g}, c.frontier = some s → s.Traced
  scanned : ∀ {s : StateSet g}, c.frontier = some s → ∀ {key : Key g} {t : Term}, s.Has key →
    key.item.previous? = some t → t.kind = .terminal

theorem Settled.step (hregular : c.Regular tokens) (h : c.Settled) : c.step.Settled := by
  cases hfrontier : c.frontier with
  | none =>
    rw [Chart.step, stepBy_of_finished hfrontier]
    exact h
  | some frontier =>
    have hfresh := (hregular.frontier hfrontier).1
    have hprocessed := Closing.processed_saturated
      (fun hfound => (hregular.closed hfound).toGrounded) hfresh
    have htraced : (frontier.saturated c.closed c.closed.size
        (tokens.nameAt? c.closed.size)).current.Traced :=
      Closing.traced_saturate hfresh.consistent (h.frontier hfrontier)
    have hsettle := settles_withLeoItems.eq c.closed c.closed.size
      (frontier.saturated c.closed c.closed.size (tokens.nameAt? c.closed.size)).current
    rw [Chart.step, stepBy_of_frontier hfrontier, hregular.tokens_eq]
    generalize frontier.saturated c.closed c.closed.size (tokens.nameAt? c.closed.size) = closing
      at hprocessed htraced hsettle
    have hleo : ∀ {name : Name} {leo : LeoItem g},
        (closing.current.withLeoItems c.closed c.closed.size).leoItem? name = some leo ↔
          ∃ waiter, closing.current.OnlyWaiter name waiter ∧
            StateSet.leoItemOf c.closed c.closed.size waiter = some leo := by
      refine StateSet.leoItem?_withLeoItems hprocessed.sound.consistent ?_ hprocessed.noted.leoItems
      intro name
      rw [hprocessed.noted.waiting, StateSet.take_keys_size]
    dsimp only
    generalize closing.current.withLeoItems c.closed c.closed.size = set at hleo hsettle ⊢
    -- nothing but the Leo items of the set has changed
    obtain ⟨items, rfl⟩ : ∃ items, set = { closing.current with leoItems := items } := ⟨_, hsettle⟩
    refine ⟨?_, ?_, ?_, ?_⟩
    · intro k s hs name leo
      rcases getElem?_push_cases hs with ⟨rfl, rfl⟩ | hs
      · rw [Array.extract_push_of_le (Nat.le_refl _), Array.extract_size, hleo]
        constructor
        · rintro ⟨waiter, honly, hitem⟩
          exact ⟨waiter, ⟨honly.has, honly.awaits, honly.only⟩, hitem⟩
        · rintro ⟨waiter, honly, hitem⟩
          exact ⟨waiter, ⟨honly.has, honly.awaits, honly.only⟩, hitem⟩
      · have hlt := (Array.getElem?_eq_some_iff.mp hs).1
        rw [Array.extract_push_of_le (Nat.le_of_lt hlt)]
        exact h.leoItem hs
    · intro k s hs
      rcases getElem?_push_cases hs with ⟨rfl, rfl⟩ | hs
      · exact htraced
      · exact h.traced hs
    · -- whatever is in the new frontier was scanned here
      intro s hs next hnext _
      split at hs
      · contradiction
      · obtain rfl := Option.some.inj hs
        exact ⟨_, (hprocessed.scanned.hasLink next _).mpr ⟨hnext, rfl⟩⟩
    · intro s hs next t hnext hprevious
      split at hs
      · contradiction
      · obtain rfl := Option.some.inj hs
        obtain ⟨scanner, -, name, ⟨u, hu, hkind, -⟩, -, hadvance⟩ :=
          (hprocessed.scanned.has next).mp hnext
        rw [Item.previous?_of_advance? (Key.advance?_eq_some_iff.mp hadvance).1, hu] at hprevious
        obtain rfl := Option.some.inj hprevious
        exact hkind

theorem settled_after (g : Grammar) (tokens : Tokens α) (n : Nat) :
    (after g tokens n).Settled := by
  induction n with
  | zero =>
    refine ⟨fun hs => by simp [after, start] at hs, fun hs => by simp [after, start] at hs, ?_, ?_⟩
    · rintro s ⟨⟩ key hkey hcursor
      obtain ⟨id, -, rfl⟩ := has_seed.mp hkey
      exact absurd rfl hcursor
    · rintro s ⟨⟩ key t hkey hprevious
      obtain ⟨id, -, rfl⟩ := has_seed.mp hkey
      contradiction
  | succ n ih => exact ih.step (regular_after g tokens n)

/-- **Shortcuts are there.**  If a single state waits for a nonterminal and `done` is
what it is complete as, then the nonterminal has a Leo item.  Its top is `done`, and
then no shortcut for the head of `done` leads further back from where `done` starts, or
its top starts before `done` does. -/
theorem Settled.exists_leoItem (h : c.Settled) {k : Nat} {s : StateSet g}
    (hs : c.closed[k]? = some s) {name : Name} {waiter done : Key g}
    (honly : s.OnlyWaiter name waiter) (hfinish : waiter.finish? = some done) :
    ∃ leo, s.leoItem? name = some leo ∧
      (leo.top = done ∧
        (∀ (before : StateSet g) (above : LeoItem g), done.origin < k →
          c.closed[done.origin]? = some before → before.leoItem? done.head = some above →
          done.origin ≤ above.top.origin) ∨
        leo.top.origin < done.origin) := by
  have hk := (Array.getElem?_eq_some_iff.mp hs).1
  have horigin := Key.origin_of_advance? (Key.finish?_eq_some_iff.mp hfinish).1
  obtain ⟨leo, hleo⟩ : ∃ leo, StateSet.leoItemOf (c.closed.extract 0 k) k waiter = some leo := by
    rw [StateSet.leoItemOf, hfinish]
    exact ⟨_, rfl⟩
  refine ⟨leo, (h.leoItem hs).mpr ⟨waiter, honly, hleo⟩, ?_⟩
  rw [StateSet.leoItemOf, hfinish, Option.map_some, Option.some.injEq, ← horigin] at hleo
  -- the sets before `k` are those that the shortcut was computed from
  have hbefore : ∀ {before : StateSet g}, done.origin < k → c.closed[done.origin]? = some before →
      (c.closed.extract 0 k)[done.origin]? = some before := by
    intro before hlt hfound
    rw [Array.getElem?_extract, if_pos (by omega), Nat.zero_add, hfound]
  split at hleo
  · rename_i above habove
    split at hleo
    · rename_i hlt
      subst hleo
      exact .inr hlt
    · rename_i hnot
      subst hleo
      refine .inl ⟨rfl, fun before above' hlt hfound hitem => ?_⟩
      rw [hbefore hlt hfound, Option.bind_some, hitem] at habove
      obtain rfl := Option.some.inj habove
      omega
  · rename_i hnone
    subst hleo
    refine .inl ⟨rfl, fun before above' hlt hfound hitem => ?_⟩
    rw [hbefore hlt hfound, Option.bind_some, hitem] at hnone
    contradiction

end Chart

end ChartParser
