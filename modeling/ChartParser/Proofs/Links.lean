/-
Links are exact.

A link of a state says where its last matched term may have started.  Four places
add links: the scan, the completion of an earlier position, a nonterminal completed
here, and the top of a shortcut; the links between the completion that takes a
shortcut and the top are left out of the set.

* **`Bypassed`** — the Leo item of a nonterminal leads past the state that would
  come next, and so that state is left out;
* **`Direct`** — no link of a set is bypassed, whichever of the four places added
  it (`Closing.direct_process`, `Chart.direct_after`), although all that is left out is
  (`LeoChain.bypassed`);
* **`links_exact`** — in the set or left out of it, and never both, a link is there
  exactly if the state with one term fewer is at the split and the term spans the
  rest.
-/
import ChartParser.Grammar.Examples
import ChartParser.Proofs.Recognition

namespace ChartParser

variable {g : Grammar} {α : Type} {tokens : Tokens α}

/-! ### Links that shortcuts leave out -/

/-- The link of `key` to `j` is left out of later sets: a Leo item at `j` stands for
the completion of the last term of `key`, and leads past `key`. -/
def Bypassed (sets : Array (StateSet g)) (key : Key g) (j : Nat) : Prop :=
  ∃ (s : StateSet g) (waiter : Key g) (name : Name) (leo : LeoItem g), sets[j]? = some s ∧
    waiter.Awaits name ∧ waiter.advance? = some key ∧ s.leoItem? name = some leo ∧ leo.top ≠ key

theorem Bypassed.of_push {sets : Array (StateSet g)} {s : StateSet g} {key : Key g} {j : Nat}
    (hj : j < sets.size) (h : Bypassed (sets.push s) key j) : Bypassed sets key j := by
  obtain ⟨set, waiter, name, leo, hset, hrest⟩ := h
  exact ⟨set, waiter, name, leo, getElem?_of_push hj hset, hrest⟩

/-- What follows a terminal is not bypassed. -/
theorem Key.Scans.not_bypassed {scanner next : Key g} {name : Name} (h : scanner.Scans name)
    (hadvance : scanner.advance? = some next) (sets : Array (StateSet g)) (j : Nat) :
    ¬ Bypassed sets next j := by
  rintro ⟨_, waiter, _, _, -, hawaits, hadvance', -⟩
  obtain rfl := Key.eq_of_advance? hadvance hadvance'
  exact hawaits.not_scans h

namespace LeoChain

variable {sets : Array (StateSet g)} {top : Key g} {split k : Nat} {name : Name}
  {skipped : List (Key g × Nat)}

/-- All that a chain skips is bypassed, and it is linked to no later than where the
chain begins. -/
theorem bypassed (h : LeoChain sets top split k name skipped) {key : Key g} {j : Nat}
    (hkey : (key, j) ∈ skipped) : Bypassed sets key j ∧ j ≤ k := by
  induction h with
  | last => simp at hkey
  | @link k name s waiter key' skipped found item only finish before below rest ih =>
    rcases List.mem_cons.mp hkey with heq | hkey
    · obtain ⟨rfl, rfl⟩ := Prod.mk.injEq .. ▸ heq
      exact ⟨⟨s, waiter, name, _, found, only.awaits, (Key.finish?_eq_some_iff.mp finish).1, item,
        Key.ne_of_origin_lt below⟩, Nat.le_refl _⟩
    · obtain ⟨hbypassed, hle⟩ := ih hkey
      exact ⟨hbypassed, by omega⟩

/-- A chain does not lead past its top. -/
theorem not_bypassed (h : LeoChain sets top split k name skipped) :
    ¬ Bypassed sets top split := by
  induction h with
  | link _ _ _ _ _ _ _ ih => exact ih
  | @last name s waiter found item only finish =>
    -- the last item of the chain is the one for the last term of the top
    rintro ⟨s', waiter', name', leo, hset, hawaits, hadvance, hitem, hne⟩
    obtain rfl := Option.some.inj (found.symm.trans hset)
    obtain rfl := Key.eq_of_advance? hadvance (Key.finish?_eq_some_iff.mp finish).1
    obtain rfl := hawaits.unique only.awaits
    obtain rfl := Option.some.inj (item.symm.trans hitem)
    exact hne rfl

end LeoChain

/-! ### No link of a set is bypassed -/

/-- The links of a set at position `k` are those that no Leo item leads past. -/
def StateSet.Direct (sets : Array (StateSet g)) (k : Nat) (s : StateSet g) : Prop :=
  ∀ (key : Key g) (j : Nat), s.HasLink key j → j ≠ k → ¬ Bypassed sets key j

namespace Closing

variable {earlier : Array (StateSet g)} {k place : Nat} {token : Option Name}

/-- No link that a state asks for is bypassed: either there is no Leo item, or the
state asks for the top. -/
theorem Request.not_bypassed
    (hearlier : ∀ {j : Nat} {s : StateSet g}, earlier[j]? = some s → s.Grounded tokens j)
    (hchained : Chained earlier) {s : StateSet g} {key next : Key g} {j : Nat}
    (h : Request earlier k s key next (some j)) (hj : j ≠ k) : ¬ Bypassed earlier next j := by
  cases h with
  | pass => exact absurd rfl hj
  | wake => exact absurd rfl hj
  | @complete name _ originSet waiter _ completes before found plain waiting advance =>
    rintro ⟨s', waiter', name', leo, hset, hawaits, hadvance, hitem, -⟩
    obtain rfl := Option.some.inj (found.symm.trans hset)
    obtain rfl := Key.eq_of_advance? advance hadvance
    obtain rfl := hawaits.unique ((hearlier found).mem_waiters.mp waiting).2
    rw [plain] at hitem
    contradiction
  | shortcut completes before found item =>
    obtain ⟨skipped, hchain⟩ := hchained found item
    exact hchain.not_bypassed

theorem direct_process
    (hearlier : ∀ {j : Nat} {s : StateSet g}, earlier[j]? = some s → s.Grounded tokens j)
    (hchained : Chained earlier) {c : Closing g} (hc : c.current.Consistent)
    (h : c.current.Direct earlier k) (key : Key g) :
    (c.process earlier k token place key).current.Direct earlier k := by
  intro next j hlink hj
  rcases (hasLink_process hc).mp hlink with hlink | hrequest
  · exact h next j hlink hj
  · exact hrequest.not_bypassed hearlier hchained hj

theorem direct_saturate
    (hearlier : ∀ {j : Nat} {s : StateSet g}, earlier[j]? = some s → s.Grounded tokens j)
    (hchained : Chained earlier) {fuel : Nat} {c : Closing g} (hc : c.current.Consistent)
    (h : c.current.Direct earlier k) :
    (c.saturate earlier k token fuel place).current.Direct earlier k := by
  induction fuel generalizing place c with
  | zero => exact h
  | succ fuel ih =>
    rw [Closing.saturate]
    cases c.current.states[place]? with
    | none => exact h
    | some st =>
      exact ih (consistent_process hc) (direct_process hearlier hchained hc h st.key)

end Closing

namespace Chart

variable {c : Chart g α}

/-- No link of a chart is bypassed. -/
structure Direct (c : Chart g α) : Prop where
  closed : ∀ {k : Nat} {s : StateSet g}, c.closed[k]? = some s → s.Direct c.closed k
  frontier : ∀ {s : StateSet g}, c.frontier = some s → s.Direct c.closed c.closed.size

theorem Direct.step (hregular : c.Regular tokens) (h : c.Direct) : c.step.Direct := by
  cases hfrontier : c.frontier with
  | none =>
    rw [Chart.step, stepBy_of_finished hfrontier]
    exact h
  | some frontier =>
    have hearlier : ∀ {j : Nat} {s : StateSet g}, c.closed[j]? = some s → s.Grounded tokens j :=
      fun hfound => (hregular.closed hfound).toGrounded
    have hfresh := (hregular.frontier hfrontier).1
    have hprocessed := Closing.processed_saturated hearlier hfresh
    have hdirect : (frontier.saturated c.closed c.closed.size
        (tokens.nameAt? c.closed.size)).current.Direct c.closed c.closed.size :=
      Closing.direct_saturate hearlier hregular.chained hfresh.consistent (h.frontier hfrontier)
    have hsettle := settles_withLeoItems.eq c.closed c.closed.size
      (frontier.saturated c.closed c.closed.size (tokens.nameAt? c.closed.size)).current
    rw [Chart.step, stepBy_of_frontier hfrontier, hregular.tokens_eq]
    generalize frontier.saturated c.closed c.closed.size (tokens.nameAt? c.closed.size) = closing
      at hprocessed hdirect hsettle
    refine ⟨?_, ?_⟩
    · intro k s hs key j hlink hj hbypassed
      rcases getElem?_push_cases hs with ⟨rfl, rfl⟩ | hs
      · -- settling a set does not change its links
        rw [hsettle] at hlink
        have hlt := (hprocessed.sound.linked hlink).le
        exact hdirect key j hlink hj (hbypassed.of_push (by omega))
      · have hlt := (Array.getElem?_eq_some_iff.mp hs).1
        have hle := ((hregular.closed hs).linked hlink).le
        exact h.closed hs key j hlink hj (hbypassed.of_push (by omega))
    · -- whatever is in the new frontier was scanned
      intro s hs key j hlink _
      dsimp only at hs ⊢
      split at hs
      · contradiction
      · obtain rfl := Option.some.inj hs
        obtain ⟨scanner, -, name, hscans, -, hadvance⟩ := (hprocessed.scanned.has key).mp hlink.has
        exact hscans.not_bypassed hadvance _ _

theorem direct_after (g : Grammar) (tokens : Tokens α) (n : Nat) : (after g tokens n).Direct := by
  induction n with
  | zero =>
    refine ⟨fun hs => by simp [after, start] at hs, ?_⟩
    rintro s ⟨⟩ key j hlink
    exact absurd hlink not_hasLink_seed
  | succ n ih => exact ih.step (regular_after g tokens n)

/-- A link that is left out of a set is not in the set. -/
theorem Regular.not_hasLink_of_mem_skipped (h : c.Regular tokens) (hdirect : c.Direct) {k j : Nat}
    {s : StateSet g} (hs : c.closed[k]? = some s) {key : Key g} (hkey : (key, j) ∈ c.skipped k) :
    ¬ s.HasLink key j := by
  intro hlink
  obtain ⟨s', done, name, origin, top, split, skipped, hs', hdone, hcompletes, hne, hchain, hmem⟩ :=
    h.mem_skipped.mp hkey
  obtain rfl := Option.some.inj (hs.symm.trans hs')
  obtain ⟨hbypassed, hle⟩ := hchain.bypassed hmem
  have horigin := ((h.closed hs).charted hdone).origin_le
  obtain ⟨-, -, rfl⟩ := hcompletes
  exact hdirect.closed hs key j hlink (by omega) hbypassed

/-! ### Which links there are -/

/-- A chart has a term match the tokens from `j` to `k`: there is one token, and the
term is its name, or an expression of the nonterminal is complete in the set at `k`
or left out of it. -/
def Matches (c : Chart g α) (term : Term) (j k : Nat) : Prop :=
  match term.kind with
  | .terminal => j + 1 = k ∧ c.tokens.nameAt? j = some term.name
  | .nonterminal => ∃ done : Key g, done.Completes term.name j ∧ c.Holds k done

theorem Regular.matches_iff (h : c.Regular tokens) {k j : Nat} (hk : k < c.closed.size)
    {term : Term} : c.Matches term j k ↔
      (term.kind = .terminal ∧ tokens.nameAt? j = some term.name ∧ k = j + 1 ∨
        term.kind = .nonterminal ∧ Completed g tokens term.name j k) := by
  unfold Matches
  cases term.kind with
  | terminal => simp [h.tokens_eq, eq_comm, and_comm]
  | nonterminal => simp [h.holds_iff hk, Completed, and_comm]

/-- **Links are exact.**  At every closed position of a chart, after any number of
steps: a key with matched terms is linked to `j`, in the set or left out of it,
exactly if `j` is no later position whose set has the key with one term fewer, and
that term matches the tokens from `j` on.  No link is both in the set and left out of
it, and a key without matched terms has none. -/
theorem links_exact (g : Grammar) (tokens : Tokens α) (n k : Nat) (s : StateSet g)
    (hs : (after g tokens n).closed[k]? = some s) :
    (∀ key : Key g, 0 < key.item.cursor →
      ∃ prev term, key.item.retreat? = some prev ∧ key.item.previous? = some term ∧
        ∀ j, s.HasLink key j ∨ (key, j) ∈ (after g tokens n).skipped k ↔
          j ≤ k ∧
          (∃ before, (after g tokens n).closed[j]? = some before ∧
            before.Has ⟨prev, key.origin⟩) ∧
          (after g tokens n).Matches term j k) ∧
    (∀ (key : Key g) (j : Nat),
      ¬ (s.HasLink key j ∧ (key, j) ∈ (after g tokens n).skipped k)) ∧
    ∀ (key : Key g) (j : Nat), key.item.cursor = 0 →
      ¬ s.HasLink key j ∧ (key, j) ∉ (after g tokens n).skipped k := by
  have h := regular_after g tokens n
  have hk := (Array.getElem?_eq_some_iff.mp hs).1
  have hlinked : ∀ (key : Key g) (j : Nat),
      s.HasLink key j ∨ (key, j) ∈ (after g tokens n).skipped k ↔ Linked tokens key k j := by
    intro key j
    rw [← h.holdsLink_iff hk, HoldsLink]
    simp only [hs, Option.some.injEq, exists_eq_left']
  refine ⟨?_, ?_, ?_⟩
  · rintro ⟨item, origin⟩ hcursor
    obtain ⟨prev, term, hretreat, hprevious, hadvance, hnext⟩ :=
      Item.exists_advance?_eq (Nat.pos_iff_ne_zero.mp hcursor)
    refine ⟨prev, term, hretreat, hprevious, fun j => ?_⟩
    have hincomplete : prev.isComplete = false := by
      rw [← Bool.not_eq_true, ← Item.next?_eq_none_iff, hnext]
      exact Option.some_ne_none term
    rw [hlinked, linked_iff hadvance hnext, h.matches_iff hk]
    constructor
    · rintro ⟨hprev, hterm⟩
      have hj : j ≤ k := (((linked_iff hadvance hnext).mpr ⟨hprev, hterm⟩).le).2
      obtain ⟨before, hbefore⟩ := exists_closed_of_le hk hj
      exact ⟨hj, ⟨before, hbefore, (h.has_iff_charted hbefore hincomplete).mpr hprev⟩, hterm⟩
    · rintro ⟨-, ⟨before, hbefore, hprev⟩, hterm⟩
      exact ⟨(h.has_iff_charted hbefore hincomplete).mp hprev, hterm⟩
  · rintro key j ⟨hlink, hkey⟩
    exact h.not_hasLink_of_mem_skipped (direct_after g tokens n) hs hkey hlink
  · intro key j hcursor
    rw [← not_or, hlinked]
    rintro ⟨before, hadvance, -⟩
    have hsucc := (Item.advance?_eq_some_iff.mp (Key.advance?_eq_some_iff.mp hadvance).1).2.2
    omega

/-- `a a a`, whose last two tokens are matched along a chain. -/
def Examples.threeLetters : Tokens Unit := #[⟨"a", ()⟩, ⟨"a", ()⟩, ⟨"a", ()⟩]

/-- At the end of `a a a`, the state `S => a S .` from 1 is left out, and its link to
2 with it: at 2 there is `S => a . S` from 1, and `S` matches the last token. -/
theorem links_exact_threeLetters :
    ∃ s key, (after Examples.rightRecursive Examples.threeLetters 4).closed[3]? = some s ∧
      0 < key.item.cursor ∧
      (after Examples.rightRecursive Examples.threeLetters 4).skipped 3 = [(key, 2)] ∧
      ¬ s.HasLink key 2 ∧
      ∃ prev term before,
        key.item.retreat? = some prev ∧ key.item.previous? = some term ∧
        (after Examples.rightRecursive Examples.threeLetters 4).closed[2]? = some before ∧
        before.Has ⟨prev, key.origin⟩ ∧
        (after Examples.rightRecursive Examples.threeLetters 4).Matches term 2 3 := by
  have hskipped : ((after Examples.rightRecursive Examples.threeLetters 4).skipped 3).map
      (fun (key, j) => (key.item.cursor, j)) = [(2, 2)] := by decide +kernel
  obtain ⟨⟨key, j⟩, hkey, heq⟩ := List.map_eq_singleton_iff.mp hskipped
  obtain ⟨hcursor, rfl⟩ := Prod.mk.injEq .. ▸ heq
  cases hs : (after Examples.rightRecursive Examples.threeLetters 4).closed[3]? with
  | none =>
    have hsize : (after Examples.rightRecursive Examples.threeLetters 4).closed.size = 4 := by
      decide +kernel
    have hle := Array.getElem?_eq_none_iff.mp hs
    omega
  | some s =>
    obtain ⟨hlinks, hnot, -⟩ := links_exact Examples.rightRecursive Examples.threeLetters 4 3 s hs
    have hpos : 0 < key.item.cursor := by omega
    have hmem : (key, 2) ∈ (after Examples.rightRecursive Examples.threeLetters 4).skipped 3 := by
      rw [hkey]
      exact List.mem_singleton_self _
    obtain ⟨prev, term, hretreat, hprevious, hiff⟩ := hlinks key hpos
    obtain ⟨-, ⟨before, hbefore, hprev⟩, hterm⟩ := (hiff 2).mp (.inr hmem)
    exact ⟨s, key, rfl, hpos, hkey, fun hlink => hnot key 2 ⟨hlink, hmem⟩, prev, term, before,
      hretreat, hprevious, hbefore, hprev, hterm⟩

end Chart

end ChartParser
