/-
Recognition is exact, and shortcuts do not show.

* **`Regular.lt_size_iff`** — a chart closes the positions that some state reaches,
  one in each step;
* **`shortcuts_only_represent`** — with and without Leo items the same positions
  are reached, and at each of them the states and links of the plain chart are
  those of the set together with those that shortcuts have left out;
* **`parse_accepts_iff_derives`** — an input is accepted exactly if the start
  symbol derives its names, and rejected otherwise.
-/
import ChartParser.Outcome
import ChartParser.Proofs.Chart

namespace ChartParser

variable {g : Grammar} {α : Type}

/-! ### Which positions are reached -/

/-- Some state stands at a position; the start of the input counts in any case. -/
def Reached (g : Grammar) (tokens : Tokens α) (k : Nat) : Prop :=
  k = 0 ∨ ∃ key : Key g, Charted tokens key k

/-- On the way to a position, every token before it was scanned. -/
theorem Charted.exists_scanner {tokens : Tokens α} {key : Key g} {k : Nat}
    (h : Charted tokens key k) {j : Nat} (hj : j < k) :
    ∃ (scanner : Key g) (name : Name), Charted tokens scanner j ∧ scanner.Scans name ∧
      tokens.nameAt? j = some name := by
  induction h with
  | seed => omega
  | predict _ _ _ ih => exact ih hj
  | @scan scanner _ k name before scans token _ ih =>
    by_cases hjk : j = k
    · subst hjk
      exact ⟨scanner, name, before, scans, token⟩
    · exact ih (by omega)
  | complete _ _ _ _ _ _ ihInner => exact ihInner hj

namespace Chart

variable {tokens : Tokens α} {c : Chart g α}

theorem Regular.reached_of_lt (h : c.Regular tokens) {k : Nat} (hk : k < c.closed.size) :
    Reached g tokens k := by
  obtain ⟨s, hs⟩ := exists_closed_of_le hk (Nat.le_refl k)
  exact (h.closed hs).inhabited.imp id fun ⟨key, hkey⟩ => ⟨key, (h.closed hs).charted hkey⟩

theorem Regular.reached_frontier (h : c.Regular tokens) {s : StateSet g}
    (hs : c.frontier = some s) : Reached g tokens c.closed.size := by
  obtain ⟨hfresh, hbegun⟩ := h.frontier hs
  exact hbegun.inhabited.imp id fun ⟨key, hkey⟩ => ⟨key, hfresh.charted hkey⟩

/-- A finished chart has closed every position that is reached. -/
theorem Regular.lt_size_of_reached (h : c.Regular tokens) (hfinished : c.frontier = none)
    {k : Nat} (hk : Reached g tokens k) : k < c.closed.size := by
  obtain ⟨last, s, hsize, hs, hscan⟩ := h.finished hfinished
  rcases hk with rfl | ⟨key, hkey⟩
  · omega
  · -- a state behind the last set came past a token that the last set does not scan
    by_contra hlt
    obtain ⟨scanner, name, hscanner, hscans, htoken⟩ :=
      hkey.exists_scanner (show last < k by omega)
    have hholds := h.holds_of_charted hscanner (by omega)
    exact hscan scanner name (h.has_of_holds hs hholds hscans.isComplete_eq_false) hscans htoken

/-- How far a chart is after `n` steps: it is finished or has closed one position
in each. -/
def Stepped (n : Nat) (c : Chart g α) : Prop :=
  c.closed.size ≤ n ∧ (c.frontier = none ∨ c.closed.size = n)

theorem Stepped.stepBy {settle : Array (StateSet g) → Nat → StateSet g → StateSet g} {n : Nat}
    (h : Stepped n c) : Stepped (n + 1) (c.stepBy settle) := by
  cases hfrontier : c.frontier with
  | none =>
    rw [stepBy_of_finished hfrontier]
    exact ⟨Nat.le_succ_of_le h.1, .inl hfrontier⟩
  | some frontier =>
    have hsize : c.closed.size = n := by
      rcases h.2 with hnone | hsize
      · rw [hfrontier] at hnone
        contradiction
      · exact hsize
    rw [stepBy_of_frontier hfrontier]
    dsimp only [Stepped]
    rw [Array.size_push, hsize]
    exact ⟨Nat.le_refl _, .inr rfl⟩

theorem stepped_after (g : Grammar) (tokens : Tokens α) (n : Nat) :
    Stepped n (after g tokens n) := by
  induction n with
  | zero => exact ⟨Nat.le_refl 0, .inr rfl⟩
  | succ n ih => exact ih.stepBy

theorem stepped_plainAfter (g : Grammar) (tokens : Tokens α) (n : Nat) :
    Stepped n (plainAfter g tokens n) := by
  induction n with
  | zero => exact ⟨Nat.le_refl 0, .inr rfl⟩
  | succ n ih => exact ih.stepBy

/-- The closed positions are the first `n` that are reached. -/
theorem Regular.lt_size_iff (h : c.Regular tokens) {n : Nat} (hn : Stepped n c) {k : Nat} :
    k < c.closed.size ↔ k < n ∧ Reached g tokens k := by
  constructor
  · intro hk
    exact ⟨Nat.lt_of_lt_of_le hk hn.1, h.reached_of_lt hk⟩
  · rintro ⟨hk, hreached⟩
    rcases hn.2 with hnone | hsize
    · exact h.lt_size_of_reached hnone hreached
    · omega

/-- There is a frontier exactly if all positions were reached so far, and the
next one is. -/
theorem Regular.frontier_eq_none_iff (h : c.Regular tokens) {n : Nat} (hn : Stepped n c) :
    c.frontier = none ↔ ¬ (c.closed.size = n ∧ Reached g tokens n) := by
  constructor
  · rintro hnone ⟨rfl, hreached⟩
    have := h.lt_size_of_reached hnone hreached
    omega
  · intro hnot
    rcases hn.2 with hnone | hsize
    · exact hnone
    · rw [Option.eq_none_iff_forall_ne_some]
      intro s hs
      exact hnot ⟨hsize, hsize ▸ h.reached_frontier hs⟩

/-! ### Shortcuts do not show -/

theorem size_plainAfter (g : Grammar) (tokens : Tokens α) (n : Nat) :
    (plainAfter g tokens n).closed.size = (after g tokens n).closed.size := by
  have hiff : ∀ k,
      k < (plainAfter g tokens n).closed.size ↔ k < (after g tokens n).closed.size := by
    intro k
    rw [(regular_plainAfter g tokens n).lt_size_iff (stepped_plainAfter g tokens n),
      (regular_after g tokens n).lt_size_iff (stepped_after g tokens n)]
  have h := hiff (plainAfter g tokens n).closed.size
  have h' := hiff (after g tokens n).closed.size
  omega

theorem isFinished_plainAfter (g : Grammar) (tokens : Tokens α) (n : Nat) :
    (plainAfter g tokens n).isFinished = (after g tokens n).isFinished := by
  rw [Bool.eq_iff_iff, isFinished, isFinished, Option.isNone_iff_eq_none, Option.isNone_iff_eq_none,
    (regular_plainAfter g tokens n).frontier_eq_none_iff (stepped_plainAfter g tokens n),
    (regular_after g tokens n).frontier_eq_none_iff (stepped_after g tokens n),
    size_plainAfter g tokens n]

/-- A chart without shortcuts has no Leo items. -/
theorem leoItems_plainAfter (g : Grammar) (tokens : Tokens α) (n : Nat) {k : Nat}
    {s : StateSet g} (hs : (plainAfter g tokens n).closed[k]? = some s) : s.leoItems = ∅ := by
  induction n with
  | zero =>
    rw [plainAfter, start, Array.getElem?_empty] at hs
    contradiction
  | succ n ih =>
    have h := regular_plainAfter g tokens n
    rw [plainAfter, plainStep] at hs
    cases hfrontier : (plainAfter g tokens n).frontier with
    | none =>
      rw [stepBy_of_finished hfrontier] at hs
      exact ih hs
    | some frontier =>
      rw [stepBy_of_frontier hfrontier, h.tokens_eq] at hs
      rcases getElem?_push_cases hs with ⟨-, rfl⟩ | hs
      · -- saturating adds no Leo items, and the set is not settled any further
        have hprocessed := Closing.processed_saturated
          (fun hfound => (h.closed hfound).toGrounded) (h.frontier hfrontier).1
        exact hprocessed.noted.leoItems
      · exact ih hs

theorem skipped_plainAfter (g : Grammar) (tokens : Tokens α) (n k : Nat) {entry : Key g × Nat} :
    entry ∉ (plainAfter g tokens n).skipped k := by
  intro hentry
  obtain ⟨s, done, name, origin, top, split, skipped, -, -, -, -, hchain, -⟩ :=
    (regular_plainAfter g tokens n).mem_skipped.mp hentry
  obtain ⟨originSet, waiter, hset, hitem⟩ := hchain.exists_item
  rw [StateSet.leoItem?, leoItems_plainAfter g tokens n hset] at hitem
  simp at hitem

/-- The states of a set of the chart without shortcuts are those that the rules
of a chart give. -/
theorem has_plainAfter_iff {n k : Nat} {s : StateSet g}
    (hs : (plainAfter g tokens n).closed[k]? = some s) {key : Key g} :
    s.Has key ↔ Charted tokens key k := by
  rw [← (regular_plainAfter g tokens n).holds_iff (Array.getElem?_eq_some_iff.mp hs).1]
  constructor
  · intro hkey
    exact .inl ⟨s, hs, hkey⟩
  · rintro (⟨s', hs', hkey⟩ | ⟨j, hkey⟩)
    · obtain rfl := Option.some.inj (hs.symm.trans hs')
      exact hkey
    · exact absurd hkey (skipped_plainAfter g tokens n k)

theorem hasLink_plainAfter_iff {n k : Nat} {s : StateSet g}
    (hs : (plainAfter g tokens n).closed[k]? = some s) {key : Key g} {j : Nat} :
    s.HasLink key j ↔ Linked tokens key k j := by
  rw [← (regular_plainAfter g tokens n).holdsLink_iff (Array.getElem?_eq_some_iff.mp hs).1]
  constructor
  · intro hlink
    exact .inl ⟨s, hs, hlink⟩
  · rintro (⟨s', hs', hlink⟩ | hkey)
    · obtain rfl := Option.some.inj (hs.symm.trans hs')
      exact hlink
    · exact absurd hkey (skipped_plainAfter g tokens n k)

/-- **Shortcuts change nothing but the representation.**  After any number of
steps, a chart and the one without shortcuts have closed the same positions and
are finished or not alike.  At each of them the plain set has the keys and the
links of the set together with those left out, and an incomplete key is never
left out. -/
theorem shortcuts_only_represent (g : Grammar) (tokens : Tokens α) (n : Nat) :
    (plainAfter g tokens n).closed.size = (after g tokens n).closed.size ∧
    (plainAfter g tokens n).isFinished = (after g tokens n).isFinished ∧
    ∀ (k : Nat) (s t : StateSet g), (after g tokens n).closed[k]? = some s →
      (plainAfter g tokens n).closed[k]? = some t →
      (∀ key, t.Has key ↔ s.Has key ∨ ∃ j, (key, j) ∈ (after g tokens n).skipped k) ∧
      (∀ key, t.Has key → key.item.isComplete = false → s.Has key) ∧
      ∀ key j, t.HasLink key j ↔
        s.HasLink key j ∨ (key, j) ∈ (after g tokens n).skipped k := by
  have h := regular_after g tokens n
  refine ⟨size_plainAfter g tokens n, isFinished_plainAfter g tokens n, ?_⟩
  intro k s t hs ht
  have hk := (Array.getElem?_eq_some_iff.mp hs).1
  have hset : ∀ p : StateSet g → Prop,
      (∃ s', (after g tokens n).closed[k]? = some s' ∧ p s') ↔ p s := by
    intro p
    simp only [hs, Option.some.injEq, exists_eq_left']
  refine ⟨?_, ?_, ?_⟩
  · intro key
    rw [has_plainAfter_iff ht, ← h.holds_iff hk, Holds, hset]
  · intro key hkey hincomplete
    rw [has_plainAfter_iff ht, ← h.holds_iff hk] at hkey
    exact h.has_of_holds hs hkey hincomplete
  · intro key j
    rw [hasLink_plainAfter_iff ht, ← h.holdsLink_iff hk, HoldsLink, hset]

/-! ### The verdict -/

/-- There is a forest exactly if the chart accepts. -/
theorem isSome_forest? (c : Chart g α) : c.forest?.isSome = c.isAccepted := by
  cases hstart : g.start with
  | none => rw [forest?, isAccepted, hstart]; rfl
  | some s =>
    rw [forest?, hstart]
    cases c.isAccepted <;> rfl

/-- A chart accepts only when it is finished. -/
theorem frontier_of_isAccepted {c : Chart g α} (h : c.isAccepted = true) :
    c.frontier = none := by
  unfold isAccepted at h
  split at h
  · rw [Bool.and_eq_true] at h
    exact Option.isNone_iff_eq_none.mp h.1
  · contradiction

/-- Steps that follow a finished chart do nothing. -/
theorem after_of_finished {n : Nat} (h : (after g tokens n).frontier = none) {m : Nat}
    (hm : n ≤ m) : after g tokens m = after g tokens n := by
  obtain ⟨m, rfl⟩ := Nat.exists_eq_add_of_le hm
  clear hm
  induction m with
  | zero => rfl
  | succ m ih =>
    rw [← Nat.add_assoc, after, ih]
    exact stepBy_of_finished h

/-- Running is stepping. -/
theorem runFor_after (g : Grammar) (tokens : Tokens α) (n fuel : Nat) :
    (after g tokens n).runFor fuel = after g tokens (n + fuel) := by
  induction fuel generalizing n with
  | zero => rfl
  | succ fuel ih =>
    rw [runFor, isFinished]
    cases hfrontier : (after g tokens n).frontier with
    | some frontier =>
      rw [Option.isNone_some, if_neg Bool.false_ne_true,
        show n + (fuel + 1) = n + 1 + fuel by omega]
      exact ih (n + 1)
    | none =>
      rw [Option.isNone_none, if_pos rfl]
      exact (after_of_finished hfrontier (Nat.le_add_right n _)).symm

end Chart

open Chart

theorem recognize_eq_after (g : Grammar) (tokens : Tokens α) :
    recognize g tokens = after g tokens (tokens.size + 1) := by
  have h := runFor_after g tokens 0 (tokens.size + 1)
  rw [Nat.zero_add] at h
  exact h

theorem regular_recognize (g : Grammar) (tokens : Tokens α) :
    (recognize g tokens).Regular tokens := by
  rw [recognize_eq_after]
  exact regular_after g tokens _

/-- One step for each position finishes a chart: nothing stands behind the end. -/
theorem frontier_recognize (g : Grammar) (tokens : Tokens α) :
    (recognize g tokens).frontier = none := by
  rw [recognize_eq_after,
    (regular_after g tokens _).frontier_eq_none_iff (stepped_after g tokens _)]
  rintro ⟨-, hzero | ⟨key, hkey⟩⟩
  · omega
  · have := hkey.le_size
    omega

theorem isFinished_recognize (g : Grammar) (tokens : Tokens α) :
    (recognize g tokens).isFinished = true := by
  rw [isFinished, frontier_recognize]
  rfl

/-- Whatever number of steps has finished a chart, it is the finished chart. -/
theorem recognize_eq_of_finished {tokens : Tokens α} {n : Nat}
    (h : (after g tokens n).frontier = none) : recognize g tokens = after g tokens n := by
  have hfinished := frontier_recognize g tokens
  rw [recognize_eq_after] at hfinished ⊢
  rcases Nat.le_total n (tokens.size + 1) with hle | hle
  · exact after_of_finished h hle
  · exact (after_of_finished hfinished hle).symm

/-- A finished chart has the set of every position where something stands. -/
theorem lt_size_recognize {tokens : Tokens α} {key : Key g} {k : Nat}
    (h : Charted tokens key k) : k < (recognize g tokens).closed.size :=
  (regular_recognize g tokens).lt_size_of_reached (frontier_recognize g tokens) (.inr ⟨key, h⟩)

theorem isAccepted_recognize (g : Grammar) (tokens : Tokens α) :
    (recognize g tokens).isAccepted = true ↔
      ∃ s, g.start = some s ∧ Completed g tokens s 0 tokens.size := by
  have h := regular_recognize g tokens
  rw [isAccepted, h.tokens_eq, isFinished_recognize]
  simp only [Bool.true_and]
  constructor
  · intro haccepted
    split at haccepted
    · rename_i s last hs hlast
      refine ⟨s, hs, ?_⟩
      have hclosed := h.closed hlast
      rw [Bool.or_eq_true, Bool.not_eq_true', List.any_eq_true] at haccepted
      rcases haccepted with hcompletions | ⟨⟨key, j⟩, hkey, hstart⟩
      · obtain ⟨done, hdone, hcompletes⟩ :=
          hclosed.consistent.isEmpty_completionsOf_eq_false_iff.mp hcompletions
        exact ⟨done, hclosed.charted hdone, hcompletes⟩
      · obtain ⟨horigin, hhead⟩ : key.origin = 0 ∧ key.head = s := by simpa using hstart
        exact ⟨key, (h.linked_of_mem_skipped hkey).charted,
          (h.isComplete_of_mem_skipped hkey).1, hhead, horigin⟩
    · contradiction
  · rintro ⟨s, hs, done, hdone, hcompletes⟩
    have hsize := lt_size_recognize hdone
    obtain ⟨last, hlast⟩ := exists_closed_of_le hsize (Nat.le_refl _)
    simp only [hs, hlast, Bool.or_eq_true, Bool.not_eq_true', List.any_eq_true]
    rcases (h.holds_iff hsize).mpr hdone with ⟨last', hlast', hhas⟩ | ⟨j, hskipped⟩
    · obtain rfl := Option.some.inj (hlast.symm.trans hlast')
      exact .inl ((h.closed hlast).consistent.isEmpty_completionsOf_eq_false_iff.mpr
        ⟨done, hhas, hcompletes⟩)
    · obtain ⟨-, hhead, horigin⟩ := hcompletes
      exact .inr ⟨(done, j), hskipped, by simp [hhead, horigin]⟩

/-- **Recognition is exact.**  An input is accepted exactly if the grammar has a
start symbol that derives the names of its tokens, and rejected otherwise. -/
theorem parse_accepts_iff_derives (g : Grammar) (tokens : Tokens α) :
    ((∃ forest, parse g tokens = .accepted forest) ↔ g.Accepts tokens.names) ∧
      ((∃ rejection, parse g tokens = .rejected rejection) ↔ ¬ g.Accepts tokens.names) := by
  have haccepts : (recognize g tokens).isAccepted = true ↔ g.Accepts tokens.names := by
    rw [isAccepted_recognize]
    exact exists_congr fun s => and_congr_right completed_start_iff
  rw [← haccepts, ← isSome_forest?, parse, outcome]
  cases (recognize g tokens).forest? with
  | some forest => simp
  | none => simp

end ChartParser
