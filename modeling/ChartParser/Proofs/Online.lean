/-
Charts are online.

A position is closed without a look at the token there: only what is scanned into the
next set depends on it.  So two inputs that begin with the same names have the same
charts as far as they agree, one position further, and a set that is closed stays as
it is.

* **`Closing.current_saturate`** — saturating a set does not depend on the token;
* **`Agrees.step`** — charts that agree before a step agree after it, if the token has
  the same name, and **`Agrees.closed_step`** — their closed sets agree in any case;
* **`agrees_after`** — inputs that begin alike have charts that agree for as many
  steps;
* **`chart_online`** — identical sets, whatever number of steps was made, and the same
  rejection at a token that both inputs have.

Sets are compared as a whole: states in their order, links and all indexes.
-/
import ChartParser.Proofs.Rejection

namespace ChartParser

variable {g : Grammar} {α β : Type}

/-- What becomes of a set depends neither on the token behind it nor on what was
scanned before. -/
theorem Closing.current_saturate {earlier : Array (StateSet g)} {k : Nat}
    {token token' : Option Name} {fuel place : Nat} {c c' : Closing g}
    (h : c.current = c'.current) :
    (c.saturate earlier k token fuel place).current =
      (c'.saturate earlier k token' fuel place).current := by
  induction fuel generalizing place c c' with
  | zero => exact h
  | succ fuel ih =>
    rw [saturate, saturate, h]
    cases c'.current.states[place]? with
    | none => exact h
    | some st =>
      apply ih
      rw [process_current, process_current, h]

theorem nameAt?_eq_of_take_eq {tokens : Tokens α} {tokens' : Tokens β} {k : Nat}
    (h : tokens.names.take k = tokens'.names.take k) {i : Nat} (hi : i < k) :
    tokens.nameAt? i = tokens'.nameAt? i := by
  have hget : (tokens.names.take k)[i]? = (tokens'.names.take k)[i]? := by rw [h]
  rwa [List.getElem?_take_of_lt hi, List.getElem?_take_of_lt hi,
    Tree.getElem?_names, Tree.getElem?_names] at hget

namespace Chart

/-! ### Two charts side by side -/

/-- Two charts, perhaps of different inputs, that have the same sets. -/
structure Agrees (c : Chart g α) (c' : Chart g β) : Prop where
  closed : c.closed = c'.closed
  frontier : c.frontier = c'.frontier

variable {c : Chart g α} {c' : Chart g β} {tokens : Tokens α} {tokens' : Tokens β}

/-- Charts that agree close the next position alike. -/
theorem Agrees.closed_step (h : c.Agrees c') : c.step.closed = c'.step.closed := by
  cases hfrontier : c.frontier with
  | none =>
    rw [step, step, stepBy_of_finished hfrontier,
      stepBy_of_finished (h.frontier.symm.trans hfrontier)]
    exact h.closed
  | some frontier =>
    rw [step, step, stepBy_of_frontier hfrontier,
      stepBy_of_frontier (h.frontier.symm.trans hfrontier)]
    dsimp only
    rw [h.closed, StateSet.saturated, StateSet.saturated, Closing.current_saturate rfl]

/-- If the next token has the same name, they agree after the step as well. -/
theorem Agrees.step (h : c.Agrees c')
    (hname : c.frontier.isSome = true →
      c.tokens.nameAt? c.closed.size = c'.tokens.nameAt? c.closed.size) :
    c.step.Agrees c'.step := by
  refine ⟨h.closed_step, ?_⟩
  cases hfrontier : c.frontier with
  | none =>
    rw [Chart.step, Chart.step, stepBy_of_finished hfrontier,
      stepBy_of_finished (h.frontier.symm.trans hfrontier)]
    exact h.frontier
  | some frontier =>
    rw [hfrontier] at hname
    rw [Chart.step, Chart.step, stepBy_of_frontier hfrontier,
      stepBy_of_frontier (h.frontier.symm.trans hfrontier), ← h.closed, hname rfl]

theorem Agrees.set?_eq (h : c.Agrees c') (j : Nat) : c.set? j = c'.set? j := by
  rw [set?, set?, h.closed, h.frontier]

/-- **Inputs that begin alike have charts that agree**, for as many steps as they have
names in common. -/
theorem agrees_after (g : Grammar) {k : Nat}
    (h : tokens.names.take k = tokens'.names.take k) {n : Nat} (hn : n ≤ k) :
    (after g tokens n).Agrees (after g tokens' n) := by
  induction n with
  | zero => exact ⟨rfl, rfl⟩
  | succ n ih =>
    refine (ih (Nat.le_of_succ_le hn)).step fun hsome => ?_
    -- a chart that is not finished has closed one position in each step
    have hsize : (after g tokens n).closed.size = n := by
      refine (stepped_after g tokens n).2.resolve_left fun hnone => ?_
      rw [hnone] at hsome
      contradiction
    rw [(regular_after g tokens n).tokens_eq, (regular_after g tokens' n).tokens_eq, hsize]
    exact nameAt?_eq_of_take_eq h hn

/-! ### Closed sets stay -/

theorem getElem?_closed_step {j : Nat} {s : StateSet g} (h : c.closed[j]? = some s) :
    c.step.closed[j]? = some s := by
  cases hfrontier : c.frontier with
  | none =>
    rw [step, stepBy_of_finished hfrontier]
    exact h
  | some frontier =>
    rw [step, stepBy_of_frontier hfrontier]
    exact getElem?_push_of_getElem? h

theorem getElem?_closed_after {n m j : Nat} (hnm : n ≤ m) {s : StateSet g}
    (h : (after g tokens n).closed[j]? = some s) : (after g tokens m).closed[j]? = some s := by
  obtain ⟨m, rfl⟩ := Nat.exists_eq_add_of_le hnm
  clear hnm
  induction m with
  | zero => exact h
  | succ m ih => exact getElem?_closed_step ih

/-- After a step for each position up to `k`, nothing happens at these positions. -/
theorem set?_after (g : Grammar) (tokens : Tokens α) {n k : Nat} (hn : k < n) {j : Nat}
    (hj : j ≤ k) :
    (after g tokens n).closed[j]? = (after g tokens (k + 1)).closed[j]? ∧
      (after g tokens n).set? j = (after g tokens (k + 1)).closed[j]? := by
  rcases (stepped_after g tokens (k + 1)).2 with hnone | hsize
  · rw [after_of_finished hnone hn]
    refine ⟨rfl, ?_⟩
    rw [set?, hnone]
    split
    · rfl
    · rename_i hle
      rw [Array.getElem?_eq_none (Nat.le_of_not_lt hle), ite_self]
  · obtain ⟨s, hs⟩ := exists_closed_of_le (c := after g tokens (k + 1))
      (show k < _ by omega) hj
    have hclosed := getElem?_closed_after hn hs
    rw [hs, set?, if_pos (Array.getElem?_eq_some_iff.mp hclosed).1]
    exact ⟨hclosed, hclosed⟩

/-- Two inputs that begin alike have the same sets as far as they agree, and at the
position behind. -/
theorem set?_eq_of_take_eq (g : Grammar) {k : Nat}
    (h : tokens.names.take k = tokens'.names.take k) (n : Nat) {j : Nat} (hj : j ≤ k) :
    (after g tokens n).closed[j]? = (after g tokens' n).closed[j]? ∧
      (after g tokens n).set? j = (after g tokens' n).set? j := by
  by_cases hn : n ≤ k
  · have hagrees := agrees_after g h hn
    exact ⟨by rw [hagrees.closed], hagrees.set?_eq j⟩
  · -- the first of the later steps closes position `k`, and the others change nothing
    have hlast := (agrees_after g h (Nat.le_refl k)).closed_step
    obtain ⟨hclosed, hset⟩ := set?_after g tokens (Nat.lt_of_not_le hn) hj
    obtain ⟨hclosed', hset'⟩ := set?_after g tokens' (Nat.lt_of_not_le hn) hj
    rw [hclosed, hclosed', hset, hset', after, after, hlast]
    exact ⟨rfl, rfl⟩

/-! ### The same rejection -/

theorem Agrees.furthestPosition_eq (h : c.Agrees c') :
    c.furthestPosition = c'.furthestPosition := by
  rw [furthestPosition, furthestPosition, h.frontier, h.closed]

theorem Agrees.diagnosis_eq (h : c.Agrees c')
    (hname : c.tokens.nameAt? c.furthestPosition = c'.tokens.nameAt? c.furthestPosition) :
    c.diagnosis = c'.diagnosis := by
  rw [diagnosis, diagnosis, hname, h.furthestPosition_eq, h.set?_eq]

end Chart

open Chart

variable {tokens : Tokens α} {tokens' : Tokens β}

/-- A finished chart is finished after a step for each of its positions. -/
theorem frontier_after_furthestPosition (g : Grammar) (tokens : Tokens α) :
    (after g tokens ((recognize g tokens).furthestPosition + 1)).frontier = none := by
  rw [(regular_after g tokens _).frontier_eq_none_iff (stepped_after g tokens _)]
  rintro ⟨-, hreached⟩
  have hle := (isGreatest_furthestPosition g tokens).2 hreached
  omega

/-- A chart that ends before its input does is that of a rejected input. -/
theorem parse_eq_rejected (h : (recognize g tokens).furthestPosition < tokens.size) :
    parse g tokens = .rejected (recognize g tokens).diagnosis := by
  have hsize : (recognize g tokens).closed.size ≤ tokens.size := by
    rw [furthestPosition, frontier_recognize] at h
    dsimp only at h
    omega
  have hnot : (recognize g tokens).isAccepted = false := by
    rw [isAccepted, (regular_recognize g tokens).tokens_eq, Array.getElem?_eq_none hsize]
    cases g.start <;> rfl
  rw [← isSome_forest?, Option.isSome_eq_false_iff, Option.isNone_iff_eq_none] at hnot
  rw [parse, outcome, hnot]

/-- A rejection at a token depends on nothing behind that token. -/
theorem parse_eq_of_take_eq {r : Rejection} (hr : parse g tokens = .rejected r)
    (hposition : r.position < tokens.size)
    (h : tokens.names.take (r.position + 1) = tokens'.names.take (r.position + 1)) :
    parse g tokens' = .rejected r := by
  obtain ⟨rfl, -⟩ := eq_diagnosis_of_parse hr
  replace hposition : (recognize g tokens).furthestPosition < tokens.size := hposition
  replace h : tokens.names.take ((recognize g tokens).furthestPosition + 1) =
    tokens'.names.take ((recognize g tokens).furthestPosition + 1) := h
  -- both charts are finished after the same number of steps, with the same sets
  have hfinished := frontier_after_furthestPosition g tokens
  have hagrees : (recognize g tokens).Agrees (recognize g tokens') := by
    have hsteps := agrees_after g h (Nat.le_refl _)
    rw [← recognize_eq_of_finished hfinished] at hsteps
    rwa [← recognize_eq_of_finished (hsteps.frontier.symm.trans (frontier_recognize g tokens))]
      at hsteps
  have hname := nameAt?_eq_of_take_eq h (Nat.lt_succ_self _)
  have hdiagnosis : (recognize g tokens).diagnosis = (recognize g tokens').diagnosis := by
    refine hagrees.diagnosis_eq ?_
    rw [(regular_recognize g tokens).tokens_eq, (regular_recognize g tokens').tokens_eq, hname]
  rw [hdiagnosis]
  apply parse_eq_rejected
  -- the token where the first input is rejected is one of the second
  rw [← hagrees.furthestPosition_eq]
  obtain ⟨token, htoken, -⟩ := Tokens.nameAt?_eq_some_iff.mp (hname.symm.trans
    (Tokens.nameAt?_eq_some_iff.mpr ⟨_, Array.getElem?_eq_getElem hposition, rfl⟩))
  exact (Array.getElem?_eq_some_iff.mp htoken).1

/-- **Charts are online.**  Take two inputs that have their first `k` names in common.
After any number of steps, the same positions up to `k` are closed or reached in both
charts and have the same sets, and so it is when both charts are finished.  Further
steps change no closed set.  An input that is rejected at one of its tokens is rejected
in the same way whatever follows that token. -/
theorem chart_online (g : Grammar) (tokens : Tokens α) :
    (∀ (tokens' : Tokens β) (k : Nat), tokens.names.take k = tokens'.names.take k →
      (∀ n, ∀ j ≤ k, (after g tokens n).closed[j]? = (after g tokens' n).closed[j]? ∧
        (after g tokens n).set? j = (after g tokens' n).set? j) ∧
      ∀ j ≤ k, (recognize g tokens).closed[j]? = (recognize g tokens').closed[j]?) ∧
    (∀ n m, n ≤ m → ∀ (j : Nat) (s : StateSet g), (after g tokens n).closed[j]? = some s →
      (after g tokens m).closed[j]? = some s) ∧
    ∀ r, parse g tokens = .rejected r → r.position < tokens.size → ∀ tokens' : Tokens β,
      tokens.names.take (r.position + 1) = tokens'.names.take (r.position + 1) →
      parse g tokens' = .rejected r := by
  refine ⟨fun tokens' k h => ⟨fun n j hj => set?_eq_of_take_eq g h n hj, fun j hj => ?_⟩,
    fun n m hnm j s => getElem?_closed_after hnm, fun r hr hposition tokens' =>
      parse_eq_of_take_eq hr hposition⟩
  -- both runs end within the steps that the longer input needs
  have hfinished := frontier_recognize g tokens
  have hfinished' := frontier_recognize g tokens'
  rw [recognize_eq_after] at hfinished hfinished' ⊢
  rw [recognize_eq_after g tokens', ← after_of_finished hfinished (Nat.le_max_left _ _),
    ← after_of_finished hfinished' (Nat.le_max_right _ _)]
  exact (set?_eq_of_take_eq g h _ hj).1

/-- `a c b`, which goes on behind a token that cannot follow. -/
def Examples.strayTokenInside : Tokens String := #[⟨"a", "1"⟩, ⟨"c", "2"⟩, ⟨"b", "3"⟩]

/-- `a c b` is rejected at `c`, in the same way as `a c` is, and up to there the charts
have the same sets. -/
theorem chart_online_strayToken :
    Examples.strayToken.names.take 2 = Examples.strayTokenInside.names.take 2 ∧
      (∃ r, parse Examples.balanced Examples.strayToken = .rejected r ∧ r.position = 1 ∧
        parse Examples.balanced Examples.strayTokenInside = .rejected r) ∧
      ∀ j ≤ 2, (recognize Examples.balanced Examples.strayToken).closed[j]? =
        (recognize Examples.balanced Examples.strayTokenInside).closed[j]? := by
  have hnames : Examples.strayToken.names.take 2 = Examples.strayTokenInside.names.take 2 := by
    decide
  have hrejection : (parse Examples.balanced Examples.strayToken).rejection?.map (·.position) =
      some 1 := by decide +kernel
  obtain ⟨hsets, -, hreject⟩ :=
    chart_online (β := String) Examples.balanced Examples.strayToken
  refine ⟨hnames, ?_, (hsets Examples.strayTokenInside 2 hnames).2⟩
  cases hparse : parse Examples.balanced Examples.strayToken with
  | accepted =>
    rw [hparse] at hrejection
    contradiction
  | rejected r =>
    rw [hparse] at hrejection
    have hposition : r.position = 1 := Option.some.inj hrejection
    refine ⟨r, rfl, hposition, hreject r hparse ?_ _ ?_⟩
    · rw [hposition]
      decide
    · rw [hposition]
      exact hnames

end ChartParser
