/-
One pass closes a set.

The states of a set are processed once, in the order they were inserted.  A state may
wait for a nonterminal that was completed over the empty input before or after it;
either way it passes, because the one that comes second looks at what was noted of the
first.  So nothing is left to do when the pass is over, and the indexes say of the set
what can be read off its states.

* **`completed_here_iff`** — what is completed over the empty input: a nonterminal
  that is predicted there and derives the empty input.  Which of its expressions was
  found first does not matter, since they are all predicted together;
* **`Regular.has_iff_charted_here`** — what starts where it stands is never left out by a
  shortcut;
* **`StateSet.Exhausted`** — nothing left to do, and exact indexes;
* **`closing_exact`** — every closed set of a chart is exhausted.
-/
import ChartParser.Grammar.Examples
import ChartParser.Proofs.Recognition

namespace ChartParser

variable {g : Grammar} {α : Type} {tokens : Tokens α}

/-! ### Completions over the empty input -/

/-- Trees over nothing derive nothing. -/
theorem Tree.Spans.derives_nil {ts : Expression} {zs : List (Tree g α)} {k : Nat}
    (h : Tree.Spans tokens ts zs k k) : g.Derives ts [] := by
  have hyield : Tree.yieldAll zs = [] := by
    have hdrop := congrArg List.length h.drop_eq
    rw [List.length_append] at hdrop
    exact List.eq_nil_of_length_eq_zero (by omega)
  have hderives := h.derives
  rw [hyield] at hderives
  exact hderives

theorem Grammar.mem_startAlternatives {id : g.ExprId} :
    id ∈ g.startAlternatives ↔ g.start = some (g.expr id).head := by
  rw [Grammar.startAlternatives]
  cases g.start with
  | none => simp
  | some s =>
    show id ∈ g.alternatives s ↔ _
    rw [Grammar.mem_alternatives, Option.some.injEq, eq_comm]

/-- A state that has matched nothing is one of the start symbol at the beginning, or a
state waits for its head. -/
theorem Charted.seeded_or_predicted {key : Key g} {k : Nat} (h : Charted tokens key k)
    (hcursor : key.item.cursor = 0) :
    (k = 0 ∧ g.start = some key.head) ∨
      ∃ waiter : Key g, Charted tokens waiter k ∧ waiter.Awaits key.head := by
  have hadvanced : ∀ {before : Key g}, before.advance? ≠ some key := by
    intro before hadvance
    have hcursor' := (Item.advance?_eq_some_iff.mp (Key.advance?_eq_some_iff.mp hadvance).1).2.2
    omega
  cases h with
  | seed start => exact .inl ⟨rfl, Grammar.mem_startAlternatives.mp start⟩
  | predict here awaits head =>
    subst head
    exact .inr ⟨_, here, awaits⟩
  | scan _ _ _ advance => exact absurd advance hadvanced
  | complete _ _ _ _ advance => exact absurd advance hadvanced

/-- The expressions of a nonterminal are predicted together. -/
theorem Charted.predicted {key : Key g} {k : Nat} (h : Charted tokens key k)
    (hcursor : key.item.cursor = 0) {id : g.ExprId} (hhead : (g.expr id).head = key.head) :
    Charted tokens ⟨.atStart id, k⟩ k := by
  rcases h.seeded_or_predicted hcursor with ⟨rfl, hstart⟩ | ⟨waiter, hwaiter, hawaits⟩
  · refine .seed (Grammar.mem_startAlternatives.mpr ?_)
    rw [hhead]
    exact hstart
  · exact .predict hwaiter hawaits hhead

/-- **Completions over the empty input.**  A nonterminal is completed from a position to
itself exactly if one of its expressions is predicted there and it derives the empty
input. -/
theorem completed_here_iff {name : Name} {k : Nat} :
    Completed g tokens name k k ↔
      (∃ id, (g.expr id).head = name ∧ Charted tokens ⟨.atStart id, k⟩ k) ∧
        g.DerivesFrom name [] := by
  constructor
  · rintro ⟨done, hdone, hcomplete, hhead, rfl⟩
    obtain ⟨zs, hzs⟩ := hdone.exists_spans
    rw [Item.matched_of_isComplete hcomplete] at hzs
    exact ⟨⟨done.item.expr, hhead, hdone.atStart⟩, done.item.expr, hhead, hzs.derives_nil⟩
  · rintro ⟨⟨id, hhead, hstart⟩, id', hhead', hderives⟩
    -- the expression that derives the empty input is predicted beside the given one
    have hstart' : Charted tokens ⟨.atStart id', k⟩ k :=
      hstart.predicted rfl (hhead'.trans hhead.symm)
    have hprefix : [] <+: tokens.names.drop k := List.nil_prefix
    obtain ⟨zs, hzs⟩ := Tree.exists_spans_of_derives hderives hprefix
    exact ⟨_, hstart'.atEnd hzs, Item.isComplete_atEnd id', hhead', rfl⟩

namespace Chart

variable {c : Chart g α} {k : Nat} {s : StateSet g}

/-- What starts where it stands is in the set exactly if the rules of a chart give it:
left-out states start earlier. -/
theorem Regular.has_iff_charted_here (h : c.Regular tokens) (hs : c.closed[k]? = some s)
    {key : Key g} (horigin : key.origin = k) : s.Has key ↔ Charted tokens key k := by
  have hk := (Array.getElem?_eq_some_iff.mp hs).1
  constructor
  · exact (h.closed hs).charted
  · intro hkey
    rcases h.holds_of_charted hkey hk with ⟨s', hs', hhas⟩ | ⟨j, hskipped⟩
    · obtain rfl := Option.some.inj (hs.symm.trans hs')
      exact hhas
    · have hlt := (h.isComplete_of_mem_skipped hskipped).2
      omega

theorem Regular.wasCompletedHere_iff (h : c.Regular tokens) (hs : c.closed[k]? = some s)
    (name : Name) :
    s.wasCompletedHere name = true ↔
      (∃ id, (g.expr id).head = name ∧ s.Has ⟨.atStart id, k⟩) ∧ g.DerivesFrom name [] := by
  have hcompleted : (∃ key, s.Has key ∧ key.Completes name k) ↔ Completed g tokens name k k := by
    refine exists_congr fun key => and_congr_left fun hcompletes => ?_
    exact h.has_iff_charted_here hs hcompletes.2.2
  have hstart : (∃ id, (g.expr id).head = name ∧ s.Has ⟨.atStart id, k⟩) ↔
      ∃ id, (g.expr id).head = name ∧ Charted tokens ⟨.atStart id, k⟩ k := by
    refine exists_congr fun id => and_congr_right fun _ => ?_
    exact h.has_iff_charted_here hs rfl
  rw [(h.closed hs).completedHere, hcompleted, completed_here_iff, hstart]

end Chart

/-! ### Sets with nothing left to do -/

/-- The set `s` at position `k` has nothing left to do, and its indexes are exact. -/
structure StateSet.Exhausted (sets : Array (StateSet g)) (k : Nat) (s : StateSet g) : Prop where
  /-- What a state waits for is predicted. -/
  predicted : ∀ key name, s.Has key → key.Awaits name →
    ∀ id, (g.expr id).head = name → s.Has ⟨.atStart id, k⟩
  /-- The states that wait for a nonterminal are listed by their places, ... -/
  waiting_iff : ∀ name place, place ∈ (s.waitingOn name).toList ↔
    ∃ key, s.keys[place]? = some key ∧ key.Awaits name
  /-- ... each of them once and in order. -/
  waiting_increasing : ∀ name, (s.waitingOn name).toList.Pairwise (· < ·)
  /-- The expected terminals are those that some state waits for. -/
  expected_iff : ∀ name, name ∈ s.expectedTerminals ↔ ∃ key, s.Has key ∧ key.Scans name
  /-- What was completed here is predicted here and derives the empty input. -/
  completedHere_iff : ∀ name, s.wasCompletedHere name = true ↔
    (∃ id, (g.expr id).head = name ∧ s.Has ⟨.atStart id, k⟩) ∧ g.DerivesFrom name []
  /-- A shortcut was taken by every completion from an earlier set that has one. -/
  bottoms_iff : ∀ origin name, (origin, name) ∈ s.bottoms ↔
    origin < k ∧ (∃ key, s.Has key ∧ key.Completes name origin) ∧
      ∃ before leo, sets[origin]? = some before ∧ before.leoItem? name = some leo
  /-- To process a state once more adds neither keys nor links. -/
  again : ∀ token place key next trace, s.Has key →
    let c := Closing.process sets k token place key ⟨s, next, trace⟩
    (∀ other, c.current.Has other ↔ s.Has other) ∧
      ∀ other j, c.current.HasLink other j ↔ s.HasLink other j

namespace ClosedSet

variable {sets : Array (StateSet g)} {k : Nat} {s : StateSet g}

theorem mem_waitingOn_iff (h : ClosedSet tokens sets k s) {name : Name} {place : Nat} :
    place ∈ (s.waitingOn name).toList ↔ ∃ key, s.keys[place]? = some key ∧ key.Awaits name := by
  rw [h.waiting, mem_placesOf]
  simp only [decide_eq_true_eq]

theorem mem_expectedTerminals_iff (h : ClosedSet tokens sets k s) {name : Name} :
    name ∈ s.expectedTerminals ↔ ∃ key, s.Has key ∧ key.Scans name := by
  rw [StateSet.expectedTerminals, Std.TreeSet.mem_toList]
  exact h.scanning name

theorem mem_bottoms_iff (h : ClosedSet tokens sets k s) {origin : Nat} {name : Name} :
    (origin, name) ∈ s.bottoms ↔
      origin < k ∧ (∃ key, s.Has key ∧ key.Completes name origin) ∧
        ∃ before leo, sets[origin]? = some before ∧ before.leoItem? name = some leo := by
  rw [StateSet.bottoms, Std.TreeSet.mem_toList, h.leoBottoms]
  constructor
  · rintro ⟨key, hkey, hcompletes, hne, hshortcut⟩
    have hle := (h.charted hkey).origin_le
    rw [hcompletes.2.2] at hle
    exact ⟨by omega, ⟨key, hkey, hcompletes⟩, hshortcut⟩
  · rintro ⟨hlt, ⟨key, hkey, hcompletes⟩, hshortcut⟩
    exact ⟨key, hkey, hcompletes, by omega, hshortcut⟩

/-- Whatever a state asks for is there, so to process it again adds nothing. -/
theorem process_again (h : ClosedSet tokens sets k s) {key : Key g} (hkey : s.Has key)
    (token : Option Name) (place : Nat) (next : StateSet g) (trace : List (Event g)) :
    let c := Closing.process sets k token place key ⟨s, next, trace⟩
    (∀ other, c.current.Has other ↔ s.Has other) ∧
      ∀ other j, c.current.HasLink other j ↔ s.HasLink other j := by
  intro c
  constructor
  · intro other
    refine (Closing.has_process h.consistent).trans (or_iff_left_of_imp ?_)
    rintro ⟨link, hrequest⟩
    exact (h.answered hkey hrequest).1
  · intro other j
    refine (Closing.hasLink_process h.consistent).trans (or_iff_left_of_imp ?_)
    intro hrequest
    exact (h.answered hkey hrequest).2 j rfl

end ClosedSet

namespace Chart

/-- **One pass closes a set.**  At every closed position of a chart, after any number of
steps, the set has nothing left to do and its indexes are exact. -/
theorem closing_exact (g : Grammar) (tokens : Tokens α) (n k : Nat) (s : StateSet g)
    (hs : (after g tokens n).closed[k]? = some s) : s.Exhausted (after g tokens n).closed k := by
  have h := regular_after g tokens n
  have hclosed := h.closed hs
  refine ⟨?_, fun _ _ => hclosed.mem_waitingOn_iff, ?_, fun _ => hclosed.mem_expectedTerminals_iff,
    h.wasCompletedHere_iff hs, fun _ _ => hclosed.mem_bottoms_iff, ?_⟩
  · intro key name hkey hawaits id hhead
    exact (hclosed.answered hkey (.predict hawaits hhead)).1
  · intro name
    rw [hclosed.waiting]
    exact pairwise_placesOf
  · intro token place key next trace hkey
    exact hclosed.process_again hkey token place next trace

/-- `c`, before which `S -> A B "c"; A -> B; B -> ε` has to pass `A` and `B`. -/
def Examples.lastLetter : Tokens Unit := #[⟨"c", ()⟩]

/-- At the beginning of `c`, the state `S => A . B "c"` waits for `B`, although `B` was
completed before it came; it passes, so `"c"` is expected, and `A` is completed. -/
theorem closing_exact_lastLetter :
    ∃ s, (after Examples.nullableChain Examples.lastLetter 1).closed[0]? = some s ∧
      s.waitingOn "B" = #[1, 4] ∧ s.wasCompletedHere "A" = true ∧
      (∃ key, s.keys[4]? = some key ∧ key.Awaits "B") ∧
      (∃ key, s.Has key ∧ key.Scans "c") ∧
      Examples.nullableChain.DerivesFrom "A" [] ∧
      ∀ origin name, (origin, name) ∉ s.bottoms := by
  have hread : ((after Examples.nullableChain Examples.lastLetter 1).closed[0]?).map
      (fun s => (s.waitingOn "B", s.wasCompletedHere "A", s.expectedTerminals)) =
        some (#[1, 4], true, ["c"]) := by decide +kernel
  obtain ⟨s, hs, hread⟩ := Option.map_eq_some_iff.mp hread
  obtain ⟨hwaiting, hcompleted, hexpected⟩ : s.waitingOn "B" = #[1, 4] ∧
      s.wasCompletedHere "A" = true ∧ s.expectedTerminals = ["c"] := by simpa using hread
  have h := closing_exact Examples.nullableChain Examples.lastLetter 1 0 s hs
  refine ⟨s, hs, hwaiting, hcompleted, ?_, ?_, ((h.completedHere_iff "A").mp hcompleted).2, ?_⟩
  · exact (h.waiting_iff "B" 4).mp (by simp [hwaiting])
  · exact (h.expected_iff "c").mp (by simp [hexpected])
  · intro origin name hbottom
    exact absurd ((h.bottoms_iff origin name).mp hbottom).1 (Nat.not_lt_zero origin)

end Chart

end ChartParser
