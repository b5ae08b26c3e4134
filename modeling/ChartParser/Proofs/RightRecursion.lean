/-
Right recursion, and how far shortcuts keep it small.

In a right-linear grammar, a nonterminal may end at a position from everywhere, and a set
would have to hold all these completions.  If the grammar is not ambiguous, everything
that is completed had a single waiter, and so there is a shortcut past all that the waiter
completes in turn.

* **`exists_unit`** — a completion that is not left out starts at the beginning, or a unit
  expression starts where it does: such an expression ends a shortcut;
* **`right_linear_bounded`** — if no unit expression lies on a cycle, no set has more
  states than there are dotted items;
* **`right_recursion_unbounded`** — if one does, its completions are all there
  (`has_of_cursor_eq_one`), and the sets grow with the input.
-/
import ChartParser.Proofs.RightLinear
import ChartParser.Proofs.Safety
import ChartParser.Proofs.Shortcuts

namespace ChartParser

open ChartParser.Tree
open Relation (ReflTransGen)

variable {g : Grammar} {α : Type} {tokens : Tokens α}

/-- No unit expression lies on a cycle: the one nonterminal it consists of does not lead
back to its head. -/
def Grammar.UnitsAcyclic (g : Grammar) : Prop :=
  ∀ (id : g.ExprId) (t : Term), (g.expr id).terms = [t] → t.kind = .nonterminal →
    ¬ ReflTransGen g.Uses t.name (g.expr id).head

/-! ### What shortcuts leave -/

namespace Chart

section Shortcuts

variable {c : Chart g α} {key : Key g} {k : Nat} {s : StateSet g}

/-- A state whose last matched term is a nonterminal has a link to where a state waited
for it. -/
theorem exists_waiter (h : c.Regular tokens) (hsettled : c.Settled) (hs : c.closed[k]? = some s)
    (hkey : s.Has key) {t : Term} (hprevious : key.item.previous? = some t)
    (hkind : t.kind = .nonterminal) :
    ∃ j waiter, s.HasLink key j ∧ waiter.advance? = some key ∧ Charted tokens waiter j ∧
      ∃ name, waiter.Awaits name ∧ Completed g tokens name j k := by
  have hcursor : key.item.cursor ≠ 0 := by
    intro hcursor
    rw [Item.previous?, hcursor] at hprevious
    contradiction
  obtain ⟨j, hlink⟩ := hsettled.traced hs key hkey hcursor
  obtain ⟨waiter, hadvance, hwaiter, hterm⟩ := (h.closed hs).linked hlink
  refine ⟨j, waiter, hlink, hadvance, hwaiter, ?_⟩
  rcases hterm with ⟨name, ⟨u, hu, hscan, -⟩, -⟩ | hterm
  · have hnext := Item.previous?_of_advance? (Key.advance?_eq_some_iff.mp hadvance).1
    rw [hprevious, hu] at hnext
    rw [Option.some.inj hnext, hscan] at hkind
    contradiction
  · exact hterm

variable (hlinear : g.RightLinear) (hunambiguous : g.Unambiguous) (h : c.Regular tokens)
  (hsettled : c.Settled)

include hlinear hunambiguous h hsettled

/-- In a right-linear grammar without ambiguity, a waiter for what is completed later
has a shortcut. -/
theorem exists_shortcut {j : Nat} {before : StateSet g} (hbefore : c.closed[j]? = some before)
    {waiter done : Key g} {name : Name} (hwaiter : Charted tokens waiter j)
    (hawaits : waiter.Awaits name) (hcompleted : Completed g tokens name j k)
    (hadvance : waiter.advance? = some done) :
    ∃ leo, before.leoItem? name = some leo ∧
      (leo.top = done ∧
        (∀ (earlier : StateSet g) (above : LeoItem g), done.origin < j →
          c.closed[done.origin]? = some earlier → earlier.leoItem? done.head = some above →
          done.origin ≤ above.top.origin) ∨
        leo.top.origin < done.origin) := by
  refine hsettled.exists_leoItem hbefore ⟨?_, hawaits, ?_⟩
    (Key.finish?_eq_some_iff.mpr ⟨hadvance, hlinear.isComplete_of_awaits hawaits hadvance⟩)
  · exact (h.has_iff_charted hbefore hawaits.isComplete_eq_false).mpr hwaiter
  · intro other hother hawaits'
    exact hlinear.waiter_unique hunambiguous hwaiter ((h.closed hbefore).charted hother) hawaits
      hawaits' hcompleted

/-- Where a completion starts behind the beginning, there is a state that waits for it.  If
the shortcut of that state does not lead further back, the state starts there itself, and
so it is one of a unit expression. -/
theorem exists_unit_above (hkey : Charted tokens key k) (hk : k < c.closed.size)
    (hcomplete : key.item.isComplete = true) (hzero : key.origin ≠ 0)
    (hlast : ∀ (earlier : StateSet g) (above : LeoItem g), c.closed[key.origin]? = some earlier →
      earlier.leoItem? key.head = some above → key.origin ≤ above.top.origin) :
    ∃ id : g.ExprId, (∃ u, (g.expr id).terms = [u] ∧ u.kind = .nonterminal ∧ u.name = key.head) ∧
      Charted tokens ⟨.atEnd id, key.origin⟩ k := by
  have hcompletes : key.Completes key.head key.origin := ⟨hcomplete, rfl, rfl⟩
  obtain ⟨waiter, hwaiter, hawaits⟩ :=
    (hkey.atStart.seeded_or_predicted rfl).resolve_left fun hseeded => hzero hseeded.1
  obtain ⟨done, hadvance⟩ := Key.exists_advance? hawaits.isComplete_eq_false
  obtain ⟨earlier, hearlier⟩ := exists_closed_of_le hk hkey.origin_le
  obtain ⟨above, habove, hcases⟩ := exists_shortcut hlinear hunambiguous h hsettled hearlier
    hwaiter hawaits ⟨key, hkey, hcompletes⟩ hadvance
  have hstart : waiter.origin = key.origin := by
    have hle := hlast earlier above hearlier habove
    have hle' := hwaiter.origin_le
    have horigin := Key.origin_of_advance? hadvance
    rcases hcases with ⟨rfl, -⟩ | hbelow
    · omega
    · omega
  exact ⟨waiter.item.expr, hlinear.unit_of_awaits_here hwaiter hawaits hstart hadvance
    (.complete hwaiter hawaits hkey hcompletes hadvance)⟩

/-- **What shortcuts leave.**  In a right-linear grammar without ambiguity, a state in a
set whose last matched term is a nonterminal starts at the beginning, or there is a unit
expression that starts and ends where it does: its own, or one that consists of its head. -/
theorem exists_unit (hdirect : c.Direct) (hs : c.closed[k]? = some s) (hkey : s.Has key) {t : Term}
    (hprevious : key.item.previous? = some t) (hkind : t.kind = .nonterminal) :
    key.origin = 0 ∨ ∃ (id : g.ExprId) (u : Term), (g.expr id).terms = [u] ∧
      u.kind = .nonterminal ∧ Charted tokens ⟨.atEnd id, key.origin⟩ k ∧
      (id = key.item.expr ∨ u.name = key.head) := by
  have hk := (Array.getElem?_eq_some_iff.mp hs).1
  have hcharted := (h.closed hs).charted hkey
  obtain ⟨j, waiter, hlink, hadvance, hwaiter, name, hawaits, hcompleted⟩ :=
    exists_waiter h hsettled hs hkey hprevious hkind
  have hjk := hlinear.lt_of_completed hcompleted
  obtain ⟨before, hbefore⟩ := exists_closed_of_le hk (Nat.le_of_lt hjk)
  obtain ⟨leo, hleo, hcases⟩ := exists_shortcut hlinear hunambiguous h hsettled hbefore hwaiter
    hawaits hcompleted hadvance
  -- the shortcut does not lead past the state, so it ends with it
  have htop : leo.top = key := by
    by_contra hne
    exact hdirect.closed hs key j hlink (Nat.ne_of_lt hjk)
      ⟨before, waiter, name, leo, hbefore, hawaits, hadvance, hleo, hne⟩
  obtain ⟨-, hlast⟩ := hcases.resolve_right (by rw [htop]; exact Nat.lt_irrefl _)
  obtain ⟨hitem, horigin⟩ := Key.advance?_eq_some_iff.mp hadvance
  refine or_iff_not_imp_left.mpr fun hzero => ?_
  -- it ends because the waiter stands where it starts, or for want of a longer one there
  rcases Nat.lt_or_eq_of_le (horigin ▸ hwaiter.origin_le) with hlt | hhere
  · obtain ⟨id, ⟨u, hterms, hu, hname⟩, hend⟩ := exists_unit_above hlinear hunambiguous h hsettled
      hcharted hk (hlinear.isComplete_of_awaits hawaits hadvance) hzero
      fun earlier above => hlast earlier above hlt
    exact ⟨id, u, hterms, hu, hend, .inr hname⟩
  · obtain ⟨⟨u, hterms, hu, -⟩, hend⟩ := hlinear.unit_of_awaits_here hwaiter hawaits
      (horigin.symm.trans hhere) hadvance hcharted
    rw [← (Item.advance?_eq_some_iff.mp hitem).2.1] at hterms hend
    exact ⟨key.item.expr, u, hterms, hu, hhere ▸ hend, .inl rfl⟩

/-- No two states of a closed set share their item if no unit expression lies on a cycle. -/
theorem origin_unique (hunits : g.UnitsAcyclic) (hdirect : c.Direct) (hs : c.closed[k]? = some s)
    {key' : Key g} (hkey : s.Has key) (hkey' : s.Has key') (hitem : key.item = key'.item) :
    ¬ key.origin < key'.origin := by
  intro hlt
  have hcharted := (h.closed hs).charted hkey
  have hcharted' := (h.closed hs).charted hkey'
  by_cases hterminal : ∀ t, key.item.previous? = some t → t.kind = .terminal
  · have hposition := hlinear.position_eq hcharted hterminal
    have hposition' := hlinear.position_eq hcharted' (hitem ▸ hterminal)
    rw [hitem] at hposition
    omega
  · obtain ⟨t, hprevious, hkind⟩ :
        ∃ t, key'.item.previous? = some t ∧ t.kind = .nonterminal := by
      obtain ⟨t, ht⟩ := not_forall.mp hterminal
      obtain ⟨hprevious, hne⟩ := Classical.not_imp.mp ht
      refine ⟨t, hitem ▸ hprevious, ?_⟩
      cases hkind : t.kind with
      | terminal => exact absurd hkind hne
      | nonterminal => rfl
    have hcomplete : key'.item.isComplete = true := by
      by_contra hnot
      have := hlinear.previous_of_incomplete (Bool.eq_false_iff.mpr hnot) hprevious
      rw [hkind] at this
      contradiction
    have hend : Charted tokens ⟨.atEnd key'.item.expr, key.origin⟩ k := by
      rw [← Item.eq_atEnd_of_isComplete hcomplete, ← hitem]
      exact hcharted
    obtain ⟨id, u, hterms, hu, hunit, hcases⟩ :=
      (exists_unit hlinear hunambiguous h hsettled hdirect hs hkey' hprevious hkind).resolve_left
        (by omega)
    -- the earlier state leads to the unit expression, and that leads to the earlier state
    obtain ⟨t', ht', hkind', hpath⟩ := hlinear.uses_of_lt hunambiguous hend hunit hlt
    refine hunits id u hterms hu ?_
    rcases hcases with rfl | hname
    · rw [hterms, List.mem_singleton] at ht'
      exact ht' ▸ hpath
    · rw [hname]
      exact .head ⟨key'.item.expr, rfl, t', ht', hkind', rfl⟩ hpath

end Shortcuts

/-! ### The bound, and where there is none -/

/-- **Right recursion is bounded.**  If nonterminals occur only as the last term of
expressions, no expression is empty, no nonterminal has two trees for the same names and
no unit expression lies on a cycle, then no set has more states than there are dotted
items. -/
theorem right_linear_bounded (g : Grammar) (hlinear : g.RightLinear)
    (hunambiguous : g.Unambiguous) (hunits : g.UnitsAcyclic) (tokens : Tokens α) (n k : Nat)
    (s : StateSet g) (hs : (after g tokens n).set? k = some s) : s.size ≤ g.numDottedItems := by
  have h := regular_after g tokens n
  have hsettled := settled_after g tokens n
  have hsound := h.sound_of_set? hs
  refine hsound.consistent.size_le_numDottedItems fun key key' hkey hkey' hitem => ?_
  rw [set?] at hs
  split at hs
  · have hunique : ∀ {key key' : Key g}, s.Has key → s.Has key' → key.item = key'.item →
        ¬ key.origin < key'.origin :=
      origin_unique hlinear hunambiguous h hsettled hunits (direct_after g tokens n) hs
    exact Nat.le_antisymm (Nat.not_lt.mp (hunique hkey' hkey hitem.symm))
      (Nat.not_lt.mp (hunique hkey hkey' hitem))
  · split at hs
    · -- before it is closed, a set has nothing but what was scanned
      have hposition := hlinear.position_eq (hsound.charted hkey) fun _ => hsettled.scanned hs hkey
      have hposition' := hlinear.position_eq (hsound.charted hkey')
        fun _ => hsettled.scanned hs hkey'
      rw [hitem] at hposition
      omega
    · contradiction

/-- `T -> S; S -> "a" S | "a"` -/
def Examples.wrappedRecursion : Grammar :=
  .ofValid "T"
    [⟨"T", [[.nonterminal "S"]]⟩, ⟨"S", [[.terminal "a", .nonterminal "S"], [.terminal "a"]]⟩]
    (by decide +kernel)

/-- `S` does not lead back to `T`. -/
theorem unitsAcyclic_wrappedRecursion : Examples.wrappedRecursion.UnitsAcyclic := by
  have hunit : ∀ id : Examples.wrappedRecursion.ExprId,
      ∀ t ∈ (Examples.wrappedRecursion.expr id).terms,
      (Examples.wrappedRecursion.expr id).terms.length = 1 → t.kind = .nonterminal →
      t.name = "S" ∧ (Examples.wrappedRecursion.expr id).head = "T" := by decide +kernel
  have huses : ∀ id : Examples.wrappedRecursion.ExprId,
      (Examples.wrappedRecursion.expr id).head = "S" →
      ∀ t ∈ (Examples.wrappedRecursion.expr id).terms, t.kind = .nonterminal → t.name = "S" := by
    decide +kernel
  intro id t hterms hkind hpath
  obtain ⟨hname, hhead⟩ := hunit id t (by simp [hterms]) (by simp [hterms]) hkind
  rw [hname, hhead] at hpath
  have hstays : ∀ b, ReflTransGen Examples.wrappedRecursion.Uses "S" b → b = "S" := by
    intro b hb
    induction hb with
    | refl => rfl
    | tail _ hstep ih =>
      obtain ⟨id, hhead, t, ht, hkind, rfl⟩ := hstep
      exact huses id (hhead.trans ih) t ht hkind
  exact absurd (hstays "T" hpath) (by decide)

/-- At the end of `a a a`, there is one completion of `S -> "a" S`, from the beginning. -/
theorem right_linear_bounded_threeLetters :
    Examples.wrappedRecursion.RightLinear ∧ Examples.wrappedRecursion.Unambiguous ∧
      Examples.wrappedRecursion.UnitsAcyclic ∧
      ∃ s, (after Examples.wrappedRecursion Examples.threeLetters 4).set? 3 = some s ∧
        s.size ≤ Examples.wrappedRecursion.numDottedItems := by
  have hlinear : Examples.wrappedRecursion.RightLinear := by decide +kernel
  have hlengths : Examples.wrappedRecursion.LengthsDiffer := by decide +kernel
  have hunambiguous := hlengths.unambiguous hlinear
  have hsome :
      ((after Examples.wrappedRecursion Examples.threeLetters 4).set? 3).isSome = true := by
    decide +kernel
  obtain ⟨s, hs⟩ := Option.isSome_iff_exists.mp hsome
  exact ⟨hlinear, hunambiguous, unitsAcyclic_wrappedRecursion, s, hs,
    right_linear_bounded _ hlinear hunambiguous unitsAcyclic_wrappedRecursion _ 4 3 s hs⟩

/-- What a chain skips starts before its last term does. -/
theorem origin_lt_of_mem_skipped {sets : Array (StateSet g)} {top key : Key g} {split k j : Nat}
    {name : Name} {skipped : List (Key g × Nat)} (h : LeoChain sets top split k name skipped)
    (hkey : (key, j) ∈ skipped) : key.origin < j := by
  induction h with
  | last => contradiction
  | link _ _ _ _ before _ _ ih =>
    rcases List.mem_cons.mp hkey with heq | hkey
    · obtain ⟨rfl, rfl⟩ := Prod.mk.injEq .. ▸ heq
      exact before
    · exact ih hkey

/-- A state behind the first term of its expression is never left out. -/
theorem Regular.has_of_cursor_eq_one {c : Chart g α} (h : c.Regular tokens) {k : Nat}
    {s : StateSet g} (hs : c.closed[k]? = some s) {key : Key g} (hkey : Charted tokens key k)
    (hcursor : key.item.cursor = 1) : s.Has key := by
  have hk := (Array.getElem?_eq_some_iff.mp hs).1
  rcases h.holds_of_charted hkey hk with ⟨s', hs', hhas⟩ | ⟨j, hskipped⟩
  · obtain rfl := Option.some.inj (hs.symm.trans hs')
    exact hhas
  · -- its first term starts where it does, and that is not what chains skip
    obtain ⟨before, hadvance, hbefore, -⟩ := h.linked_of_mem_skipped hskipped
    obtain ⟨hitem, horigin⟩ := Key.advance?_eq_some_iff.mp hadvance
    have hsucc := (Item.advance?_eq_some_iff.mp hitem).2.2
    have hhere := hbefore.origin_eq_of_cursor_eq_zero (by omega)
    obtain ⟨_, _, _, _, _, _, _, -, -, -, -, hchain, hmem⟩ := h.mem_skipped.mp hskipped
    have hlt := origin_lt_of_mem_skipped hchain hmem
    omega

namespace Examples

/-- `S -> "a" A | "a"; A -> S` -/
def indirectRecursion : Grammar :=
  .ofValid "S"
    [⟨"S", [[.terminal "a", .nonterminal "A"], [.terminal "a"]]⟩, ⟨"A", [[.nonterminal "S"]]⟩]
    (by decide +kernel)

namespace indirectRecursion

/-- `S -> "a" A` -/
def further : indirectRecursion.ExprId := ⟨0, by decide +kernel⟩

/-- `S -> "a"` -/
def last : indirectRecursion.ExprId := ⟨1, by decide +kernel⟩

/-- `A -> S` -/
def unit : indirectRecursion.ExprId := ⟨2, by decide +kernel⟩

theorem further_eq : (indirectRecursion.expr further).head = "S" ∧
    (indirectRecursion.expr further).terms = [.terminal "a", .nonterminal "A"] := by
  decide +kernel

theorem last_eq : (indirectRecursion.expr last).head = "S" ∧
    (indirectRecursion.expr last).terms = [.terminal "a"] := by
  decide +kernel

theorem unit_eq : (indirectRecursion.expr unit).head = "A" ∧
    (indirectRecursion.expr unit).terms = [.nonterminal "S"] := by
  decide +kernel

end indirectRecursion

/-- The letter `a`, so many times. -/
def letters (n : Nat) : Tokens Unit := Array.replicate n ⟨"a", ()⟩

theorem getElem?_letters {n i : Nat} (hi : i < n) : (letters n)[i]? = some ⟨"a", ()⟩ := by
  rw [letters, Array.getElem?_replicate, if_pos hi]

namespace indirectRecursion

variable {n : Nat}

theorem spans_letter {i : Nat} (hi : i < n) :
    Spans (g := indirectRecursion) (letters n) [.terminal "a"] [.leaf i ⟨"a", ()⟩] i (i + 1) :=
  .leaf rfl (getElem?_letters hi) rfl (.nil _)

/-- `S` has a tree over any letters. -/
theorem exists_spans (length : Nat) {i : Nat} (hi : i + length < n) :
    ∃ z, Spans (g := indirectRecursion) (letters n) [.nonterminal "S"] [z] i (i + length + 1) := by
  induction length generalizing i with
  | zero => exact ⟨_, .branch rfl last last_eq.1 (last_eq.2 ▸ spans_letter hi) (.nil _)⟩
  | succ length ih =>
    obtain ⟨z, hz⟩ := ih (i := i + 1) (by omega)
    rw [show i + 1 + length + 1 = i + (length + 1) + 1 by omega] at hz
    have hunit : Spans (letters n) [.nonterminal "A"] _ (i + 1) _ :=
      .branch rfl unit unit_eq.1 (unit_eq.2 ▸ hz) (.nil _)
    have hfurther := (spans_letter (show i < n by omega)).append hunit
    rw [List.singleton_append, ← further_eq.2] at hfurther
    exact ⟨_, .branch rfl further further_eq.1 hfurther (.nil _)⟩

/-- Behind every letter there is a state that waits for `S`, and `S` is predicted. -/
theorem charted_unit {i : Nat} (hi : i < n)
    (h : Charted (letters n) (⟨.atStart further, i⟩ : Key indirectRecursion) i) :
    Charted (letters n) (⟨.atStart unit, i + 1⟩ : Key indirectRecursion) (i + 1) ∧
      Charted (letters n) (⟨.atStart further, i + 1⟩ : Key indirectRecursion) (i + 1) := by
  have hone : 1 ≤ (indirectRecursion.expr further).length := by
    rw [Expr.length, further_eq.2]
    decide
  have hletter : Charted (letters n) (⟨⟨further, 1, hone⟩, i⟩ : Key indirectRecursion) (i + 1) :=
    Charted.of_spans (spans_letter hi) [] [.nonterminal "A"] further_eq.2 rfl rfl h
  have hunit : Charted (letters n) (⟨.atStart unit, i + 1⟩ : Key indirectRecursion) (i + 1) := by
    refine .predict hletter ⟨.nonterminal "A", ?_, rfl, rfl⟩ unit_eq.1
    rw [Item.next?, Item.terms, further_eq.2]
    rfl
  refine ⟨hunit, .predict hunit ⟨.nonterminal "S", ?_, rfl, rfl⟩ further_eq.1⟩
  rw [Item.next?, Item.terms]
  change (indirectRecursion.expr unit).terms[0]? = _
  rw [unit_eq.2]
  rfl

theorem charted_further {i : Nat} (hi : i ≤ n) :
    Charted (letters n) (⟨.atStart further, i⟩ : Key indirectRecursion) i := by
  induction i with
  | zero =>
    refine .seed (Grammar.mem_startAlternatives.mpr ?_)
    rw [further_eq.1]
    decide +kernel
  | succ i ih => exact (charted_unit hi (ih (by omega))).2

/-- At the end of the letters, `A => S .` is there from every position but the first. -/
theorem has_unit {s : StateSet indirectRecursion}
    (hs : (after indirectRecursion (letters n) (n + 1)).closed[n]? = some s) {i : Nat}
    (hi : i + 1 < n) : s.Has ⟨.atEnd unit, i + 1⟩ := by
  obtain ⟨hstart, -⟩ := charted_unit (by omega) (charted_further (by omega : i ≤ n))
  obtain ⟨z, hz⟩ := exists_spans (n - (i + 2)) (show i + 1 + (n - (i + 2)) < n by omega)
  rw [show i + 1 + (n - (i + 2)) + 1 = n by omega, ← unit_eq.2] at hz
  refine (regular_after _ _ _).has_of_cursor_eq_one hs (hstart.atEnd hz) ?_
  change (indirectRecursion.expr unit).terms.length = 1
  rw [unit_eq.2]
  rfl

end indirectRecursion

end Examples

/-- **Units undo the bound.**  `S -> "a" A | "a"; A -> S` is right-linear and not
ambiguous, and yet its sets have more states than any bound. -/
theorem right_recursion_unbounded :
    Examples.indirectRecursion.RightLinear ∧ Examples.indirectRecursion.Unambiguous ∧
      ∀ bound, ∃ (tokens : Tokens Unit) (n k : Nat) (s : StateSet Examples.indirectRecursion),
        (after Examples.indirectRecursion tokens n).set? k = some s ∧ bound < s.size := by
  have hlinear : Examples.indirectRecursion.RightLinear := by decide +kernel
  have hlengths : Examples.indirectRecursion.LengthsDiffer := by decide +kernel
  refine ⟨hlinear, hlengths.unambiguous hlinear, fun bound => ?_⟩
  have h := regular_after Examples.indirectRecursion (Examples.letters (bound + 2)) (bound + 3)
  have hreached := Examples.indirectRecursion.charted_further (Nat.le_refl (bound + 2))
  have hclosed := (h.lt_size_iff (stepped_after _ _ _)).mpr
    ⟨Nat.lt_succ_self (bound + 2), .inr ⟨_, hreached⟩⟩
  obtain ⟨s, hs⟩ := exists_closed_of_le hclosed (Nat.le_refl _)
  refine ⟨_, bound + 3, bound + 2, s, by rw [set?, if_pos hclosed, hs], ?_⟩
  have hinj : Function.Injective fun i : Nat =>
      (⟨.atEnd Examples.indirectRecursion.unit, i + 1⟩ : Key Examples.indirectRecursion) := by
    intro i j hij
    exact Nat.succ.inj (congrArg Key.origin hij)
  have hsubset : (List.range (bound + 1)).map (fun i : Nat =>
      (⟨.atEnd Examples.indirectRecursion.unit, i + 1⟩ : Key Examples.indirectRecursion)) ⊆
      s.keys := by
    intro key hkey
    obtain ⟨i, hi, rfl⟩ := List.mem_map.mp hkey
    have hi := List.mem_range.mp hi
    exact Examples.indirectRecursion.has_unit hs (by omega)
  have hlength := length_le_of_nodup_of_subset (List.nodup_range.map hinj) hsubset
  rw [List.length_map, List.length_range, StateSet.length_keys] at hlength
  exact hlength

end Chart

end ChartParser
