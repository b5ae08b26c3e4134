/-
Left recursion costs the same at every position.

A state set has room for one state per dotted item and origin.  If nonterminals come
first in their expressions, then nothing is ever predicted behind the beginning, and one
state per dotted item is all that a set can have.

* **`LeftLinear.origin_eq_zero`** — every state starts at the beginning: a waiter has
  matched nothing, so it stands where it starts;
* **`left_linear_bounded`** — no set has more states than there are dotted items.
-/
import ChartParser.Grammar.Examples
import ChartParser.Proofs.Safety

namespace ChartParser

variable {g : Grammar} {α : Type} {tokens : Tokens α}

/-- Nonterminals occur only as the first term of an expression. -/
def Grammar.LeftLinear (g : Grammar) : Prop :=
  ∀ id : g.ExprId, ∀ t ∈ (g.expr id).terms.tail, t.kind = .terminal

instance : Decidable g.LeftLinear :=
  inferInstanceAs
    (Decidable (∀ id : g.ExprId, ∀ t ∈ (g.expr id).terms.tail, t.kind = .terminal))

/-- A state that waits for a nonterminal has matched nothing. -/
theorem Grammar.LeftLinear.cursor_eq_zero (hlinear : g.LeftLinear) {key : Key g} {name : Name}
    (h : key.Awaits name) : key.item.cursor = 0 := by
  obtain ⟨t, hnext, hkind, -⟩ := h
  by_contra hne
  obtain ⟨c, hc⟩ := Nat.exists_eq_succ_of_ne_zero hne
  rw [Item.next?, hc, Nat.succ_eq_add_one, ← List.getElem?_tail] at hnext
  have hterminal := hlinear key.item.expr t (List.mem_of_getElem? hnext)
  rw [hkind] at hterminal
  contradiction

/-- Nothing starts behind the beginning. -/
theorem Grammar.LeftLinear.origin_eq_zero (hlinear : g.LeftLinear) {key : Key g} {k : Nat}
    (h : Charted tokens key k) : key.origin = 0 := by
  induction h with
  | seed => rfl
  | predict here awaits _ ih =>
    -- the waiter has matched nothing, so it stands where it starts, and that is the beginning
    rw [here.origin_eq_of_cursor_eq_zero (hlinear.cursor_eq_zero awaits)] at ih
    exact ih
  | scan _ _ _ advance ih => exact (Key.origin_of_advance? advance).trans ih
  | complete _ _ _ _ advance ih _ => exact (Key.origin_of_advance? advance).trans ih

namespace Chart

/-- **Left recursion is bounded.**  If nonterminals occur only as the first term of
expressions, then every state of every set starts at the beginning of the input, and no
set has more states than there are dotted items. -/
theorem left_linear_bounded (g : Grammar) (hlinear : g.LeftLinear) (tokens : Tokens α) (n k : Nat)
    (s : StateSet g) (hs : (after g tokens n).set? k = some s) :
    (∀ key, s.Has key → key.origin = 0) ∧ s.size ≤ g.numDottedItems := by
  have hsound := (regular_after g tokens n).sound_of_set? hs
  have horigin : ∀ key, s.Has key → key.origin = 0 :=
    fun key hkey => hlinear.origin_eq_zero (hsound.charted hkey)
  refine ⟨horigin, hsound.consistent.size_le_numDottedItems fun key key' hkey hkey' _ => ?_⟩
  rw [horigin key hkey, horigin key' hkey']

/-- `y x x`, which is read from the left. -/
def Examples.leftNested : Tokens Unit := #[⟨"y", ()⟩, ⟨"x", ()⟩, ⟨"x", ()⟩]

/-- At the end of `y x x` there are `A => A x .` and `A => A . x`, each once, and from the
beginning. -/
theorem left_linear_bounded_leftNested :
    Examples.leftRecursive.LeftLinear ∧
      ∃ s, (after Examples.leftRecursive Examples.leftNested 4).set? 3 = some s ∧
        (∀ key, s.Has key → key.origin = 0) ∧ s.size ≤ Examples.leftRecursive.numDottedItems := by
  have hlinear : Examples.leftRecursive.LeftLinear := by decide +kernel
  have hsome : ((after Examples.leftRecursive Examples.leftNested 4).set? 3).isSome = true := by
    decide +kernel
  obtain ⟨s, hs⟩ := Option.isSome_iff_exists.mp hsome
  exact ⟨hlinear, s, hs, left_linear_bounded _ hlinear _ 4 3 s hs⟩

end Chart

end ChartParser
