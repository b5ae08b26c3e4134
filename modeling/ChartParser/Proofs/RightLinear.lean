/-
Right-linear grammars, and what it means for them not to be ambiguous.

If nonterminals come last in their expressions, a tree has one branch: every expression in
it is the last term of the one above.  An incomplete state has matched terminals only, and
so its position says where it started.  Without ambiguity, all expressions that end at a
position lie on the same branch.

* **`RightLinear.position_eq`** — where an incomplete state started;
* **`RightLinear.exists_above`** — the branch above a state does not depend on what the rest
  of its expression will be matched by;
* **`RightLinear.waiter_unique`**, **`RightLinear.uses_of_lt`** — what unambiguity means for
  the states of a chart: a nonterminal that is completed had one waiter, and of two
  expressions that end together the earlier leads to the later;
* **`LengthsDiffer.unambiguous`** — expressions that can be told apart by their lengths
  make no ambiguity.
-/
import ChartParser.Proofs.Fixpoint
import Mathlib.Logic.Relation

namespace ChartParser

open ChartParser.Tree
open Relation (ReflTransGen)

variable {g : Grammar} {α : Type} {tokens : Tokens α}

/-- An expression is not empty, and nonterminals occur only as its last term. -/
def Grammar.RightLinear (g : Grammar) : Prop :=
  ∀ id : g.ExprId, (g.expr id).terms ≠ [] ∧ ∀ t ∈ (g.expr id).terms.dropLast, t.kind = .terminal

instance : Decidable g.RightLinear :=
  inferInstanceAs (Decidable (∀ id : g.ExprId,
    (g.expr id).terms ≠ [] ∧ ∀ t ∈ (g.expr id).terms.dropLast, t.kind = .terminal))

/-- No nonterminal has two derivation trees for the same names. -/
def Grammar.Unambiguous (g : Grammar) : Prop :=
  ∀ (name : Name) (names : List Name) (t u : Tree g Unit),
    Spans (.ofNames names) [.nonterminal name] [t] 0 names.length →
    Spans (.ofNames names) [.nonterminal name] [u] 0 names.length → t = u

/-! ### Branches -/

namespace Tree

mutual

/-- The expressions in a tree from the top down, each with the position where it
starts. -/
def branches : Tree g α → List (g.ExprId × Nat)
  | .leaf _ _ => []
  | .branch expr start _ children => (expr, start) :: branchesAll children

/-- The expressions in some trees, one tree after the other. -/
def branchesAll : List (Tree g α) → List (g.ExprId × Nat)
  | [] => []
  | tree :: trees => branches tree ++ branchesAll trees

end

variable {ts : Expression} {zs : List (Tree g α)} {i j k : Nat}

/-- Expressions start where the trees start or later. -/
theorem Spans.start_le (h : Spans tokens ts zs i j) {id : g.ExprId} {o : Nat}
    (hmem : (id, o) ∈ branchesAll zs) : i ≤ o := by
  induction h with
  | nil => simp [branchesAll] at hmem
  | leaf _ _ _ _ ih =>
    rw [branchesAll, branches, List.nil_append] at hmem
    have := ih hmem
    omega
  | branch _ _ _ inner _ ihInner ihRest =>
    rw [branchesAll, branches, List.mem_append, List.mem_cons, Prod.mk.injEq] at hmem
    rcases hmem with (⟨-, rfl⟩ | hmem) | hmem
    · exact Nat.le_refl _
    · exact ihInner hmem
    · have := ihRest hmem
      have := inner.le
      omega

/-- An expression in the trees of some terms can be come by from one of them. -/
theorem Spans.uses (h : Spans tokens ts zs i j) {id : g.ExprId} {o : Nat}
    (hmem : (id, o) ∈ branchesAll zs) :
    ∃ t ∈ ts, t.kind = .nonterminal ∧ ReflTransGen g.Uses t.name (g.expr id).head := by
  induction h with
  | nil => simp [branchesAll] at hmem
  | leaf _ _ _ _ ih =>
    rw [branchesAll, branches, List.nil_append] at hmem
    obtain ⟨t, ht, hkind, hpath⟩ := ih hmem
    exact ⟨t, List.mem_cons_of_mem _ ht, hkind, hpath⟩
  | @branch t ts _ _ _ _ _ kind id' head _ _ ihInner ihRest =>
    rw [branchesAll, branches, List.mem_append, List.mem_cons, Prod.mk.injEq] at hmem
    rcases hmem with (⟨rfl, -⟩ | hmem) | hmem
    · exact ⟨t, List.mem_cons_self, kind, head ▸ .refl⟩
    · obtain ⟨u, hu, hkind, hpath⟩ := ihInner hmem
      exact ⟨t, List.mem_cons_self, kind, .head ⟨id', head, u, hu, hkind, rfl⟩ hpath⟩
    · obtain ⟨u, hu, hkind, hpath⟩ := ihRest hmem
      exact ⟨u, List.mem_cons_of_mem _ hu, hkind, hpath⟩

/-- Trees over the first tokens are, but for the payloads, trees over their names. -/
theorem Spans.exists_names (h : Spans tokens ts zs i j) (hj : j ≤ k) :
    ∃ zs' : List (Tree g Unit),
      Spans (.ofNames (tokens.names.take k)) ts zs' i j ∧ branchesAll zs' = branchesAll zs := by
  induction h with
  | nil i => exact ⟨[], .nil i, rfl⟩
  | @leaf t ts zs i j token kind found name rest ih =>
    obtain ⟨zs', hzs', hbranches⟩ := ih hj
    have hle := rest.le
    have hname : tokens.nameAt? i = some token.name :=
      Tokens.nameAt?_eq_some_iff.mpr ⟨token, found, rfl⟩
    refine ⟨.leaf i ⟨token.name, ()⟩ :: zs', .leaf kind ?_ name hzs', ?_⟩
    · rw [Tokens.getElem?_ofNames, List.getElem?_take_of_lt (by omega), getElem?_names, hname]
      rfl
    · rw [branchesAll, branchesAll, branches, branches, hbranches]
  | @branch t ts children zs i j k' kind id head inner rest ihInner ihRest =>
    obtain ⟨children', hchildren', hinner⟩ := ihInner (Nat.le_trans rest.le hj)
    obtain ⟨zs', hzs', hrest⟩ := ihRest hj
    refine ⟨_, .branch kind id head hchildren' hzs', ?_⟩
    rw [branchesAll, branchesAll, branches, branches, hinner, hrest]

end Tree

/-- Trees of an unambiguous nonterminal over the beginning of an input have the same
expressions. -/
theorem Grammar.Unambiguous.branches_eq (h : g.Unambiguous) {name : Name} {t u : Tree g α} {k : Nat}
    (hk : k ≤ tokens.size) (ht : Spans tokens [.nonterminal name] [t] 0 k)
    (hu : Spans tokens [.nonterminal name] [u] 0 k) : t.branches = u.branches := by
  obtain ⟨ts, hts, hbranches⟩ := ht.exists_names (Nat.le_refl k)
  obtain ⟨us, hus, hbranches'⟩ := hu.exists_names (Nat.le_refl k)
  obtain ⟨t', rfl⟩ := hts.eq_singleton
  obtain ⟨u', rfl⟩ := hus.eq_singleton
  have hlength : (tokens.names.take k).length = k := by
    rw [List.length_take, Tokens.names, List.length_map, Array.length_toList, Nat.min_eq_left hk]
  have heq : t' = u' := by
    refine h name (tokens.names.take k) t' u' ?_ ?_
    · rw [hlength]
      exact hts
    · rw [hlength]
      exact hus
  rw [heq, hbranches'] at hbranches
  simpa only [branchesAll, List.append_nil] using hbranches.symm

/-- Of two elements of a list, one comes behind the other. -/
theorem mem_or_mem_of_append_cons_eq {β : Type} {as bs as' bs' : List β} {b b' : β}
    (h : as ++ b :: bs = as' ++ b' :: bs') (hne : b ≠ b') : b' ∈ bs ∨ b ∈ bs' := by
  rcases List.append_eq_append_iff.mp h with ⟨between, -, hsplit⟩ | ⟨between, -, hsplit⟩
  · cases between with
    | nil => exact absurd (List.cons.inj hsplit).1 hne
    | cons first between =>
      left
      rw [(List.cons.inj hsplit).2]
      exact List.mem_append_right _ List.mem_cons_self
  · cases between with
    | nil => exact absurd (List.cons.inj hsplit).1 hne.symm
    | cons first between =>
      right
      rw [(List.cons.inj hsplit).2]
      exact List.mem_append_right _ List.mem_cons_self

/-! ### One branch -/

namespace Grammar.RightLinear

variable (hlinear : g.RightLinear) {key : Key g} {k : Nat}

include hlinear

/-- What is waited for is the last term. -/
theorem drop_of_awaits {name : Name} (h : key.Awaits name) :
    ∃ t, key.item.terms.drop key.item.cursor = [t] ∧ t.kind = .nonterminal ∧ t.name = name := by
  obtain ⟨t, hnext, hkind, hname⟩ := h
  refine ⟨t, ?_, hkind, hname⟩
  obtain ⟨hlt, hget⟩ := List.getElem?_eq_some_iff.mp hnext
  have hlast : key.item.terms.length ≤ key.item.cursor + 1 := by
    -- any other place is one of a terminal
    by_contra hnot
    have hmem : t ∈ key.item.terms.dropLast := by
      refine List.mem_of_getElem? (i := key.item.cursor) ?_
      rw [List.getElem?_dropLast, if_pos (by omega)]
      exact hnext
    rw [(hlinear key.item.expr).2 t hmem] at hkind
    contradiction
  rw [List.drop_eq_getElem_cons hlt, hget, List.drop_eq_nil_of_le hlast]

/-- A state that gets what it waits for is complete. -/
theorem isComplete_of_awaits {next : Key g} {name : Name} (h : key.Awaits name)
    (hadvance : key.advance? = some next) : next.item.isComplete = true := by
  obtain ⟨t, hdrop, -, -⟩ := hlinear.drop_of_awaits h
  obtain ⟨-, hexpr, hcursor⟩ :=
    Item.advance?_eq_some_iff.mp (Key.advance?_eq_some_iff.mp hadvance).1
  have hlength := congrArg List.length hdrop
  rw [List.length_drop, List.length_singleton] at hlength
  rw [Item.isComplete_iff, Item.terms, hexpr, hcursor]
  change _ = key.item.terms.length
  omega

/-- What an incomplete state has matched are terminals. -/
theorem previous_of_incomplete (h : key.item.isComplete = false) {t : Term}
    (hprevious : key.item.previous? = some t) : t.kind = .terminal := by
  have hne : key.item.cursor ≠ key.item.terms.length := by
    rw [Ne, ← Item.isComplete_iff, h]
    exact Bool.false_ne_true
  have hle := key.item.cursor_le_length
  refine (hlinear key.item.expr).2 t ?_
  rw [Item.previous?] at hprevious
  split at hprevious
  · contradiction
  · rename_i c hc
    refine List.mem_of_getElem? (i := c) ?_
    rw [List.getElem?_dropLast, if_pos ?_]
    · exact hprevious
    · change c < key.item.terms.length - 1
      omega

/-- A state that has matched terminals only stands as far from its origin as its cursor
from the start. -/
theorem position_eq (h : Charted tokens key k)
    (hprevious : ∀ t, key.item.previous? = some t → t.kind = .terminal) :
    k = key.origin + key.item.cursor := by
  induction h with
  | seed => rfl
  | predict => rfl
  | scan _ scans _ advance ih =>
    have hk := ih fun t => hlinear.previous_of_incomplete scans.isComplete_eq_false
    obtain ⟨hitem, horigin⟩ := Key.advance?_eq_some_iff.mp advance
    have hcursor := (Item.advance?_eq_some_iff.mp hitem).2.2
    omega
  | complete _ awaits _ _ advance _ _ =>
    obtain ⟨t, hnext, hkind, -⟩ := awaits
    have hterminal := hprevious t
      ((Item.previous?_of_advance? (Key.advance?_eq_some_iff.mp advance).1).trans hnext)
    rw [hkind] at hterminal
    contradiction

theorem position_of_incomplete (h : Charted tokens key k)
    (hincomplete : key.item.isComplete = false) : k = key.origin + key.item.cursor :=
  hlinear.position_eq h fun _ => hlinear.previous_of_incomplete hincomplete

/-- **One branch.**  Above an incomplete state there is one branch: whatever trees match
the rest of its expression, they end a tree of the start symbol in which the expression
comes behind the same expressions. -/
theorem exists_above (h : Charted tokens key k) (hincomplete : key.item.isComplete = false) :
    ∃ above : List (g.ExprId × Nat), ∀ {zs : List (Tree g α)} {stop : Nat},
      Spans tokens (key.item.terms.drop key.item.cursor) zs k stop →
      ∃ s t, g.start = some s ∧ Spans tokens [.nonterminal s] [t] 0 stop ∧
        t.branches = above ++ (key.item.expr, key.origin) :: branchesAll zs := by
  induction h with
  | @seed id start =>
    refine ⟨[], fun {zs stop} hzs => ?_⟩
    exact ⟨_, .branch id 0 stop zs, Grammar.mem_startAlternatives.mp start,
      .branch rfl id rfl hzs (.nil stop), rfl⟩
  | @predict waiter k name id _ awaits head ih =>
    obtain ⟨above, habove⟩ := ih awaits.isComplete_eq_false
    obtain ⟨t, hdrop, hkind, rfl⟩ := hlinear.drop_of_awaits awaits
    refine ⟨above ++ [(waiter.item.expr, waiter.origin)], fun {zs stop} hzs => ?_⟩
    have hbranch : Spans tokens [t] [.branch id k stop zs] k stop :=
      .branch hkind id head hzs (.nil stop)
    obtain ⟨s, tree, hs, htree, hbranches⟩ := habove (hdrop ▸ hbranch)
    refine ⟨s, tree, hs, htree, ?_⟩
    rw [hbranches, List.append_assoc, branchesAll, branchesAll, branches, List.append_nil]
    rfl
  | @scan scanner next k name _ scans token advance ih =>
    obtain ⟨above, habove⟩ := ih scans.isComplete_eq_false
    obtain ⟨hitem, horigin⟩ := Key.advance?_eq_some_iff.mp advance
    obtain ⟨hlt, hexpr, hcursor⟩ := Item.advance?_eq_some_iff.mp hitem
    obtain ⟨t, hnext, hkind, rfl⟩ := scans
    obtain ⟨token, hfound, hname⟩ := Tokens.nameAt?_eq_some_iff.mp token
    refine ⟨above, fun {zs stop} hzs => ?_⟩
    have hdrop : scanner.item.terms.drop scanner.item.cursor =
        t :: next.item.terms.drop next.item.cursor := by
      rw [List.drop_eq_getElem_cons hlt, (List.getElem?_eq_some_iff.mp hnext).2, hcursor,
        Item.terms, Item.terms, hexpr]
    have hleaf : Spans tokens (t :: next.item.terms.drop next.item.cursor) (.leaf k token :: zs)
        k stop := .leaf hkind hfound hname hzs
    obtain ⟨s, tree, hs, htree, hbranches⟩ := habove (hdrop ▸ hleaf)
    refine ⟨s, tree, hs, htree, ?_⟩
    rw [hbranches, branchesAll, branches, List.nil_append, hexpr, horigin]
  | complete _ awaits _ _ advance _ _ =>
    rw [hlinear.isComplete_of_awaits awaits advance] at hincomplete
    contradiction

/-- Every term matches something. -/
theorem length_le_of_spans {ts : Expression} {zs : List (Tree g α)} {i j : Nat}
    (h : Spans tokens ts zs i j) : i + ts.length ≤ j := by
  induction h with
  | nil => exact Nat.le_refl _
  | leaf _ _ _ _ ih =>
    rw [List.length_cons]
    omega
  | branch _ id _ _ _ ihInner ihRest =>
    have hpos := List.length_pos_iff.mpr (hlinear id).1
    rw [List.length_cons]
    omega

theorem lt_of_completed {name : Name} {j k : Nat} (h : Completed g tokens name j k) : j < k := by
  obtain ⟨z, hz⟩ := h.exists_spans
  exact hlinear.length_le_of_spans hz

/-- A state that waits where it starts is one of a unit expression, and this ends where
the state gets what it waits for. -/
theorem unit_of_awaits_here (h : Charted tokens key k) {name : Name} (hawaits : key.Awaits name)
    (horigin : key.origin = k) {done : Key g} (hadvance : key.advance? = some done) {stop : Nat}
    (hdone : Charted tokens done stop) :
    (∃ t, (g.expr key.item.expr).terms = [t] ∧ t.kind = .nonterminal ∧ t.name = name) ∧
      Charted tokens ⟨.atEnd key.item.expr, k⟩ stop := by
  constructor
  · obtain ⟨t, hdrop, ht⟩ := hlinear.drop_of_awaits hawaits
    have hposition := hlinear.position_of_incomplete h hawaits.isComplete_eq_false
    have hcursor : key.item.cursor = 0 := by omega
    rw [hcursor, List.drop_zero] at hdrop
    exact ⟨t, hdrop, ht⟩
  · obtain ⟨hitem, horigin'⟩ := Key.advance?_eq_some_iff.mp hadvance
    have hend := Item.eq_atEnd_of_isComplete (hlinear.isComplete_of_awaits hawaits hadvance)
    rw [← (Item.advance?_eq_some_iff.mp hitem).2.1, ← horigin, ← horigin', ← hend]
    exact hdone

variable (hunambiguous : g.Unambiguous)

include hunambiguous

/-- Without ambiguity, two states whose expressions are matched up to the same position
lie on the same branch. -/
theorem exists_branch {key' : Key g} {k' stop : Nat} (h : Charted tokens key k)
    (h' : Charted tokens key' k') (hincomplete : key.item.isComplete = false)
    (hincomplete' : key'.item.isComplete = false) (hstop : stop ≤ tokens.size)
    {zs zs' : List (Tree g α)}
    (hzs : Spans tokens (key.item.terms.drop key.item.cursor) zs k stop)
    (hzs' : Spans tokens (key'.item.terms.drop key'.item.cursor) zs' k' stop) :
    ∃ above above' : List (g.ExprId × Nat),
      above ++ (key.item.expr, key.origin) :: branchesAll zs =
        above' ++ (key'.item.expr, key'.origin) :: branchesAll zs' := by
  obtain ⟨above, habove⟩ := hlinear.exists_above h hincomplete
  obtain ⟨above', habove'⟩ := hlinear.exists_above h' hincomplete'
  obtain ⟨s, t, hs, ht, hbranches⟩ := habove hzs
  obtain ⟨s', t', hs', ht', hbranches'⟩ := habove' hzs'
  obtain rfl := Option.some.inj (hs.symm.trans hs')
  refine ⟨above, above', ?_⟩
  rw [← hbranches, ← hbranches']
  exact hunambiguous.branches_eq hstop ht ht'

/-- Without ambiguity, a nonterminal that is completed was waited for by one state. -/
theorem waiter_unique {waiter other : Key g} {name : Name} {j k : Nat}
    (h : Charted tokens waiter j) (hother : Charted tokens other j) (hawaits : waiter.Awaits name)
    (hawaits' : other.Awaits name) (hcompleted : Completed g tokens name j k) :
    other = waiter := by
  have hstop : k ≤ tokens.size := by
    obtain ⟨done, hdone, -⟩ := hcompleted
    exact hdone.le_size
  obtain ⟨z, hz⟩ := hcompleted.exists_spans
  obtain ⟨id, children, hhead, hchildren, -⟩ := (spans_nonterminal_iff rfl).mp hz
  -- the tree of the nonterminal is what either of them has left to match
  have hrest : ∀ {key : Key g}, key.Awaits name →
      Spans tokens (key.item.terms.drop key.item.cursor) [.branch id j k children] j k := by
    intro key hkey
    obtain ⟨t, hdrop, hkind, rfl⟩ := hlinear.drop_of_awaits hkey
    rw [hdrop]
    exact .branch hkind id hhead hchildren (.nil k)
  obtain ⟨above, above', heq⟩ := hlinear.exists_branch hunambiguous h hother
    hawaits.isComplete_eq_false hawaits'.isComplete_eq_false hstop (hrest hawaits) (hrest hawaits')
  have hboth := (List.append_inj' heq (by simp only [List.length_cons])).2
  obtain ⟨hexpr, horigin⟩ := Prod.mk.injEq .. ▸ (List.cons.inj hboth).1
  have hposition := hlinear.position_of_incomplete h hawaits.isComplete_eq_false
  have hposition' := hlinear.position_of_incomplete hother hawaits'.isComplete_eq_false
  have hitem : other.item = waiter.item := Item.ext hexpr.symm (by omega)
  cases waiter
  cases other
  simp only at hitem horigin
  rw [hitem, horigin]

/-- Without ambiguity, of two expressions that end at the same position the one that
starts earlier leads to the one that starts later. -/
theorem uses_of_lt {id id' : g.ExprId} {o o' k : Nat} (h : Charted tokens ⟨.atEnd id, o⟩ k)
    (h' : Charted tokens ⟨.atEnd id', o'⟩ k) (hlt : o < o') :
    ∃ t ∈ (g.expr id).terms, t.kind = .nonterminal ∧
      ReflTransGen g.Uses t.name (g.expr id').head := by
  have hincomplete : ∀ id : g.ExprId, (Item.atStart id).isComplete = false := by
    intro id
    rw [← Bool.not_eq_true, Item.isComplete_iff]
    exact fun hlength => (hlinear id).1 (List.eq_nil_of_length_eq_zero hlength.symm)
  obtain ⟨zs, hzs⟩ := h.exists_spans
  obtain ⟨zs', hzs'⟩ := h'.exists_spans
  rw [Item.matched_of_isComplete (Item.isComplete_atEnd _)] at hzs hzs'
  obtain ⟨above, above', heq⟩ := hlinear.exists_branch hunambiguous h.atStart h'.atStart
    (hincomplete id) (hincomplete id') h.le_size hzs hzs'
  have hne : (id, o) ≠ (id', o') := fun heq => Nat.ne_of_lt hlt (Prod.mk.inj heq).2
  rcases mem_or_mem_of_append_cons_eq heq hne with hmem | hmem
  · exact hzs.uses hmem
  · -- the later one cannot come before the earlier one on the branch
    exact absurd hlt (Nat.not_lt.mpr (hzs'.start_le hmem))

end Grammar.RightLinear

/-! ### Grammars without ambiguity -/

/-- Of two expressions of one nonterminal, one consists of terminals and is shorter than
the other. -/
def Grammar.LengthsDiffer (g : Grammar) : Prop :=
  ∀ id id' : g.ExprId, id ≠ id' → (g.expr id).head = (g.expr id').head →
    (∀ t ∈ (g.expr id).terms, t.kind = .terminal) ∧ (g.expr id).length < (g.expr id').length ∨
    (∀ t ∈ (g.expr id').terms, t.kind = .terminal) ∧ (g.expr id').length < (g.expr id).length

instance : Decidable g.LengthsDiffer :=
  inferInstanceAs (Decidable (∀ id id' : g.ExprId, id ≠ id' →
    (g.expr id).head = (g.expr id').head →
    (∀ t ∈ (g.expr id).terms, t.kind = .terminal) ∧ (g.expr id).length < (g.expr id').length ∨
    (∀ t ∈ (g.expr id').terms, t.kind = .terminal) ∧ (g.expr id').length < (g.expr id).length))

/-- Terminals match as many tokens as they are. -/
theorem Tree.Spans.length_eq {ts : Expression} {zs : List (Tree g α)} {i j : Nat}
    (h : Spans tokens ts zs i j) (hts : ∀ t ∈ ts, t.kind = .terminal) : i + ts.length = j := by
  induction h with
  | nil => rfl
  | leaf _ _ _ _ ih =>
    have := ih fun t ht => hts t (List.mem_cons_of_mem _ ht)
    rw [List.length_cons]
    omega
  | branch kind =>
    rw [hts _ List.mem_cons_self] at kind
    contradiction

namespace Grammar.LengthsDiffer

variable (hlengths : g.LengthsDiffer) (hlinear : g.RightLinear)

include hlengths hlinear

theorem expr_unique {id id' : g.ExprId} {zs zs' : List (Tree g α)} {i j : Nat}
    (hhead : (g.expr id).head = (g.expr id').head) (h : Spans tokens (g.expr id).terms zs i j)
    (h' : Spans tokens (g.expr id').terms zs' i j) : id = id' := by
  by_contra hne
  have hle := hlinear.length_le_of_spans h
  have hle' := hlinear.length_le_of_spans h'
  rcases hlengths id id' hne hhead with ⟨hterminals, hlt⟩ | ⟨hterminals, hlt⟩
  · have heq := h.length_eq hterminals
    rw [Expr.length, Expr.length] at hlt
    omega
  · have heq := h'.length_eq hterminals
    rw [Expr.length, Expr.length] at hlt
    omega

theorem spans_unique {ts : Expression} {zs zs' : List (Tree g α)} {i j : Nat}
    (h : Spans tokens ts zs i j) (hts : ∀ t ∈ ts.dropLast, t.kind = .terminal)
    (h' : Spans tokens ts zs' i j) : zs = zs' := by
  induction h generalizing zs' with
  | nil => exact (spans_nil_iff.mp h').1.symm
  | @leaf t ts zs i j token kind found name rest ih =>
    have htail : ∀ u ∈ ts.dropLast, u.kind = .terminal := by
      intro u hu
      cases ts with
      | nil => contradiction
      | cons v vs => exact hts u (List.mem_cons_of_mem t hu)
    cases h' with
    | leaf _ found' _ rest' =>
      rw [Option.some.inj (found.symm.trans found'), ih htail rest']
    | branch kind' =>
      rw [kind] at kind'
      contradiction
  | @branch t ts children zs i j k kind id head inner rest ihInner ihRest =>
    -- a nonterminal is the last term
    obtain rfl : ts = [] := by
      cases ts with
      | nil => rfl
      | cons v vs =>
        rw [hts t List.mem_cons_self] at kind
        contradiction
    obtain ⟨rfl, rfl⟩ := spans_nil_iff.mp rest
    obtain ⟨id', children', head', inner', rfl⟩ := (spans_nonterminal_iff kind).mp h'
    obtain rfl := hlengths.expr_unique hlinear (head.trans head'.symm) inner inner'
    rw [ihInner (hlinear id).2 inner']

/-- **Lengths tell expressions apart.** -/
theorem unambiguous : g.Unambiguous := by
  intro name names t u ht hu
  have heq := hlengths.spans_unique hlinear ht (fun _ hmem => by contradiction) hu
  exact (List.cons.inj heq).1

end Grammar.LengthsDiffer

end ChartParser
