/-
Searches end, and the lint is exact.

A search goes on as long as its frontier is not empty, so nothing in its text says
that it stops; what is given to it as a bound is only a promise that it does.

* **`Search.Ends`** — the rounds come to an end, with a result, when no bound stops
  them;
* **`Search.ends_rounds`** — they do if nothing leads out of a finite domain: every
  round but the last sees something new;
* **`Search.Ends.mem_seen`** — what is seen in the end is what can be come by.  Between
  two rounds, everything seen that is not in the frontier has its successors seen;
* **`Grammar.unreachable_exact`** — the unreachable nonterminals of a grammar are those
  heads of rules to which no chain of uses leads from the start symbol.
-/
import ChartParser.Grammar.Lint
import ChartParser.Language
import ChartParser.Proofs.Capacity
import ChartParser.Proofs.Merging
import Mathlib.Logic.Relation

namespace ChartParser

open Relation (ReflTransGen)
open Std (TreeSet)

namespace Search

variable {α : Type} [Ord α] {successors : α → List α} {frontier seen : TreeSet α}

/-- `Ends successors frontier seen result`: rounds that go on for as long as there is
a frontier come to an end, with the given result. -/
inductive Ends (successors : α → List α) : (frontier seen : TreeSet α) → Search α → Prop where
  | done {frontier seen : TreeSet α} (empty : frontier.isEmpty = true) :
      Ends successors frontier seen ⟨[], seen⟩
  | further {frontier seen : TreeSet α} {rest : Search α} (inhabited : frontier.isEmpty = false)
      (ends : Ends successors (round successors frontier seen).next
        (round successors frontier seen).seen rest) :
      Ends successors frontier seen ⟨frontier.toList ++ rest.visited, rest.seen⟩

/-! ### One round -/

theorem round_eq : round successors frontier seen =
    (frontier.toList.flatMap successors).foldl Front.add { next := ∅, seen } := by
  rw [round, List.foldl_flatMap]

variable [Std.TransOrd α] [Std.LawfulEqOrd α]

theorem mem_insert_iff {s : TreeSet α} {a b : α} : b ∈ s.insert a ↔ b = a ∨ b ∈ s := by
  rw [TreeSet.mem_insert, Std.compare_eq_iff_eq, eq_comm]

/-- Adding some elements to a frontier: they are all seen, and those that were not
seen before are in the frontier. -/
theorem foldl_add (as : List α) (front : Front α) (b : α) :
    (b ∈ (as.foldl Front.add front).seen ↔ b ∈ front.seen ∨ b ∈ as) ∧
      (b ∈ (as.foldl Front.add front).next ↔ b ∈ front.next ∨ b ∈ as ∧ b ∉ front.seen) := by
  induction as generalizing front with
  | nil => simp
  | cons a as ih =>
    obtain ⟨hseen, hnext⟩ := ih (front.add a)
    rw [List.foldl_cons, hseen, hnext, List.mem_cons]
    by_cases ha : a ∈ front.seen
    · rw [Front.add, if_pos (TreeSet.contains_iff_mem.mpr ha)]
      constructor
      · grind
      · grind
    · rw [Front.add, if_neg (mt TreeSet.contains_iff_mem.mp ha)]
      simp only [mem_insert_iff]
      constructor
      · grind
      · grind

/-- A round sees the successors of the frontier. -/
theorem mem_round_seen {b : α} : b ∈ (round successors frontier seen).seen ↔
    b ∈ seen ∨ ∃ a ∈ frontier, b ∈ successors a := by
  rw [round_eq, (foldl_add _ _ b).1]
  simp only [List.mem_flatMap, TreeSet.mem_toList]

/-- The next frontier is what a round sees for the first time. -/
theorem mem_round_next {b : α} : b ∈ (round successors frontier seen).next ↔
    (∃ a ∈ frontier, b ∈ successors a) ∧ b ∉ seen := by
  rw [round_eq, (foldl_add _ _ b).2]
  simp only [List.mem_flatMap, TreeSet.mem_toList, TreeSet.not_mem_emptyc, false_or]

/-! ### All rounds -/

theorem nodup_toList (s : TreeSet α) : s.toList.Nodup := by
  refine s.distinct_toList.imp fun hne heq => hne ?_
  rw [heq, Std.compare_eq_iff_eq]

/-- A set within a domain is no larger than it. -/
theorem size_le {domain : List α} {s : TreeSet α} (h : ∀ a ∈ s, a ∈ domain) :
    s.size ≤ domain.length := by
  rw [← TreeSet.length_toList]
  exact length_le_of_nodup_of_subset (nodup_toList s) fun a ha => h a (TreeSet.mem_toList.mp ha)

/-- A set that has something new is larger. -/
theorem size_lt {s t : TreeSet α} (h : ∀ a ∈ s, a ∈ t) {b : α} (hb : b ∈ t) (hnew : b ∉ s) :
    s.size < t.size := by
  have hnodup : (b :: s.toList).Nodup :=
    List.nodup_cons.mpr ⟨mt TreeSet.mem_toList.mp hnew, nodup_toList s⟩
  have hsubset : b :: s.toList ⊆ t.toList := by
    intro a ha
    rw [TreeSet.mem_toList]
    rcases List.mem_cons.mp ha with rfl | ha
    · exact hb
    · exact h a (TreeSet.mem_toList.mp ha)
  have hlength := length_le_of_nodup_of_subset hnodup hsubset
  rw [List.length_cons, TreeSet.length_toList, TreeSet.length_toList] at hlength
  exact hlength

/-- **Searches end.**  If nothing leads out of a domain, a bound that is larger than
what is unseen of it is never reached. -/
theorem ends_rounds (domain : List α)
    (hsuccessors : ∀ a ∈ domain, ∀ b ∈ successors a, b ∈ domain) {bound : Nat}
    (hseen : ∀ a ∈ seen, a ∈ domain) (hfrontier : ∀ a ∈ frontier, a ∈ seen)
    (hbound : frontier.isEmpty = true ∨ domain.length < seen.size + bound) :
    Ends successors frontier seen (rounds successors bound frontier seen) := by
  induction bound generalizing frontier seen with
  | zero =>
    have hsize := size_le hseen
    exact .done (hbound.resolve_right (by omega))
  | succ bound ih =>
    rw [rounds]
    cases hempty : frontier.isEmpty with
    | true => exact .done hempty
    | false =>
      rw [hempty] at hbound
      have hbound := hbound.resolve_left Bool.false_ne_true
      refine .further hempty (ih ?_ ?_ ?_)
      · intro b hb
        rcases mem_round_seen.mp hb with hb | ⟨a, ha, hb⟩
        · exact hseen b hb
        · exact hsuccessors a (hseen a (hfrontier a ha)) b hb
      · intro b hb
        exact mem_round_seen.mpr (.inr (mem_round_next.mp hb).1)
      · -- either nothing is new, or the new set is larger by what is new
        cases hnext : (round successors frontier seen).next.isEmpty with
        | true => exact .inl rfl
        | false =>
          obtain ⟨b, hb⟩ := TreeSet.isEmpty_eq_false_iff_exists_mem.mp hnext
          obtain ⟨hfound, hnew⟩ := mem_round_next.mp hb
          have hlt := size_lt (fun a ha => mem_round_seen.mpr (.inl ha))
            (mem_round_seen.mpr (.inr hfound)) hnew
          exact .inr (by omega)

/-- **Searches are exact.**  What is seen in the end can be come by from what was seen
in the beginning, if the successors of all of that but the frontier were seen too. -/
theorem Ends.mem_seen {result : Search α} (h : Ends successors frontier seen result)
    (hfrontier : ∀ a ∈ frontier, a ∈ seen)
    (hclosed : ∀ a ∈ seen, a ∉ frontier → ∀ b ∈ successors a, b ∈ seen) (b : α) :
    b ∈ result.seen ↔ ∃ a ∈ seen, ReflTransGen (fun a b => b ∈ successors a) a b := by
  induction h with
  | @done frontier seen empty =>
    constructor
    · intro hb
      exact ⟨b, hb, .refl⟩
    · rintro ⟨a, ha, hpath⟩
      -- nothing leads out of what is seen
      induction hpath with
      | refl => exact ha
      | tail _ hstep ih =>
        exact hclosed _ ih (TreeSet.isEmpty_iff_forall_not_mem.mp empty _) _ hstep
  | @further frontier seen rest inhabited ends ih =>
    have hnext : ∀ a ∈ (round successors frontier seen).next,
        a ∈ (round successors frontier seen).seen :=
      fun a ha => mem_round_seen.mpr (.inr (mem_round_next.mp ha).1)
    have hclosed' : ∀ a ∈ (round successors frontier seen).seen,
        a ∉ (round successors frontier seen).next →
        ∀ b ∈ successors a, b ∈ (round successors frontier seen).seen := by
      intro a ha hold b hb
      -- what is seen and not new was seen before, and if it was in the frontier, the
      -- round has seen its successors
      have hseen : a ∈ seen := by
        rcases mem_round_seen.mp ha with ha | ha
        · exact ha
        · by_contra hnew
          exact hold (mem_round_next.mpr ⟨ha, hnew⟩)
      by_cases hfront : a ∈ frontier
      · exact mem_round_seen.mpr (.inr ⟨a, hfront, hb⟩)
      · exact mem_round_seen.mpr (.inl (hclosed a hseen hfront b hb))
    rw [ih hnext hclosed']
    constructor
    · rintro ⟨a, ha, hpath⟩
      rcases mem_round_seen.mp ha with ha | ⟨a', ha', hstep⟩
      · exact ⟨a, ha, hpath⟩
      · exact ⟨a', hfrontier a' ha', .head hstep hpath⟩
    · rintro ⟨a, ha, hpath⟩
      exact ⟨a, mem_round_seen.mpr (.inl ha), hpath⟩

end Search

namespace Grammar

variable {g : Grammar}

theorem mem_successors {a b : Name} : b ∈ g.successors a ↔ g.Uses a b := by
  rw [successors, List.mem_flatMap]
  simp only [mem_alternatives, List.mem_filterMap, Uses, Term.nonterminal?, Term.isNonterminal,
    decide_eq_true_eq, Option.ite_none_right_eq_some, Option.some.injEq]

/-- The search starts with the start symbol. -/
theorem mem_ofList_start {a : Name} : a ∈ TreeSet.ofList g.start.toList ↔ g.start = some a := by
  rw [TreeSet.mem_ofList, List.contains_iff_mem, Option.mem_toList]

/-- The search for what a grammar can use sees heads only, and so it ends. -/
theorem ends_reachable (g : Grammar) :
    ∃ result, Search.Ends g.successors (TreeSet.ofList g.start.toList)
      (TreeSet.ofList g.start.toList) result ∧ g.reachable = result.seen := by
  refine ⟨_, Search.ends_rounds g.heads ?_ ?_ (fun _ ha => ha) (.inr ?_), rfl⟩
  · intro a _ b hb
    obtain ⟨id, -, t, ht, hkind, rfl⟩ := mem_successors.mp hb
    exact g.wellFormed.nonterminal_mem _ (g.expr_mem _) t ht hkind
  · intro a ha
    exact g.wellFormed.start_mem a (mem_ofList_start.mp ha)
  · omega

/-- What can be come by: a chain of uses leads there from the start symbol. -/
theorem mem_reachable_iff {a : Name} :
    a ∈ g.reachable ↔ ∃ s, g.start = some s ∧ ReflTransGen g.Uses s a := by
  obtain ⟨result, hends, hreachable⟩ := g.ends_reachable
  have huses : (fun a b => b ∈ g.successors a) = g.Uses := by
    funext a b
    exact propext mem_successors
  rw [hreachable, hends.mem_seen (fun _ ha => ha) (fun _ ha hnot => absurd ha hnot), huses]
  simp only [mem_ofList_start]

theorem mem_unreachable_iff {a : Name} : a ∈ g.unreachable ↔ a ∈ g.heads ∧ a ∉ g.reachable := by
  rw [unreachable, sortedDistinct, TreeSet.mem_toList, TreeSet.mem_ofList, List.contains_iff_mem,
    List.mem_filter, Bool.not_eq_true', ← Bool.not_eq_true, TreeSet.contains_iff_mem]

/-- **The lint is exact.**  The search for what a grammar can use comes to an end,
whatever cycles its rules have, and the unreachable nonterminals are, each listed once
and in order, the heads of those rules to which no chain of uses leads from the start
symbol. -/
theorem unreachable_exact (g : Grammar) :
    (∃ result, Search.Ends g.successors (TreeSet.ofList g.start.toList)
      (TreeSet.ofList g.start.toList) result ∧ g.reachable = result.seen) ∧
    (∀ a, a ∈ g.unreachable ↔ a ∈ g.rules.map (·.head) ∧
      ¬ ∃ s, g.start = some s ∧ ReflTransGen g.Uses s a) ∧
    g.unreachable.Pairwise (· < ·) := by
  refine ⟨g.ends_reachable, fun a => ?_, ?_⟩
  · rw [mem_unreachable_iff, mem_reachable_iff, map_head_rules]
  · have hordered := TreeSet.ordered_toList
      (t := TreeSet.ofList (g.heads.filter fun head => !g.reachable.contains head))
    exact hordered.imp fun h => compareOfLessAndEq_eq_lt.mp h

end Grammar

end ChartParser
