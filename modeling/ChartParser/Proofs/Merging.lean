/-
Productions with one left-hand side are merged without loss.

A grammar is made from productions in any order: those of one left-hand side may be
scattered, repeated or without alternatives.  It has one rule for each left-hand side,
and the numbers of its expressions follow the order in which they were written.

* **`pairwise_firstAppearances`** — heads are ordered by where they first appear;
* **`Tables.ofProductions_eq_error_iff`** — the loops stop at the first alternative with
  too many optional terms, and at nothing else;
* **`Grammar.existsUnique_rule`** — every expression is listed in one rule;
* **`Grammar.Merges`** — what a grammar keeps of the productions it is made from: the
  heads, the look-ups, the expressions in order, the numbers in each rule, and that
  more productions behind them change none of these;
* **`merging_exact`** — every grammar that is made from productions merges them.

What is said of the rules and the index is read off the tables as the loops leave them
(`Tables.tabulates_ofProductions`).  That no expression is lost or listed twice comes
down to two facts: the numbers of a rule are *all* numbers with its head, and no two
rules have the same head.
-/
import ChartParser.Proofs.Expansion
import Mathlib.Data.List.Nodup

namespace ChartParser

variable {ps : List Production} {g : Grammar}

/-! ### Order of first appearance -/

section FirstAppearances

variable {α : Type} [DecidableEq α]

theorem pairwise_firstAppearances (as : List α) :
    (firstAppearances as).Pairwise fun a b => as.idxOf a < as.idxOf b := by
  induction as with
  | nil => exact List.Pairwise.nil
  | cons a as ih =>
    have hne : ∀ {b}, b ∈ (firstAppearances as).filter (· ≠ a) → a ≠ b := by
      intro b hb heq
      have hkept := (List.mem_filter.mp hb).2
      simp [heq] at hkept
    rw [firstAppearances, List.pairwise_cons]
    constructor
    · intro b hb
      rw [List.idxOf_cons_ne _ (hne hb), List.idxOf_cons_self]
      omega
    · refine (ih.filter _).imp_of_mem ?_
      intro b c hb hc hlt
      rw [List.idxOf_cons_ne _ (hne hb), List.idxOf_cons_ne _ (hne hc)]
      omega

/-- More elements behind the others leave the order of the others alone. -/
theorem prefix_firstAppearances (as bs : List α) :
    firstAppearances as <+: firstAppearances (as ++ bs) := by
  induction as with
  | nil => exact List.nil_prefix
  | cons a as ih =>
    rw [List.cons_append, firstAppearances, firstAppearances, List.prefix_cons_inj]
    exact ih.filter _

end FirstAppearances

/-- A name is a left-hand side. -/
def IsLhs (ps : List Production) (name : Name) : Prop := ∃ p ∈ ps, p.lhs = name

instance {name : Name} : Decidable (IsLhs ps name) :=
  inferInstanceAs (Decidable (∃ p ∈ ps, p.lhs = name))

/-! ### What cannot be expanded -/

/-- The alternatives of productions, each with its left-hand side. -/
def written (ps : List Production) : List (Name × Expression) :=
  ps.flatMap fun p => p.rhs.map fun terms => (p.lhs, terms)

/-- What is wrong with the number of optional terms of an alternative. -/
def expansionFault? (a : Name × Expression) : Option GrammarError :=
  if a.2.optionalCount ≤ 16 then none
  else some (.tooManyOptionalTerms a.1 a.2.optionalCount 16)

theorem expansionFault?_eq_none_iff {a : Name × Expression} :
    expansionFault? a = none ↔ a.2.optionalCount ≤ 16 := by
  simp [expansionFault?]

theorem findSome?_flatMap {α β γ : Type} (as : List α) (f : α → List β) (p : β → Option γ) :
    (as.flatMap f).findSome? p = as.findSome? fun a => (f a).findSome? p := by
  induction as with
  | nil => rfl
  | cons a as ih =>
    rw [List.flatMap_cons, List.findSome?_append, ih, List.findSome?_cons]
    cases (f a).findSome? p <;> rfl

/-- A search that does not look at the places of the elements. -/
theorem findSome?_zipIdx {β γ : Type} (as : List β) (p : β → Option γ) :
    (as.zipIdx.findSome? fun a => p a.1) = as.findSome? p := by
  have hplaces := List.findSome?_map (f := Prod.fst) (p := p) (l := as.zipIdx)
  rw [List.zipIdx_map_fst] at hplaces
  exact hplaces.symm

/-- A run fails with a fault if that is the fault that is found. -/
theorem error_eq_error_iff {ε σ : Type} {e e' : ε} :
    (.error e : Except ε σ) = .error e' ↔ some e = some e' := by
  rw [Except.error.injEq, Option.some.injEq]

/-- **A loop whose rounds may fail** stops at the first element that makes a round fail,
if that depends on the element alone. -/
theorem foldlM_eq_error_iff {α σ ε : Type} {f : σ → α → Except ε σ} (fault? : α → Option ε)
    (hf : ∀ s a e, f s a = .error e ↔ fault? a = some e) {as : List α} {s : σ} {e : ε} :
    as.foldlM f s = .error e ↔ as.findSome? fault? = some e := by
  induction as generalizing s with
  | nil => exact iff_of_false nofun nofun
  | cons a as ih =>
    rw [List.foldlM_cons, List.findSome?_cons]
    cases hround : f s a with
    | error e' =>
      rw [(hf s a e').mp hround]
      exact error_eq_error_iff
    | ok s' =>
      have hnone : fault? a = none := by
        refine Option.eq_none_iff_forall_ne_some.mpr fun e' he' => ?_
        rw [(hf s a e').mpr he'] at hround
        contradiction
      rw [hnone]
      exact ih

namespace Tables

variable {t : Tables} {e : GrammarError}

theorem addAlternative_eq_error_iff {rule : Nat} {head : Name} {i : Nat}
    {alternative : Expression × Nat} :
    addAlternative rule head i t alternative = .error e ↔
      expansionFault? (head, alternative.1) = some e := by
  unfold addAlternative Expression.expand expansionFault?
  show _ ↔ (if alternative.1.optionalCount ≤ maxOptionalTerms then _ else _) = _
  by_cases hfew : alternative.1.optionalCount ≤ maxOptionalTerms
  · rw [if_pos hfew, if_pos hfew]
    exact iff_of_false nofun nofun
  · rw [if_neg hfew, if_neg hfew]
    exact error_eq_error_iff

theorem addProduction_eq_error_iff {production : Production × Nat} :
    t.addProduction production = .error e ↔
      (production.1.rhs.findSome? fun terms => expansionFault? (production.1.lhs, terms)) =
        some e := by
  rw [← findSome?_zipIdx]
  exact foldlM_eq_error_iff
    (fun alternative : Expression × Nat => expansionFault? (production.1.lhs, alternative.1))
    fun _ _ _ => addAlternative_eq_error_iff

/-- The loops report the first alternative that cannot be expanded. -/
theorem ofProductions_eq_error_iff :
    ofProductions ps = .error e ↔ (written ps).findSome? expansionFault? = some e := by
  rw [written, findSome?_flatMap, ← findSome?_zipIdx]
  simp only [List.findSome?_map]
  exact foldlM_eq_error_iff
    (fun production : Production × Nat =>
      production.1.rhs.findSome? fun terms => expansionFault? (production.1.lhs, terms))
    fun _ _ _ => addProduction_eq_error_iff

/-- If there is none, they come to an end. -/
theorem exists_ofProductions_iff :
    (∃ t, ofProductions ps = .ok t) ↔ (written ps).findSome? expansionFault? = none := by
  rw [Option.eq_none_iff_forall_ne_some]
  simp only [ne_eq, ← ofProductions_eq_error_iff]
  cases ofProductions ps with
  | ok t => exact iff_of_true ⟨t, rfl⟩ nofun
  | error e => exact iff_of_false nofun fun h => h e rfl

/-- The left-hand sides have the rules, in the order of first appearance. -/
theorem Tabulates.heads_eq (h : t.Tabulates ps.zipIdx) :
    t.heads = firstAppearances (ps.map (·.lhs)) := by
  have hplaces : ps.zipIdx.map (·.1.lhs) = (ps.zipIdx.map Prod.fst).map (·.lhs) :=
    List.map_map.symm
  rw [h.heads, hplaces, List.zipIdx_map_fst]

theorem Tabulates.mem_heads_iff (h : t.Tabulates ps.zipIdx) {name : Name} :
    name ∈ t.heads ↔ IsLhs ps name := by
  rw [h.heads_eq, mem_firstAppearances, List.mem_map]
  rfl

theorem Tabulates.isNonterminal_iff (h : t.Tabulates ps.zipIdx) {name : Name} :
    t.isNonterminal name = true ↔ IsLhs ps name :=
  h.consistent.isNonterminal_iff.trans h.mem_heads_iff

end Tables

namespace Grammar

variable {start : Option Name}

/-! ### Rules -/

theorem pairwise_alternatives {rule : Rule g.exprs.size} (h : rule ∈ g.rules) :
    rule.alternatives.Pairwise (· < ·) := by
  obtain ⟨entry, hentry, rfl⟩ := List.mem_pmap.mp h
  have hincreasing : entry.exprs.toList.Pairwise (· < ·) := by
    rw [g.consistent.collected entry (Array.mem_toList_iff.mp hentry)]
    exact pairwise_placesOf
  exact hincreasing.pmap _ fun _ _ _ _ hlt => hlt

/-- Every expression belongs to the rule of its head, and to no other. -/
theorem existsUnique_rule (g : Grammar) (id : g.ExprId) :
    ∃! i : Nat, ∃ rule, g.rules[i]? = some rule ∧ id ∈ rule.alternatives := by
  have hhead := g.head_mem_heads id
  rw [← map_head_rules, List.mem_iff_getElem?] at hhead
  obtain ⟨i, hi⟩ := hhead
  have hplace := hi
  rw [List.getElem?_map, Option.map_eq_some_iff] at hi
  obtain ⟨rule, hrule, hhead⟩ := hi
  refine ⟨i, ⟨rule, hrule, ?_⟩, ?_⟩
  · exact (mem_alternatives_of_mem_rules (List.mem_of_getElem? hrule)).mpr hhead.symm
  · rintro j ⟨rule', hrule', hid⟩
    have hhead' := (mem_alternatives_of_mem_rules (List.mem_of_getElem? hrule')).mp hid
    have hplace' : (g.rules.map (·.head))[j]? = some (g.expr id).head := by
      rw [List.getElem?_map, hrule', Option.map_some, hhead']
    rw [← ruleId?_eq_some_iff] at hplace hplace'
    exact Option.some.inj (hplace'.symm.trans hplace)

/-! ### Merging -/

/-- The expressions of productions, in order: one for each variant of each alternative
of each production, with the places of the production and the alternative. -/
def exprsInOrder (ps : List Production) : List Expr :=
  ps.zipIdx.flatMap fun (p, i) => p.rhs.zipIdx.flatMap fun (terms, j) =>
    terms.variants.map fun v => { head := p.lhs, terms := v, provenance := ⟨i, j⟩ }

/-- What a grammar keeps of the productions it is made from. -/
structure Merges (g : Grammar) (ps : List Production) : Prop where
  /-- Rules are headed by left-hand sides, ... -/
  head_iff : ∀ name, name ∈ g.rules.map (·.head) ↔ IsLhs ps name
  /-- ... each of them once, in the order of first appearance. -/
  ordered : (g.rules.map (·.head)).Pairwise fun a b =>
    (ps.map (·.lhs)).idxOf a < (ps.map (·.lhs)).idxOf b
  /-- The rule of a name has that name as its head. -/
  rule?_iff : ∀ name rule, g.rule? name = some rule ↔ rule ∈ g.rules ∧ rule.head = name
  /-- What is no left-hand side has no rule. -/
  rule?_none : ∀ name, g.rule? name = none ↔ ¬ IsLhs ps name
  /-- The number of a rule is its place. -/
  ruleId?_iff : ∀ name i, g.ruleId? name = some i ↔ (g.rules.map (·.head))[i]? = some name
  /-- A name is a nonterminal if it is a left-hand side. -/
  isNonterminal_iff : ∀ name, g.isNonterminal name = true ↔ IsLhs ps name
  /-- Every alternative can be expanded ... -/
  expanded : ∀ p ∈ ps, ∀ terms ∈ p.rhs, terms.expand p.lhs = .ok terms.variants
  /-- ... and the expressions are the variants, in the order they were written. -/
  exprs : g.exprs.toList = exprsInOrder ps
  /-- A rule has the expressions with its head, ... -/
  alternative_iff : ∀ rule ∈ g.rules, ∀ id, id ∈ rule.alternatives ↔ (g.expr id).head = rule.head
  /-- ... by increasing number. -/
  increasing : ∀ rule ∈ g.rules, rule.alternatives.Pairwise (· < ·)
  /-- Every expression belongs to one rule. -/
  belongs : ∀ id, ∃! i : Nat, ∃ rule, g.rules[i]? = some rule ∧ id ∈ rule.alternatives
  /-- The first productions alone make the first expressions and the first rules. -/
  kept : ∀ {start' : Option Name} {qs : List Production} {g' : Grammar}, qs <+: ps →
    assemble start' qs = .ok g' →
    g'.exprs.toList <+: g.exprs.toList ∧ g'.rules.map (·.head) <+: g.rules.map (·.head)

theorem toList_exprs (h : assemble start ps = .ok g) : g.exprs.toList = exprsInOrder ps :=
  (tabulates_of_assemble h).exprs

theorem expand_of_assemble (h : assemble start ps = .ok g) {p : Production} (hp : p ∈ ps)
    {terms : Expression} (hterms : terms ∈ p.rhs) : terms.expand p.lhs = .ok terms.variants := by
  obtain ⟨tables, htables⟩ : ∃ tables, Tables.ofProductions ps = .ok tables := by
    unfold assemble at h
    split at h
    · contradiction
    · exact ⟨_, by assumption⟩
  have hfew := List.findSome?_eq_none_iff.mp (Tables.exists_ofProductions_iff.mp ⟨tables, htables⟩)
    (p.lhs, terms) (List.mem_flatMap.mpr ⟨p, hp, List.mem_map_of_mem hterms⟩)
  exact if_pos (expansionFault?_eq_none_iff.mp hfew)

/-- More productions behind the others renumber nothing. -/
theorem prefix_of_assemble {start' : Option Name} {qs : List Production} {g' : Grammar}
    (h : assemble start ps = .ok g) (hqs : qs <+: ps) (h' : assemble start' qs = .ok g') :
    g'.exprs.toList <+: g.exprs.toList ∧ g'.rules.map (·.head) <+: g.rules.map (·.head) := by
  obtain ⟨rest, rfl⟩ := hqs
  constructor
  · rw [toList_exprs h, toList_exprs h', exprsInOrder, exprsInOrder, List.zipIdx_append,
      List.flatMap_append]
    exact List.prefix_append _ _
  · rw [map_head_rules, map_head_rules, (tabulates_of_assemble h).heads_eq,
      (tabulates_of_assemble h').heads_eq, List.map_append]
    exact prefix_firstAppearances _ _

theorem merges_of_assemble (h : assemble start ps = .ok g) : g.Merges ps where
  head_iff name := by rw [map_head_rules, (tabulates_of_assemble h).mem_heads_iff]
  ordered := by
    rw [map_head_rules, (tabulates_of_assemble h).heads_eq]
    exact pairwise_firstAppearances _
  rule?_iff _ _ := rule?_eq_some_iff
  rule?_none name := by rw [rule?_eq_none_iff, (tabulates_of_assemble h).mem_heads_iff]
  ruleId?_iff _ _ := ruleId?_eq_some_iff
  isNonterminal_iff _ := (tabulates_of_assemble h).isNonterminal_iff
  expanded _ hp _ hterms := expand_of_assemble h hp hterms
  exprs := toList_exprs h
  alternative_iff _ hrule _ := mem_alternatives_of_mem_rules hrule
  increasing _ := pairwise_alternatives
  belongs := existsUnique_rule g
  kept hqs h' := prefix_of_assemble h hqs h'

end Grammar

/-- **Merging loses, duplicates and renumbers nothing.**  A grammar that is made from
productions, with a given start symbol or with the first left-hand side, merges
them. -/
theorem merging_exact {s : Name}
    (h : Grammar.withStart s ps = .ok g ∨ Grammar.ofProductions ps = .ok g) : g.Merges ps := by
  obtain ⟨start, hg⟩ : ∃ start, Grammar.assemble start ps = .ok g := h.elim (⟨_, ·⟩) (⟨_, ·⟩)
  exact Grammar.merges_of_assemble hg

/-- `S -> A "x"?; A -> ; S -> ε; A -> "y"`, two rules written in turns. -/
def Examples.scattered : List Production :=
  [⟨"S", [[.nonterminal "A", (Term.terminal "x").maybe]]⟩, ⟨"A", []⟩, ⟨"S", [[]]⟩,
   ⟨"A", [[.terminal "y"]]⟩]

/-- The first production has two variants, so the expressions of `S` are 0, 1 and 2,
although a production for `A` stands between them. -/
theorem merging_exact_scattered :
    ∃ g, Grammar.withStart "S" Examples.scattered = .ok g ∧
      g.exprs.toList =
        [⟨"S", [.nonterminal "A", .terminal "x"], ⟨0, 0⟩⟩, ⟨"S", [.nonterminal "A"], ⟨0, 0⟩⟩,
         ⟨"S", [], ⟨2, 0⟩⟩, ⟨"A", [.terminal "y"], ⟨3, 0⟩⟩] ∧
      g.rules.map (fun rule => (rule.head, rule.alternatives.map (·.val))) =
        [("S", [0, 1, 2]), ("A", [3])] ∧
      (∀ rule ∈ g.rules, ∀ id, id ∈ rule.alternatives ↔ (g.expr id).head = rule.head) ∧
      (∀ name rule, g.rule? name = some rule ↔ rule ∈ g.rules ∧ rule.head = name) ∧
      g.rule? "x" = none := by
  have hread : (Grammar.withStart "S" Examples.scattered).toOption.map
      (fun g => g.rules.map fun rule => (rule.head, rule.alternatives.map (·.val))) =
        some [("S", [0, 1, 2]), ("A", [3])] := by decide +kernel
  cases hg : Grammar.withStart "S" Examples.scattered with
  | error e =>
    rw [hg] at hread
    contradiction
  | ok g =>
    have h := merging_exact (.inl hg)
    rw [hg] at hread
    exact ⟨g, rfl, h.exprs.trans (by decide +kernel), Option.some.inj hread, h.alternative_iff,
      h.rule?_iff, (h.rule?_none "x").mpr (by decide)⟩

end ChartParser
