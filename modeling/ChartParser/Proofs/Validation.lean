/-
The first fault of a description is reported.

The checks of a grammar go through its expressions, that is, through the variants of
the alternatives.  What they report is nevertheless the first fault of the productions
as they were written: the first variant of an alternative has all its terms, and the
others have no terms of their own.

* **`Expression.findSome?_variants`** — whatever is looked for in the variants is found
  where it is first written;
* **`assemble_eq_error_iff`**, **`exists_assemble_iff`** — the outcome of the checks, as
  one search through the productions;
* **`FirstFault`** — the law: too many optional terms come before an undefined start
  symbol, and that one before a term that does not fit;
* **`Grammar.build_eq`** — calls describe productions, one for each rule that is opened;
* **`validation_exact`** — the law holds of every way to make a grammar.
-/
import ChartParser.Grammar.Builder
import ChartParser.Proofs.Merging
import ChartParser.Proofs.Variants

namespace ChartParser

variable {ps : List Production}

/-! ### Productions as they were written -/

/-- The terms of productions, each with the left-hand side of its alternative. -/
def writtenTerms (ps : List Production) : List (Name × Term) :=
  (written ps).flatMap fun a => a.2.map fun t => (a.1, t)

/-- A term does not fit: it is a nonterminal without productions, or a terminal with
some. -/
def Misfit (ps : List Production) (t : Term) : Prop :=
  match t.kind with
  | .nonterminal => ¬ IsLhs ps t.name
  | .terminal => IsLhs ps t.name

/-- No alternative has more than sixteen optional terms. -/
def Expandable (ps : List Production) : Prop := ∀ a ∈ written ps, a.2.optionalCount ≤ 16

instance {t : Term} : Decidable (Misfit ps t) :=
  match h : t.kind with
  | .nonterminal => decidable_of_iff (¬ IsLhs ps t.name) (by simp [Misfit, h])
  | .terminal => decidable_of_iff (IsLhs ps t.name) (by simp [Misfit, h])

instance : Decidable (Expandable ps) :=
  inferInstanceAs (Decidable (∀ a ∈ written ps, a.2.optionalCount ≤ 16))

/-- `FirstFault start ps e`: the first thing wrong with productions and a start symbol
is `e`. -/
inductive FirstFault (start : Name) (ps : List Production) : GrammarError → Prop where
  /-- The first alternative with too many optional terms. -/
  | tooManyOptionalTerms {lhs : Name} {terms : Expression} {before after : List (Name × Expression)}
      (place : written ps = before ++ (lhs, terms) :: after)
      (earlier : ∀ a ∈ before, a.2.optionalCount ≤ 16) (many : 16 < terms.optionalCount) :
      FirstFault start ps (.tooManyOptionalTerms lhs terms.optionalCount 16)
  /-- If there is none, the start symbol. -/
  | undefinedStartSymbol (expandable : Expandable ps) (undefined : ¬ IsLhs ps start) :
      FirstFault start ps (.undefinedStartSymbol start)
  /-- If that one is defined, the first term that does not fit: a nonterminal ... -/
  | undefinedNonterminal {lhs : Name} {t : Term} {before after : List (Name × Term)}
      (expandable : Expandable ps) (defined : IsLhs ps start)
      (place : writtenTerms ps = before ++ (lhs, t) :: after)
      (earlier : ∀ u ∈ before, ¬ Misfit ps u.2) (kind : t.kind = .nonterminal)
      (undefined : ¬ IsLhs ps t.name) : FirstFault start ps (.undefinedNonterminal t.name lhs)
  /-- ... or a terminal. -/
  | terminalUsedAsLhs {lhs : Name} {t : Term} {before after : List (Name × Term)}
      (expandable : Expandable ps) (defined : IsLhs ps start)
      (place : writtenTerms ps = before ++ (lhs, t) :: after)
      (earlier : ∀ u ∈ before, ¬ Misfit ps u.2) (kind : t.kind = .terminal)
      (used : IsLhs ps t.name) : FirstFault start ps (.terminalUsedAsLhs t.name)

/-! ### Variants hide nothing and reorder nothing -/

namespace Expression

variable {terms v : Expression}

/-- Every term of a variant was written. -/
theorem exists_of_mem_variants (hv : v ∈ terms.variants) {u : Term} (hu : u ∈ v) :
    ∃ t ∈ terms, u = t.required := by
  induction terms generalizing v with
  | nil =>
    rw [variants_nil, List.mem_singleton] at hv
    simp [hv] at hu
  | cons s ts ih =>
    rcases mem_variants_cons.mp hv with ⟨-, hv⟩ | ⟨w, hw, rfl⟩
    · obtain ⟨t, ht, heq⟩ := ih hv hu
      exact ⟨t, List.mem_cons_of_mem _ ht, heq⟩
    · rcases List.mem_cons.mp hu with rfl | hu
      · exact ⟨s, List.mem_cons_self, rfl⟩
      · obtain ⟨t, ht, heq⟩ := ih hw hu
        exact ⟨t, List.mem_cons_of_mem _ ht, heq⟩

/-- The first variant has all terms. -/
theorem exists_variants_eq_cons (terms : Expression) :
    ∃ others, terms.variants = terms.map Term.required :: others := by
  have hfirst : terms.variants[0]? = some (terms.map Term.required) := by
    rw [getElem?_variants (Nat.two_pow_pos _), choice_zero]
  cases hvariants : terms.variants with
  | nil => simp [hvariants] at hfirst
  | cons first others =>
    rw [hvariants, List.getElem?_cons_zero, Option.some.injEq] at hfirst
    exact ⟨others, by rw [hfirst]⟩

/-- **A search through the variants** finds what a search through the terms finds, if
it does not look at whether a term may be left out. -/
theorem findSome?_variants {β : Type} {p : Term → Option β} (hp : ∀ t, p t.required = p t)
    (terms : Expression) :
    terms.variants.findSome? (fun v => v.findSome? p) = terms.findSome? p := by
  obtain ⟨others, hvariants⟩ := exists_variants_eq_cons terms
  have hfirst : (terms.map Term.required).findSome? p = terms.findSome? p := by
    rw [List.findSome?_map]
    exact congrArg (terms.findSome? ·) (funext hp)
  rw [hvariants, List.findSome?_cons, hfirst]
  cases hterms : terms.findSome? p with
  | some b => rfl
  | none =>
    -- all terms of the other variants are among those of the first
    rw [List.findSome?_eq_none_iff] at hterms
    refine List.findSome?_eq_none_iff.mpr fun v hv => List.findSome?_eq_none_iff.mpr fun u hu => ?_
    have hmem : v ∈ terms.variants := by
      rw [hvariants]
      exact List.mem_cons_of_mem _ hv
    obtain ⟨t, ht, rfl⟩ := exists_of_mem_variants hmem hu
    rw [hp, hterms t ht]

end Expression

/-! ### The outcome of the checks -/

/-- The first thing wrong with productions and a start symbol, found in the
productions as they were written. -/
def writtenFault? (start : Option Name) (ps : List Production) : Option GrammarError :=
  ((written ps).findSome? expansionFault?).or
    ((startFault? (fun name => IsLhs ps name) start).or
      ((writtenTerms ps).findSome? fun u => termFault? (fun name => IsLhs ps name) u.1 u.2))

/-- A search through the expressions of a production finds what a search through its
alternatives finds. -/
theorem Production.findSome?_exprs {β : Type} {find : Name → Term → Option β}
    (hfind : ∀ lhs t, find lhs t.required = find lhs t) (p : Production) (i : Nat) :
    (p.exprs i).findSome? (fun e => e.terms.findSome? (find e.head)) =
      p.rhs.findSome? fun terms => terms.findSome? (find p.lhs) := by
  rw [Production.exprs, findSome?_flatMap, ← findSome?_zipIdx p.rhs]
  simp only [List.findSome?_map, Function.comp_def,
    Expression.findSome?_variants (hfind p.lhs)]

namespace Tables.Tabulates

variable {t : Tables}

/-- A search through the terms of the tables finds what is written first. -/
theorem findSome?_terms (h : t.Tabulates ps.zipIdx) {β : Type} {find : Name → Term → Option β}
    (hfind : ∀ lhs t, find lhs t.required = find lhs t) :
    (t.terms.findSome? fun u => find u.1 u.2) =
      (writtenTerms ps).findSome? fun u => find u.1 u.2 := by
  rw [terms, writtenTerms, written, findSome?_flatMap, findSome?_flatMap, findSome?_flatMap,
    h.exprs, findSome?_flatMap, ← findSome?_zipIdx ps]
  simp only [List.findSome?_map, Function.comp_def, Production.findSome?_exprs hfind]

/-- The tables have their first fault where it was written. -/
theorem firstFault?_eq (h : t.Tabulates ps.zipIdx) (start : Option Name) :
    t.firstFault? start =
      (startFault? (fun name => IsLhs ps name) start).or
        ((writtenTerms ps).findSome? fun u => termFault? (fun name => IsLhs ps name) u.1 u.2) := by
  have hdefined : t.isNonterminal = fun name => decide (IsLhs ps name) := by
    funext name
    rw [Bool.eq_iff_iff, h.isNonterminal_iff, decide_eq_true_eq]
  rw [firstFault?, hdefined]
  exact congrArg _ (h.findSome?_terms fun _ _ => rfl)

end Tables.Tabulates

namespace Grammar

variable {start : Option Name} {e : GrammarError}

theorem assemble_eq_error_iff : assemble start ps = .error e ↔ writtenFault? start ps = some e := by
  unfold assemble
  rw [writtenFault?]
  split
  · rename_i fault htables
    rw [Tables.ofProductions_eq_error_iff.mp htables, Option.some_or]
    exact error_eq_error_iff
  · rename_i tables htables
    rw [Tables.exists_ofProductions_iff.mp ⟨tables, htables⟩, Option.none_or,
      ← (Tables.tabulates_ofProductions htables).firstFault?_eq]
    dsimp only
    split
    · rename_i fault hfault
      rw [hfault]
      exact error_eq_error_iff
    · rename_i hfault
      exact iff_of_false nofun fun h => nomatch hfault.symm.trans h

theorem exists_assemble_iff : (∃ g, assemble start ps = .ok g) ↔ writtenFault? start ps = none := by
  rw [Option.eq_none_iff_forall_ne_some]
  cases hg : assemble start ps with
  | ok g =>
    refine iff_of_true ⟨g, rfl⟩ fun e he => ?_
    rw [← assemble_eq_error_iff, hg] at he
    contradiction
  | error e =>
    refine iff_of_false (by simp) fun hnone => ?_
    exact hnone e (assemble_eq_error_iff.mp hg)

end Grammar

/-! ### The law -/

theorem expansionFault?_eq_some_iff {a : Name × Expression} {e : GrammarError} :
    expansionFault? a = some e ↔
      16 < a.2.optionalCount ∧ .tooManyOptionalTerms a.1 a.2.optionalCount 16 = e := by
  simp [expansionFault?]

theorem expandable_iff : (written ps).findSome? expansionFault? = none ↔ Expandable ps := by
  simp only [List.findSome?_eq_none_iff, expansionFault?_eq_none_iff]
  rfl

theorem startFault?_eq_none_iff {start : Name} :
    startFault? (fun name => IsLhs ps name) (some start) = none ↔ IsLhs ps start := by
  simp [startFault?]

theorem startFault?_eq_some_iff {start : Name} {e : GrammarError} :
    startFault? (fun name => IsLhs ps name) (some start) = some e ↔
      ¬ IsLhs ps start ∧ .undefinedStartSymbol start = e := by
  simp [startFault?]

theorem termFault?_eq_none_iff {lhs : Name} {t : Term} :
    termFault? (fun name => IsLhs ps name) lhs t = none ↔ ¬ Misfit ps t := by
  unfold termFault? Misfit
  cases t.kind <;> simp

theorem termFault?_eq_some_iff {lhs : Name} {t : Term} {e : GrammarError} :
    termFault? (fun name => IsLhs ps name) lhs t = some e ↔
      t.kind = .nonterminal ∧ ¬ IsLhs ps t.name ∧ .undefinedNonterminal t.name lhs = e ∨
        t.kind = .terminal ∧ IsLhs ps t.name ∧ .terminalUsedAsLhs t.name = e := by
  unfold termFault?
  cases t.kind <;> simp

/-- The search finds the first fault. -/
theorem writtenFault?_eq_some_iff {start : Name} {e : GrammarError} :
    writtenFault? (some start) ps = some e ↔ FirstFault start ps e := by
  rw [writtenFault?, Option.or_eq_some_iff, Option.or_eq_some_iff, expandable_iff,
    startFault?_eq_none_iff, startFault?_eq_some_iff, List.findSome?_eq_some_iff,
    List.findSome?_eq_some_iff]
  simp only [expansionFault?_eq_some_iff, expansionFault?_eq_none_iff, termFault?_eq_some_iff,
    termFault?_eq_none_iff]
  constructor
  · rintro (⟨before, ⟨lhs, terms⟩, after, place, ⟨many, rfl⟩, earlier⟩ |
      ⟨expandable, ⟨undefined, rfl⟩ | ⟨defined, before, ⟨lhs, t⟩, after, place, hfault, earlier⟩⟩)
    · exact .tooManyOptionalTerms place earlier many
    · exact .undefinedStartSymbol expandable undefined
    · rcases hfault with ⟨kind, undefined, rfl⟩ | ⟨kind, used, rfl⟩
      · exact .undefinedNonterminal expandable defined place earlier kind undefined
      · exact .terminalUsedAsLhs expandable defined place earlier kind used
  · intro h
    cases h with
    | tooManyOptionalTerms place earlier many =>
      exact .inl ⟨_, _, _, place, ⟨many, rfl⟩, earlier⟩
    | undefinedStartSymbol expandable undefined =>
      exact .inr ⟨expandable, .inl ⟨undefined, rfl⟩⟩
    | undefinedNonterminal expandable defined place earlier kind undefined =>
      exact .inr ⟨expandable, .inr ⟨defined, _, _, _, place, .inl ⟨kind, undefined, rfl⟩, earlier⟩⟩
    | terminalUsedAsLhs expandable defined place earlier kind used =>
      exact .inr ⟨expandable, .inr ⟨defined, _, _, _, place, .inr ⟨kind, used, rfl⟩, earlier⟩⟩

open Term in
example : writtenFault? (some "S")
    [⟨"S", [[(terminal "a").maybe, nonterminal "B", terminal "S"]]⟩] =
      some (.undefinedNonterminal "B" "S") := by decide

theorem writtenFault?_eq_none_iff {start : Name} :
    writtenFault? (some start) ps = none ↔
      Expandable ps ∧ IsLhs ps start ∧ ∀ u ∈ writtenTerms ps, ¬ Misfit ps u.2 := by
  rw [writtenFault?, Option.or_eq_none_iff, Option.or_eq_none_iff, expandable_iff,
    startFault?_eq_none_iff, List.findSome?_eq_none_iff]
  simp only [termFault?_eq_none_iff]

/-! ### Calls -/

/-- The term that a call describes. -/
def TermCall.described : TermCall → Term
  | term name => { name, kind := .terminal, optional := false }
  | nonterm name => { name, kind := .nonterminal, optional := false }
  | optionalTerm name => { name, kind := .terminal, optional := true }
  | optionalNonterm name => { name, kind := .nonterminal, optional := true }

/-- The alternative that a call describes. -/
def ExprCall.described : ExprCall → Expression
  | expr calls => calls.map TermCall.described
  | exprWithTerms terms => terms
  | empty => []

/-- The production that a call describes. -/
def RuleCall.described (call : RuleCall) : Production :=
  ⟨call.head, call.calls.map ExprCall.described⟩

section Calls

variable {B C T S : Type} (add : B → C → B)

/-- A builder to which every call adds one thing has them all in the end, in order. -/
theorem foldl_adds (view : B → List T) (what : C → T)
    (hadd : ∀ b c, view (add b c) = view b ++ [what c]) (b : B) (calls : List C) :
    view (calls.foldl add b) = view b ++ calls.map what := by
  induction calls generalizing b with
  | nil => simp
  | cons c calls ih =>
    show view (calls.foldl add (add b c)) = view b ++ what c :: calls.map what
    rw [ih, hadd, List.append_assoc, List.singleton_append]

/-- What no call changes is the same in the end. -/
theorem foldl_keeps (field : B → S) (hadd : ∀ b c, field (add b c) = field b) (b : B)
    (calls : List C) : field (calls.foldl add b) = field b := by
  induction calls generalizing b with
  | nil => rfl
  | cons c calls ih => exact (ih (add b c)).trans (hadd b c)

end Calls

theorem ExpressionBuilder.build_foldl (calls : List TermCall) :
    (calls.foldl add {}).build = calls.map TermCall.described := by
  have hadd : ∀ (b : ExpressionBuilder) (c : TermCall),
      (b.add c).build = b.build ++ [c.described] := by
    intro b c
    cases c <;> exact Array.toList_push
  exact foldl_adds add build TermCall.described hadd {} calls

theorem RuleBuilder.build_foldl (head : Name) (calls : List ExprCall) :
    (calls.foldl add { head }).build = ⟨head, calls.map ExprCall.described⟩ := by
  have hadd : ∀ (b : RuleBuilder) (c : ExprCall),
      (b.add c).exprs.toList = b.exprs.toList ++ [c.described] ∧ (b.add c).head = b.head := by
    intro b c
    cases c with
    | expr calls => simp [add, ExprCall.described, ExpressionBuilder.build_foldl]
    | exprWithTerms terms => simp [add, ExprCall.described]
    | empty => simp [add, ExprCall.described]
  have hexprs := foldl_adds add (·.exprs.toList) ExprCall.described (fun b c => (hadd b c).1)
    { head } calls
  have hhead := foldl_keeps add RuleBuilder.head (fun b c => (hadd b c).2) { head } calls
  rw [build, hexprs, hhead]
  rfl

/-- **Calls describe productions**, one for each rule that is opened. -/
theorem Grammar.build_eq (start : Name) (calls : List RuleCall) :
    Grammar.build start calls = Grammar.withStart start (calls.map RuleCall.described) := by
  have hadd : ∀ (b : GrammarBuilder) (c : RuleCall),
      (b.addRule c).rules.toList = b.rules.toList ++ [c.described] := by
    intro b c
    simp [GrammarBuilder.addRule, RuleBuilder.build_foldl, RuleCall.described]
  have hrules := foldl_adds GrammarBuilder.addRule (·.rules.toList) RuleCall.described hadd
    { start } calls
  have hstart := foldl_keeps GrammarBuilder.addRule GrammarBuilder.start (fun _ _ => rfl)
    { start } calls
  rw [Grammar.build, GrammarBuilder.build, hrules, hstart]
  rfl

/-! ### Every way to make a grammar -/

/-- **The first fault is reported.**  A grammar with a given start symbol is refused with
the first fault of its description and with no other, and it is made if every
alternative can be expanded, the start symbol is defined and every term fits.  Without
a start symbol the first left-hand side takes its place, unless there are no
productions at all; and calls are the productions they describe. -/
theorem validation_exact (start : Name) (ps : List Production) :
    (∀ e, Grammar.withStart start ps = .error e ↔ FirstFault start ps e) ∧
    ((∃ g, Grammar.withStart start ps = .ok g) ↔
      Expandable ps ∧ IsLhs ps start ∧ ∀ u ∈ writtenTerms ps, ¬ Misfit ps u.2) ∧
    (∀ p, Grammar.ofProductions (p :: ps) = Grammar.withStart p.lhs (p :: ps)) ∧
    (∃ g, Grammar.ofProductions [] = .ok g ∧ g.start = none) ∧
    ∀ calls, Grammar.build start calls =
      Grammar.withStart start (calls.map RuleCall.described) := by
  refine ⟨?_, ?_, ?_, ?_, ?_⟩
  · intro e
    exact Grammar.assemble_eq_error_iff.trans writtenFault?_eq_some_iff
  · exact Grammar.exists_assemble_iff.trans writtenFault?_eq_none_iff
  · intro p
    rfl
  · exact ⟨_, rfl, rfl⟩
  · exact Grammar.build_eq start

/-- `S -> "a" B "c"? B? | "e" | ε`, call by call. -/
def Examples.describedRule : RuleCall :=
  ⟨"S", [.expr [.term "a", .nonterm "B", .optionalTerm "c", .optionalNonterm "B"],
    .exprWithTerms [.terminal "e"], .empty]⟩

/-- The calls are the productions one would write, and make a grammar if `B` has a rule.
Without one, an undefined start symbol is reported before the term that does not fit. -/
theorem validation_exact_describedRule :
    Grammar.build "S" [Examples.describedRule, ⟨"B", [.expr [.term "b"]]⟩] =
      Grammar.withStart "S"
        [⟨"S", [[⟨"a", .terminal, false⟩, ⟨"B", .nonterminal, false⟩, ⟨"c", .terminal, true⟩,
            ⟨"B", .nonterminal, true⟩], [⟨"e", .terminal, false⟩], []]⟩,
         ⟨"B", [[⟨"b", .terminal, false⟩]]⟩] ∧
    (∃ g, Grammar.build "S" [Examples.describedRule, ⟨"B", [.expr [.term "b"]]⟩] = .ok g) ∧
    Grammar.build "S" [Examples.describedRule] = .error (.undefinedNonterminal "B" "S") ∧
    Grammar.build "T" [Examples.describedRule] = .error (.undefinedStartSymbol "T") := by
  have hbuild : ∀ start calls, Grammar.build start calls =
      Grammar.withStart start (calls.map RuleCall.described) :=
    fun start calls => (validation_exact start []).2.2.2.2 calls
  refine ⟨hbuild _ _, ?_, ?_, ?_⟩
  · rw [hbuild]
    exact (validation_exact _ _).2.1.mpr ⟨by decide, by decide, by decide⟩
  · rw [hbuild, (validation_exact _ _).1]
    exact .undefinedNonterminal (t := ⟨"B", .nonterminal, false⟩) (by decide) (by decide)
      (show _ = [("S", ⟨"a", .terminal, false⟩)] ++ _ from rfl) (by decide) rfl (by decide)
  · rw [hbuild, (validation_exact _ _).1]
    exact .undefinedStartSymbol (by decide) (by decide)

end ChartParser
