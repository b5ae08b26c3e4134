/-
The variants of an expression, counted in binary.

A number chooses a variant: bit `j` of it says whether the `j`-th optional term is
left out.  `Expression.choice` writes this down for a whole expression at once, with
no recursion over the variants.

* **`choice_cons`** — the first optional term reads the lowest bit, and the terms
  behind it read the number halved;
* **`length_variants`** — there is one variant for each subset of the optional terms;
* **`getElem?_variants`** — the variant at place `m` is the choice of `m`;
* **`expand_exact`** — an expression with no more than sixteen optional terms expands
  to its choices in order, and every other one is refused.

The list of variants doubles with every optional term, and the place of a variant is
doubled with it, which is why the lowest bit belongs to the first term.
-/
import ChartParser.Grammar.Optional
import Mathlib.Algebra.BigOperators.Group.List.Basic

namespace ChartParser

namespace Expression

variable {t : Term} {ts : Expression} {m : Nat}

/-- The variant that a number chooses.  A term is left out if it is optional and the
bit for it is set, where the bit is the number of optional terms before it; the
others are kept in order, and none of them is optional any more. -/
def choice (terms : Expression) (m : Nat) : Expression :=
  (terms.zipIdx.filter fun p =>
    !(p.1.optional && m.testBit (optionalCount (terms.take p.2)))).map (·.1.required)

/-! ### One more term in front -/

theorem optionalCount_cons :
    optionalCount (t :: ts) = optionalCount ts + if t.optional then 1 else 0 := by
  rw [optionalCount, List.countP_cons]
  rfl

/-- What a number chooses behind the first term: the bit of each term is further up by
one if the first term is optional. -/
theorem choice_cons :
    choice (t :: ts) m =
      if t.optional then
        if m.testBit 0 then choice ts (m / 2) else t.required :: choice ts (m / 2)
      else t.required :: choice ts m := by
  have hbit : ∀ i, m.testBit (optionalCount ((t :: ts).take (i + 1))) =
      (if t.optional then m / 2 else m).testBit (optionalCount (ts.take i)) := by
    intro i
    rw [List.take_succ_cons, optionalCount_cons]
    cases t.optional with
    | true => exact Nat.testBit_add_one m _
    | false => rfl
  have hrest : ((ts.zipIdx 1).filter fun p =>
        !(p.1.optional && m.testBit (optionalCount ((t :: ts).take p.2)))).map (·.1.required) =
      choice ts (if t.optional then m / 2 else m) := by
    rw [List.zipIdx_succ, List.filter_map, List.map_map, choice]
    simp only [Function.comp_def, hbit]
  have hfirst : m.testBit (optionalCount ((t :: ts).take 0)) = m.testBit 0 := rfl
  rw [choice, List.zipIdx_cons, List.filter_cons]
  simp only [hfirst]
  cases hopt : t.optional with
  | false =>
    rw [hopt] at hrest
    simpa using hrest
  | true =>
    rw [hopt] at hrest
    cases hzero : m.testBit 0 with
    | true => simpa using hrest
    | false => simpa using hrest

@[simp] theorem choice_nil : choice [] m = [] := rfl

/-- The number zero keeps every term. -/
theorem choice_zero (terms : Expression) : terms.choice 0 = terms.map Term.required := by
  induction terms with
  | nil => rfl
  | cons t ts ih =>
    rw [choice_cons, Nat.zero_testBit, Nat.zero_div, ih]
    simp

/-- The number with all bits set drops every optional term. -/
theorem choice_last (terms : Expression) :
    terms.choice (2 ^ terms.optionalCount - 1) = terms.filter (!·.optional) := by
  induction terms with
  | nil => rfl
  | cons t ts ih =>
    rw [choice_cons, optionalCount_cons]
    cases hopt : t.optional with
    | false =>
      rw [if_neg Bool.false_ne_true, if_neg Bool.false_ne_true, Nat.add_zero, ih,
        Term.required_of_not_optional hopt, List.filter_cons_of_pos (by simp [hopt])]
    | true =>
      have hhalf : (2 ^ (optionalCount ts + 1) - 1) / 2 = 2 ^ optionalCount ts - 1 := by
        have hpos := Nat.two_pow_pos (optionalCount ts)
        rw [Nat.pow_succ]
        omega
      rw [if_pos rfl, if_pos rfl, Nat.testBit_two_pow_sub_one, hhalf, ih,
        List.filter_cons_of_neg (by simp [hopt])]
      simp

/-! ### The places of the variants -/

/-- A list with two elements for each one of another list: the place of an element is
twice the place it comes from, or one more. -/
theorem getElem?_flatMap_pair {β γ : Type} (as : List β) (f h : β → γ) (m : Nat) :
    (as.flatMap fun a => [f a, h a])[m]? =
      as[m / 2]?.map (if m.testBit 0 then h else f) := by
  induction as generalizing m with
  | nil => simp
  | cons a as ih =>
    rw [List.flatMap_cons]
    rcases m with _ | _ | m
    · rfl
    · rfl
    · have hhalf : (m + 1 + 1) / 2 = m / 2 + 1 := by omega
      have hbit : (m + 1 + 1).testBit 0 = m.testBit 0 := by
        rw [Nat.testBit_zero, Nat.testBit_zero]
        congr 1
        simp [Nat.add_assoc]
      show (as.flatMap fun a => [f a, h a])[m]? = _
      rw [ih, hhalf, hbit, List.getElem?_cons_succ]

theorem variants_cons_of_optional (h : t.optional = true) :
    variants (t :: ts) = (variants ts).flatMap fun v => [t.required :: v, v] := by
  rw [variants_cons]
  simp only [h, if_true]

theorem variants_cons_of_required (h : t.optional = false) :
    variants (t :: ts) = (variants ts).map (t.required :: ·) := by
  rw [variants_cons, Term.required_of_not_optional h]
  simp only [h, Bool.false_eq_true, if_false]
  exact List.map_eq_flatMap.symm

/-- There is one variant for each subset of the optional terms. -/
theorem length_variants (terms : Expression) :
    terms.variants.length = 2 ^ terms.optionalCount := by
  induction terms with
  | nil => rfl
  | cons t ts ih =>
    rw [optionalCount_cons]
    cases hopt : t.optional with
    | false => simp [variants_cons_of_required hopt, ih]
    | true =>
      rw [variants_cons_of_optional hopt, if_pos rfl, Nat.pow_succ, ← ih]
      simp [List.length_flatMap, List.map_const']

/-- **The variant at a place** is the one that the place, read in binary, chooses. -/
theorem getElem?_variants {terms : Expression} (hm : m < 2 ^ terms.optionalCount) :
    terms.variants[m]? = some (terms.choice m) := by
  induction terms generalizing m with
  | nil =>
    obtain rfl : m = 0 := Nat.lt_one_iff.mp hm
    rfl
  | cons t ts ih =>
    rw [optionalCount_cons] at hm
    rw [choice_cons]
    cases hopt : t.optional with
    | false =>
      rw [hopt] at hm
      rw [variants_cons_of_required hopt, List.getElem?_map, ih hm]
      rfl
    | true =>
      rw [hopt, if_pos rfl, Nat.pow_succ] at hm
      rw [variants_cons_of_optional hopt, getElem?_flatMap_pair, ih (by omega), if_pos rfl]
      cases m.testBit 0 <;> rfl

/-- **Expansion is exact.**  An expression with `c` optional terms, no more than
sixteen, expands to `2 ^ c` variants, and the one at place `m` drops the `j`-th
optional term exactly if bit `j` of `m` is set: the first variant keeps all terms, the
last one none that is optional.  With more optional terms it is refused. -/
theorem expand_exact (lhs : Name) (terms : Expression) :
    (terms.optionalCount ≤ 16 →
      ∃ vs, terms.expand lhs = .ok vs ∧ vs.length = 2 ^ terms.optionalCount ∧
        (∀ m < 2 ^ terms.optionalCount, vs[m]? = some (terms.choice m)) ∧
        vs[0]? = some (terms.map Term.required) ∧
        vs[2 ^ terms.optionalCount - 1]? = some (terms.filter (!·.optional))) ∧
    (16 < terms.optionalCount →
      terms.expand lhs = .error (.tooManyOptionalTerms lhs terms.optionalCount 16)) := by
  have hpos := Nat.two_pow_pos terms.optionalCount
  constructor
  · intro hfew
    refine ⟨terms.variants, if_pos hfew, length_variants terms, fun m hm => getElem?_variants hm,
      ?_, ?_⟩
    · rw [getElem?_variants hpos, choice_zero]
    · rw [getElem?_variants (by omega), choice_last]
  · intro hmany
    exact if_neg (Nat.not_le_of_lt hmany)

/-- `"a"? B "c"?` -/
def Examples.optionalEnds : Expression :=
  [(Term.terminal "a").maybe, .nonterminal "B", (Term.terminal "c").maybe]

/-- Of `"a"? B "c"?` there are four variants: the second one drops the first term, the
third one drops the last.  Seventeen optional terms are refused. -/
theorem expand_exact_optionalEnds :
    Examples.optionalEnds.optionalCount = 2 ∧
      (∃ vs, Examples.optionalEnds.expand "S" = .ok vs ∧ vs.length = 4 ∧
        vs[1]? = some [.nonterminal "B", .terminal "c"] ∧
        vs[2]? = some [.terminal "a", .nonterminal "B"] ∧ vs[3]? = some [.nonterminal "B"]) ∧
      Expression.expand "S" (List.replicate 17 (Term.terminal "a").maybe) =
        .error (.tooManyOptionalTerms "S" 17 16) := by
  have hcount : Examples.optionalEnds.optionalCount = 2 := by decide
  have hmany : optionalCount (List.replicate 17 (Term.terminal "a").maybe) = 17 := by decide
  obtain ⟨vs, hvs, hlength, hchoice, -, hlast⟩ :=
    (expand_exact "S" Examples.optionalEnds).1 (by omega)
  refine ⟨hcount, ⟨vs, hvs, hlength, ?_, ?_, hlast⟩, ?_⟩
  · exact hchoice 1 (by rw [hcount]; decide)
  · exact hchoice 2 (by rw [hcount]; decide)
  · have hrefused := (expand_exact "S" (List.replicate 17 (Term.terminal "a").maybe)).2 (by omega)
    rw [hmany] at hrefused
    exact hrefused

end Expression

end ChartParser
