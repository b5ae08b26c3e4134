/-
Optional terms become plain alternatives.

An expression `"N" "{" <block>? "}"` stands for the two expressions
`"N" "{" <block> "}"` and `"N" "{" "}"`.  `variants` lists one expression for
every choice of present and absent optional terms, so the chart never has to
know about optional terms.

The list is grown term by term.  A required term is added to every variant; an
optional one doubles the list, first the variants with it and then those without.
So the choices are counted in binary: the first optional term is the lowest digit,
and a digit 1 leaves its term out (`variants_cons`).  No term of a variant is
optional (`optional_of_mem_variants`).
-/
import ChartParser.Grammar.Error

namespace ChartParser

/-- The number of optional terms of an expression. -/
def Expression.optionalCount (terms : Expression) : Nat := terms.countP (·.optional)

/-- The number of optional terms an expression may have. -/
def maxOptionalTerms : Nat := 16

/-- One more term behind each of the variants. -/
def Expression.addTerm (variants : List Expression) (t : Term) : List Expression :=
  if t.optional then variants.map (· ++ [t.required]) ++ variants
  else variants.map (· ++ [t])

/-- Every choice of present and absent optional terms, the first term's choice
changing fastest. -/
def Expression.variants (terms : Expression) : List Expression := terms.foldl addTerm [[]]

/-- The variants of an alternative for `lhs`, unless there would be too many. -/
def Expression.expand (lhs : Name) (terms : Expression) :
    Except GrammarError (List Expression) :=
  if terms.optionalCount ≤ maxOptionalTerms then .ok terms.variants
  else .error (.tooManyOptionalTerms lhs terms.optionalCount maxOptionalTerms)

namespace Expression

@[simp] theorem variants_nil : variants [] = [[]] := rfl

/-- Variants that were grown from some beginnings: each beginning in front of each
variant of the terms that were added. -/
theorem foldl_addTerm (beginnings : List Expression) (terms : Expression) :
    terms.foldl addTerm beginnings = terms.variants.flatMap fun v => beginnings.map (· ++ v) := by
  induction terms generalizing beginnings with
  | nil => simp
  | cons t ts ih =>
    rw [variants, List.foldl_cons, List.foldl_cons, ih, ih, List.flatMap_assoc]
    refine congrArg ((variants ts).flatMap ·) (funext fun v => ?_)
    cases hopt : t.optional <;> simp [addTerm, hopt]

/-- The variants of an expression from those of the terms behind its first one. -/
theorem variants_cons (t : Term) (ts : Expression) :
    variants (t :: ts) =
      (variants ts).flatMap fun v => if t.optional then [t.required :: v, v] else [t :: v] := by
  rw [variants, List.foldl_cons, foldl_addTerm]
  refine congrArg ((variants ts).flatMap ·) (funext fun v => ?_)
  cases hopt : t.optional <;> simp [addTerm, hopt]

theorem mem_variants_cons {t : Term} {ts v : Expression} :
    v ∈ variants (t :: ts) ↔
      (t.optional = true ∧ v ∈ variants ts) ∨ ∃ u ∈ variants ts, v = t.required :: u := by
  rw [variants_cons, List.mem_flatMap]
  cases hopt : t.optional with
  | true => simp [or_comm, exists_or, and_or_left]
  | false => simp [Term.required_of_not_optional hopt]

theorem optional_of_mem_variants {terms v : Expression} (hv : v ∈ terms.variants)
    {t : Term} (ht : t ∈ v) : t.optional = false := by
  induction terms generalizing v with
  | nil =>
    rw [variants_nil, List.mem_singleton] at hv
    simp [hv] at ht
  | cons s ts ih =>
    rcases mem_variants_cons.mp hv with ⟨-, hv⟩ | ⟨u, hu, rfl⟩
    · exact ih hv ht
    · rcases List.mem_cons.mp ht with rfl | ht
      · rfl
      · exact ih hu ht

end Expression

end ChartParser
