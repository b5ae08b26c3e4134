/-
What can be wrong with the description of a grammar.
-/
import ChartParser.Grammar.Term

namespace ChartParser

open Text

/-- The reasons for which productions do not make a grammar. -/
inductive GrammarError where
  /-- A nonterminal is used in a rule for `lhs` but is the left-hand side of no
  production. -/
  | undefinedNonterminal (name lhs : Name)
  /-- The start symbol is the left-hand side of no production. -/
  | undefinedStartSymbol (name : Name)
  /-- A terminal is also the left-hand side of a production. -/
  | terminalUsedAsLhs (name : Name)
  /-- An alternative has more optional terms than are expanded. -/
  | tooManyOptionalTerms (lhs : Name) (count limit : Nat)
deriving DecidableEq, Repr

namespace GrammarError

/-- The error in words. -/
def message : GrammarError → String
  | undefinedNonterminal name lhs =>
    s!"nonterminal <{name}> used in a rule for <{lhs}> has no production"
  | undefinedStartSymbol name => s!"start symbol <{name}> has no production"
  | terminalUsedAsLhs name =>
    s!"terminal \"{name}\" is also used as the lhs of a production"
  | tooManyOptionalTerms lhs count limit =>
    s!"an expression for <{lhs}> has {count} optional terms, more than the {limit} allowed"

/-- The kind of an error, as one word. -/
def label : GrammarError → String
  | undefinedNonterminal .. => "UndefinedNonterminal"
  | undefinedStartSymbol .. => "UndefinedStartSymbol"
  | terminalUsedAsLhs .. => "TerminalUsedAsLhs"
  | tooManyOptionalTerms .. => "TooManyOptionalTerms"

/-- The fields of an error. -/
def fields : GrammarError → List (String × Datum)
  | undefinedNonterminal name lhs => [("name", .atom name), ("lhs", .atom lhs)]
  | undefinedStartSymbol name => [("name", .atom name)]
  | terminalUsedAsLhs name => [("name", .atom name)]
  | tooManyOptionalTerms lhs count limit =>
    [("lhs", .atom lhs), ("count", .number count), ("max", .number limit)]

/-- An error is shown as a record of its fields. -/
def datum (e : GrammarError) : Datum := .record e.label e.fields

end GrammarError

end ChartParser
