/-
Parts of a grammar that no parse can use.

A nonterminal is reachable if it can be come by from the start symbol through
the expressions of rules.  Unreachable nonterminals and rules without
alternatives are allowed, but the author of the grammar hears about them.
-/
import ChartParser.Grammar.Basic
import ChartParser.Message
import ChartParser.Ordered
import ChartParser.Search

namespace ChartParser.Grammar

open Std (TreeSet)

/-- The nonterminals that occur in the expressions of a name, in order. -/
def successors (g : Grammar) (name : Name) : List Name :=
  (g.alternatives name).flatMap fun id => (g.expr id).terms.filterMap Term.nonterminal?

/-- The nonterminals that can be come by from the start symbol.  Every round of
the search sees a new head, so there are no more rounds than heads. -/
def reachable (g : Grammar) : TreeSet Name :=
  (Search.run (g.heads.length + 1) g.start.toList g.successors).seen

/-- The heads of the rules that can never be used, in increasing order. -/
def unreachable (g : Grammar) : List Name :=
  sortedDistinct (g.heads.filter fun head => !g.reachable.contains head)

/-- The warnings about a grammar: first its unreachable nonterminals, then its
rules without alternatives. -/
def lints (g : Grammar) : List Message :=
  (g.unreachable.map fun head =>
      ⟨.warn, s!"Nonterminal <{head}> is unreachable from the start symbol."⟩) ++
    ((g.rules.filter (·.alternatives.isEmpty)).map fun rule =>
      let head := rule.head
      ⟨.warn, s!"Rule <{head}> has no alternatives."⟩)

end ChartParser.Grammar
