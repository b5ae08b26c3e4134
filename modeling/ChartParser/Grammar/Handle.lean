/-
References into a grammar that remember which grammar they belong to.

Two grammars made from the same productions are still two grammars.  Whoever
keeps several gives each a serial number, its *owner*; a handle into a grammar
is equal to another one only if both the owner and the number agree, while bare
numbers compare across grammars.
-/
import ChartParser.Grammar.Basic

namespace ChartParser

/-- A rule or expression of the grammar with serial number `owner`. -/
structure Handle where
  owner : Nat
  index : Nat
deriving DecidableEq, Repr

namespace Grammar

/-- Handles of all rules. -/
def ruleHandles (g : Grammar) (owner : Nat) : List Handle :=
  (List.range g.rules.length).map (Handle.mk owner)

/-- Handles of all expressions. -/
def exprHandles (g : Grammar) (owner : Nat) : List Handle :=
  (List.range g.exprs.size).map (Handle.mk owner)

end Grammar

end ChartParser
