/-
Grammars described call by call.

Instead of listing productions, an author can open one rule after the other, add
alternatives to the rule that is open, and terms to the alternative that is open.
Each of the three builders keeps what it was told so far, in order:

* `ExpressionBuilder` — the terms of one alternative;
* `RuleBuilder` — the alternatives of one rule;
* `GrammarBuilder` — the rules, as productions.

Opening a rule twice gives two productions, which the grammar merges like any
others.  `Grammar.build` makes the grammar of a list of calls.
-/
import ChartParser.Grammar.Basic

namespace ChartParser

/-- What can be called while an alternative is open. -/
inductive TermCall where
  | term (name : Name)
  | nonterm (name : Name)
  | optionalTerm (name : Name)
  | optionalNonterm (name : Name)
deriving DecidableEq, Repr

/-- The term that a call adds. -/
def TermCall.added : TermCall → Term
  | term name => .terminal name
  | nonterm name => .nonterminal name
  | optionalTerm name => (Term.terminal name).maybe
  | optionalNonterm name => (Term.nonterminal name).maybe

/-- What can be called while a rule is open. -/
inductive ExprCall where
  /-- Opens an alternative, for some calls. -/
  | expr (calls : List TermCall)
  /-- Adds an alternative whose terms are at hand. -/
  | exprWithTerms (terms : Expression)
  /-- Adds the alternative without terms. -/
  | empty
deriving DecidableEq, Repr

/-- Opens a rule for `head`, for some calls. -/
structure RuleCall where
  head : Name
  calls : List ExprCall
deriving DecidableEq, Repr

/-- An alternative that is open. -/
structure ExpressionBuilder where
  terms : Array Term := #[]

namespace ExpressionBuilder

/-- Adds a term. -/
def add (b : ExpressionBuilder) (call : TermCall) : ExpressionBuilder :=
  { b with terms := b.terms.push call.added }

/-- Closes the alternative. -/
def build (b : ExpressionBuilder) : Expression := b.terms.toList

end ExpressionBuilder

/-- A rule that is open. -/
structure RuleBuilder where
  head : Name
  exprs : Array Expression := #[]

namespace RuleBuilder

/-- Adds an alternative. -/
def add (b : RuleBuilder) (call : ExprCall) : RuleBuilder :=
  match call with
  | .expr calls =>
    let opened : ExpressionBuilder := {}
    { b with exprs := b.exprs.push (calls.foldl ExpressionBuilder.add opened).build }
  | .exprWithTerms terms => { b with exprs := b.exprs.push terms }
  | .empty => { b with exprs := b.exprs.push [] }

/-- Closes the rule. -/
def build (b : RuleBuilder) : Production := ⟨b.head, b.exprs.toList⟩

end RuleBuilder

/-- A grammar that is being described. -/
structure GrammarBuilder where
  start : Name
  rules : Array Production := #[]

namespace GrammarBuilder

/-- Adds a rule. -/
def addRule (b : GrammarBuilder) (call : RuleCall) : GrammarBuilder :=
  let opened : RuleBuilder := { head := call.head }
  { b with rules := b.rules.push (call.calls.foldl RuleBuilder.add opened).build }

/-- Makes the grammar that was described, or reports its first fault. -/
def build (b : GrammarBuilder) : Except GrammarError Grammar :=
  Grammar.withStart b.start b.rules.toList

end GrammarBuilder

/-- The grammar that calls describe, with an explicit start symbol. -/
def Grammar.build (start : Name) (calls : List RuleCall) : Except GrammarError Grammar :=
  let opened : GrammarBuilder := { start }
  (calls.foldl GrammarBuilder.addRule opened).build

end ChartParser
