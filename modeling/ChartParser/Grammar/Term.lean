/-
The shapes a caller describes a grammar with.

* `Term` — one symbol inside an expression: a terminal is matched against a
  token of the same name, a nonterminal by deriving one of the alternatives of
  its rule; either may be optional;
* `Expression` — a sequence of terms, the empty one deriving the empty input;
* `Production` — a left-hand side with its alternative expressions.

Nothing is checked here: a grammar is only made from productions that fit
together (see `ChartParser.Grammar.Basic`).
-/
import ChartParser.Text.Datum
import ChartParser.Text.Layout
import ChartParser.Text.Quoted

namespace ChartParser

open Text

/-- Names of terminals, nonterminals and tokens.  They are ordered by code
point and compared as they are written. -/
abbrev Name := String

/-- Whether a term stands for tokens or for derivations. -/
inductive TermKind where
  | nonterminal
  | terminal
deriving DecidableEq, Repr

/-- A symbol inside an expression. -/
structure Term where
  name : Name
  kind : TermKind
  optional : Bool := false
deriving DecidableEq, Repr

namespace Term

/-- A required terminal. -/
def terminal (name : Name) : Term := { name, kind := .terminal }

/-- A required nonterminal. -/
def nonterminal (name : Name) : Term := { name, kind := .nonterminal }

/-- The same term, allowed to be absent. -/
def maybe (t : Term) : Term := { t with optional := true }

/-- The same term, not allowed to be absent. -/
def required (t : Term) : Term := { t with optional := false }

/-- Whether a term is matched by tokens. -/
def isTerminal (t : Term) : Bool := t.kind = .terminal

/-- Whether a term is matched by derivations. -/
def isNonterminal (t : Term) : Bool := t.kind = .nonterminal

/-- The name of a terminal. -/
def terminal? (t : Term) : Option Name := if t.isTerminal then some t.name else none

/-- The name of a nonterminal. -/
def nonterminal? (t : Term) : Option Name := if t.isNonterminal then some t.name else none

/-- Terms are ordered by name; of one name, nonterminals come before terminals
and required terms before optional ones. -/
instance : Ord Term where
  compare := compareLex (compareOn name) (compareLex (compareOn isTerminal) (compareOn optional))

/-- A terminal is shown in quotes, a nonterminal in angle brackets, and an
optional term has a question mark. -/
def text (t : Term) : String :=
  (if t.isTerminal then quoted t.name else "<" ++ t.name ++ ">")
    ++ (if t.optional then "?" else "")

/-- A term never breaks over lines. -/
def doc (t : Term) : Doc := Doc.text t.text

/-- A term is shown as an atom. -/
def datum (t : Term) : Datum := .atom t.text

/-- Sorts terms by their order. -/
def sorted (terms : List Term) : List Term :=
  terms.mergeSort fun a b => (compare a b).isLE

@[simp] theorem required_optional (t : Term) : t.required.optional = false := rfl

@[simp] theorem required_name (t : Term) : t.required.name = t.name := rfl

@[simp] theorem required_kind (t : Term) : t.required.kind = t.kind := rfl

/-- A required term stays as it is. -/
theorem required_of_not_optional {t : Term} (h : t.optional = false) : t.required = t := by
  cases t
  exact congrArg (Term.mk _ _) h.symm

end Term

/-- A sequence of terms. -/
abbrev Expression := List Term

/-- An expression is shown as the list of its terms. -/
def Expression.datum (e : Expression) : Datum := .list (e.map Term.datum)

/-- Whether one expression comes before another: the first place where they
differ decides, and a proper beginning comes first. -/
def Expression.before (a b : Expression) : Bool := (compare a b).isLT

/-- A left-hand side with its alternatives. -/
structure Production where
  lhs : Name
  rhs : List Expression
deriving DecidableEq, Repr

/-- A production is shown as a record of its two sides. -/
def Production.datum (p : Production) : Datum :=
  .record "Production" [("lhs", .atom p.lhs), ("rhs", .list (p.rhs.map Expression.datum))]

end ChartParser
