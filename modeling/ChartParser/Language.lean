/-
What grammars and productions derive.

These relations say what a parse is about, without a chart:

* **`Grammar.Derives`** — a sequence of terms derives a sequence of token names
  through the expressions of a grammar;
* **`Grammar.Accepts`** — the start symbol derives a sequence of token names;
* **`Grammar.Produces`** — a sequence of terms can be rewritten to another one
  by replacing nonterminals by expressions, one at a time;
* **`Grammar.Uses`** — a nonterminal occurs in an expression of another one;
* **`ProductionsDerive`** — the same as `Grammar.Derives` for productions as the
  caller wrote them, where an optional term may be left out at each use.

The first and the last are built from left to right, one term after the other.
-/
import ChartParser.Grammar.Basic

namespace ChartParser

/-- `g.Derives terms w`: the terms derive the token names `w`, one after the
other. -/
inductive Grammar.Derives (g : Grammar) : Expression → List Name → Prop where
  | nil : g.Derives [] []
  | terminal {t : Term} {ts : Expression} {w : List Name} (kind : t.kind = .terminal)
      (rest : g.Derives ts w) : g.Derives (t :: ts) (t.name :: w)
  | nonterminal {t : Term} {ts : Expression} {v w : List Name} (kind : t.kind = .nonterminal)
      (id : g.ExprId) (head : (g.expr id).head = t.name) (expr : g.Derives (g.expr id).terms v)
      (rest : g.Derives ts w) : g.Derives (t :: ts) (v ++ w)

/-- Whether a nonterminal derives token names. -/
def Grammar.DerivesFrom (g : Grammar) (name : Name) (w : List Name) : Prop :=
  ∃ id : g.ExprId, (g.expr id).head = name ∧ g.Derives (g.expr id).terms w

/-- Whether the start symbol derives token names. -/
def Grammar.Accepts (g : Grammar) (w : List Name) : Prop :=
  ∃ s, g.start = some s ∧ g.DerivesFrom s w

/-- `g.Produces before after`: some nonterminals of `before` are replaced by one
of their expressions, again and again, until `after` is left. -/
inductive Grammar.Produces (g : Grammar) : Expression → Expression → Prop where
  | refl (ts : Expression) : g.Produces ts ts
  | step {ts pre post : Expression} {t : Term} (start : g.Produces ts (pre ++ t :: post))
      (kind : t.kind = .nonterminal) (id : g.ExprId) (head : (g.expr id).head = t.name) :
      g.Produces ts (pre ++ (g.expr id).terms ++ post)

/-- `g.Uses a b`: the nonterminal `b` occurs in some expression of `a`. -/
def Grammar.Uses (g : Grammar) (a b : Name) : Prop :=
  ∃ id : g.ExprId, (g.expr id).head = a ∧
    ∃ t ∈ (g.expr id).terms, t.kind = .nonterminal ∧ t.name = b

/-- `ProductionsDerive ps terms w`: the terms derive the token names `w` through
productions as they were written.  An optional term may be skipped. -/
inductive ProductionsDerive (ps : List Production) : Expression → List Name → Prop where
  | nil : ProductionsDerive ps [] []
  | skip {t : Term} {ts : Expression} {w : List Name} (optional : t.optional = true)
      (rest : ProductionsDerive ps ts w) : ProductionsDerive ps (t :: ts) w
  | terminal {t : Term} {ts : Expression} {w : List Name} (kind : t.kind = .terminal)
      (rest : ProductionsDerive ps ts w) : ProductionsDerive ps (t :: ts) (t.name :: w)
  | nonterminal {t : Term} {ts : Expression} {v w : List Name} (kind : t.kind = .nonterminal)
      (p : Production) (mem : p ∈ ps) (lhs : p.lhs = t.name) (terms : Expression)
      (alternative : terms ∈ p.rhs) (expr : ProductionsDerive ps terms v)
      (rest : ProductionsDerive ps ts w) : ProductionsDerive ps (t :: ts) (v ++ w)

end ChartParser
