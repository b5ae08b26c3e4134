/-
Grammars as text: as documents for people to read, and as structured values.
-/
import ChartParser.Grammar.Basic

namespace ChartParser

open Text

/-- The terms of an expression, with a place to break between neighbours; the
empty expression is written `ε`. -/
def Expr.doc (e : Expr) : Doc :=
  if e.terms.isEmpty then Doc.text "ε"
  else Doc.separated Doc.softline (e.terms.map Term.doc)

namespace Grammar

variable (g : Grammar)

/-- The head of a rule and its alternatives. -/
def ruleDoc (rule : Rule g.exprs.size) : Doc :=
  Doc.text rule.head ++ Doc.text " =>" ++ Doc.softline ++
    Doc.separated (Doc.text " |" ++ Doc.softline)
      (rule.alternatives.map fun id => (g.expr id).doc)

/-- The start symbol and the rules of a grammar. -/
def doc : Doc :=
  Doc.text "Start =" ++ Doc.softline ++ Doc.text (g.start.getD "<none>") ++
  Doc.text "," ++ Doc.softline ++
  Doc.text "Rules " ++ Doc.text "\x7b" ++ Doc.softline ++
  Doc.nest 2 (g.rules.flatMap fun rule => g.ruleDoc rule ++ Doc.text ";" ++ Doc.softline) ++
  Doc.text "\x7d" ++ Doc.text "," ++ Doc.softline

/-- The text of a grammar, on lines of 80 bytes. -/
def pretty : String := g.doc.render 80

/-- An expression is shown with its number, head and terms. -/
def exprDatum (id : g.ExprId) : Datum :=
  .record "Expr"
    [("id", .number id), ("head", .atom (g.expr id).head),
     ("terms", Expression.datum (g.expr id).terms)]

/-- A rule is shown with its head and expressions. -/
def ruleDatum (rule : Rule g.exprs.size) : Datum :=
  .record "Rule"
    [("head", .atom rule.head), ("exprs", .list (rule.alternatives.map g.exprDatum))]

/-- A grammar is shown with its start symbol and rules. -/
def datum : Datum :=
  .record "Grammar"
    [("Start", .option (g.start.map .atom)), ("Rules", .list (g.rules.map g.ruleDatum))]

end Grammar

end ChartParser
