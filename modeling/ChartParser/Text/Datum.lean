/-
Structured values shown as text.

A `Datum` is the shape a value is shown in: atoms, labelled fields, and groups of
parts in one of four brackets.  It is written in two ways:

* `Datum.line` — everything on one line, parts separated by a comma and a space;
* `Datum.block` — one part per line, four more columns of indentation per level,
  and a comma after every part, the last one too.

An empty group is its two brackets in both forms.  An atom is written raw, so a
line break inside it is followed by the indentation of its level.
-/
namespace ChartParser.Text

/-- How the parts of a group are bracketed. -/
inductive Bracket where
  /-- `Name { a: 1, b: 2 }` -/
  | record (name : String)
  /-- `Name(1, 2)` -/
  | tuple (name : String)
  /-- `[1, 2]` -/
  | list
  /-- `{1, 2}` -/
  | set
deriving DecidableEq, Repr

/-- What stands before the parts. -/
def Bracket.opening : Bracket → String
  | record name => name ++ " \x7b"
  | tuple name => name ++ "("
  | list => "["
  | set => "\x7b"

/-- What stands after the parts. -/
def Bracket.closing : Bracket → String
  | record _ => "\x7d"
  | tuple _ => ")"
  | list => "]"
  | set => "\x7d"

/-- What separates the brackets from the parts on a single line. -/
def Bracket.padding : Bracket → String
  | record _ => " "
  | _ => ""

/-- The shape in which a value is shown. -/
inductive Datum where
  | atom (text : String)
  | field (label : String) (value : Datum)
  | group (bracket : Bracket) (parts : List Datum)
deriving Repr

namespace Datum

/-- A number, in decimal. -/
def number (n : Nat) : Datum := atom (toString n)

/-- A record with labelled fields. -/
def record (name : String) (fields : List (String × Datum)) : Datum :=
  group (.record name) (fields.map fun (label, value) => field label value)

/-- A named tuple. -/
def tuple (name : String) (parts : List Datum) : Datum := group (.tuple name) parts

/-- A list in square brackets. -/
def list (parts : List Datum) : Datum := group .list parts

/-- A set in braces. -/
def set (parts : List Datum) : Datum := group .set parts

/-- A value that may be missing. -/
def option : Option Datum → Datum
  | some d => tuple "Some" [d]
  | none => atom "None"

/-- Moves a text four columns to the right: its first line, and every line that
starts inside it. -/
def shifted (text : String) : String :=
  "    " ++ String.join
    (text.toList.map fun c => if c = '\n' then "\n    " else c.toString)

mutual

/-- A datum on one line. -/
def line : Datum → String
  | atom text => text
  | field label value => label ++ ": " ++ line value
  | group bracket [] => bracket.opening ++ bracket.closing
  | group bracket (part :: parts) =>
    bracket.opening ++ bracket.padding ++ String.intercalate ", " (lines (part :: parts))
      ++ bracket.padding ++ bracket.closing

/-- The one-line forms of the parts of a group. -/
def lines : List Datum → List String
  | [] => []
  | part :: parts => line part :: lines parts

end

mutual

/-- A datum with one part per line. -/
def block : Datum → String
  | atom text => text
  | field label value => label ++ ": " ++ block value
  | group bracket [] => bracket.opening ++ bracket.closing
  | group bracket (part :: parts) =>
    bracket.opening ++ "\n" ++ String.join (blocks (part :: parts)) ++ bracket.closing

/-- The parts of a group in block form, each shifted and closed by a comma and a
line break. -/
def blocks : List Datum → List String
  | [] => []
  | part :: parts => (shifted (block part) ++ ",\n") :: blocks parts

end

end Datum

end ChartParser.Text
