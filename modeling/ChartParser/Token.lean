/-
The tokens of an input.

A token has a name, which is matched against terminals, and a payload, which is
handed on to the results and never looked at.  Positions run from 0 to the
number of tokens; there is no token at the last position.
-/
import ChartParser.Grammar.Term

namespace ChartParser

open Text

/-- A token with a payload. -/
structure Token (α : Type) where
  name : Name
  payload : α
deriving DecidableEq, Repr

/-- The tokens of an input, by position. -/
abbrev Tokens (α : Type) := Array (Token α)

namespace Tokens

variable {α : Type} (tokens : Tokens α)

/-- The name of the token at a position. -/
def nameAt? (position : Nat) : Option Name := (tokens[position]?).map (·.name)

/-- Whether a position is at or past the end of the input. -/
def isEnd (position : Nat) : Bool := tokens.size ≤ position

/-- The positions of the tokens with a given name. -/
def positionsOf (name : Name) : List Nat :=
  (List.range tokens.size).filter fun i => tokens.nameAt? i = some name

/-- The names of the tokens, in order. -/
def names : List Name := tokens.toList.map (·.name)

end Tokens

/-- A token is shown with its name and payload. -/
def Token.datum (t : Token String) : Datum :=
  .record "Token" [("name", .atom t.name), ("payload", .atom (quoted t.payload))]

/-- An input is shown as the list of its tokens. -/
def Tokens.datum (tokens : Tokens String) : Datum :=
  .record "TokenStream" [("tokens", .list (tokens.toList.map Token.datum))]

end ChartParser
