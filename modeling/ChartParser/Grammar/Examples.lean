/-
Small grammars for the interesting corners of the parser: recursion on either
side, ambiguity, cycles, hidden and chained empty derivations, optional terms.
-/
import ChartParser.Grammar.Basic

namespace ChartParser

/-- The grammar of productions that are known to fit together. -/
def Grammar.ofValid (start : Name) (productions : List Production)
    (h : (Grammar.withStart start productions).isOk = true) : Grammar :=
  match hg : Grammar.withStart start productions with
  | .ok g => g
  | .error _ => absurd h (by simp [hg, Except.isOk, Except.toBool])

namespace Examples

open Term

/-- `S -> "a" S "b" | ε` -/
def balanced : Grammar :=
  .ofValid "S" [⟨"S", [[terminal "a", nonterminal "S", terminal "b"], []]⟩]
    (by decide +kernel)

/-- `A -> A "x" | "y"` -/
def leftRecursive : Grammar :=
  .ofValid "A" [⟨"A", [[nonterminal "A", terminal "x"], [terminal "y"]]⟩]
    (by decide +kernel)

/-- `S -> "a" S | "a"` -/
def rightRecursive : Grammar :=
  .ofValid "S" [⟨"S", [[terminal "a", nonterminal "S"], [terminal "a"]]⟩]
    (by decide +kernel)

/-- `S -> A; A -> "x" | "x" "x"` -/
def sharedPrefix : Grammar :=
  .ofValid "S"
    [⟨"S", [[nonterminal "A"]]⟩, ⟨"A", [[terminal "x"], [terminal "x", terminal "x"]]⟩]
    (by decide +kernel)

/-- `E -> E "+" E | "n"`.  A sum of `k` operands has the Catalan number of
`k - 1` derivations. -/
def ambiguousSum : Grammar :=
  .ofValid "E" [⟨"E", [[nonterminal "E", terminal "+", nonterminal "E"], [terminal "n"]]⟩]
    (by decide +kernel)

/-- `A -> A | "x"`.  It has infinitely many derivations of `"x"`. -/
def cyclic : Grammar :=
  .ofValid "A" [⟨"A", [[nonterminal "A"], [terminal "x"]]⟩]
    (by decide +kernel)

/-- `S -> A S "x" | "y"; A -> ε`.  The empty `A` is predicted and completed in
the state set of the item that waits for it. -/
def hiddenEpsilon : Grammar :=
  .ofValid "S"
    [⟨"S", [[nonterminal "A", nonterminal "S", terminal "x"], [terminal "y"]]⟩, ⟨"A", [[]]⟩]
    (by decide +kernel)

/-- `S -> A B "c"; A -> B; B -> ε` -/
def nullableChain : Grammar :=
  .ofValid "S"
    [⟨"S", [[nonterminal "A", nonterminal "B", terminal "c"]]⟩,
     ⟨"A", [[nonterminal "B"]]⟩, ⟨"B", [[]]⟩]
    (by decide +kernel)

/-- `ns -> "N" "{" block? "}"; block -> "W" block?` -/
def optionalBlock : Grammar :=
  .ofValid "ns"
    [⟨"ns", [[terminal "N", terminal "\x7b", (nonterminal "block").maybe, terminal "\x7d"]]⟩,
     ⟨"block", [[terminal "W", (nonterminal "block").maybe]]⟩]
    (by decide +kernel)

/-- The example grammars by name. -/
def named : List (String × Grammar) :=
  [("balanced", balanced), ("left_recursive", leftRecursive),
   ("right_recursive", rightRecursive), ("shared_prefix", sharedPrefix),
   ("ambiguous_sum", ambiguousSum), ("cyclic", cyclic), ("hidden_epsilon", hiddenEpsilon),
   ("nullable_chain", nullableChain), ("optional_block", optionalBlock)]

end Examples

end ChartParser
