/-
Dotted items: an expression of a grammar with a cursor in it.

The cursor is the number of terms already matched and never lies past the end of
the expression.  The item

    A => a <b> . c

has matched `a` and `<b>` and waits for `c`.

* `Key` — an item together with the position where its expression started; a
  state set holds at most one state of each key.  Keys are ordered by the number
  of their expression, then by cursor, then by origin.
-/
import ChartParser.Grammar.Basic

namespace ChartParser

open Text

/-- An expression with a cursor. -/
structure Item (g : Grammar) where
  expr : g.ExprId
  cursor : Nat
  cursor_le : cursor ≤ (g.expr expr).length
deriving DecidableEq

namespace Item

variable {g : Grammar}

/-- The item at the start of an expression. -/
def atStart (expr : g.ExprId) : Item g := ⟨expr, 0, Nat.zero_le _⟩

/-- The item with a given cursor, which the caller promises to be in range. -/
def ofCursor (expr : g.ExprId) (cursor : Nat) : Except Misuse (Item g) :=
  if h : cursor ≤ (g.expr expr).length then .ok ⟨expr, cursor, h⟩
  else .error .cursorPastEnd

/-- The nonterminal that the item's expression derives. -/
def head (i : Item g) : Name := (g.expr i.expr).head

/-- The terms of the item's expression. -/
def terms (i : Item g) : Expression := (g.expr i.expr).terms

/-- The term after the cursor. -/
def next? (i : Item g) : Option Term := i.terms[i.cursor]?

/-- The term before the cursor. -/
def previous? (i : Item g) : Option Term :=
  match i.cursor with
  | 0 => none
  | c + 1 => i.terms[c]?

/-- Whether all terms are matched. -/
def isComplete (i : Item g) : Bool := i.cursor = i.terms.length

/-- The item with one more term matched. -/
def advance? (i : Item g) : Option (Item g) :=
  if h : i.cursor < i.terms.length then some ⟨i.expr, i.cursor + 1, h⟩ else none

/-- The item with one term fewer matched. -/
def retreat? (i : Item g) : Option (Item g) :=
  if i.cursor = 0 then none
  else some ⟨i.expr, i.cursor - 1, Nat.le_trans (Nat.sub_le ..) i.cursor_le⟩

@[ext] theorem ext {i j : Item g} (hexpr : i.expr = j.expr) (hcursor : i.cursor = j.cursor) :
    i = j := by
  cases i
  cases j
  subst hexpr hcursor
  rfl

theorem cursor_le_length (i : Item g) : i.cursor ≤ i.terms.length := i.cursor_le

theorem isComplete_iff {i : Item g} : i.isComplete = true ↔ i.cursor = i.terms.length :=
  decide_eq_true_iff

/-- An item has no next term exactly when it is complete. -/
theorem next?_eq_none_iff {i : Item g} : i.next? = none ↔ i.isComplete = true := by
  have h := i.cursor_le_length
  rw [next?, List.getElem?_eq_none_iff, isComplete_iff]
  omega

theorem advance?_eq_some_iff {i j : Item g} :
    i.advance? = some j ↔
      i.cursor < i.terms.length ∧ j.expr = i.expr ∧ j.cursor = i.cursor + 1 := by
  unfold advance?
  constructor
  · intro hj
    split at hj
    · rename_i h
      obtain rfl := Option.some.inj hj
      exact ⟨h, rfl, rfl⟩
    · contradiction
  · rintro ⟨h, hexpr, hcursor⟩
    rw [dif_pos h]
    exact congrArg some (Item.ext hexpr.symm hcursor.symm)

/-- Moving the cursor forward and back again changes nothing. -/
theorem retreat?_of_advance? {i j : Item g} (h : i.advance? = some j) : j.retreat? = some i := by
  obtain ⟨-, hexpr, hcursor⟩ := advance?_eq_some_iff.mp h
  rw [retreat?, if_neg (by omega)]
  exact congrArg some (Item.ext hexpr (by simp [hcursor]))

/-- The term that an advance passes is the one before the new cursor. -/
theorem previous?_of_advance? {i j : Item g} (h : i.advance? = some j) :
    j.previous? = i.next? := by
  obtain ⟨-, hexpr, hcursor⟩ := advance?_eq_some_iff.mp h
  simp only [previous?, next?, terms, hcursor, hexpr]

/-- Items are ordered by the number of their expression, then by cursor. -/
instance : Ord (Item g) where
  compare := compareLex (compareOn (·.expr.val)) (compareOn (·.cursor))

instance : Std.TransOrd (Item g) :=
  inferInstanceAs (Std.TransCmp
    (compareLex (compareOn fun i : Item g => i.expr.val) (compareOn fun i => i.cursor)))

instance : Std.LawfulEqOrd (Item g) where
  eq_of_compare {i j} h := by
    change (compareLex (compareOn (·.expr.val)) (compareOn (·.cursor)) i j) = .eq at h
    rw [compareLex_eq_eq] at h
    obtain ⟨hexpr, hcursor⟩ := h
    have hexpr : i.expr = j.expr := Fin.ext (Std.LawfulEqOrd.eq_of_compare hexpr)
    have hcursor : i.cursor = j.cursor := Std.LawfulEqOrd.eq_of_compare hcursor
    exact Item.ext hexpr hcursor

/-- The head, an arrow, and the terms with a dot at the cursor. -/
def text (i : Item g) : String :=
  i.head ++ " => " ++ String.intercalate " "
    ((i.terms.take i.cursor).map Term.text ++ "." :: (i.terms.drop i.cursor).map Term.text)

/-- An item never breaks over lines. -/
def doc (i : Item g) : Doc := Doc.text i.text

/-- An item is shown as an atom. -/
def datum (i : Item g) : Datum := .atom i.text

end Item

/-- An item and the position where its expression started. -/
structure Key (g : Grammar) where
  item : Item g
  origin : Nat
deriving DecidableEq

namespace Key

variable {g : Grammar}

/-- The nonterminal that the key's expression derives. -/
def head (k : Key g) : Name := k.item.head

/-- The key with one more term matched. -/
def advance? (k : Key g) : Option (Key g) :=
  k.item.advance?.map fun item => ⟨item, k.origin⟩

/-- The key with one more term matched, if that was the last one. -/
def finish? (k : Key g) : Option (Key g) :=
  k.advance?.filter (·.item.isComplete)

/-- Keys are ordered by item, then by origin. -/
instance : Ord (Key g) where
  compare := compareLex (compareOn (·.item)) (compareOn (·.origin))

instance : Std.TransOrd (Key g) :=
  inferInstanceAs (Std.TransCmp
    (compareLex (compareOn fun k : Key g => k.item) (compareOn fun k => k.origin)))

instance : Std.LawfulEqOrd (Key g) where
  eq_of_compare {k l} h := by
    change (compareLex (compareOn (·.item)) (compareOn (·.origin)) k l) = .eq at h
    rw [compareLex_eq_eq] at h
    obtain ⟨hitem, horigin⟩ := h
    have hitem : k.item = l.item := Std.LawfulEqOrd.eq_of_compare hitem
    have horigin : k.origin = l.origin := Std.LawfulEqOrd.eq_of_compare horigin
    cases k
    cases l
    subst hitem horigin
    rfl

/-- A key is shown with its item and origin. -/
def datum (k : Key g) : Datum :=
  .record "EarleyStateKey" [("state", k.item.datum), ("origin", .number k.origin)]

end Key

end ChartParser
