/-
Which states belong in a chart.

A chart is filled by seeding, predicting, scanning and completing.  `Charted`
says what these rules give when they are applied in any order and for ever,
without sets, indexes or shortcuts, and `Linked` says where the last matched
term of such a state may have started.

* **`charted_iff`** — a state is charted at a position exactly if its expression
  was predicted at the origin and the terms before its cursor are matched by
  trees from there to the position;
* **`Linked.of_spans`** — trees of the earlier terms up to a position and of the
  last term from there on make a link;
* **`completed_start_iff`** — the start symbol is completed over the whole input
  exactly if it derives the names of the input.
-/
import ChartParser.Chart.Basic
import ChartParser.Proofs.Spans

namespace ChartParser

variable {g : Grammar} {α : Type}

namespace Key

/-- The next term of a key is a nonterminal of the given name. -/
def Awaits (key : Key g) (name : Name) : Prop :=
  ∃ t, key.item.next? = some t ∧ t.kind = .nonterminal ∧ t.name = name

/-- The next term of a key is a terminal of the given name. -/
def Scans (key : Key g) (name : Name) : Prop :=
  ∃ t, key.item.next? = some t ∧ t.kind = .terminal ∧ t.name = name

/-- A key has matched all terms of an expression for `name`, starting at
`origin`. -/
def Completes (key : Key g) (name : Name) (origin : Nat) : Prop :=
  key.item.isComplete = true ∧ key.head = name ∧ key.origin = origin

theorem Awaits.isComplete_eq_false {key : Key g} {name : Name} (h : key.Awaits name) :
    key.item.isComplete = false := by
  obtain ⟨t, hnext, -, -⟩ := h
  rw [← Bool.not_eq_true, ← Item.next?_eq_none_iff, hnext]
  simp

theorem Scans.isComplete_eq_false {key : Key g} {name : Name} (h : key.Scans name) :
    key.item.isComplete = false := by
  obtain ⟨t, hnext, -, -⟩ := h
  rw [← Bool.not_eq_true, ← Item.next?_eq_none_iff, hnext]
  simp

theorem Awaits.unique {key : Key g} {a b : Name} (ha : key.Awaits a) (hb : key.Awaits b) :
    a = b := by
  obtain ⟨t, ht, -, rfl⟩ := ha
  obtain ⟨u, hu, -, rfl⟩ := hb
  rw [Option.some.inj (ht.symm.trans hu)]

theorem Scans.unique {key : Key g} {a b : Name} (ha : key.Scans a) (hb : key.Scans b) :
    a = b := by
  obtain ⟨t, ht, -, rfl⟩ := ha
  obtain ⟨u, hu, -, rfl⟩ := hb
  rw [Option.some.inj (ht.symm.trans hu)]

theorem Awaits.not_scans {key : Key g} {a b : Name} (ha : key.Awaits a) : ¬ key.Scans b := by
  rintro ⟨u, hu, hscan, -⟩
  obtain ⟨t, ht, hawait, -⟩ := ha
  rw [Option.some.inj (ht.symm.trans hu), hscan] at hawait
  contradiction

theorem Completes.not_awaits {key : Key g} {a b : Name} {o : Nat} (h : key.Completes a o) :
    ¬ key.Awaits b := by
  intro hawait
  have hcomplete := h.1
  rw [hawait.isComplete_eq_false] at hcomplete
  contradiction

theorem Completes.not_scans {key : Key g} {a b : Name} {o : Nat} (h : key.Completes a o) :
    ¬ key.Scans b := by
  intro hscan
  have hcomplete := h.1
  rw [hscan.isComplete_eq_false] at hcomplete
  contradiction

theorem advance?_eq_some_iff {key next : Key g} :
    key.advance? = some next ↔
      key.item.advance? = some next.item ∧ next.origin = key.origin := by
  unfold advance?
  rw [Option.map_eq_some_iff]
  constructor
  · rintro ⟨item, hitem, rfl⟩
    exact ⟨hitem, rfl⟩
  · rintro ⟨hitem, horigin⟩
    exact ⟨next.item, hitem, by rw [← horigin]⟩

theorem origin_of_advance? {key next : Key g} (h : key.advance? = some next) :
    next.origin = key.origin :=
  (advance?_eq_some_iff.mp h).2

/-- Only one key advances to a given one. -/
theorem eq_of_advance? {key key' next : Key g} (h : key.advance? = some next)
    (h' : key'.advance? = some next) : key = key' := by
  obtain ⟨hitem, horigin⟩ := advance?_eq_some_iff.mp h
  obtain ⟨hitem', horigin'⟩ := advance?_eq_some_iff.mp h'
  have hretreat := Item.retreat?_of_advance? hitem
  rw [Item.retreat?_of_advance? hitem'] at hretreat
  cases key
  cases key'
  simp only [Option.some.injEq] at hretreat horigin horigin'
  rw [hretreat, ← horigin, ← horigin']

/-- A waiting or scanning key can be advanced. -/
theorem exists_advance? {key : Key g} (h : key.item.isComplete = false) :
    ∃ next, key.advance? = some next := by
  have hlt : key.item.cursor < key.item.terms.length := by
    have hle := key.item.cursor_le_length
    have hne : ¬ key.item.cursor = key.item.terms.length := by
      rw [← Item.isComplete_iff, h]
      simp
    omega
  unfold advance? Item.advance?
  rw [dif_pos hlt]
  exact ⟨_, rfl⟩

theorem finish?_eq_some_iff {key next : Key g} :
    key.finish? = some next ↔ key.advance? = some next ∧ next.item.isComplete = true := by
  unfold finish?
  rw [Option.filter_eq_some_iff]

end Key

namespace Item

/-- The terms before the cursor. -/
def matched (i : Item g) : Expression := i.terms.take i.cursor

theorem matched_of_advance? {i j : Item g} {t : Term} (h : i.advance? = some j)
    (hnext : i.next? = some t) : j.matched = i.matched ++ [t] := by
  obtain ⟨-, hexpr, hcursor⟩ := advance?_eq_some_iff.mp h
  have hterms : j.terms = i.terms := by rw [terms, terms, hexpr]
  rw [matched, matched, hterms, hcursor, List.take_add_one]
  rw [next?] at hnext
  rw [hnext]
  rfl

/-- An item behind a term is an advance over that term. -/
theorem exists_advance?_eq {i : Item g} (h : i.cursor ≠ 0) :
    ∃ prev term, i.retreat? = some prev ∧ i.previous? = some term ∧ prev.advance? = some i ∧
      prev.next? = some term := by
  obtain ⟨expr, cursor, hle⟩ := i
  obtain ⟨c, rfl⟩ := Nat.exists_eq_succ_of_ne_zero h
  have hterm : (g.expr expr).terms[c]? = some (g.expr expr).terms[c] :=
    List.getElem?_eq_getElem hle
  have hadvance : (⟨expr, c, Nat.le_of_lt hle⟩ : Item g).advance? = some ⟨expr, c + 1, hle⟩ :=
    advance?_eq_some_iff.mpr ⟨hle, rfl, rfl⟩
  exact ⟨_, _, retreat?_of_advance? hadvance, hterm, hadvance, hterm⟩

theorem matched_of_isComplete {i : Item g} (h : i.isComplete = true) : i.matched = i.terms := by
  rw [matched, isComplete_iff.mp h, List.take_length]

end Item

/-! ### The rules of a chart -/

/-- `Charted tokens key k`: the rules of a chart put the key into the set at
position `k`. -/
inductive Charted (tokens : Tokens α) : Key g → Nat → Prop where
  /-- The expressions of the start symbol are there from the start. -/
  | seed {id : g.ExprId} (start : id ∈ g.startAlternatives) : Charted tokens ⟨.atStart id, 0⟩ 0
  /-- A nonterminal that is waited for is predicted. -/
  | predict {waiter : Key g} {k : Nat} {name : Name} {id : g.ExprId}
      (here : Charted tokens waiter k) (awaits : waiter.Awaits name)
      (head : (g.expr id).head = name) : Charted tokens ⟨.atStart id, k⟩ k
  /-- A terminal matches the token at its position. -/
  | scan {scanner next : Key g} {k : Nat} {name : Name} (before : Charted tokens scanner k)
      (scans : scanner.Scans name) (token : tokens.nameAt? k = some name)
      (advance : scanner.advance? = some next) : Charted tokens next (k + 1)
  /-- A nonterminal matches what one of its expressions has matched. -/
  | complete {waiter done next : Key g} {j k : Nat} {name : Name}
      (before : Charted tokens waiter j) (awaits : waiter.Awaits name)
      (inner : Charted tokens done k) (completes : done.Completes name j)
      (advance : waiter.advance? = some next) : Charted tokens next k

/-- A nonterminal is completed over a span: one of its expressions is charted as
complete. -/
def Completed (g : Grammar) (tokens : Tokens α) (name : Name) (j k : Nat) : Prop :=
  ∃ done : Key g, Charted tokens done k ∧ done.Completes name j

/-- `Linked tokens key k j`: the last matched term of the key at `k` may have
started at `j`. -/
def Linked (tokens : Tokens α) (key : Key g) (k j : Nat) : Prop :=
  ∃ before, before.advance? = some key ∧ Charted tokens before j ∧
    ((∃ name, before.Scans name ∧ tokens.nameAt? j = some name ∧ k = j + 1) ∨
      ∃ name, before.Awaits name ∧ Completed g tokens name j k)

variable {tokens : Tokens α}

theorem Linked.charted {key : Key g} {k j : Nat} (h : Linked tokens key k j) :
    Charted tokens key k := by
  obtain ⟨before, hadvance, hbefore, ⟨name, hscans, htoken, rfl⟩ | ⟨name, hawaits, done, hdone,
    hcompletes⟩⟩ := h
  · exact .scan hbefore hscans htoken hadvance
  · exact .complete hbefore hawaits hdone hcompletes hadvance

/-- A state that has matched something has got there by a link. -/
theorem Charted.exists_linked {key : Key g} {k : Nat} (h : Charted tokens key k)
    (hcursor : key.item.cursor ≠ 0) : ∃ j, Linked tokens key k j := by
  cases h with
  | seed => exact absurd rfl hcursor
  | predict => exact absurd rfl hcursor
  | scan before scans token advance =>
    exact ⟨_, _, advance, before, .inl ⟨_, scans, token, rfl⟩⟩
  | complete before awaits inner completes advance =>
    exact ⟨_, _, advance, before, .inr ⟨_, awaits, _, inner, completes⟩⟩

/-- A state starts no later than it stands. -/
theorem Charted.origin_le {key : Key g} {k : Nat} (h : Charted tokens key k) :
    key.origin ≤ k := by
  induction h with
  | seed => exact Nat.le_refl 0
  | predict => exact Nat.le_refl _
  | scan _ _ _ advance ih =>
    rw [Key.origin_of_advance? advance]
    omega
  | complete _ _ _ completes advance ihBefore ihInner =>
    obtain ⟨-, -, rfl⟩ := completes
    rw [Key.origin_of_advance? advance]
    omega

/-- There are no states behind the end of the input. -/
theorem Charted.le_size {key : Key g} {k : Nat} (h : Charted tokens key k) :
    k ≤ tokens.size := by
  induction h with
  | seed => exact Nat.zero_le _
  | predict _ _ _ ih => exact ih
  | @scan _ _ k _ _ _ token _ _ =>
    rw [Tokens.nameAt?, Option.map_eq_some_iff] at token
    obtain ⟨_, hget, -⟩ := token
    exact (Array.getElem?_eq_some_iff.mp hget).1
  | complete _ _ _ _ _ _ ihInner => exact ihInner

theorem Completed.le {name : Name} {j k : Nat} (h : Completed g tokens name j k) : j ≤ k := by
  obtain ⟨done, hdone, -, -, rfl⟩ := h
  exact hdone.origin_le

theorem Linked.le {key : Key g} {k j : Nat} (h : Linked tokens key k j) :
    key.origin ≤ j ∧ j ≤ k := by
  obtain ⟨before, hadvance, hbefore, hterm⟩ := h
  refine ⟨by rw [Key.origin_of_advance? hadvance]; exact hbefore.origin_le, ?_⟩
  rcases hterm with ⟨name, -, -, rfl⟩ | ⟨name, -, hcompleted⟩
  · exact Nat.le_succ j
  · exact hcompleted.le

/-- The links of an item in terms of the item with one term fewer. -/
theorem linked_iff {prev item : Item g} {term : Term} {start k j : Nat}
    (hadvance : prev.advance? = some item) (hnext : prev.next? = some term) :
    Linked tokens ⟨item, start⟩ k j ↔
      Charted tokens ⟨prev, start⟩ j ∧
        (term.kind = .terminal ∧ tokens.nameAt? j = some term.name ∧ k = j + 1 ∨
          term.kind = .nonterminal ∧ Completed g tokens term.name j k) := by
  have hkey : (⟨prev, start⟩ : Key g).advance? = some ⟨item, start⟩ :=
    Key.advance?_eq_some_iff.mpr ⟨hadvance, rfl⟩
  constructor
  · rintro ⟨before, hbefore, hcharted, hterm⟩
    obtain rfl := Key.eq_of_advance? hbefore hkey
    refine ⟨hcharted, ?_⟩
    rcases hterm with ⟨_, ⟨t, ht, hkind, rfl⟩, hterm⟩ | ⟨_, ⟨t, ht, hkind, rfl⟩, hterm⟩
    · obtain rfl := Option.some.inj (hnext.symm.trans ht)
      exact .inl ⟨hkind, hterm⟩
    · obtain rfl := Option.some.inj (hnext.symm.trans ht)
      exact .inr ⟨hkind, hterm⟩
  · rintro ⟨hcharted, hterm⟩
    refine ⟨_, hkey, hcharted, ?_⟩
    rcases hterm with ⟨hkind, hterm⟩ | ⟨hkind, hterm⟩
    · exact .inl ⟨_, ⟨term, hnext, hkind, rfl⟩, hterm⟩
    · exact .inr ⟨_, ⟨term, hnext, hkind, rfl⟩, hterm⟩

/-! ### Charted states and trees -/

open ChartParser.Tree

/-- The name at a position is the name of a token there. -/
theorem Tokens.nameAt?_eq_some_iff {k : Nat} {name : Name} :
    tokens.nameAt? k = some name ↔ ∃ token, tokens[k]? = some token ∧ token.name = name := by
  rw [nameAt?, Option.map_eq_some_iff]

theorem Charted.exists_spans {key : Key g} {k : Nat} (h : Charted tokens key k) :
    ∃ zs : List (Tree g α), Spans tokens key.item.matched zs key.origin k := by
  induction h with
  | seed => exact ⟨[], .nil 0⟩
  | predict => exact ⟨[], .nil _⟩
  | scan _ scans token advance ih =>
    obtain ⟨zs, hzs⟩ := ih
    obtain ⟨t, hnext, hkind, rfl⟩ := scans
    obtain ⟨token, hget, hname⟩ := Tokens.nameAt?_eq_some_iff.mp token
    obtain ⟨hitem, horigin⟩ := Key.advance?_eq_some_iff.mp advance
    rw [Item.matched_of_advance? hitem hnext, horigin]
    exact ⟨_, hzs.append (.leaf hkind hget hname (.nil _))⟩
  | complete _ awaits _ completes advance ihBefore ihInner =>
    obtain ⟨zs, hzs⟩ := ihBefore
    obtain ⟨children, hchildren⟩ := ihInner
    obtain ⟨t, hnext, hkind, rfl⟩ := awaits
    obtain ⟨hcomplete, hhead, rfl⟩ := completes
    obtain ⟨hitem, horigin⟩ := Key.advance?_eq_some_iff.mp advance
    rw [Item.matched_of_isComplete hcomplete] at hchildren
    rw [Item.matched_of_advance? hitem hnext, horigin]
    exact ⟨_, hzs.append (.branch hkind _ hhead hchildren (.nil _))⟩

theorem Item.matched_of_cursor_eq_zero {item : Item g} (h : item.cursor = 0) :
    item.matched = [] := by
  rw [matched, h, List.take_zero]

/-- A charted item at the start of its expression stands where it starts. -/
theorem Charted.origin_eq_of_cursor_eq_zero {key : Key g} {k : Nat} (h : Charted tokens key k)
    (hcursor : key.item.cursor = 0) : key.origin = k := by
  obtain ⟨zs, hzs⟩ := h.exists_spans
  rw [Item.matched_of_cursor_eq_zero hcursor] at hzs
  exact (spans_nil_iff.mp hzs).2

/-- A charted item at the start of its expression has matched nothing. -/
theorem Charted.spans_iff_of_cursor_eq_zero {item : Item g} {start k : Nat}
    (h : Charted tokens ⟨item, start⟩ k) (hcursor : item.cursor = 0) {zs : List (Tree g α)} :
    Spans tokens item.matched zs start k ↔ zs = [] := by
  rw [Item.matched_of_cursor_eq_zero hcursor, spans_nil_iff,
    and_iff_left (h.origin_eq_of_cursor_eq_zero hcursor)]

theorem Charted.atStart {key : Key g} {k : Nat} (h : Charted tokens key k) :
    Charted tokens ⟨.atStart key.item.expr, key.origin⟩ key.origin := by
  induction h with
  | seed start => exact .seed start
  | predict here awaits head => exact .predict here awaits head
  | scan _ _ _ advance ih =>
    obtain ⟨hitem, horigin⟩ := Key.advance?_eq_some_iff.mp advance
    rw [(Item.advance?_eq_some_iff.mp hitem).2.1, horigin]
    exact ih
  | complete _ _ _ _ advance ih _ =>
    obtain ⟨hitem, horigin⟩ := Key.advance?_eq_some_iff.mp advance
    rw [(Item.advance?_eq_some_iff.mp hitem).2.1, horigin]
    exact ih

/-- A key whose cursor stands behind the terms before `t` has `t` next. -/
theorem Key.advance?_of_terms_eq {pre ts post : Expression} {t : Term} {id : g.ExprId}
    {c : Nat} (hc : c ≤ (g.expr id).length) (origin : Nat)
    (hterms : (g.expr id).terms = pre ++ t :: ts ++ post) (hpre : c = pre.length) :
    (⟨id, c, hc⟩ : Item g).next? = some t ∧
      ∃ hc' : c + 1 ≤ (g.expr id).length,
        (⟨⟨id, c, hc⟩, origin⟩ : Key g).advance? = some ⟨⟨id, c + 1, hc'⟩, origin⟩ := by
  have hlt : c < (g.expr id).terms.length := by
    rw [hterms, hpre]
    simp
  refine ⟨by simp [Item.next?, Item.terms, hterms, hpre], hlt, ?_⟩
  exact Key.advance?_eq_some_iff.mpr ⟨Item.advance?_eq_some_iff.mpr ⟨hlt, rfl, rfl⟩, rfl⟩

/-- Trees carry a charted state forward: if a state stands before some terms of
its expression and trees match them, the state behind them is charted where the
trees end. -/
theorem Charted.of_spans {ts : Expression} {zs : List (Tree g α)} {i k : Nat}
    (h : Spans tokens ts zs i k) (pre post : Expression) {id : g.ExprId} {origin : Nat}
    (hterms : (g.expr id).terms = pre ++ ts ++ post) {c c' : Nat}
    {hc : c ≤ (g.expr id).length} {hc' : c' ≤ (g.expr id).length}
    (hpre : c = pre.length) (hpost : c' = pre.length + ts.length)
    (hstart : Charted tokens ⟨⟨id, c, hc⟩, origin⟩ i) :
    Charted tokens ⟨⟨id, c', hc'⟩, origin⟩ k := by
  -- along the trees; `pre` grows by the terms that are passed
  induction h generalizing id pre post origin c c' with
  | nil =>
    obtain rfl : c' = c := by rw [hpost, hpre]; rfl
    exact hstart
  | @leaf t ts zs i j token kind found name _ ih =>
    obtain ⟨hnext, hlt, hadvance⟩ := Key.advance?_of_terms_eq hc origin hterms hpre
    have htoken : tokens.nameAt? i = some t.name :=
      Tokens.nameAt?_eq_some_iff.mpr ⟨token, found, name⟩
    refine ih (pre ++ [t]) post (by simpa using hterms) ?_ ?_
      (.scan hstart ⟨t, hnext, kind, rfl⟩ htoken hadvance)
    · simp [hpre]
    · simp only [List.length_cons, List.length_append, List.length_nil] at hpost ⊢
      omega
  | @branch t ts children zs i j k kind id' head inner _ ihInner ihRest =>
    obtain ⟨hnext, hlt, hadvance⟩ := Key.advance?_of_terms_eq hc origin hterms hpre
    -- the branch's own expression is predicted here and carried to its end
    have hdone : Charted tokens ⟨⟨id', (g.expr id').length, Nat.le_refl _⟩, i⟩ j :=
      ihInner [] [] (by simp) rfl (by simp [Expr.length])
        (.predict hstart ⟨t, hnext, kind, rfl⟩ head)
    have hcompletes : (⟨⟨id', (g.expr id').length, Nat.le_refl _⟩, i⟩ : Key g).Completes t.name i :=
      ⟨Item.isComplete_iff.mpr rfl, head, rfl⟩
    refine ihRest (pre ++ [t]) post (by simpa using hterms) ?_ ?_
      (.complete hstart ⟨t, hnext, kind, rfl⟩ hdone hcompletes hadvance)
    · simp [hpre]
    · simp only [List.length_cons, List.length_append, List.length_nil] at hpost ⊢
      omega

/-- **Charted states are those with trees.**  A state is charted exactly if its
expression was predicted at the origin and trees match the terms before its
cursor. -/
theorem charted_iff {key : Key g} {k : Nat} :
    Charted tokens key k ↔
      Charted tokens ⟨.atStart key.item.expr, key.origin⟩ key.origin ∧
        ∃ zs : List (Tree g α), Spans tokens key.item.matched zs key.origin k := by
  constructor
  · intro h
    exact ⟨h.atStart, h.exists_spans⟩
  · rintro ⟨hstart, zs, hzs⟩
    have hterms : (g.expr key.item.expr).terms =
        [] ++ key.item.matched ++ key.item.terms.drop key.item.cursor :=
      (List.take_append_drop _ _).symm
    refine Charted.of_spans hzs _ _ hterms rfl ?_ hstart
    rw [Item.matched, List.length_take, Nat.min_eq_left key.item.cursor_le_length]
    exact (Nat.zero_add _).symm

/-- A nonterminal that is completed over a span has a tree over it. -/
theorem Completed.exists_spans {name : Name} {j k : Nat} (h : Completed g tokens name j k) :
    ∃ z : Tree g α, Spans tokens [.nonterminal name] [z] j k := by
  obtain ⟨done, hdone, hcomplete, hhead, rfl⟩ := h
  obtain ⟨children, hchildren⟩ := hdone.exists_spans
  rw [Item.matched_of_isComplete hcomplete] at hchildren
  exact ⟨_, .branch rfl _ hhead hchildren (.nil _)⟩

/-- The complete item of an expression. -/
def Item.atEnd (id : g.ExprId) : Item g := ⟨id, (g.expr id).length, Nat.le_refl _⟩

@[simp] theorem Item.isComplete_atEnd (id : g.ExprId) : (atEnd id).isComplete = true :=
  isComplete_iff.mpr rfl

theorem Item.eq_atEnd_of_isComplete {i : Item g} (h : i.isComplete = true) :
    i = atEnd i.expr :=
  Item.ext rfl (isComplete_iff.mp h)

/-- A predicted expression whose terms have trees is charted as complete. -/
theorem Charted.atEnd {id : g.ExprId} {j k : Nat} {children : List (Tree g α)}
    (hstart : Charted tokens ⟨.atStart id, j⟩ j)
    (hchildren : Spans tokens (g.expr id).terms children j k) :
    Charted tokens ⟨.atEnd id, j⟩ k := by
  refine charted_iff.mpr ⟨hstart, children, ?_⟩
  rw [Item.matched_of_isComplete (Item.isComplete_atEnd id)]
  exact hchildren

/-- Trees of the earlier terms and of the last term of a predicted expression
make a link. -/
theorem Linked.of_spans {before key : Key g} {t : Term} {j k : Nat} {xs : List (Tree g α)}
    {z : Tree g α} (hstart : Charted tokens ⟨.atStart key.item.expr, key.origin⟩ key.origin)
    (hadvance : before.advance? = some key) (hnext : before.item.next? = some t)
    (hxs : Spans tokens before.item.matched xs key.origin j) (hz : Spans tokens [t] [z] j k) :
    Linked tokens key k j := by
  obtain ⟨hitem, horigin⟩ := Key.advance?_eq_some_iff.mp hadvance
  obtain ⟨-, hexpr, -⟩ := Item.advance?_eq_some_iff.mp hitem
  have hbefore : Charted tokens before j := by
    rw [hexpr, horigin] at hstart
    rw [horigin] at hxs
    exact charted_iff.mpr ⟨hstart, xs, hxs⟩
  refine ⟨before, hadvance, hbefore, ?_⟩
  cases hkind : t.kind with
  | terminal =>
    obtain ⟨token, hget, hname, -, rfl⟩ := (spans_terminal_iff hkind).mp hz
    exact .inl ⟨t.name, ⟨t, hnext, hkind, rfl⟩,
      Tokens.nameAt?_eq_some_iff.mpr ⟨token, hget, hname⟩, rfl⟩
  | nonterminal =>
    obtain ⟨id, children, hhead, hchildren, -⟩ := (spans_nonterminal_iff hkind).mp hz
    have hawaits : before.Awaits t.name := ⟨t, hnext, hkind, rfl⟩
    have hpredicted := Charted.predict hbefore hawaits hhead
    exact .inr
      ⟨t.name, hawaits, _, hpredicted.atEnd hchildren, Item.isComplete_atEnd id, hhead, rfl⟩

/-- **Acceptance.**  The start symbol is completed over the whole input exactly
if it derives the names of the input. -/
theorem completed_start_iff {s : Name} (hs : g.start = some s) :
    Completed g tokens s 0 tokens.size ↔ g.DerivesFrom s tokens.names := by
  rw [derivesFrom_names_iff]
  constructor
  · exact Completed.exists_spans
  · rintro ⟨tree, htree⟩
    obtain ⟨id, children, hhead, hchildren, -⟩ := (spans_nonterminal_iff rfl).mp htree
    have hmem : id ∈ g.startAlternatives := by
      rw [Grammar.startAlternatives, hs]
      exact Grammar.mem_alternatives.mpr hhead
    exact ⟨_, (Charted.seed hmem).atEnd hchildren, Item.isComplete_atEnd id, hhead, rfl⟩

end ChartParser
