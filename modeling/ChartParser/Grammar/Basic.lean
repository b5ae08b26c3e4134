/-
Context-free grammars, made from productions.

A grammar is a start symbol with the tables of its productions: it lists its
*expressions*, every variant of every alternative, and productions with the same
left-hand side form one *rule*, which refers to its expressions by number
(see `ChartParser.Grammar.Tables`).

* `Grammar.assemble` — makes a grammar or reports the first fault of the
  description: an alternative with too many optional terms, an undefined start
  symbol, then the first term that is an undefined nonterminal or a terminal
  with productions;
* `Grammar.WellFormed` — what the checks establish.  Every grammar carries it,
  and that its tables are consistent, so nothing that works on a grammar has to
  check again;
* `Grammar.rule?_eq_some_iff` — the rule that the index finds for a name is the one
  with that head;
* `Grammar.mem_alternatives` — the alternatives of a name are exactly the
  expressions with that head.
-/
import ChartParser.Grammar.Tables
import ChartParser.Misuse

namespace ChartParser

/-! ### Checks -/

/-- What is wrong with a start symbol. -/
def startFault? (defined : Name → Bool) (start : Option Name) : Option GrammarError :=
  match start with
  | none => none
  | some s => if defined s then none else some (.undefinedStartSymbol s)

/-- What is wrong with a term of a rule for `lhs`. -/
def termFault? (defined : Name → Bool) (lhs : Name) (t : Term) : Option GrammarError :=
  match t.kind with
  | .nonterminal => if defined t.name then none else some (.undefinedNonterminal t.name lhs)
  | .terminal => if defined t.name then some (.terminalUsedAsLhs t.name) else none

namespace Tables

/-- Whether a name heads a rule. -/
def isNonterminal (t : Tables) (name : Name) : Bool := t.index.contains name

/-- The terms of all expressions, each with the head of its expression. -/
def terms (t : Tables) : List (Name × Term) :=
  t.exprs.toList.flatMap fun e => e.terms.map fun term => (e.head, term)

/-- The first thing wrong with a start symbol and the tables. -/
def firstFault? (t : Tables) (start : Option Name) : Option GrammarError :=
  (startFault? t.isNonterminal start).or
    (t.terms.findSome? fun u => termFault? t.isNonterminal u.1 u.2)

theorem Consistent.isNonterminal_iff {t : Tables} (h : t.Consistent) {name : Name} :
    t.isNonterminal name = true ↔ name ∈ t.heads := by
  rw [isNonterminal, Std.TreeMap.contains_eq_isSome_getElem?, Option.isSome_iff_exists,
    List.mem_iff_getElem?]
  exact exists_congr fun i => h.numbered name i

end Tables

/-- What the checks establish of tables and a start symbol. -/
structure Grammar.WellFormed (t : Tables) (start : Option Name) : Prop where
  start_mem : ∀ s, start = some s → s ∈ t.heads
  nonterminal_mem : ∀ e ∈ t.exprs, ∀ term ∈ e.terms, term.kind = .nonterminal → term.name ∈ t.heads
  terminal_not_mem : ∀ e ∈ t.exprs, ∀ term ∈ e.terms, term.kind = .terminal → term.name ∉ t.heads

/-- A context-free grammar. -/
structure Grammar extends Tables where
  start : Option Name
  consistent : toTables.Consistent
  wellFormed : Grammar.WellFormed toTables start

/-- Tables without a fault fit together. -/
theorem Tables.Consistent.wellFormed {t : Tables} (h : t.Consistent) {start : Option Name}
    (hfault : t.firstFault? start = none) : Grammar.WellFormed t start := by
  rw [firstFault?, Option.or_eq_none_iff, List.findSome?_eq_none_iff] at hfault
  obtain ⟨hstart, hterms⟩ := hfault
  have hterm : ∀ e ∈ t.exprs, ∀ term ∈ e.terms, termFault? t.isNonterminal e.head term = none := by
    intro e he term hmem
    refine hterms (e.head, term) (List.mem_flatMap.mpr ⟨e, Array.mem_toList_iff.mpr he, ?_⟩)
    exact List.mem_map_of_mem hmem
  refine ⟨?_, ?_, ?_⟩
  · rintro s rfl
    simpa [startFault?, ← h.isNonterminal_iff] using hstart
  · intro e he term hmem hkind
    simpa [termFault?, hkind, ← h.isNonterminal_iff] using hterm e he term hmem
  · intro e he term hmem hkind
    simpa [termFault?, hkind, ← h.isNonterminal_iff] using hterm e he term hmem

/-! ### Rules -/

/-- All alternatives of one nonterminal, among `n` expressions. -/
structure Rule (n : Nat) where
  head : Name
  alternatives : List (Fin n)
deriving DecidableEq, Repr

/-- A rule of a table, with numbers that are in range. -/
def Rule.ofEntry {n : Nat} (entry : RuleEntry) (h : ∀ id ∈ entry.exprs.toList, id < n) :
    Rule n where
  head := entry.head
  alternatives := entry.exprs.toList.pmap Fin.mk h

theorem Tables.Consistent.lt_size {t : Tables} (h : t.Consistent) {entry : RuleEntry}
    (hentry : entry ∈ t.entries) : ∀ id ∈ entry.exprs.toList, id < t.exprs.size := by
  intro id hid
  rw [h.collected entry hentry, mem_placesOf] at hid
  obtain ⟨e, he, -⟩ := hid
  exact (List.getElem?_eq_some_iff.mp he).1

namespace Grammar

/-- Makes a grammar with the given start symbol, or reports the first fault. -/
def assemble (start : Option Name) (productions : List Production) :
    Except GrammarError Grammar :=
  match htables : Tables.ofProductions productions with
  | .error e => .error e
  | .ok tables =>
    have hconsistent := (Tables.tabulates_ofProductions htables).consistent
    match hfault : tables.firstFault? start with
    | some e => .error e
    | none => .ok
      { tables with
        start
        consistent := hconsistent
        wellFormed := hconsistent.wellFormed hfault }

/-- A grammar with an explicit start symbol. -/
def withStart (start : Name) (productions : List Production) : Except GrammarError Grammar :=
  assemble (some start) productions

/-- A grammar that starts with the first left-hand side.  No productions at all
make a grammar without start symbol, which derives nothing. -/
def ofProductions (productions : List Production) : Except GrammarError Grammar :=
  assemble (productions.head?.map (·.lhs)) productions

/-- The number of an expression of a grammar. -/
abbrev ExprId (g : Grammar) := Fin g.exprs.size

/-- The expression with a given number. -/
def expr (g : Grammar) (id : g.ExprId) : Expr := g.exprs[id]

/-- The rules of a grammar, in the order of their numbers. -/
def rules (g : Grammar) : List (Rule g.exprs.size) :=
  g.entries.toList.pmap Rule.ofEntry fun _ hentry =>
    g.consistent.lt_size (Array.mem_toList_iff.mp hentry)

/-- The number of the rule with a given head. -/
def ruleId? (g : Grammar) (name : Name) : Option Nat := g.index[name]?

/-- The rule with a given head. -/
def rule? (g : Grammar) (name : Name) : Option (Rule g.exprs.size) :=
  (g.ruleId? name).bind fun i =>
    g.entries[i]?.pmap Rule.ofEntry fun _ hentry =>
      g.consistent.lt_size (Array.mem_of_getElem? hentry)

/-- The number of a rule whose existence the caller takes for granted. -/
def ruleId (g : Grammar) (name : Name) : Except Misuse Nat :=
  match g.ruleId? name with
  | some id => .ok id
  | none => .error .unknownRule

/-- The expressions that derive from a name; none if it heads no rule. -/
def alternatives (g : Grammar) (name : Name) : List g.ExprId :=
  match g.rule? name with
  | some rule => rule.alternatives
  | none => []

/-- The expressions that derive from the start symbol. -/
def startAlternatives (g : Grammar) : List g.ExprId :=
  match g.start with
  | some s => g.alternatives s
  | none => []

/-- The number of ways to place a cursor in an expression of the grammar. -/
def numDottedItems (g : Grammar) : Nat :=
  g.exprs.toList.foldr (fun e total => e.length + 1 + total) 0

variable {g : Grammar} {name : Name} {rule : Rule g.exprs.size} {id : g.ExprId}

/-- What a grammar holds is what the loops have entered. -/
theorem tabulates_of_assemble {start : Option Name} {ps : List Production}
    (h : assemble start ps = .ok g) : g.Tabulates ps.zipIdx := by
  unfold assemble at h
  split at h
  · contradiction
  · rename_i tables htables
    dsimp only at h
    split at h
    · contradiction
    · obtain rfl := Except.ok.inj h
      exact Tables.tabulates_ofProductions htables

theorem expr_mem (g : Grammar) (id : g.ExprId) : g.expr id ∈ g.exprs := Array.getElem_mem _

theorem head_mem_heads (g : Grammar) (id : g.ExprId) : (g.expr id).head ∈ g.heads :=
  g.consistent.head_mem _ (g.expr_mem id)

/-- No term of an expression is optional. -/
theorem required_of_mem_terms {t : Term} (ht : t ∈ (g.expr id).terms) : t.optional = false :=
  g.consistent.required _ (g.expr_mem id) t ht

theorem map_head_rules (g : Grammar) : g.rules.map (·.head) = g.heads := by
  rw [rules, List.map_pmap]
  exact List.pmap_eq_map _

theorem ruleId?_eq_some_iff {i : Nat} :
    g.ruleId? name = some i ↔ (g.rules.map (·.head))[i]? = some name := by
  rw [map_head_rules]
  exact g.consistent.numbered name i

theorem rule?_eq_bind (g : Grammar) (name : Name) :
    g.rule? name = (g.ruleId? name).bind fun i => g.rules[i]? := by
  unfold rule? rules
  simp only [List.getElem?_pmap, Array.getElem?_toList]

/-- The rule that is found for a name is the one with that head. -/
theorem rule?_eq_some_iff : g.rule? name = some rule ↔ rule ∈ g.rules ∧ rule.head = name := by
  rw [rule?_eq_bind, Option.bind_eq_some_iff, List.mem_iff_getElem?]
  simp only [ruleId?_eq_some_iff, List.getElem?_map, Option.map_eq_some_iff]
  constructor
  · rintro ⟨i, ⟨found, hfound, rfl⟩, hrule⟩
    exact ⟨⟨i, hrule⟩, congrArg Rule.head (Option.some.inj (hrule.symm.trans hfound))⟩
  · rintro ⟨⟨i, hrule⟩, hhead⟩
    exact ⟨i, ⟨rule, hrule, hhead⟩, hrule⟩

theorem rule?_eq_none_iff : g.rule? name = none ↔ name ∉ g.heads := by
  rw [Option.eq_none_iff_forall_ne_some, ← map_head_rules, List.mem_map]
  simp only [ne_eq, rule?_eq_some_iff, not_exists]

/-- A rule lists the expressions with its head. -/
theorem mem_alternatives_of_mem_rules (h : rule ∈ g.rules) :
    id ∈ rule.alternatives ↔ (g.expr id).head = rule.head := by
  obtain ⟨entry, hentry, rfl⟩ := List.mem_pmap.mp h
  have hplace : g.exprs.toList[id.val]? = some (g.expr id) := by
    rw [Array.getElem?_toList]
    exact Array.getElem?_eq_getElem id.isLt
  have hlisted : id ∈ (Rule.ofEntry entry (g.consistent.lt_size
      (Array.mem_toList_iff.mp hentry))).alternatives ↔ id.val ∈ entry.exprs.toList := by
    simp [Rule.ofEntry, List.mem_pmap, Fin.ext_iff]
  rw [hlisted, g.consistent.collected entry (Array.mem_toList_iff.mp hentry), mem_placesOf, hplace]
  simp [Rule.ofEntry]

@[simp] theorem mem_alternatives : id ∈ g.alternatives name ↔ (g.expr id).head = name := by
  unfold alternatives
  cases hrule : g.rule? name with
  | none =>
    simp only [List.not_mem_nil, false_iff]
    rintro rfl
    exact rule?_eq_none_iff.mp hrule (g.head_mem_heads id)
  | some rule =>
    obtain ⟨hmem, rfl⟩ := rule?_eq_some_iff.mp hrule
    exact mem_alternatives_of_mem_rules hmem

end Grammar

end ChartParser
