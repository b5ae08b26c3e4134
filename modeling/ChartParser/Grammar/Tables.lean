/-
The tables of a grammar, grown production by production.

Three tables are filled together: the rules, an index that finds a rule by its head,
and the expressions.  A rule or an expression is entered behind the others, and its
number is the length of the table at that moment; a rule keeps the numbers of its
expressions.  Productions with the same left-hand side add to the same rule.

* `Tables.ruleFor` — finds the rule of a head, or opens one;
* `Tables.addExpr` — enters an expression and lists it in a rule;
* `Tables.ofProductions` — the loops over productions, alternatives and variants;
* `Tables.Consistent` — the three tables agree: the index finds the rule of every head
  and each rule lists all expressions with its head, in order;
* `Tables.Tabulates` — what the tables hold after some productions.

Each operation keeps the tables consistent, and `tabulates_ofProductions` says it of
the loops as a whole.
-/
import ChartParser.Grammar.Optional
import ChartParser.Places

namespace ChartParser

/-- Where an expression was written: which production, and which alternative of
it.  All variants of one alternative share it. -/
structure Provenance where
  production : Nat
  alternative : Nat
deriving DecidableEq, Repr

/-- An expression of a grammar, with the nonterminal it derives. -/
structure Expr where
  head : Name
  terms : Expression
  provenance : Provenance
deriving DecidableEq, Repr

/-- The number of terms of an expression. -/
def Expr.length (e : Expr) : Nat := e.terms.length

/-- A rule as it stands in its table, with the numbers of its expressions. -/
structure RuleEntry where
  head : Name
  exprs : Array Nat := #[]
deriving DecidableEq, Repr

/-- The rules, the index of their heads, and the expressions. -/
structure Tables where
  entries : Array RuleEntry := #[]
  index : Std.TreeMap Name Nat := ∅
  exprs : Array Expr := #[]

namespace Tables

/-- The heads of the rules, in order. -/
def heads (t : Tables) : List Name := t.entries.toList.map (·.head)

/-- The number of the rule of a head.  If there is none, a rule without expressions
is entered. -/
def ruleFor (t : Tables) (head : Name) : Nat × Tables :=
  match t.index[head]? with
  | some rule => (rule, t)
  | none =>
    let rule := t.entries.size
    (rule, { t with entries := t.entries.push { head }, index := t.index.insert head rule })

/-- Enters an expression and lists its number in a rule. -/
def addExpr (t : Tables) (rule : Nat) (e : Expr) : Tables :=
  let id := t.exprs.size
  { t with
    exprs := t.exprs.push e
    entries := t.entries.modify rule fun entry => { entry with exprs := entry.exprs.push id } }

/-- Enters the variants of one alternative. -/
def addVariants (t : Tables) (rule : Nat) (head : Name) (provenance : Provenance)
    (variants : List Expression) : Tables :=
  variants.foldl (fun t terms => t.addExpr rule { head, terms, provenance }) t

/-- Expands a numbered alternative of a production and enters its variants. -/
def addAlternative (rule : Nat) (head : Name) (production : Nat) (t : Tables)
    (alternative : Expression × Nat) : Except GrammarError Tables := do
  let variants ← alternative.1.expand head
  return t.addVariants rule head ⟨production, alternative.2⟩ variants

/-- Enters a numbered production: finds or opens its rule, then goes through its
alternatives. -/
def addProduction (t : Tables) (production : Production × Nat) : Except GrammarError Tables :=
  let (p, i) := production
  let (rule, t) := t.ruleFor p.lhs
  p.rhs.zipIdx.foldlM (addAlternative rule p.lhs i) t

/-- The tables of productions, or the first alternative that cannot be expanded. -/
def ofProductions (productions : List Production) : Except GrammarError Tables :=
  productions.zipIdx.foldlM addProduction {}

/-- The tables agree with each other. -/
structure Consistent (t : Tables) : Prop where
  /-- The index finds every head at the place of its rule. -/
  numbered : Numbers t.index t.heads
  /-- A rule lists the expressions with its head, by increasing number. -/
  collected : ∀ entry ∈ t.entries,
    entry.exprs.toList = placesOf (fun e : Expr => e.head = entry.head) t.exprs.toList
  /-- Every expression has a rule. -/
  head_mem : ∀ e ∈ t.exprs, e.head ∈ t.heads
  /-- No optional term is left. -/
  required : ∀ e ∈ t.exprs, ∀ term ∈ e.terms, term.optional = false

variable {t t' : Tables} {rule : Nat} {head : Name} {e : Expr}

theorem getElem?_heads {i : Nat} : t.heads[i]? = t.entries[i]?.map (·.head) := by
  rw [heads, List.getElem?_map, Array.getElem?_toList]

/-! ### One entry more -/

theorem consistent_empty : ({} : Tables).Consistent where
  numbered := numbers_empty
  collected := by simp
  head_mem := by simp
  required := by simp

/-- A head gets a rule if it has none, and the rule is found at the number returned. -/
theorem Consistent.ruleFor (h : t.Consistent) (head : Name) :
    (t.ruleFor head).2.Consistent ∧
    (t.ruleFor head).2.exprs = t.exprs ∧
    (t.ruleFor head).2.heads = (if head ∈ t.heads then t.heads else t.heads ++ [head]) ∧
    (t.ruleFor head).2.heads[(t.ruleFor head).1]? = some head := by
  unfold Tables.ruleFor
  cases hfind : t.index[head]? with
  | some rule =>
    have hplace := (h.numbered head rule).mp hfind
    exact ⟨h, rfl, (if_pos (List.mem_of_getElem? hplace)).symm, hplace⟩
  | none =>
    obtain ⟨hnumbered, hmem, hplace⟩ := h.numbered.push { head } hfind
    have hnew := h.numbered.eq_none_iff.mp hfind
    refine ⟨⟨hnumbered, ?_, fun e he => (hmem _).mpr (.inl (h.head_mem e he)), h.required⟩, rfl,
      ?_, hplace⟩
    · intro entry hentry
      rcases Array.mem_push.mp hentry with hentry | rfl
      · exact h.collected entry hentry
      · -- a new head is the head of no expression so far
        refine (List.filter_eq_nil_iff.mpr fun i _ hi => ?_).symm
        obtain ⟨e, he, hhead⟩ := (Option.any_eq_true _ _).mp hi
        have hhead : e.head = head := of_decide_eq_true hhead
        rw [Array.getElem?_toList] at he
        exact hnew (hhead ▸ h.head_mem e (Array.mem_of_getElem? he))
    · rw [if_neg hnew]
      simp [heads]

@[simp] theorem heads_addExpr : (t.addExpr rule e).heads = t.heads := by
  rw [heads, addExpr, map_toList_modify, heads]
  intro entry
  rfl

@[simp] theorem exprs_addExpr : (t.addExpr rule e).exprs = t.exprs.push e := rfl

/-- An expression that is listed in the rule of its head keeps the tables consistent. -/
theorem Consistent.addExpr (h : t.Consistent) (hrule : t.heads[rule]? = some e.head)
    (hrequired : ∀ term ∈ e.terms, term.optional = false) : (t.addExpr rule e).Consistent where
  numbered := by
    rw [heads_addExpr]
    exact h.numbered
  collected := by
    intro entry hentry
    obtain ⟨place, hplace⟩ := Array.mem_iff_getElem?.mp hentry
    rw [Tables.addExpr, Array.getElem?_modify] at hplace
    rw [exprs_addExpr, Array.toList_push, placesOf_concat]
    by_cases heq : rule = place
    · subst heq
      rw [if_pos rfl, Option.map_eq_some_iff] at hplace
      obtain ⟨old, hold, rfl⟩ := hplace
      rw [getElem?_heads, hold] at hrule
      have hhead : e.head = old.head := (Option.some.inj hrule).symm
      rw [if_pos (decide_eq_true hhead), ← h.collected old (Array.mem_of_getElem? hold),
        Array.toList_push, Array.length_toList]
    · rw [if_neg heq] at hplace
      -- another rule has another head, since the index finds each head once
      have hhead : e.head ≠ entry.head := by
        intro hhead
        have hentry : t.heads[place]? = some e.head := by rw [getElem?_heads, hplace, hhead]; rfl
        have := (h.numbered _ _).mpr hrule
        rw [(h.numbered _ _).mpr hentry] at this
        exact heq (Option.some.inj this).symm
      rw [if_neg (by simpa using hhead), List.append_nil]
      exact h.collected entry (Array.mem_of_getElem? hplace)
  head_mem := by
    intro e' he'
    rw [heads_addExpr]
    rcases Array.mem_push.mp he' with he' | rfl
    · exact h.head_mem e' he'
    · exact List.mem_of_getElem? hrule
  required := by
    intro e' he'
    rcases Array.mem_push.mp he' with he' | rfl
    · exact h.required e' he'
    · exact hrequired

/-! ### The loops -/

/-- `t.Adds es t'`: the tables `t'` are consistent and have the rules of `t`, and the
expressions `es` behind those of `t`. -/
structure Adds (t : Tables) (es : List Expr) (t' : Tables) : Prop where
  consistent : t'.Consistent
  heads : t'.heads = t.heads
  exprs : t'.exprs.toList = t.exprs.toList ++ es

namespace Adds

variable {t'' : Tables} {es es' : List Expr}

theorem refl (h : t.Consistent) : t.Adds [] t := ⟨h, rfl, (List.append_nil _).symm⟩

theorem trans (h : t.Adds es t') (h' : t'.Adds es' t'') : t.Adds (es ++ es') t'' where
  consistent := h'.consistent
  heads := h'.heads.trans h.heads
  exprs := by rw [h'.exprs, h.exprs, List.append_assoc]

end Adds

theorem Consistent.adds_addExpr (h : t.Consistent) (hrule : t.heads[rule]? = some e.head)
    (hrequired : ∀ term ∈ e.terms, term.optional = false) : t.Adds [e] (t.addExpr rule e) :=
  ⟨h.addExpr hrule hrequired, heads_addExpr, Array.toList_push⟩

theorem Consistent.adds_addVariants (h : t.Consistent) (hrule : t.heads[rule]? = some head)
    {variants : List Expression} (hrequired : ∀ v ∈ variants, ∀ term ∈ v, term.optional = false)
    (provenance : Provenance) :
    t.Adds (variants.map fun terms => { head, terms, provenance })
      (t.addVariants rule head provenance variants) := by
  induction variants generalizing t with
  | nil => exact .refl h
  | cons v vs ih =>
    have hfirst := h.adds_addExpr (e := ⟨head, v, provenance⟩) hrule
      (hrequired v List.mem_cons_self)
    have hrest := ih hfirst.consistent (hfirst.heads ▸ hrule)
      fun u hu => hrequired u (List.mem_cons_of_mem v hu)
    exact hfirst.trans hrest

end Tables

/-- The expressions of a production with a given number: one for each variant of each
of its alternatives, in order. -/
def Production.exprs (p : Production) (i : Nat) : List Expr :=
  p.rhs.zipIdx.flatMap fun (terms, j) =>
    terms.variants.map fun v => { head := p.lhs, terms := v, provenance := ⟨i, j⟩ }

/-- **A loop whose rounds may fail.**  If no round fails, what holds before the loop and
is kept by each round holds of all rounds behind it. -/
theorem foldlM_induction {α σ ε : Type} {f : σ → α → Except ε σ} (P : List α → σ → Prop)
    (step : ∀ {done a s s'}, P done s → f s a = .ok s' → P (done ++ [a]) s')
    {as : List α} {s s' : σ} (start : P [] s) (h : as.foldlM f s = .ok s') : P as s' := by
  suffices hrest : ∀ (rest done : List α) (s : σ), P done s → rest.foldlM f s = .ok s' →
      P (done ++ rest) s' from hrest as [] s start h
  intro rest
  induction rest with
  | nil =>
    intro done s hdone hrun
    obtain rfl := Except.ok.inj hrun
    rw [List.append_nil]
    exact hdone
  | cons a rest ih =>
    intro done s hdone hrun
    rw [List.foldlM_cons] at hrun
    cases hround : f s a with
    | error e =>
      rw [hround] at hrun
      contradiction
    | ok next =>
      rw [hround] at hrun
      have hall := ih (done ++ [a]) next (step hdone hround) hrun
      rwa [List.append_assoc, List.singleton_append] at hall

namespace Tables

variable {t t' : Tables} {rule : Nat} {head : Name}

/-- When an alternative can be entered, and what it changes. -/
theorem addAlternative_eq_ok_iff {i : Nat} {alternative : Expression × Nat} :
    addAlternative rule head i t alternative = .ok t' ↔
      alternative.1.optionalCount ≤ maxOptionalTerms ∧
        t.addVariants rule head ⟨i, alternative.2⟩ alternative.1.variants = t' := by
  unfold addAlternative Expression.expand
  by_cases hfew : alternative.1.optionalCount ≤ maxOptionalTerms
  · rw [if_pos hfew]
    exact ⟨fun h => ⟨hfew, Except.ok.inj h⟩, fun h => congrArg Except.ok h.2⟩
  · rw [if_neg hfew]
    exact iff_of_false nofun fun h => hfew h.1

/-- A production opens the rule of its left-hand side if there is none, and adds its
expressions. -/
theorem Consistent.adds_addProduction (h : t.Consistent) {p : Production} {i : Nat}
    (hok : t.addProduction (p, i) = .ok t') : (t.ruleFor p.lhs).2.Adds (p.exprs i) t' := by
  obtain ⟨hopened, -, -, hrule⟩ := h.ruleFor p.lhs
  refine foldlM_induction
    (fun done s => (t.ruleFor p.lhs).2.Adds (done.flatMap fun (terms, j) =>
      terms.variants.map fun v => { head := p.lhs, terms := v, provenance := ⟨i, j⟩ }) s)
    (fun {done alternative s s'} hdone hround => ?_) (.refl hopened) hok
  obtain ⟨-, rfl⟩ := addAlternative_eq_ok_iff.mp hround
  rw [List.flatMap_append, List.flatMap_singleton]
  exact hdone.trans (hdone.consistent.adds_addVariants (hdone.heads ▸ hrule)
    (fun _ hv _ hterm => Expression.optional_of_mem_variants hv hterm) _)

/-- What the tables hold after some numbered productions: the left-hand sides in the
order of first appearance, and all expressions in order. -/
structure Tabulates (t : Tables) (done : List (Production × Nat)) : Prop where
  consistent : t.Consistent
  heads : t.heads = firstAppearances (done.map (·.1.lhs))
  exprs : t.exprs.toList = done.flatMap fun (p, i) => p.exprs i

theorem tabulates_empty : ({} : Tables).Tabulates [] := ⟨consistent_empty, rfl, rfl⟩

theorem Tabulates.addProduction {done : List (Production × Nat)} (h : t.Tabulates done)
    {production : Production × Nat} (hok : t.addProduction production = .ok t') :
    t'.Tabulates (done ++ [production]) := by
  obtain ⟨p, i⟩ := production
  obtain ⟨-, hexprs, hheads, -⟩ := h.consistent.ruleFor p.lhs
  have hadds := h.consistent.adds_addProduction hok
  refine ⟨hadds.consistent, ?_, ?_⟩
  · rw [hadds.heads, hheads, List.map_append, List.map_singleton, firstAppearances_concat, h.heads]
    simp only [mem_firstAppearances]
  · rw [hadds.exprs, hexprs, h.exprs, List.flatMap_append, List.flatMap_singleton]

/-- **The loops as a whole.**  The tables of productions are consistent and hold what
was written, in order. -/
theorem tabulates_ofProductions {ps : List Production} (h : ofProductions ps = .ok t) :
    t.Tabulates ps.zipIdx :=
  foldlM_induction (fun done s => s.Tabulates done) (fun hdone hround => hdone.addProduction hround)
    tabulates_empty h

end Tables

end ChartParser
