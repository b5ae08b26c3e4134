/-
Optional terms do not change the language.

A grammar has one expression for every variant of every alternative that was
written, whichever production it stands in.  What its expressions derive is what the
productions derive as they were written.

* **`Grammar.exists_expr_iff`** — which terms are an expression for a name;
* **`ProductionsDerive.of_mem_variants`** — what a variant derives, its alternative
  derives by skipping the terms that are left out;
* **`ProductionsDerive.exists_variant`** — a derivation from an alternative is one
  from the variant that keeps the terms it matches;
* **`expansion_preserves_language`** — both together, for every nonterminal.

Both directions go by induction on derivations, so an optional term may be recursive.
-/
import ChartParser.Grammar.Examples
import ChartParser.Language

namespace ChartParser

/-- What a nonterminal derives through productions as they were written.  Every
production with that left-hand side offers its alternatives. -/
def ProductionsDeriveFrom (ps : List Production) (name : Name) (w : List Name) : Prop :=
  ∃ p ∈ ps, p.lhs = name ∧ ∃ terms ∈ p.rhs, ProductionsDerive ps terms w

variable {ps : List Production} {g : Grammar}

/-! ### The expressions of a grammar -/

namespace Grammar

variable {start : Option Name}

/-- The expressions for a name are the variants of the alternatives of all productions
with that left-hand side. -/
theorem exists_expr_iff (h : assemble start ps = .ok g) {name : Name} {v : Expression} :
    (∃ id : g.ExprId, (g.expr id).head = name ∧ (g.expr id).terms = v) ↔
      ∃ p ∈ ps, p.lhs = name ∧ ∃ terms ∈ p.rhs, v ∈ terms.variants := by
  have hmem : (∃ id : g.ExprId, (g.expr id).head = name ∧ (g.expr id).terms = v) ↔
      ∃ e ∈ g.exprs.toList, e.head = name ∧ e.terms = v := by
    constructor
    · rintro ⟨id, hid⟩
      exact ⟨g.expr id, by simp [expr], hid⟩
    · rintro ⟨e, he, hid⟩
      obtain ⟨i, hi, rfl⟩ := Array.mem_iff_getElem.mp (Array.mem_toList_iff.mp he)
      exact ⟨⟨i, hi⟩, hid⟩
  rw [hmem, (tabulates_of_assemble h).exprs]
  simp only [Production.exprs, List.mem_flatMap, List.mem_map, Prod.exists]
  constructor
  · rintro ⟨_, ⟨p, i, hp, terms, j, hterms, v, hv, rfl⟩, rfl, rfl⟩
    exact ⟨p, List.mem_of_getElem? (List.mk_mem_zipIdx_iff_getElem?.mp hp), rfl, terms,
      List.mem_of_getElem? (List.mk_mem_zipIdx_iff_getElem?.mp hterms), hv⟩
  · rintro ⟨p, hp, hlhs, terms, hterms, hv⟩
    obtain ⟨i, hi⟩ := List.mem_iff_getElem?.mp hp
    obtain ⟨j, hj⟩ := List.mem_iff_getElem?.mp hterms
    exact ⟨⟨p.lhs, v, ⟨i, j⟩⟩, ⟨p, i, List.mk_mem_zipIdx_iff_getElem?.mpr hi, terms, j,
      List.mk_mem_zipIdx_iff_getElem?.mpr hj, v, hv, rfl⟩, hlhs, rfl⟩

end Grammar

/-! ### Variants and skipped terms -/

namespace ProductionsDerive

variable {t : Term} {terms ts v : Expression} {w : List Name}

/-- Whether a term may be left out does not matter where it is matched. -/
theorem of_required (h : ProductionsDerive ps (t.required :: v) w)
    (hrest : ∀ {w'}, ProductionsDerive ps v w' → ProductionsDerive ps ts w') :
    ProductionsDerive ps (t :: ts) w := by
  cases h with
  | skip optional => contradiction
  | terminal kind rest => exact .terminal kind (hrest rest)
  | nonterminal kind p mem lhs terms alternative expr rest =>
    exact .nonterminal kind p mem lhs terms alternative expr (hrest rest)

/-- **Soundness of a variant.**  The terms that a variant leaves out are skipped. -/
theorem of_mem_variants (hv : v ∈ terms.variants) (h : ProductionsDerive ps v w) :
    ProductionsDerive ps terms w := by
  induction terms generalizing v w with
  | nil =>
    rw [Expression.variants_nil, List.mem_singleton] at hv
    exact hv ▸ h
  | cons t ts ih =>
    rcases Expression.mem_variants_cons.mp hv with ⟨optional, hv⟩ | ⟨u, hu, rfl⟩
    · exact .skip optional (ih hv h)
    · exact h.of_required fun rest => ih hu rest

end ProductionsDerive

variable {start : Option Name}

/-- **Soundness.**  What the expressions of a grammar derive, the productions derive. -/
theorem Grammar.Derives.productionsDerive (hg : Grammar.assemble start ps = .ok g)
    {terms : Expression} {w : List Name} (h : g.Derives terms w) :
    ProductionsDerive ps terms w := by
  induction h with
  | nil => exact .nil
  | terminal kind _ ih => exact .terminal kind ih
  | nonterminal kind id head _ _ ihExpr ihRest =>
    obtain ⟨p, hp, hlhs, terms, hterms, hvariant⟩ :=
      (Grammar.exists_expr_iff hg).mp ⟨id, head, rfl⟩
    exact .nonterminal kind p hp hlhs terms hterms (ihExpr.of_mem_variants hvariant) ihRest

/-- **Completeness.**  What terms derive through the productions, one of their variants
derives through the expressions: the one that keeps the terms that are matched. -/
theorem ProductionsDerive.exists_variant (hg : Grammar.assemble start ps = .ok g)
    {terms : Expression} {w : List Name} (h : ProductionsDerive ps terms w) :
    ∃ v ∈ terms.variants, g.Derives v w := by
  induction h with
  | nil => exact ⟨[], List.mem_singleton_self [], .nil⟩
  | skip optional _ ih =>
    obtain ⟨v, hv, hderives⟩ := ih
    exact ⟨v, Expression.mem_variants_cons.mpr (.inl ⟨optional, hv⟩), hderives⟩
  | @terminal t _ _ kind _ ih =>
    obtain ⟨v, hv, hderives⟩ := ih
    exact ⟨t.required :: v, Expression.mem_variants_cons.mpr (.inr ⟨v, hv, rfl⟩),
      .terminal (t := t.required) kind hderives⟩
  | @nonterminal t _ _ _ kind p mem lhs terms alternative _ _ ihExpr ihRest =>
    obtain ⟨u, hu, hexpr⟩ := ihExpr
    obtain ⟨v, hv, hrest⟩ := ihRest
    -- the variant of the alternative is an expression of the grammar
    obtain ⟨id, hhead, rfl⟩ :=
      (Grammar.exists_expr_iff hg).mpr ⟨p, mem, lhs, terms, alternative, hu⟩
    exact ⟨t.required :: v, Expression.mem_variants_cons.mpr (.inr ⟨v, hv, rfl⟩),
      .nonterminal (t := t.required) kind id hhead hexpr hrest⟩

theorem Grammar.derivesFrom_iff (hg : Grammar.assemble start ps = .ok g) {name : Name}
    {w : List Name} : g.DerivesFrom name w ↔ ProductionsDeriveFrom ps name w := by
  constructor
  · rintro ⟨id, hhead, hderives⟩
    obtain ⟨p, hp, hlhs, terms, hterms, hvariant⟩ :=
      (Grammar.exists_expr_iff hg).mp ⟨id, hhead, rfl⟩
    exact ⟨p, hp, hlhs, terms, hterms,
      (hderives.productionsDerive hg).of_mem_variants hvariant⟩
  · rintro ⟨p, hp, hlhs, terms, hterms, hderives⟩
    obtain ⟨v, hv, hderives⟩ := hderives.exists_variant hg
    obtain ⟨id, hhead, rfl⟩ :=
      (Grammar.exists_expr_iff hg).mpr ⟨p, hp, hlhs, terms, hterms, hv⟩
    exact ⟨id, hhead, hderives⟩

/-- **Expansion preserves the language.**  In a grammar made from productions, with a
given start symbol or with the first left-hand side, every nonterminal derives what it
derives through the productions as they were written, and no term is optional. -/
theorem expansion_preserves_language {s : Name}
    (h : Grammar.withStart s ps = .ok g ∨ Grammar.ofProductions ps = .ok g) :
    (∀ name w, g.DerivesFrom name w ↔ ProductionsDeriveFrom ps name w) ∧
      ∀ id : g.ExprId, ∀ t ∈ (g.expr id).terms, t.optional = false := by
  obtain ⟨start, hg⟩ : ∃ start, Grammar.assemble start ps = .ok g := h.elim (⟨_, ·⟩) (⟨_, ·⟩)
  exact ⟨fun _ _ => Grammar.derivesFrom_iff hg, fun _ _ => Grammar.required_of_mem_terms⟩

/-- `ns -> "N" "{" block? "}"; block -> "W" block?`, as written. -/
def Examples.blockProductions : List Production :=
  [⟨"ns", [[.terminal "N", .terminal "\x7b", (Term.nonterminal "block").maybe,
    .terminal "\x7d"]]⟩,
   ⟨"block", [[.terminal "W", (Term.nonterminal "block").maybe]]⟩]

/-- Of the optional blocks in `N { W W }` the first two are matched and the last one is
skipped, so the grammar derives it. -/
theorem expansion_preserves_language_blocks :
    ∃ g, Grammar.withStart "ns" Examples.blockProductions = .ok g ∧
      (∀ name w, g.DerivesFrom name w ↔
        ProductionsDeriveFrom Examples.blockProductions name w) ∧
      g.DerivesFrom "ns" ["N", "\x7b", "W", "W", "\x7d"] ∧
      ∀ id : g.ExprId, ∀ t ∈ (g.expr id).terms, t.optional = false := by
  have hmem : (⟨"block", [[.terminal "W", (Term.nonterminal "block").maybe]]⟩ : Production) ∈
      Examples.blockProductions := List.mem_cons_of_mem _ List.mem_cons_self
  have hone : ProductionsDerive Examples.blockProductions
      [.terminal "W", (Term.nonterminal "block").maybe] ["W"] :=
    .terminal (t := .terminal "W") rfl (.skip rfl .nil)
  have htwo : ProductionsDerive Examples.blockProductions
      [.terminal "W", (Term.nonterminal "block").maybe] ["W", "W"] :=
    .terminal (t := .terminal "W") rfl
      (.nonterminal (v := ["W"]) rfl _ hmem rfl _ List.mem_cons_self hone .nil)
  cases hg : Grammar.withStart "ns" Examples.blockProductions with
  | error e =>
    have hok : (Grammar.withStart "ns" Examples.blockProductions).isOk = true := by decide +kernel
    rw [hg] at hok
    contradiction
  | ok g =>
    obtain ⟨hiff, hrequired⟩ := expansion_preserves_language (.inl hg)
    refine ⟨g, rfl, hiff, (hiff _ _).mpr ?_, hrequired⟩
    exact ⟨_, List.mem_cons_self, rfl, _, List.mem_cons_self,
      .terminal (t := .terminal "N") rfl (.terminal (t := .terminal "\x7b") rfl
        (.nonterminal (v := ["W", "W"]) rfl _ hmem rfl _ List.mem_cons_self htwo
          (.terminal (t := .terminal "\x7d") rfl .nil)))⟩

end ChartParser
