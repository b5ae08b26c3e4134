/-
Rejections are exact.

A chart goes on as long as the tokens so far can begin a sentence.  Here this is
said without a chart: a *sentential form* is what the start symbol can be rewritten
to, and it may hold nonterminals that derive nothing at all.

* **`Grammar.Expands`** — rewriting term by term, which is where a sentential form
  is taken apart (`Produces.expands`);
* **`Charted.produces`** — the terms ahead of a charted state follow the tokens
  before it in some sentential form;
* **`exists_scanner_iff`** — a state scans a terminal at a position exactly if some
  sentential form has that terminal behind the tokens before the position;
* **`isGreatest_furthestPosition`** — a finished chart ends at the last position
  that is reached;
* **`rejection_exact`** — position, found token and expected terminals of a
  rejection.
-/
import ChartParser.Grammar.Examples
import ChartParser.Proofs.Recognition
import Mathlib.Order.Bounds.Defs

namespace ChartParser

open ChartParser.Tree

variable {g : Grammar} {α : Type} {tokens : Tokens α}

/-- The tokens before a position, as terminals. -/
def Tokens.before (tokens : Tokens α) (k : Nat) : Expression :=
  (tokens.names.take k).map .terminal

/-- Some sentential form of a nonterminal begins with the given terms. -/
def Grammar.Begins (g : Grammar) (name : Name) (form : Expression) : Prop :=
  ∃ rest, g.Produces [.nonterminal name] (form ++ rest)

/-! ### Sentential forms, term by term -/

/-- `g.Expands ts us`: each term of `ts` is kept, or it is a nonterminal and what
one of its expressions expands to stands in its place. -/
inductive Grammar.Expands (g : Grammar) : Expression → Expression → Prop where
  | nil : g.Expands [] []
  | keep {t : Term} {ts us : Expression} (rest : g.Expands ts us) : g.Expands (t :: ts) (t :: us)
  | replace {t : Term} {ts us vs : Expression} (kind : t.kind = .nonterminal) (id : g.ExprId)
      (head : (g.expr id).head = t.name) (expr : g.Expands (g.expr id).terms vs)
      (rest : g.Expands ts us) : g.Expands (t :: ts) (vs ++ us)

namespace Grammar

variable {ts us pre post : Expression} {t : Term} {w : List Name}

theorem Expands.refl (ts : Expression) : g.Expands ts ts := by
  induction ts with
  | nil => exact .nil
  | cons t ts ih => exact .keep ih

/-- Replacing one more nonterminal is still an expansion. -/
theorem Expands.step (h : g.Expands ts us) (hus : us = pre ++ t :: post)
    (kind : t.kind = .nonterminal) (id : g.ExprId) (head : (g.expr id).head = t.name) :
    g.Expands ts (pre ++ (g.expr id).terms ++ post) := by
  induction h generalizing pre post with
  | nil => simp at hus
  | keep rest ih =>
    cases pre with
    | nil =>
      obtain ⟨rfl, rfl⟩ := List.cons.inj hus
      exact .replace kind id head (.refl _) rest
    | cons p pre =>
      obtain ⟨rfl, hpost⟩ := List.cons.inj hus
      exact .keep (ih hpost)
  | replace kind' id' head' expr rest ihExpr ihRest =>
    -- the nonterminal stands behind what replaced the first term, or inside of it
    rcases List.append_eq_append_iff.mp hus with ⟨as, rfl, hpost⟩ | ⟨bs, hvs, hpost⟩
    · have hrest := ihRest hpost
      simpa using Expands.replace kind' id' head' expr hrest
    · cases bs with
      | nil =>
        rw [List.append_nil] at hvs
        have hrest := ihRest (show _ = [] ++ t :: post from hpost.symm)
        simpa [hvs] using Expands.replace kind' id' head' expr hrest
      | cons b bs =>
        obtain ⟨rfl, rfl⟩ := List.cons.inj hpost
        simpa using Expands.replace kind' id' head' (ihExpr hvs) rest

/-- Rewriting one nonterminal at a time is rewriting term by term. -/
theorem Produces.expands (h : g.Produces ts us) : g.Expands ts us := by
  induction h with
  | refl => exact .refl _
  | step _ kind id head ih => exact ih.step rfl kind id head

/-- Terms that expand to terminals only derive their names. -/
theorem Expands.derives (h : g.Expands ts us) (hus : us = w.map .terminal) : g.Derives ts w := by
  induction h generalizing w with
  | nil =>
    obtain rfl := List.map_eq_nil_iff.mp hus.symm
    exact .nil
  | keep rest ih =>
    obtain ⟨name, w, rfl, rfl, rfl⟩ := List.map_eq_cons_iff.mp hus.symm
    exact .terminal (t := .terminal name) rfl (ih rfl)
  | replace kind id head expr rest ihExpr ihRest =>
    obtain ⟨v, w, rfl, rfl, rfl⟩ := List.map_eq_append_iff.mp hus.symm
    exact .nonterminal kind id head (ihExpr rfl) (ihRest rfl)

end Grammar

/-- A required terminal is its name. -/
theorem Term.eq_terminal {t : Term} (kind : t.kind = .terminal) (required : t.optional = false) :
    t = .terminal t.name := by
  obtain ⟨name, _, _⟩ := t
  obtain rfl : _ = TermKind.terminal := kind
  obtain rfl : _ = false := required
  rfl

/-! ### Charted states begin sentential forms -/

theorem Tokens.before_succ {k : Nat} {name : Name} (h : tokens.nameAt? k = some name) :
    tokens.before (k + 1) = tokens.before k ++ [.terminal name] := by
  rw [before, before, List.take_add_one, getElem?_names, h, List.map_append]
  rfl

/-- Where trees match terms behind the tokens so far, the tokens under the trees
can stand in place of the terms. -/
theorem Tree.Spans.produces {ts start post : Expression} {zs : List (Tree g α)} {i k : Nat}
    (h : Spans tokens ts zs i k) (hrequired : ∀ t ∈ ts, t.optional = false)
    (hstart : g.Produces start (tokens.before i ++ ts ++ post)) :
    g.Produces start (tokens.before k ++ post) := by
  induction h generalizing post with
  | nil => simpa using hstart
  | @leaf t ts zs i k token kind found name _ ih =>
    have hbefore : tokens.before (i + 1) = tokens.before i ++ [.terminal t.name] :=
      Tokens.before_succ (Tokens.nameAt?_eq_some_iff.mpr ⟨token, found, name⟩)
    refine ih (fun u hu => hrequired u (List.mem_cons_of_mem t hu)) ?_
    rw [hbefore, ← Term.eq_terminal kind (hrequired t List.mem_cons_self)]
    simpa using hstart
  | @branch t ts children zs i j k kind id head _ _ ihInner ihRest =>
    -- the term is replaced by its expression, and then the trees under it are used
    have hreplaced : g.Produces start (tokens.before i ++ (g.expr id).terms ++ (ts ++ post)) := by
      refine .step ?_ kind id head
      simpa using hstart
    have hinner := ihInner (fun _ => Grammar.required_of_mem_terms) hreplaced
    refine ihRest (fun u hu => hrequired u (List.mem_cons_of_mem t hu)) ?_
    rwa [List.append_assoc]

/-- The terms behind the cursor. -/
def Item.ahead (i : Item g) : Expression := i.terms.drop i.cursor

theorem Item.ahead_of_advance? {i j : Item g} {t : Term} (h : i.advance? = some j)
    (hnext : i.next? = some t) : i.ahead = t :: j.ahead := by
  obtain ⟨hlt, hexpr, hcursor⟩ := advance?_eq_some_iff.mp h
  have hterms : j.terms = i.terms := by rw [terms, terms, hexpr]
  rw [next?, List.getElem?_eq_getElem hlt, Option.some.injEq] at hnext
  rw [ahead, ahead, hterms, hcursor, List.drop_eq_getElem_cons hlt, hnext]

theorem Item.mem_terms_of_next? {i : Item g} {t : Term} (h : i.next? = some t) : t ∈ i.terms :=
  List.mem_of_getElem? h

/-- **Soundness.**  In some sentential form the tokens before a charted state are
followed by the terms ahead of it. -/
theorem Charted.produces {s : Name} (hs : g.start = some s) {key : Key g} {k : Nat}
    (h : Charted tokens key k) :
    ∃ rest, g.Produces [.nonterminal s] (tokens.before k ++ key.item.ahead ++ rest) := by
  induction h with
  | @seed id start =>
    have hhead : (g.expr id).head = s := by
      rw [Grammar.startAlternatives, hs] at start
      exact Grammar.mem_alternatives.mp start
    refine ⟨[], ?_⟩
    have hform : g.Produces [.nonterminal s] ([] ++ .nonterminal s :: []) := .refl _
    simpa [Tokens.before, Item.ahead, Item.terms, Item.atStart] using hform.step rfl id hhead
  | @predict waiter k name id _ awaits head ih =>
    obtain ⟨rest, hrest⟩ := ih
    obtain ⟨t, hnext, hkind, rfl⟩ := awaits
    obtain ⟨next, hadvance⟩ := Key.exists_advance?
      (Key.Awaits.isComplete_eq_false ⟨t, hnext, hkind, rfl⟩)
    rw [Item.ahead_of_advance? (Key.advance?_eq_some_iff.mp hadvance).1 hnext] at hrest
    refine ⟨next.item.ahead ++ rest, .step ?_ hkind id head⟩
    simpa using hrest
  | @scan scanner next k name _ scans token advance ih =>
    obtain ⟨rest, hrest⟩ := ih
    obtain ⟨t, hnext, hkind, rfl⟩ := scans
    have hrequired := Grammar.required_of_mem_terms (Item.mem_terms_of_next? hnext)
    rw [Item.ahead_of_advance? (Key.advance?_eq_some_iff.mp advance).1 hnext] at hrest
    refine ⟨rest, ?_⟩
    rw [Tokens.before_succ token, ← Term.eq_terminal hkind hrequired]
    simpa using hrest
  | @complete waiter done next j k name _ awaits inner completes advance ihBefore _ =>
    -- the expression that was completed stands in the form of the waiter
    obtain ⟨rest, hrest⟩ := ihBefore
    obtain ⟨t, hnext, hkind, rfl⟩ := awaits
    obtain ⟨hcomplete, hhead, rfl⟩ := completes
    obtain ⟨zs, hzs⟩ := inner.exists_spans
    rw [Item.matched_of_isComplete hcomplete] at hzs
    rw [Item.ahead_of_advance? (Key.advance?_eq_some_iff.mp advance).1 hnext] at hrest
    have hreplaced : g.Produces [.nonterminal s] (tokens.before done.origin ++
        (g.expr done.item.expr).terms ++ (next.item.ahead ++ rest)) := by
      refine .step ?_ hkind _ hhead
      simpa using hrest
    refine ⟨rest, ?_⟩
    rw [List.append_assoc]
    exact hzs.produces (fun _ => Grammar.required_of_mem_terms) hreplaced

/-! ### Sentential forms are charted -/

/-- **Completeness.**  If the terms ahead of a charted state expand to the tokens
that follow and then a terminal, some state scans that terminal behind them. -/
theorem Grammar.Expands.exists_scanner {ts us rest : Expression} {a : Name} {w : List Name}
    {i : Nat} (h : g.Expands ts us) (hus : us = w.map .terminal ++ .terminal a :: rest)
    (hw : w <+: tokens.names.drop i) (pre post : Expression) {id : g.ExprId} {origin c : Nat}
    {hc : c ≤ (g.expr id).length} (hterms : (g.expr id).terms = pre ++ ts ++ post)
    (hpre : c = pre.length) (hstart : Charted tokens ⟨⟨id, c, hc⟩, origin⟩ i) :
    ∃ scanner : Key g, Charted tokens scanner (i + w.length) ∧ scanner.Scans a := by
  -- along the expansion; `pre` grows by the terms that are passed
  induction h generalizing w rest i id pre post origin c with
  | nil => simp at hus
  | @keep t ts us _ ih =>
    obtain ⟨hnext, hlt, hadvance⟩ := Key.advance?_of_terms_eq hc origin hterms hpre
    cases w with
    | nil =>
      obtain ⟨rfl, -⟩ := List.cons.inj hus
      exact ⟨_, hstart, _, hnext, rfl, rfl⟩
    | cons name w =>
      obtain ⟨rfl, hus'⟩ := List.cons.inj hus
      obtain ⟨htoken, hrest⟩ := nameAt?_of_prefix_cons hw
      obtain ⟨scanner, hscanner, hscans⟩ := ih hus' hrest (pre ++ [.terminal name]) post
        (by simpa using hterms) (by simp [hpre])
        (.scan hstart ⟨_, hnext, rfl, rfl⟩ htoken hadvance)
      rw [Nat.add_assoc, Nat.add_comm 1] at hscanner
      exact ⟨scanner, hscanner, hscans⟩
  | @replace t ts us vs kind id' head expr _ ihExpr ihRest =>
    obtain ⟨hnext, hlt, hadvance⟩ := Key.advance?_of_terms_eq hc origin hterms hpre
    have hpredicted : Charted tokens ⟨.atStart id', i⟩ i :=
      .predict hstart ⟨t, hnext, kind, rfl⟩ head
    -- the term's own expression is passed if all it expands to are tokens
    have hpass : ∀ v w', w = v ++ w' → vs = v.map .terminal →
        us = w'.map .terminal ++ .terminal a :: rest →
        ∃ scanner : Key g, Charted tokens scanner (i + w.length) ∧ scanner.Scans a := by
      rintro v w' rfl hvs hus'
      obtain ⟨zs, hzs⟩ := exists_spans_of_derives (expr.derives hvs)
        ((List.prefix_append v w').trans hw)
      have hpassed := Charted.complete hstart ⟨t, hnext, kind, rfl⟩ (hpredicted.atEnd hzs)
        ⟨Item.isComplete_atEnd id', head, rfl⟩ hadvance
      obtain ⟨scanner, hscanner, hscans⟩ := ihRest hus' (prefix_drop_of_append hw)
        (pre ++ [t]) post (by simpa using hterms) (by simp [hpre]) hpassed
      rw [Nat.add_assoc, ← List.length_append] at hscanner
      exact ⟨scanner, hscanner, hscans⟩
    rcases List.append_eq_append_iff.mp hus with ⟨as, hvs, hus'⟩ | ⟨bs, hvs, hus'⟩
    · obtain ⟨v, w', hw', hv, rfl⟩ := List.map_eq_append_iff.mp hvs
      exact hpass v w' hw' hv.symm hus'
    · cases bs with
      | nil => exact hpass w [] (List.append_nil w).symm (by simpa using hvs) hus'.symm
      | cons b bs =>
        -- the terminal stands inside what the expression expands to
        obtain ⟨rfl, -⟩ := List.cons.inj hus'
        exact ihExpr hvs hw [] [] (by simp) rfl hpredicted

/-- A state scans a terminal at a position exactly if some sentential form has the
terminal behind the tokens before the position. -/
theorem exists_scanner_iff {s : Name} (hs : g.start = some s) {a : Name} {k : Nat}
    (hk : k ≤ tokens.size) :
    (∃ scanner : Key g, Charted tokens scanner k ∧ scanner.Scans a) ↔
      g.Begins s (tokens.before k ++ [.terminal a]) := by
  constructor
  · rintro ⟨scanner, hscanner, t, hnext, hkind, rfl⟩
    obtain ⟨rest, hrest⟩ := hscanner.produces hs
    obtain ⟨next, hadvance⟩ := Key.exists_advance?
      (Key.Scans.isComplete_eq_false ⟨t, hnext, hkind, rfl⟩)
    have hrequired := Grammar.required_of_mem_terms (Item.mem_terms_of_next? hnext)
    rw [Item.ahead_of_advance? (Key.advance?_eq_some_iff.mp hadvance).1 hnext,
      Term.eq_terminal hkind hrequired] at hrest
    refine ⟨next.item.ahead ++ rest, ?_⟩
    simpa using hrest
  · rintro ⟨rest, hrest⟩
    rw [List.append_assoc] at hrest
    generalize hform : tokens.before k ++ ([.terminal a] ++ rest) = form at hrest
    have hlength : (tokens.names.take k).length = k := by
      rw [List.length_take, Tokens.names, List.length_map, Array.length_toList]
      exact Nat.min_eq_left hk
    cases hrest.expands with
    | keep hnil =>
      -- the start symbol itself is no terminal
      cases hnil
      have hmem : Term.terminal a ∈ [Term.nonterminal s] := by simp [← hform]
      simp [Term.terminal, Term.nonterminal] at hmem
    | replace kind id head expr hnil =>
      cases hnil
      rw [List.append_nil] at hform
      have hmem : id ∈ g.startAlternatives := by
        rw [Grammar.startAlternatives, hs]
        exact Grammar.mem_alternatives.mpr head
      have hseed : Charted tokens ⟨.atStart id, 0⟩ 0 := .seed hmem
      obtain ⟨scanner, hscanner, hscans⟩ := expr.exists_scanner hform.symm (List.take_prefix k _)
        [] [] (by simp) rfl hseed
      rw [hlength, Nat.zero_add] at hscanner
      exact ⟨scanner, hscanner, hscans⟩

/-- A position is reached exactly if it is the start or some sentential form begins
with the tokens before it. -/
theorem reached_iff {s : Name} (hs : g.start = some s) {k : Nat} (hk : k ≤ tokens.size) :
    Reached g tokens k ↔ k = 0 ∨ g.Begins s (tokens.before k) := by
  refine or_congr_right' fun hzero => ?_
  constructor
  · rintro ⟨key, hkey⟩
    obtain ⟨rest, hrest⟩ := hkey.produces hs
    rw [List.append_assoc] at hrest
    exact ⟨_, hrest⟩
  · -- the last of the tokens was scanned
    intro hbegins
    obtain ⟨j, rfl⟩ := Nat.exists_eq_succ_of_ne_zero hzero
    obtain ⟨name, hname⟩ : ∃ name, tokens.nameAt? j = some name :=
      ⟨_, Tokens.nameAt?_eq_some_iff.mpr ⟨_, Array.getElem?_eq_getElem hk, rfl⟩⟩
    rw [Nat.succ_eq_add_one, Tokens.before_succ hname] at hbegins
    obtain ⟨scanner, hscanner, hscans⟩ := (exists_scanner_iff hs (by omega)).mpr hbegins
    obtain ⟨next, hadvance⟩ := Key.exists_advance? hscans.isComplete_eq_false
    exact ⟨next, .scan hscanner hscans hname hadvance⟩

/-- Without a start symbol nothing is charted. -/
theorem not_charted (hs : g.start = none) {key : Key g} {k : Nat} : ¬ Charted tokens key k := by
  intro h
  induction h with
  | seed start => simp [Grammar.startAlternatives, hs] at start
  | predict _ _ _ ih => exact ih
  | scan _ _ _ _ ih => exact ih
  | complete _ _ _ _ _ ih _ => exact ih

/-! ### The rejection -/

/-- A finished chart ends at the last position that is reached. -/
theorem isGreatest_furthestPosition (g : Grammar) (tokens : Tokens α) :
    IsGreatest {k | Reached g tokens k} (recognize g tokens).furthestPosition := by
  have h := regular_recognize g tokens
  have hfinished := frontier_recognize g tokens
  have hpos := h.lt_size_of_reached hfinished (.inl rfl)
  rw [Chart.furthestPosition, hfinished]
  constructor
  · exact h.reached_of_lt (by dsimp only; omega)
  · intro k hk
    have hlt := h.lt_size_of_reached hfinished hk
    dsimp only
    omega

/-- The terminals that are expected are those that some state scans where the chart
ends. -/
theorem mem_expected_iff (g : Grammar) (tokens : Tokens α) {a : Name} :
    a ∈ (recognize g tokens).diagnosis.expected ↔
      ∃ scanner : Key g, Charted tokens scanner (recognize g tokens).furthestPosition ∧
        scanner.Scans a := by
  have h := regular_recognize g tokens
  have hlt := h.lt_size_of_reached (frontier_recognize g tokens)
    (isGreatest_furthestPosition g tokens).1
  obtain ⟨s, hset⟩ := Chart.exists_closed_of_le hlt (Nat.le_refl _)
  rw [Chart.diagnosis]
  dsimp only
  rw [Chart.set?, if_pos hlt, hset]
  dsimp only
  rw [StateSet.expectedTerminals, Std.TreeSet.mem_toList, (h.closed hset).scanning]
  exact exists_congr fun key => and_congr_left fun hscans =>
    h.has_iff_charted hset hscans.isComplete_eq_false

theorem pairwise_expected (c : Chart g α) : c.diagnosis.expected.Pairwise (· < ·) := by
  rw [Chart.diagnosis]
  dsimp only
  split
  · rename_i set _
    have hordered := Std.TreeSet.ordered_toList (t := set.scanning)
    exact hordered.imp fun h => compareOfLessAndEq_eq_lt.mp h
  · exact List.Pairwise.nil

/-- The parse of a rejected input reports what its finished chart says. -/
theorem eq_diagnosis_of_parse {r : Rejection} (h : parse g tokens = .rejected r) :
    r = (recognize g tokens).diagnosis ∧ (recognize g tokens).rejection? = some r := by
  have hfinished : (recognize g tokens).isFinished = true := by
    rw [Chart.isFinished, frontier_recognize]
    rfl
  rw [parse, Chart.outcome] at h
  split at h
  · contradiction
  · rename_i hforest
    obtain rfl := Outcome.rejected.inj h
    have hnot : (recognize g tokens).isAccepted = false := by
      rw [← Chart.isSome_forest?, hforest]
      rfl
    refine ⟨rfl, ?_⟩
    rw [Chart.rejection?, hfinished, hnot]
    rfl

/-- **Rejections are exact.**  The position is the last one before which the tokens
begin a sentential form of the start symbol.  The expected terminals, in increasing
order, are those that can follow there; the token that is found there, if there is
one, is none of them.  Without a start symbol every input is rejected at its start,
where nothing is expected. -/
theorem rejection_exact (g : Grammar) (tokens : Tokens α) :
    (∀ s r, g.start = some s → parse g tokens = .rejected r →
      (recognize g tokens).rejection? = some r ∧
      IsGreatest {k | k ≤ tokens.size ∧ (k = 0 ∨ g.Begins s (tokens.before k))} r.position ∧
      (∀ a, a ∈ r.expected ↔ g.Begins s (tokens.before r.position ++ [.terminal a])) ∧
      r.expected.Pairwise (· < ·) ∧
      r.found = tokens.names[r.position]? ∧
      ∀ a, r.found = some a → a ∉ r.expected) ∧
    (g.start = none → ∃ r, parse g tokens = .rejected r ∧
      r.position = 0 ∧ r.expected = [] ∧ r.found = tokens.names[0]?) := by
  have hposition := isGreatest_furthestPosition g tokens
  have hfound : (recognize g tokens).diagnosis.found =
      tokens.nameAt? (recognize g tokens).furthestPosition := by
    rw [Chart.diagnosis, (regular_recognize g tokens).tokens_eq]
  simp only [getElem?_names]
  constructor
  · intro s r hs hr
    obtain ⟨rfl, hrejection⟩ := eq_diagnosis_of_parse hr
    have hsize : ∀ {k}, Reached g tokens k → k ≤ tokens.size := by
      rintro k (rfl | ⟨key, hkey⟩)
      · exact Nat.zero_le _
      · exact hkey.le_size
    have hle : (recognize g tokens).furthestPosition ≤ tokens.size := hsize hposition.1
    have hreached : {k | k ≤ tokens.size ∧ (k = 0 ∨ g.Begins s (tokens.before k))} =
        {k | Reached g tokens k} := by
      ext k
      constructor
      · rintro ⟨hk, hbegins⟩
        exact (reached_iff hs hk).mpr hbegins
      · intro hk
        exact ⟨hsize hk, (reached_iff hs (hsize hk)).mp hk⟩
    refine ⟨hrejection, ?_, ?_, pairwise_expected _, hfound, ?_⟩
    · rw [hreached]
      exact hposition
    · intro a
      rw [mem_expected_iff]
      exact exists_scanner_iff hs hle
    · -- a state that scans the token found would lead to the next position
      intro a ha hexpected
      obtain ⟨scanner, hscanner, hscans⟩ := (mem_expected_iff g tokens).mp hexpected
      obtain ⟨next, hadvance⟩ := Key.exists_advance? hscans.isComplete_eq_false
      rw [hfound] at ha
      have hnext := hposition.2 (.inr ⟨next, .scan hscanner hscans ha hadvance⟩)
      omega
  · intro hs
    have hzero : (recognize g tokens).furthestPosition = 0 :=
      hposition.1.resolve_right fun ⟨_, hkey⟩ => not_charted hs hkey
    have hforest : (recognize g tokens).forest? = none := by
      rw [Chart.forest?, hs]
    refine ⟨(recognize g tokens).diagnosis, ?_, hzero, ?_, ?_⟩
    · rw [parse, Chart.outcome, hforest]
    · rw [List.eq_nil_iff_forall_not_mem]
      intro a ha
      obtain ⟨scanner, hscanner, -⟩ := (mem_expected_iff g tokens).mp ha
      exact not_charted hs hscanner
    · rw [hfound, hzero]

/-- `a c`, of which `S -> "a" S "b" | ε` can only begin with the first token. -/
def Examples.strayToken : Tokens Unit := #[⟨"a", ()⟩, ⟨"c", ()⟩]

/-- Behind `a`, where `c` is found, only `a` and `b` can follow.  A grammar without
productions expects nothing. -/
theorem rejection_exact_strayToken :
    (∃ r, parse Examples.balanced Examples.strayToken = .rejected r ∧
      r = ⟨1, some "c", ["a", "b"]⟩ ∧
      IsGreatest {k | k ≤ 2 ∧
        (k = 0 ∨ Examples.balanced.Begins "S" (Examples.strayToken.before k))} 1 ∧
      (∀ a, a ∈ ["a", "b"] ↔
        Examples.balanced.Begins "S" (Examples.strayToken.before 1 ++ [.terminal a])) ∧
      "c" ∉ ["a", "b"]) ∧
    ∃ g, Grammar.ofProductions [] = .ok g ∧ g.start = none ∧
      ∃ r, parse g Examples.strayToken = .rejected r ∧ r.position = 0 ∧ r.expected = [] := by
  have hrejection : (parse Examples.balanced Examples.strayToken).rejection? =
      some ⟨1, some "c", ["a", "b"]⟩ := by decide +kernel
  constructor
  · cases hparse : parse Examples.balanced Examples.strayToken with
    | accepted =>
      rw [hparse] at hrejection
      contradiction
    | rejected r =>
      rw [hparse] at hrejection
      obtain rfl := Option.some.inj hrejection
      obtain ⟨-, hposition, hexpected, -, -, hfound⟩ :=
        (rejection_exact Examples.balanced Examples.strayToken).1 "S" _ (by decide +kernel) hparse
      exact ⟨_, rfl, rfl, hposition, hexpected, hfound "c" rfl⟩
  · cases hgrammar : Grammar.ofProductions [] with
    | error e =>
      have hok : (Grammar.ofProductions []).isOk = true := by decide +kernel
      rw [hgrammar] at hok
      contradiction
    | ok g =>
      have hstart : (Grammar.ofProductions []).toOption.bind (·.start) = none := by decide +kernel
      rw [hgrammar] at hstart
      obtain ⟨r, hr, hposition, hexpected, -⟩ := (rejection_exact g Examples.strayToken).2 hstart
      exact ⟨g, rfl, hstart, r, hr, hposition, hexpected⟩

end ChartParser
