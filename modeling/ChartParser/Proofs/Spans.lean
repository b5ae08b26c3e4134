/-
Trees over pieces of input.

A list of trees that matches a sequence of terms can be taken apart wherever the
terms can (`spans_append_iff`), and what it holds is exactly the input between
its ends (`Spans.drop_eq`).

* **`spans_snoc_iff`** — the trees of an item: those of the item with one term
  fewer, and one for the last term;
* **`Spans.start_eq`** — a tree starts where its term does, so trees of one term
  from different positions differ;
* **`IsDerivation.leaves_eq`** — a derivation has the whole input as its leaves;
* **`IsDerivation.eq_of_shape_eq`** — a derivation is determined by its expressions
  and spans;
* **`derivesFrom_names_iff`** — a nonterminal has a tree over the whole input
  exactly if it derives the names of the input;
* **`Tokens.ofNames`** — names as an input of their own, which trees are about as far as
  payloads do not matter.
-/
import ChartParser.Proofs.Traversal

namespace ChartParser.Tree

variable {g : Grammar} {α : Type} {tokens : Tokens α} {t : Term} {ts us : Expression}
  {xs ys zs : List (Tree g α)} {i j k : Nat}

@[simp] theorem spans_nil_iff : Spans tokens [] zs i k ↔ zs = [] ∧ i = k := by
  constructor
  · intro h
    cases h
    exact ⟨rfl, rfl⟩
  · rintro ⟨rfl, rfl⟩
    exact .nil i

theorem Spans.append (first : Spans tokens ts xs i j) (second : Spans tokens us ys j k) :
    Spans tokens (ts ++ us) (xs ++ ys) i k := by
  induction first with
  | nil => exact second
  | leaf kind found name _ ih => exact .leaf kind found name (ih second)
  | branch kind id head inner _ _ ih => exact .branch kind id head inner (ih second)

/-- Trees of two sequences of terms are trees of the first and of the second. -/
theorem spans_append_iff :
    Spans tokens (ts ++ us) zs i k ↔
      ∃ xs ys j, zs = xs ++ ys ∧ Spans tokens ts xs i j ∧ Spans tokens us ys j k := by
  constructor
  · intro h
    induction ts generalizing zs i with
    | nil => exact ⟨[], zs, i, rfl, .nil i, h⟩
    | cons t ts ih =>
      cases h with
      | leaf kind found name rest =>
        obtain ⟨xs, ys, j, rfl, hxs, hys⟩ := ih rest
        exact ⟨_ :: xs, ys, j, rfl, .leaf kind found name hxs, hys⟩
      | branch kind id head inner rest =>
        obtain ⟨xs, ys, j, rfl, hxs, hys⟩ := ih rest
        exact ⟨_ :: xs, ys, j, rfl, .branch kind id head inner hxs, hys⟩
  · rintro ⟨xs, ys, j, rfl, hxs, hys⟩
    exact hxs.append hys

/-- A terminal is matched by the token at that position. -/
theorem spans_terminal_iff (kind : t.kind = .terminal) :
    Spans tokens [t] zs i k ↔
      ∃ token, tokens[i]? = some token ∧ token.name = t.name ∧ zs = [.leaf i token] ∧
        k = i + 1 := by
  constructor
  · intro h
    cases h with
    | leaf _ found name rest =>
      obtain ⟨rfl, rfl⟩ := spans_nil_iff.mp rest
      exact ⟨_, found, name, rfl, rfl⟩
    | branch kind' => rw [kind] at kind'; contradiction
  · rintro ⟨token, found, name, rfl, rfl⟩
    exact .leaf kind found name (.nil _)

/-- A nonterminal is matched by a branch with one of its expressions. -/
theorem spans_nonterminal_iff (kind : t.kind = .nonterminal) :
    Spans tokens [t] zs i k ↔
      ∃ id children, (g.expr id).head = t.name ∧ Spans tokens (g.expr id).terms children i k ∧
        zs = [.branch id i k children] := by
  constructor
  · intro h
    cases h with
    | leaf kind' => rw [kind] at kind'; contradiction
    | branch _ id head inner rest =>
      obtain ⟨rfl, rfl⟩ := spans_nil_iff.mp rest
      exact ⟨id, _, head, inner, rfl⟩
  · rintro ⟨id, children, head, inner, rfl⟩
    exact .branch kind id head inner (.nil _)

/-- One term has one tree. -/
theorem Spans.eq_singleton (h : Spans tokens [t] zs i k) : ∃ z, zs = [z] := by
  cases h with
  | leaf _ _ _ rest =>
    obtain ⟨rfl, -⟩ := spans_nil_iff.mp rest
    exact ⟨_, rfl⟩
  | branch _ _ _ _ rest =>
    obtain ⟨rfl, -⟩ := spans_nil_iff.mp rest
    exact ⟨_, rfl⟩

theorem spans_snoc_iff :
    Spans tokens (ts ++ [t]) zs i k ↔
      ∃ xs z j, zs = xs ++ [z] ∧ Spans tokens ts xs i j ∧ Spans tokens [t] [z] j k := by
  rw [spans_append_iff]
  constructor
  · rintro ⟨xs, ys, j, rfl, hxs, hys⟩
    obtain ⟨z, rfl⟩ := hys.eq_singleton
    exact ⟨xs, z, j, rfl, hxs, hys⟩
  · rintro ⟨xs, z, j, rfl, hxs, hz⟩
    exact ⟨xs, [z], j, rfl, hxs, hz⟩

/-- A tree of a term starts where the term does. -/
theorem Spans.start_eq {z : Tree g α} (h : Spans tokens [t] [z] j k) : z.start = j := by
  cases h <;> rfl

/-! ### The input under trees -/

/-- The trees between two positions hold the tokens between them. -/
theorem Spans.drop_eq (h : Spans tokens ts zs i k) :
    tokens.toList.drop i = yieldAll zs ++ tokens.toList.drop k := by
  induction h with
  | nil => rfl
  | @leaf _ _ _ i _ token _ found _ _ ih =>
    have hget : tokens.toList[i]? = some token := by rw [Array.getElem?_toList, found]
    obtain ⟨hlt, rfl⟩ := List.getElem?_eq_some_iff.mp hget
    rw [List.drop_eq_getElem_cons hlt, ih]
    rfl
  | branch _ _ _ _ _ ihInner ihRest =>
    rw [ihInner, ihRest, yieldAll, yield, List.append_assoc]

/-- Trees over the whole input hold all tokens. -/
theorem Spans.yieldAll_eq (h : Spans tokens ts zs 0 tokens.size) :
    yieldAll zs = tokens.toList := by
  have hdrop := h.drop_eq
  rw [List.drop_zero, ← Array.length_toList, List.drop_length, List.append_nil] at hdrop
  exact hdrop.symm

/-- A derivation has all tokens as its leaves, in order. -/
theorem IsDerivation.leaves_eq {tree : Tree g α} (h : IsDerivation tokens tree) :
    tree.leaves = tokens.toList := by
  obtain ⟨s, -, hspans⟩ := h
  rw [leaves_eq_yield, ← hspans.yieldAll_eq, yieldAll, yieldAll, List.append_nil]

/-! ### Shapes -/

mutual

/-- A tree without its tokens: expressions, spans and children. -/
def shape : Tree g α → Tree g Unit
  | .leaf position _ => .leaf position ⟨"", ()⟩
  | .branch expr start stop children => .branch expr start stop (shapes children)

/-- Some trees without their tokens. -/
def shapes : List (Tree g α) → List (Tree g Unit)
  | [] => []
  | tree :: trees => shape tree :: shapes trees

end

/-- Trees over one input that look the same are the same. -/
theorem Spans.eq_of_shapes_eq {k' : Nat} (h : Spans tokens ts xs i k)
    (h' : Spans tokens us ys i k') (heq : shapes xs = shapes ys) : xs = ys := by
  induction h generalizing us ys k' with
  | nil =>
    cases ys with
    | nil => rfl
    | cons y ys => simp [shapes] at heq
  | leaf _ found _ _ ih =>
    cases h' with
    | nil => simp [shapes] at heq
    | leaf _ found' _ rest' =>
      rw [shapes, shapes, List.cons.injEq] at heq
      rw [Option.some.inj (found.symm.trans found'), ih rest' heq.2]
    | branch => simp [shapes, shape] at heq
  | branch _ _ _ _ _ ihInner ihRest =>
    cases h' with
    | nil => simp [shapes] at heq
    | leaf => simp [shapes, shape] at heq
    | branch _ _ _ inner' rest' =>
      simp only [shapes, shape, List.cons.injEq, branch.injEq, true_and] at heq
      obtain ⟨⟨rfl, rfl, hchildren⟩, hrest⟩ := heq
      rw [ihInner inner' hchildren, ihRest rest' hrest]

theorem IsDerivation.eq_of_shape_eq {t u : Tree g α} (ht : IsDerivation tokens t)
    (hu : IsDerivation tokens u) (heq : t.shape = u.shape) : t = u := by
  obtain ⟨s, -, hspans⟩ := ht
  obtain ⟨s', -, hspans'⟩ := hu
  have h := hspans.eq_of_shapes_eq hspans' (by rw [shapes, shapes, shapes, shapes, heq])
  exact (List.cons.inj h).1

/-! ### Trees of what is derived -/

theorem getElem?_names (tokens : Tokens α) (k : Nat) : tokens.names[k]? = tokens.nameAt? k := by
  rw [Tokens.names, List.getElem?_map, Array.getElem?_toList]
  rfl

/-- Names that occur from a position on: the first of them is the name there, and
the others occur behind it. -/
theorem nameAt?_of_prefix_cons {name : Name} {w : List Name}
    (h : name :: w <+: tokens.names.drop i) :
    tokens.nameAt? i = some name ∧ w <+: tokens.names.drop (i + 1) := by
  obtain ⟨rest, hrest⟩ := h
  constructor
  · rw [← getElem?_names, ← List.head?_drop, ← hrest]
    rfl
  · refine ⟨rest, ?_⟩
    rw [← List.tail_drop, ← hrest]
    rfl

theorem prefix_drop_of_append {v w : List Name} (h : v ++ w <+: tokens.names.drop i) :
    w <+: tokens.names.drop (i + v.length) := by
  obtain ⟨rest, hrest⟩ := h
  refine ⟨rest, ?_⟩
  rw [← List.drop_drop, ← hrest, List.append_assoc, List.drop_left]

/-- What terms derive is matched by trees wherever it occurs in the input. -/
theorem exists_spans_of_derives {w : List Name} (h : g.Derives ts w)
    (hw : w <+: tokens.names.drop i) :
    ∃ zs : List (Tree g α), Spans tokens ts zs i (i + w.length) := by
  induction h generalizing i with
  | nil => exact ⟨[], .nil i⟩
  | @terminal t ts w kind _ ih =>
    obtain ⟨hname, hrest⟩ := nameAt?_of_prefix_cons hw
    obtain ⟨token, htoken, hname⟩ := Option.map_eq_some_iff.mp hname
    obtain ⟨zs, hzs⟩ := ih hrest
    refine ⟨.leaf i token :: zs, .leaf kind htoken hname ?_⟩
    rw [List.length_cons, show i + (w.length + 1) = i + 1 + w.length by omega]
    exact hzs
  | @nonterminal t ts v w kind id head _ _ ihInner ihRest =>
    obtain ⟨xs, hxs⟩ := ihInner ((List.prefix_append v w).trans hw)
    obtain ⟨ys, hys⟩ := ihRest (prefix_drop_of_append hw)
    rw [List.length_append, ← Nat.add_assoc]
    exact ⟨_, .branch kind id head hxs hys⟩

/-- A nonterminal derives the names of the input exactly if it has a tree over
the whole input. -/
theorem derivesFrom_names_iff {name : Name} :
    g.DerivesFrom name tokens.names ↔
      ∃ tree : Tree g α, Spans tokens [.nonterminal name] [tree] 0 tokens.size := by
  constructor
  · rintro ⟨id, head, hderives⟩
    have hprefix : tokens.names <+: tokens.names.drop 0 := List.prefix_refl _
    obtain ⟨children, hchildren⟩ := exists_spans_of_derives hderives hprefix
    rw [Nat.zero_add, Tokens.names, List.length_map, Array.length_toList] at hchildren
    exact ⟨_, .branch rfl id head hchildren (.nil _)⟩
  · rintro ⟨tree, htree⟩
    obtain ⟨id, children, head, inner, -⟩ := (spans_nonterminal_iff rfl).mp htree
    refine ⟨id, head, ?_⟩
    rw [Tokens.names, ← inner.yieldAll_eq]
    exact inner.derives

end ChartParser.Tree

namespace ChartParser.Tokens

/-- Names as an input, without payloads. -/
def ofNames (names : List Name) : Tokens Unit := (names.map fun name => ⟨name, ()⟩).toArray

variable (names : List Name)

theorem getElem?_ofNames (i : Nat) :
    (ofNames names)[i]? = names[i]?.map fun name => ⟨name, ()⟩ := by
  rw [ofNames, List.getElem?_toArray, List.getElem?_map]

theorem names_ofNames : (ofNames names).names = names := by
  simp [ofNames, Tokens.names, Function.comp_def]

end ChartParser.Tokens
