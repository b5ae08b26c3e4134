/-
A sum has a Catalan number of derivations.

With `E -> E "+" E | "n"`, the derivations of a sum are the ways to put it in brackets.
What brackets look like is a binary tree with a node for each `+`, and these trees are
counted by the Catalan numbers; so it remains to see that nothing is lost between a
derivation and its brackets.

* **`Bracketed`** — a tree of `E` over some tokens and the shape of its brackets.  Every
  tree has a shape (`exists_shape`), and the shape says everything about the tree
  (`Bracketed.unique`);
* **`exists_of_shape`** — every shape fits a sum with enough operands;
* **`ncard_derivations`** — a sum with `m` signs has as many derivations as there are
  binary trees with `m` nodes;
* **`count_sum_eq_catalan`** — the count of a sum is a Catalan number, for as long as there
  is a count, and sums of three or more operands are ambiguous.
-/
import ChartParser.Proofs.Forest.Ambiguity
import Mathlib.Combinatorics.Enumerative.Catalan.Tree

namespace ChartParser

open ChartParser.Tree

variable {α : Type} {tokens : Tokens α}

namespace Examples

/-- The names of a sum of `k` operands: `n`, and `+ n` as often as there are others. -/
def sumNames (k : Nat) : List Name := "n" :: (List.replicate (k - 1) ["+", "n"]).flatten

theorem getElem?_signs (m i : Nat) :
    (List.replicate m ["+", "n"]).flatten[i]? =
      if i < 2 * m then some (if i % 2 = 0 then "+" else "n") else none := by
  induction m generalizing i with
  | zero => rfl
  | succ m ih =>
    rw [List.replicate_succ, List.flatten_cons]
    match i with
    | 0 => simp
    | 1 => simp [show 1 < 2 * (m + 1) by omega]
    | i + 2 =>
      show (List.replicate m ["+", "n"]).flatten[i]? = _
      rw [ih, Nat.add_mod_right]
      simp only [show i + 2 < 2 * (m + 1) ↔ i < 2 * m by omega]

theorem length_sumNames (m : Nat) : (sumNames (m + 1)).length = 2 * m + 1 := by
  simp [sumNames, Nat.mul_comm]

namespace ambiguousSum

/-- `E -> E "+" E` -/
def sum : ambiguousSum.ExprId := ⟨0, by decide +kernel⟩

/-- `E -> "n"` -/
def operand : ambiguousSum.ExprId := ⟨1, by decide +kernel⟩

theorem sum_eq : (ambiguousSum.expr sum).head = "E" ∧
    (ambiguousSum.expr sum).terms = [.nonterminal "E", .terminal "+", .nonterminal "E"] := by
  decide +kernel

theorem operand_eq : (ambiguousSum.expr operand).head = "E" ∧
    (ambiguousSum.expr operand).terms = [.terminal "n"] := by
  decide +kernel

theorem eq_sum_or_eq_operand : ∀ id : ambiguousSum.ExprId, id = sum ∨ id = operand := by
  decide +kernel

/-! ### Brackets -/

/-- `Bracketed tokens z shape i j`: over the tokens from `i` to `j`, the tree `z` puts a sum
in brackets of the given shape. -/
inductive Bracketed (tokens : Tokens α) :
    Tree ambiguousSum α → BinaryTree Unit → (start stop : Nat) → Prop where
  | operand {i : Nat} {token : Token α} (found : tokens[i]? = some token)
      (name : token.name = "n") :
      Bracketed tokens (.branch operand i (i + 1) [.leaf i token]) .nil i (i + 1)
  | sum {l r : Tree ambiguousSum α} {a b : BinaryTree Unit} {i j k : Nat} {token : Token α}
      (left : Bracketed tokens l a i j) (found : tokens[j]? = some token)
      (name : token.name = "+") (right : Bracketed tokens r b (j + 1) k) :
      Bracketed tokens (.branch sum i k [l, .leaf j token, r]) (.node () a b) i k

namespace Bracketed

variable {z z' : Tree ambiguousSum α} {a b : BinaryTree Unit} {i i' j j' : Nat}

theorem spans (h : Bracketed tokens z a i j) :
    Spans tokens [.nonterminal "E"] [z] i j := by
  induction h with
  | operand found name =>
    refine .branch rfl ambiguousSum.operand operand_eq.1 ?_ (.nil _)
    rw [operand_eq.2]
    exact .leaf rfl found name (.nil _)
  | sum _ found name _ ihLeft ihRight =>
    refine .branch rfl ambiguousSum.sum sum_eq.1 ?_ (.nil _)
    rw [sum_eq.2]
    exact ihLeft.append (.leaf rfl found name ihRight)

/-- A sum ends as many signs and operands later as its shape has nodes. -/
theorem stop_eq (h : Bracketed tokens z a i j) : j = i + 2 * a.numNodes + 1 := by
  induction h with
  | operand => rfl
  | sum _ _ _ _ ihLeft ihRight =>
    rw [BinaryTree.numNodes]
    omega

/-- Two trees with the same shape that start together are the same. -/
theorem unique (h : Bracketed tokens z a i j) (h' : Bracketed tokens z' a i j') :
    z = z' ∧ j = j' := by
  induction h generalizing z' j' with
  | operand found _ =>
    cases h' with
    | operand found' _ =>
      rw [Option.some.inj (found.symm.trans found')]
      exact ⟨rfl, rfl⟩
  | sum _ found _ _ ihLeft ihRight =>
    cases h' with
    | sum left' found' _ right' =>
      obtain ⟨rfl, rfl⟩ := ihLeft left'
      obtain ⟨rfl, rfl⟩ := ihRight right'
      rw [Option.some.inj (found.symm.trans found')]
      exact ⟨rfl, rfl⟩

/-- A tree has one shape. -/
theorem shape_unique (h : Bracketed tokens z a i j) (h' : Bracketed tokens z' b i' j')
    (heq : z = z') : a = b := by
  induction h generalizing z' b i' j' with
  | operand =>
    cases h' with
    | operand => rfl
    | sum => simp at heq
  | sum _ _ _ _ ihLeft ihRight =>
    cases h' with
    | operand => simp at heq
    | sum left' _ _ right' =>
      rw [Tree.branch.injEq] at heq
      obtain ⟨-, -, -, hchildren⟩ := heq
      obtain ⟨hl, hrest⟩ := List.cons.inj hchildren
      obtain ⟨hr, -⟩ := List.cons.inj (List.cons.inj hrest).2
      rw [ihLeft left' hl, ihRight right' hr]

end Bracketed

/-- The parts of a sum. -/
theorem parts_of_spans {zs : List (Tree ambiguousSum α)} {i k : Nat}
    (h : Spans tokens [.nonterminal "E", .terminal "+", .nonterminal "E"] zs i k) :
    ∃ l r j token, zs = [l, .leaf j token, r] ∧ Spans tokens [.nonterminal "E"] [l] i j ∧
      tokens[j]? = some token ∧ token.name = "+" ∧
      Spans tokens [.nonterminal "E"] [r] (j + 1) k := by
  have happend : Spans tokens ([.nonterminal "E"] ++ [.terminal "+", .nonterminal "E"]) zs i k := h
  obtain ⟨xs, ys, j, rfl, hxs, hys⟩ := spans_append_iff.mp happend
  obtain ⟨l, rfl⟩ := hxs.eq_singleton
  cases hys with
  | leaf _ found name rest =>
    obtain ⟨r, rfl⟩ := rest.eq_singleton
    exact ⟨l, r, j, _, rfl, hxs, found, name, rest⟩
  | branch kind => contradiction

/-- Every branch puts a sum in brackets. -/
theorem exists_shape {ts : Expression} {zs : List (Tree ambiguousSum α)} {i k : Nat}
    (h : Spans tokens ts zs i k) {z : Tree ambiguousSum α} (hz : z ∈ zs)
    (hbranch : z.isLeaf = false) : ∃ a, Bracketed tokens z a z.start z.stop := by
  induction h generalizing z with
  | nil => contradiction
  | leaf _ _ _ _ ih =>
    rcases List.mem_cons.mp hz with rfl | hz
    · contradiction
    · exact ih hz hbranch
  | @branch t ts children zs i j k kind id head inner rest ihInner ihRest =>
    rcases List.mem_cons.mp hz with rfl | hz
    · rcases eq_sum_or_eq_operand id with rfl | rfl
      · rw [sum_eq.2] at inner
        obtain ⟨l, r, mid, token, rfl, hl, found, name, hr⟩ := parts_of_spans inner
        obtain ⟨_, _, -, -, hl⟩ := (spans_nonterminal_iff rfl).mp hl
        obtain ⟨_, _, -, -, hr⟩ := (spans_nonterminal_iff rfl).mp hr
        obtain rfl := (List.cons.inj hl).1
        obtain rfl := (List.cons.inj hr).1
        obtain ⟨a, ha⟩ := ihInner List.mem_cons_self rfl
        obtain ⟨b, hb⟩ := ihInner (List.mem_of_getElem? (i := 2) rfl) rfl
        exact ⟨.node () a b, .sum ha found name hb⟩
      · rw [operand_eq.2] at inner
        obtain ⟨token, found, name, rfl, rfl⟩ := (spans_terminal_iff rfl).mp inner
        exact ⟨.nil, .operand found name⟩
    · exact ihRest hz hbranch

/-- **Brackets.**  The trees of `E` are those that put a sum in brackets. -/
theorem spans_iff {z : Tree ambiguousSum α} {i k : Nat} :
    Spans tokens [.nonterminal "E"] [z] i k ↔ ∃ a, Bracketed tokens z a i k := by
  constructor
  · intro h
    obtain ⟨id, children, -, -, hz⟩ := (spans_nonterminal_iff rfl).mp h
    obtain rfl := (List.cons.inj hz).1
    exact exists_shape h List.mem_cons_self rfl
  · rintro ⟨a, ha⟩
    exact ha.spans

/-! ### Counting brackets -/

section Sum

variable {m : Nat} (hnames : tokens.names = sumNames (m + 1))

include hnames

theorem exists_operand {i : Nat} (hi : i ≤ m) :
    ∃ token, tokens[2 * i]? = some token ∧ token.name = "n" := by
  rw [← Tokens.nameAt?_eq_some_iff, ← getElem?_names, hnames, sumNames, Nat.add_sub_cancel]
  cases i with
  | zero => rfl
  | succ i =>
    rw [show 2 * (i + 1) = (2 * i + 1) + 1 by omega, List.getElem?_cons_succ, getElem?_signs,
      if_pos (by omega), if_neg (by omega)]

theorem exists_sign {i : Nat} (hi : i < m) :
    ∃ token, tokens[2 * i + 1]? = some token ∧ token.name = "+" := by
  rw [← Tokens.nameAt?_eq_some_iff, ← getElem?_names, hnames, sumNames, Nat.add_sub_cancel,
    List.getElem?_cons_succ, getElem?_signs, if_pos (by omega), if_pos (by omega)]

theorem size_eq : tokens.size = 2 * m + 1 := by
  have hlength := congrArg List.length hnames
  rw [Tokens.names, List.length_map, Array.length_toList, length_sumNames] at hlength
  exact hlength

/-- Every shape fits, if there are enough operands. -/
theorem exists_of_shape (a : BinaryTree Unit) {i : Nat} (hi : i + a.numNodes ≤ m) :
    ∃ z, Bracketed tokens z a (2 * i) (2 * (i + a.numNodes) + 1) := by
  induction a generalizing i with
  | nil =>
    obtain ⟨token, found, name⟩ := exists_operand hnames hi
    exact ⟨_, .operand found name⟩
  | node _ a b ihLeft ihRight =>
    rw [BinaryTree.numNodes] at hi ⊢
    obtain ⟨l, hl⟩ := ihLeft (i := i) (by omega)
    obtain ⟨token, found, name⟩ := exists_sign hnames (show i + a.numNodes < m by omega)
    obtain ⟨r, hr⟩ := ihRight (i := i + a.numNodes + 1) (by omega)
    rw [show 2 * (i + a.numNodes + 1 + b.numNodes) + 1 =
      2 * (i + (a.numNodes + b.numNodes + 1)) + 1 by omega] at hr
    exact ⟨_, .sum hl found name hr⟩

theorem mem_derivations_iff {z : Tree ambiguousSum α} :
    z ∈ derivations ambiguousSum tokens ↔
      ∃ a : BinaryTree Unit, a.numNodes = m ∧ Bracketed tokens z a 0 (2 * m + 1) := by
  have hstart : ambiguousSum.start = some "E" := by decide +kernel
  have hderivation : z ∈ derivations ambiguousSum tokens ↔
      Spans tokens [.nonterminal "E"] [z] 0 tokens.size := by
    constructor
    · rintro ⟨s, hs, hz⟩
      obtain rfl := Option.some.inj (hstart.symm.trans hs)
      exact hz
    · exact fun hz => ⟨"E", hstart, hz⟩
  rw [hderivation, spans_iff, size_eq hnames]
  constructor
  · rintro ⟨a, ha⟩
    have hstop := ha.stop_eq
    exact ⟨a, by omega, ha⟩
  · rintro ⟨a, -, ha⟩
    exact ⟨a, ha⟩

/-- **Sums have Catalan numbers of derivations.** -/
theorem ncard_derivations : (derivations ambiguousSum tokens).ncard = catalan m := by
  have hshape : ∀ z ∈ derivations ambiguousSum tokens, ∃ a : BinaryTree Unit,
      a.numNodes = m ∧ Bracketed tokens z a 0 (2 * m + 1) :=
    fun z hz => (mem_derivations_iff hnames).mp hz
  choose shape hnodes hbracketed using hshape
  rw [← BinaryTree.treesOfNumNodesEq_card_eq_catalan, ← Set.ncard_coe_finset]
  refine Set.ncard_congr shape ?_ ?_ ?_
  · intro z hz
    exact BinaryTree.mem_treesOfNumNodesEq.mpr (hnodes z hz)
  · intro z z' hz hz' heq
    have hz' := heq ▸ hbracketed z' hz'
    exact ((hbracketed z hz).unique hz').1
  · intro a ha
    have ha := BinaryTree.mem_treesOfNumNodesEq.mp ha
    obtain ⟨z, hz⟩ := exists_of_shape hnames a (i := 0) (by omega)
    rw [Nat.zero_add, ha] at hz
    have hmem := (mem_derivations_iff hnames).mpr ⟨a, ha, hz⟩
    exact ⟨z, hmem, (hbracketed z hmem).shape_unique hz rfl⟩

end Sum

end ambiguousSum

end Examples

/-- How the Catalan numbers grow. -/
theorem succ_mul_catalan_succ (n : Nat) :
    (n + 2) * catalan (n + 1) = 2 * (2 * n + 1) * catalan n := by
  refine Nat.eq_of_mul_eq_mul_left (Nat.succ_pos n) ?_
  calc (n + 1) * ((n + 2) * catalan (n + 1))
      = (n + 1) * (n + 1).centralBinom := by rw [succ_mul_catalan_eq_centralBinom]
    _ = 2 * (2 * n + 1) * n.centralBinom := Nat.succ_mul_centralBinom_succ n
    _ = 2 * (2 * n + 1) * ((n + 1) * catalan n) := by rw [succ_mul_catalan_eq_centralBinom]
    _ = (n + 1) * (2 * (2 * n + 1) * catalan n) := by ring

/-- From two signs on there is a choice of brackets. -/
theorem one_lt_catalan_iff {n : Nat} : 1 < catalan n ↔ 2 ≤ n := by
  constructor
  · intro h
    by_contra hn
    obtain rfl | rfl : n = 0 ∨ n = 1 := by omega
    · rw [catalan_zero] at h
      omega
    · rw [catalan_one] at h
      omega
  · intro h
    induction n, h using Nat.le_induction with
    | base => rw [catalan_two]; omega
    | succ n _ ih =>
      have hstep := succ_mul_catalan_succ n
      nlinarith

theorem catalan_pos (n : Nat) : 0 < catalan n := by
  refine Nat.pos_of_mul_pos_left (a := n + 1) ?_
  rw [succ_mul_catalan_eq_centralBinom]
  exact n.centralBinom_pos

namespace Forest

/-- An input that has a derivation is accepted. -/
theorem exists_of_mem_derivations {g : Grammar} {t : Tree g α} (h : t ∈ derivations g tokens) :
    ∃ f, parse g tokens = .accepted f := by
  obtain ⟨s, hs, ht⟩ := h
  have haccepted : (recognize g tokens).isAccepted = true :=
    (isAccepted_recognize g tokens).mpr
      ⟨s, hs, (completed_start_iff hs).mpr (derivesFrom_names_iff.mpr ⟨t, ht⟩)⟩
  rw [← Chart.isSome_forest?] at haccepted
  obtain ⟨f, hf⟩ := Option.isSome_iff_exists.mp haccepted
  exact ⟨f, by rw [parse, Chart.outcome, hf]⟩

/-- **Sums are counted by Catalan numbers.**  A sum of `k` operands is accepted.  Its count is
the Catalan number of `k - 1` up to the largest number of 64 bits, and there is none beyond.
It is ambiguous exactly if there are three operands or more. -/
theorem count_sum_eq_catalan (k : Nat) (hk : 1 ≤ k) (tokens : Tokens α)
    (hnames : tokens.names = Examples.sumNames k) :
    ∃ f, parse Examples.ambiguousSum tokens = .accepted f ∧
      f.count? = (if catalan (k - 1) ≤ 2 ^ 64 - 1 then some (catalan (k - 1)) else none) ∧
      (f.isAmbiguous = true ↔ 3 ≤ k) := by
  obtain ⟨m, rfl⟩ : ∃ m, k = m + 1 := ⟨k - 1, by omega⟩
  have hncard := Examples.ambiguousSum.ncard_derivations hnames
  have hpos : 0 < (derivations Examples.ambiguousSum tokens).ncard := hncard ▸ catalan_pos m
  have hfinite := Set.finite_of_ncard_pos hpos
  obtain ⟨t, ht⟩ := (Set.ncard_pos hfinite).mp hpos
  obtain ⟨f, hf⟩ := exists_of_mem_derivations ht
  rw [Nat.add_sub_cancel, show 2 ^ 64 - 1 = countLimit from rfl]
  refine ⟨f, hf, ?_, ?_⟩
  · rcases (packed_of_parse hf).count?_cases with ⟨-, hsmall, hcount⟩ | ⟨hlarge, hcount⟩
    · rw [hncard] at hsmall hcount
      rw [hcount, if_pos hsmall]
    · have hlarge := hlarge.resolve_left (Set.not_infinite.mpr hfinite)
      rw [hncard] at hlarge
      rw [hcount, if_neg (Nat.not_le.mpr hlarge)]
  · have htwo := Set.one_lt_ncard_iff_nontrivial_and_finite
      (s := derivations Examples.ambiguousSum tokens)
    rw [and_iff_left hfinite, hncard, one_lt_catalan_iff] at htwo
    rw [isAmbiguous_iff_nontrivial (forest?_of_parse hf), ← htwo]
    omega

/-- `n + n + n` has two derivations, and a sum of 38 operands has too many to be counted. -/
theorem count_sum_eq_catalan_threeAndMany :
    (∃ f, parse Examples.ambiguousSum (.ofNames (Examples.sumNames 3)) = .accepted f ∧
      f.count? = some 2 ∧ f.isAmbiguous = true) ∧
    ∃ f, parse Examples.ambiguousSum (.ofNames (Examples.sumNames 38)) = .accepted f ∧
      f.count? = none := by
  obtain ⟨f, hf, hcount, hambiguous⟩ :=
    count_sum_eq_catalan 3 (by decide) _ (Tokens.names_ofNames _)
  obtain ⟨f', hf', hcount', -⟩ := count_sum_eq_catalan 38 (by decide) _ (Tokens.names_ofNames _)
  have hlarge : ¬ catalan 37 ≤ 2 ^ 64 - 1 := by
    rw [catalan_eq_centralBinom_div, Nat.centralBinom_eq_two_mul_choose,
      Nat.choose_eq_factorial_div_factorial (by decide)]
    decide +kernel
  refine ⟨⟨f, hf, ?_, hambiguous.mpr (Nat.le_refl 3)⟩, f', hf', ?_⟩
  · rw [hcount, catalan_two]
    rfl
  · rw [hcount', if_neg hlarge]

end Forest

end ChartParser
