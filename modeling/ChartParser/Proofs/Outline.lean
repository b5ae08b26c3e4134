/-
Outlines are unambiguous.

An outline has one line for each node of a tree, from the root down, and nothing but the
backticks before a name says how deep its node is.  That is enough to build the tree
again, as long as no name holds a newline or begins with a backtick.

* **`NameTree`** — what an outline tells of a tree: its shape, with a name at every node;
* **`text_injective`** — depths and names can be told apart in the text, line by line;
* **`listingAll_append_inj`** — a tree can be rebuilt from the depths of its nodes: its
  children are what follows, up to the next node that is not deeper than itself;
* **`outline_unambiguous`** — two trees have one outline exactly if they have the same
  shape with the same names.
-/
import ChartParser.Grammar.Examples
import ChartParser.Proofs.Traversal
import Mathlib.Data.List.Basic

namespace ChartParser

variable {g : Grammar} {α : Type}

/-! ### Trees of names -/

/-- A tree of which only the shape and the names are left. -/
inductive NameTree where
  | node (name : Name) (children : List NameTree)

namespace NameTree

mutual

/-- The nodes of a tree from the root down, each with its depth and name. -/
def listing (depth : Nat) : NameTree → List (Nat × Name)
  | .node name children => (depth, name) :: listingAll (depth + 1) children

/-- The nodes of some trees, one tree after the other. -/
def listingAll (depth : Nat) : List NameTree → List (Nat × Name)
  | [] => []
  | tree :: trees => listing depth tree ++ listingAll depth trees

end

/-- The names at the nodes of a tree. -/
def names (t : NameTree) : List Name := (t.listing 0).map (·.2)

/-- The text of a listing, with one line for each node. -/
def text (entries : List (Nat × Name)) : List Char :=
  entries.flatMap fun entry => (Tree.outlineLine entry.1 entry.2).toList

end NameTree

namespace Tree

mutual

/-- The shape of a tree, with a name at every node. -/
def nameTree : Tree g α → NameTree
  | .leaf _ token => .node token.name []
  | .branch expr _ _ children => .node (g.expr expr).head (nameTrees children)

/-- The shapes of some trees. -/
def nameTrees : List (Tree g α) → List NameTree
  | [] => []
  | tree :: trees => nameTree tree :: nameTrees trees

end

open NameTree

mutual

theorem toList_preorder (depth : Nat) :
    ∀ t : Tree g α, (preorder depth t).toList = text (t.nameTree.listing depth)
  | .leaf _ token => by
    rw [preorder, nameTree, listing, listingAll, text, List.flatMap_singleton]
  | .branch expr _ _ children => by
    rw [preorder, nameTree, listing, text, List.flatMap_cons, String.toList_append,
      toList_preorderAll (depth + 1) children, text]

theorem toList_preorderAll (depth : Nat) : ∀ ts : List (Tree g α),
    (preorderAll depth ts).toList = text (listingAll depth (nameTrees ts))
  | [] => by
    rw [preorderAll, nameTrees, listingAll, text, List.flatMap_nil, String.toList_empty]
  | t :: ts => by
    rw [preorderAll, nameTrees, listingAll, text, List.flatMap_append, String.toList_append,
      toList_preorder depth t, toList_preorderAll depth ts, text, text]

end

/-- An outline is the text of the nodes from the root down. -/
theorem toList_outline (t : Tree g α) : t.outline.toList = text (t.nameTree.listing 0) := by
  rw [outline_eq_preorder, toList_preorder]

end Tree

/-! ### Lines -/

/-- A name that can be told from the backticks before it and the newline behind it. -/
structure Legible (name : Name) : Prop where
  newline : '\n' ∉ name.toList
  backtick : name.toList.head? ≠ some '`'

instance (name : Name) : Decidable (Legible name) :=
  decidable_of_iff ('\n' ∉ name.toList ∧ name.toList.head? ≠ some '`')
    ⟨fun h => ⟨h.1, h.2⟩, fun h => ⟨h.newline, h.backtick⟩⟩

/-- The first newline ends the first line. -/
theorem line_append_inj {line line' rest rest' : List Char} (h : '\n' ∉ line) (h' : '\n' ∉ line')
    (heq : line ++ '\n' :: rest = line' ++ '\n' :: rest') : line = line' ∧ rest = rest' := by
  induction line generalizing line' with
  | nil =>
    cases line' with
    | nil => exact ⟨rfl, (List.cons.inj heq).2⟩
    | cons c line' => exact absurd (List.cons.inj heq).1 fun hc => h' (hc ▸ List.mem_cons_self)
  | cons c line ih =>
    cases line' with
    | nil => exact absurd (List.cons.inj heq).1 fun hc => h (hc ▸ List.mem_cons_self)
    | cons c' line' =>
      obtain ⟨rfl, htail⟩ := List.cons.inj heq
      obtain ⟨rfl, hrest⟩ := ih (fun hmem => h (List.mem_cons_of_mem _ hmem))
        (fun hmem => h' (List.mem_cons_of_mem _ hmem)) htail
      exact ⟨rfl, hrest⟩

/-- The backticks at the beginning of a line give the depth. -/
theorem replicate_append_inj {β : Type} {b : β} {m n : Nat} {xs ys : List β}
    (hx : xs.head? ≠ some b) (hy : ys.head? ≠ some b)
    (h : List.replicate m b ++ xs = List.replicate n b ++ ys) : m = n ∧ xs = ys := by
  induction m generalizing n with
  | zero =>
    cases n with
    | zero => exact ⟨rfl, h⟩
    | succ n => exact absurd (congrArg List.head? h) hx
  | succ m ih =>
    cases n with
    | zero => exact absurd (congrArg List.head? h).symm hy
    | succ n =>
      obtain ⟨rfl, heq⟩ := ih (List.cons.inj h).2
      exact ⟨rfl, heq⟩

theorem Tree.toList_outlineLine_append (depth : Nat) (name : Name) (rest : List Char) :
    (outlineLine depth name).toList ++ rest =
      List.replicate depth '`' ++ name.toList ++ '\n' :: rest := by
  rw [toList_outlineLine, List.append_assoc]
  rfl

/-- The first line of a text gives the depth and name of its node, and the rest goes on
behind it. -/
theorem Legible.outlineLine_append_inj {depth depth' : Nat} {name name' : Name}
    {rest rest' : List Char} (h : Legible name) (h' : Legible name')
    (heq : (Tree.outlineLine depth name).toList ++ rest =
      (Tree.outlineLine depth' name').toList ++ rest') :
    depth = depth' ∧ name = name' ∧ rest = rest' := by
  have hline : ∀ {depth : Nat} {name : Name}, Legible name →
      '\n' ∉ List.replicate depth '`' ++ name.toList := by
    intro depth name h hmem
    rcases List.mem_append.mp hmem with hmem | hmem
    · exact absurd (List.eq_of_mem_replicate hmem) (by decide)
    · exact h.newline hmem
  rw [Tree.toList_outlineLine_append, Tree.toList_outlineLine_append] at heq
  obtain ⟨hfirst, hrest⟩ := line_append_inj (hline h) (hline h') heq
  obtain ⟨hdepth, hname⟩ := replicate_append_inj h.backtick h'.backtick hfirst
  exact ⟨hdepth, String.toList_inj.mp hname, hrest⟩

namespace NameTree

/-- **Lines can be read.**  Nodes with legible names can be told from their text. -/
theorem text_injective {entries entries' : List (Nat × Name)}
    (h : ∀ entry ∈ entries, Legible entry.2) (h' : ∀ entry ∈ entries', Legible entry.2)
    (heq : text entries = text entries') : entries = entries' := by
  -- a line is never empty, so both texts end together
  have hne : ∀ (entry : Nat × Name) (entries : List (Nat × Name)),
      text (entry :: entries) ≠ [] := by
    intro entry entries hnil
    rw [text, List.flatMap_cons, Tree.toList_outlineLine_append] at hnil
    simp at hnil
  induction entries generalizing entries' with
  | nil =>
    cases entries' with
    | nil => rfl
    | cons entry entries' => exact absurd heq.symm (hne entry entries')
  | cons entry entries ih =>
    cases entries' with
    | nil => exact absurd heq (hne entry entries)
    | cons entry' entries' =>
      obtain ⟨hentry, hrest⟩ := List.forall_mem_cons.mp h
      obtain ⟨hentry', hrest'⟩ := List.forall_mem_cons.mp h'
      rw [text, text, List.flatMap_cons, List.flatMap_cons] at heq
      obtain ⟨hdepth, hname, heq⟩ := hentry.outlineLine_append_inj hentry' heq
      rw [Prod.ext hdepth hname, ih hrest hrest' heq]

/-! ### Depths -/

/-- What follows the nodes at some depth begins less deep, if there is more. -/
def Ends (depth : Nat) (rest : List (Nat × Name)) : Prop := ∀ entry ∈ rest.head?, entry.1 < depth

/-- The next tree, or what follows the last one, ends what is below a node. -/
theorem Ends.listingAll_append {depth : Nat} {rest : List (Nat × Name)} (h : Ends depth rest)
    (ts : List NameTree) : Ends (depth + 1) (listingAll depth ts ++ rest) := by
  intro entry hentry
  cases ts with
  | nil => exact Nat.lt_succ_of_lt (h entry hentry)
  | cons t ts =>
    obtain ⟨name, children⟩ := t
    obtain rfl := Option.some.inj hentry
    exact Nat.lt_succ_self depth

/-- Trees do not end where there is another one. -/
theorem Ends.ne_listingAll {depth : Nat} {rest rest' : List (Nat × Name)} (h : Ends depth rest)
    (t : NameTree) (ts : List NameTree) : rest ≠ listingAll depth (t :: ts) ++ rest' := by
  rintro rfl
  obtain ⟨name, children⟩ := t
  exact Nat.lt_irrefl depth (h (depth, name) rfl)

/-- **Trees can be rebuilt.**  The depths of the nodes say which of them are children of
which, and where the trees end. -/
theorem listingAll_append_inj {depth : Nat} {rest rest' : List (Nat × Name)} (h : Ends depth rest)
    (h' : Ends depth rest') : ∀ {ts us : List NameTree},
    listingAll depth ts ++ rest = listingAll depth us ++ rest' → ts = us ∧ rest = rest'
  | [], [], heq => ⟨rfl, heq⟩
  | [], u :: us, heq => absurd heq (h.ne_listingAll u us)
  | t :: ts, [], heq => absurd heq.symm (h'.ne_listingAll t ts)
  | .node name children :: ts, .node name' children' :: us, heq => by
    simp only [listingAll, listing, List.cons_append, List.append_assoc, List.cons.injEq,
      Prod.mk.injEq, true_and] at heq
    obtain ⟨rfl, hbelow⟩ := heq
    -- below the first node first, then the trees beside it
    obtain ⟨rfl, hbeside⟩ := listingAll_append_inj (h.listingAll_append ts)
      (h'.listingAll_append us) hbelow
    obtain ⟨rfl, hrest⟩ := listingAll_append_inj h h' hbeside
    exact ⟨rfl, hrest⟩

theorem listing_zero_inj {t u : NameTree} (h : t.listing 0 = u.listing 0) : t = u := by
  have hends : Ends 0 [] := by simp [Ends]
  have heq : listingAll 0 [t] ++ [] = listingAll 0 [u] ++ [] := by
    simp only [listingAll, h]
  exact (List.cons.inj (listingAll_append_inj hends hends heq).1).1

end NameTree

/-- **Outlines are unambiguous.**  Two trees of any grammars and inputs, whose names hold
no newline and do not begin with a backtick, have one outline exactly if they have the
same shape with the same name at every node. -/
theorem outline_unambiguous {g' : Grammar} {β : Type} (t : Tree g α) (u : Tree g' β)
    (ht : ∀ name ∈ t.nameTree.names, Legible name)
    (hu : ∀ name ∈ u.nameTree.names, Legible name) :
    t.outline = u.outline ↔ t.nameTree = u.nameTree := by
  rw [← String.toList_inj, Tree.toList_outline, Tree.toList_outline]
  constructor
  · intro heq
    refine NameTree.listing_zero_inj (NameTree.text_injective ?_ ?_ heq)
    · intro entry hentry
      exact ht entry.2 (List.mem_map_of_mem hentry)
    · intro entry hentry
      exact hu entry.2 (List.mem_map_of_mem hentry)
  · intro heq
    rw [heq]

namespace Examples

/-- The derivation of `a b` from `S -> "a" S "b" | ε`. -/
def oneBlock : Tree balanced Unit :=
  .branch ⟨0, by decide +kernel⟩ 0 2
    [.leaf 0 ⟨"a", ()⟩, .branch ⟨1, by decide +kernel⟩ 1 1 [], .leaf 1 ⟨"b", ()⟩]

/-- No derivation: the inner `S` is a token, and the spans do not fit together. -/
def oneBlockByHand : Tree balanced String :=
  .branch ⟨0, by decide +kernel⟩ 7 3 [.leaf 4 ⟨"a", "x"⟩, .leaf 4 ⟨"S", "y"⟩, .leaf 9 ⟨"b", "z"⟩]

end Examples

/-- Two trees that differ in everything but their shape and names. -/
theorem outline_unambiguous_oneBlock :
    (∀ name ∈ Examples.oneBlock.nameTree.names, Legible name) ∧
    (∀ name ∈ Examples.oneBlockByHand.nameTree.names, Legible name) ∧
    Examples.oneBlock.outline = "S\n`a\n`S\n`b\n" ∧
    Examples.oneBlock.outline = Examples.oneBlockByHand.outline ∧
    Examples.oneBlock.nameTree = Examples.oneBlockByHand.nameTree := by
  have hnames : ∀ name ∈ Examples.oneBlock.nameTree.names, Legible name := by decide +kernel
  have hnames' : ∀ name ∈ Examples.oneBlockByHand.nameTree.names, Legible name := by
    decide +kernel
  have htext : Examples.oneBlock.outline = "S\n`a\n`S\n`b\n" := by decide +kernel
  have hsame : Examples.oneBlock.outline = Examples.oneBlockByHand.outline := by decide +kernel
  exact ⟨hnames, hnames', htext, hsame, (outline_unambiguous _ _ hnames hnames').mp hsame⟩

/-- A newline in a name passes for the end of a line: one token has the outline of two
nodes. -/
example :
    (Tree.leaf 0 ⟨"S\n`b", ()⟩ : Tree Examples.balanced Unit).outline =
      (Tree.branch ⟨1, by decide +kernel⟩ 0 1 [.leaf 0 ⟨"b", ()⟩] :
        Tree Examples.balanced Unit).outline := by
  decide +kernel

end ChartParser
