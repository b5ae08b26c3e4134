/-
Walking through a forest.

Counting and growing take the same walk: a node is entered, then everything it
refers to, then it is left.  Here both are followed at once, so that what is
counted is the number of what is grown.  Growing does not enter a node that is done,
while counting enters it and passes it by.

* **`Tracks`** — a node is counted if its trees are made, and the count is their
  number;
* **`Walking`** — what holds at every moment of a walk: what lies above an open node
  on the stack is below it in the forest, and everything it refers to is settled
  or lies above it;
* **`Visits.thinned`** — the stack of the growing walk is that of the counting walk,
  without some visits to nodes that are done, and both lead to the same trees;
* **`Packed.visit`** — what one visit does: both walks go on, or counting is given
  up, at an open node only if that node is below itself, and otherwise only if the
  node has too many trees;
* **`Packed.walk_induction`** — a walk with enough fuel is a sequence of such visits;
* **`Packed.walk`** — a walk settles its root, or the root stands for too much.
-/
import ChartParser.Proofs.Forest.Grow

namespace ChartParser

open ChartParser.Tree Relation

variable {g : Grammar} {α : Type} {tokens : Tokens α}

/-- The node of a visit. -/
def Visit.node : Visit → Node
  | .enter n => n
  | .leave n => n

/-! ### Marks and trees of nodes -/

theorem getD_setIfInBounds {β : Type} {as : Array β} {i : Nat} (hi : i < as.size) (a d : β)
    (j : Nat) : (as.setIfInBounds i a).getD j d = if i = j then a else as.getD j d := by
  rw [Array.getD_eq_getD_getElem?, Array.getD_eq_getD_getElem?, Array.getElem?_setIfInBounds]
  by_cases hij : i = j
  · rw [if_pos hij, if_pos hij, if_pos hi, Option.getD_some]
  · rw [if_neg hij, if_neg hij]

namespace Forest

variable {f : Forest g α}

/-- There is a mark and a place for the trees of every node. -/
structure Fits (f : Forest g α) (marks : Marks) (w : Grown g α) : Prop where
  symbolMarks : marks.symbols.size = f.symbols.size
  itemMarks : marks.items.size = f.items.size
  symbols : w.symbols.size = f.symbols.size
  items : w.items.size = f.items.size

variable {marks : Marks} {w : Grown g α}

theorem Fits.set (h : f.Fits marks w) (n : Node) (mark : Mark) : f.Fits (marks.set n mark) w := by
  obtain ⟨h₁, h₂, h₃, h₄⟩ := h
  cases n with
  | symbol id => exact ⟨(Array.size_setIfInBounds ..).trans h₁, h₂, h₃, h₄⟩
  | item id => exact ⟨h₁, (Array.size_setIfInBounds ..).trans h₂, h₃, h₄⟩

theorem Fits.grow (h : f.Fits marks w) (n : Node) : f.Fits marks (f.grow w n) := by
  obtain ⟨h₁, h₂, h₃, h₄⟩ := h
  cases n with
  | symbol id => exact ⟨h₁, h₂, (Array.size_setIfInBounds ..).trans h₃, h₄⟩
  | item id => exact ⟨h₁, h₂, h₃, (Array.size_setIfInBounds ..).trans h₄⟩

theorem lt_size_of_mem_nodes_symbol {id : SymbolId} (h : .symbol id ∈ f.nodes) :
    id < f.symbols.size := by
  obtain ⟨node, hnode⟩ := mem_nodes_symbol.mp h
  exact (Array.getElem?_eq_some_iff.mp hnode).1

theorem lt_size_of_mem_nodes_item {id : ItemId} (h : .item id ∈ f.nodes) : id < f.items.size := by
  obtain ⟨node, hnode⟩ := mem_nodes_item.mp h
  exact (Array.getElem?_eq_some_iff.mp hnode).1

theorem Fits.get_set (h : f.Fits marks w) {n : Node} (hn : n ∈ f.nodes) (mark : Mark) (m : Node) :
    (marks.set n mark).get m = if n = m then mark else marks.get m := by
  cases n with
  | symbol id =>
    have hid : id < marks.symbols.size := h.symbolMarks ▸ lt_size_of_mem_nodes_symbol hn
    cases m with
    | symbol i =>
      rw [Marks.get, Marks.set, getD_setIfInBounds hid]
      simp only [Node.symbol.injEq]
      rfl
    | item i => rw [if_neg (by simp)]; rfl
  | item id =>
    have hid : id < marks.items.size := h.itemMarks ▸ lt_size_of_mem_nodes_item hn
    cases m with
    | symbol i => rw [if_neg (by simp)]; rfl
    | item i =>
      rw [Marks.get, Marks.set, getD_setIfInBounds hid]
      simp only [Node.item.injEq]
      rfl

/-- Growing a node makes its trees and leaves those of the others. -/
theorem Fits.grow_eq (h : f.Fits marks w) {n : Node} (hn : n ∈ f.nodes) (m : Node) :
    ((f.grow w n).isDone m = true ↔ m = n ∨ w.isDone m = true) ∧
      (f.grow w n).listsOf m = if n = m then f.growLists w n else w.listsOf m := by
  cases n with
  | symbol id =>
    have hid : id < w.symbols.size := h.symbols ▸ lt_size_of_mem_nodes_symbol hn
    cases m with
    | symbol i =>
      rw [Grown.isDone, Grown.isDone, Grown.listsOf, Grown.listsOf, Grown.treesOf, Grown.treesOf,
        Forest.grow, getD_setIfInBounds hid]
      by_cases hi : id = i
      · subst hi
        rw [if_pos rfl, if_pos rfl]
        exact ⟨by simp, rfl⟩
      · rw [if_neg hi, if_neg (fun heq => hi (Node.symbol.inj heq))]
        exact ⟨(or_iff_right fun heq => hi (Node.symbol.inj heq).symm).symm, rfl⟩
    | item i => exact ⟨by simp [Grown.isDone, Forest.grow], by rw [if_neg (by simp)]; rfl⟩
  | item id =>
    have hid : id < w.items.size := h.items ▸ lt_size_of_mem_nodes_item hn
    cases m with
    | symbol i => exact ⟨by simp [Grown.isDone, Forest.grow], by rw [if_neg (by simp)]; rfl⟩
    | item i =>
      rw [Grown.isDone, Grown.isDone, Grown.listsOf, Grown.listsOf, Grown.sequencesOf,
        Grown.sequencesOf, Forest.grow, getD_setIfInBounds hid]
      by_cases hi : id = i
      · subst hi
        rw [if_pos rfl, if_pos rfl]
        exact ⟨by simp, rfl⟩
      · rw [if_neg hi, if_neg (fun heq => hi (Node.item.inj heq))]
        exact ⟨(or_iff_right fun heq => hi (Node.item.inj heq).symm).symm, rfl⟩

/-- The trees of a node are made exactly if it is counted, and the count is their
number, which is not too large. -/
structure Tracks (tokens : Tokens α) (f : Forest g α) (marks : Marks) (w : Grown g α) : Prop
    extends f.Fits marks w where
  counted : ∀ n, w.isDone n = true → marks.get n = .counted (w.listsOf n).length
  lists : ∀ n, w.isDone n = true → f.Lists tokens n (w.listsOf n)
  small : ∀ n, w.isDone n = true → (w.listsOf n).length ≤ countLimit
  done : ∀ n count, marks.get n = .counted count → w.isDone n = true

theorem Tracks.visit (h : f.Tracks tokens marks w) {n : Node} (hn : n ∈ f.nodes)
    (hunvisited : marks.get n = .unvisited) : f.Tracks tokens (marks.set n .visiting) w where
  toFits := h.toFits.set n .visiting
  counted m hm := by
    have hcounted := h.counted m hm
    rw [h.get_set hn, if_neg, hcounted]
    rintro rfl
    rw [hunvisited] at hcounted
    contradiction
  lists := h.lists
  small := h.small
  done m count hm := by
    rw [h.get_set hn] at hm
    split at hm
    · contradiction
    · exact h.done m count hm

theorem Tracks.not_isDone (h : f.Tracks tokens marks w) {n : Node}
    (hn : ∀ count, marks.get n ≠ .counted count) : w.isDone n = false := by
  rw [← Bool.not_eq_true]
  exact fun hdone => hn _ (h.counted n hdone)

/-- The trees that are there when a node is left: a node that is done is not grown
again. -/
def left (f : Forest g α) (w : Grown g α) (n : Node) : Grown g α :=
  if w.isDone n then w else f.grow w n

theorem Tracks.isDone_left (h : f.Tracks tokens marks w) {n : Node} (hn : n ∈ f.nodes)
    (m : Node) : (f.left w n).isDone m = true ↔ m = n ∨ w.isDone m = true := by
  rw [left]
  split
  · rename_i hdone
    constructor
    · exact .inr
    · rintro (rfl | hm) <;> assumption
  · exact (h.grow_eq hn m).1

theorem Tracks.listsOf_left (h : f.Tracks tokens marks w) {n : Node} (hn : n ∈ f.nodes) {m : Node}
    (hm : m ≠ n) : (f.left w n).listsOf m = w.listsOf m := by
  rw [left]
  split
  · rfl
  · rw [(h.grow_eq hn m).2, if_neg hm.symm]

/-- The trees of a node that is left are all it stands for. -/
theorem Tracks.lists_left (h : f.Tracks tokens marks w) {n : Node} (hn : n ∈ f.nodes)
    (hlists : f.Lists tokens n (f.growLists w n)) :
    f.Lists tokens n ((f.left w n).listsOf n) := by
  rw [left]
  split
  · rename_i hdone
    exact h.lists n hdone
  · rw [(h.grow_eq hn n).2, if_pos rfl]
    exact hlists

theorem Tracks.leave (h : f.Tracks tokens marks w) {n : Node} (hn : n ∈ f.nodes)
    (hlists : f.Lists tokens n (f.growLists w n))
    (hsmall : (f.growLists w n).length ≤ countLimit) :
    f.Tracks tokens (marks.set n (.counted (f.growLists w n).length)) (f.left w n) where
  toFits := by
    have hfits := h.toFits.set n (.counted (f.growLists w n).length)
    rw [left]
    split
    · exact hfits
    · exact hfits.grow n
  counted m hm := by
    rw [h.get_set hn]
    by_cases hnm : m = n
    · subst hnm
      rw [if_pos rfl, hlists.length_eq (h.lists_left hn hlists)]
    · rw [if_neg (Ne.symm hnm), h.listsOf_left hn hnm]
      exact h.counted m (((h.isDone_left hn m).mp hm).resolve_left hnm)
  lists m hm := by
    by_cases hnm : m = n
    · subst hnm
      exact h.lists_left hn hlists
    · rw [h.listsOf_left hn hnm]
      exact h.lists m (((h.isDone_left hn m).mp hm).resolve_left hnm)
  small m hm := by
    by_cases hnm : m = n
    · subst hnm
      rw [(h.lists_left hn hlists).length_eq hlists]
      exact hsmall
    · rw [h.listsOf_left hn hnm]
      exact h.small m (((h.isDone_left hn m).mp hm).resolve_left hnm)
  done m count hm := by
    rw [h.isDone_left hn]
    rw [h.get_set hn] at hm
    split at hm
    · rename_i heq
      exact .inl heq.symm
    · exact .inr (h.done m count hm)

/-! ### What holds at every moment of a walk -/

/-- A moment of a walk that started at `root`. -/
structure Walking (tokens : Tokens α) (f : Forest g α) (root : Node) (stack : List Visit)
    (marks : Marks) (w : Grown g α) : Prop extends f.Tracks tokens marks w where
  reachable : ∀ v ∈ stack, ReflTransGen f.Refers root v.node
  rooted : w.isDone root = true ∨ ∃ v ∈ stack, v.node = root
  opened : ∀ n, marks.get n = .visiting → .leave n ∈ stack
  above : ∀ {before rest : List Visit} {n : Node}, stack = before ++ .leave n :: rest →
    (∀ v ∈ before, TransGen f.Refers n v.node) ∧
      ∀ m, f.Refers n m → w.isDone m = true ∨ ∃ v ∈ before, v.node = m

variable {root n : Node} {v : Visit} {stack : List Visit}

/-- A visit to a node that is done can be dropped. -/
theorem Walking.drop {marks' : Marks} {w' : Grown g α}
    (h : f.Walking tokens root (v :: stack) marks w) (htracks : f.Tracks tokens marks' w')
    (hdone : ∀ m, w'.isDone m = true ↔ m = v.node ∨ w.isDone m = true)
    (hopened : ∀ m, marks'.get m = .visiting → marks.get m = .visiting) :
    f.Walking tokens root stack marks' w' where
  toTracks := htracks
  reachable u hu := h.reachable u (List.mem_cons_of_mem v hu)
  rooted := by
    rcases h.rooted with hroot | ⟨u, hu, rfl⟩
    · exact .inl ((hdone root).mpr (.inr hroot))
    · rcases List.mem_cons.mp hu with rfl | hu
      · exact .inl ((hdone _).mpr (.inl rfl))
      · exact .inr ⟨u, hu, rfl⟩
  opened m hm := by
    rcases List.mem_cons.mp (h.opened m (hopened m hm)) with rfl | hmem
    · -- the visit was to this node, which is done and so not open
      have hcounted := htracks.counted m ((hdone m).mpr (.inl rfl))
      rw [hm] at hcounted
      contradiction
    · exact hmem
  above {before rest n} hstack := by
    obtain ⟨hbelow, hrefers⟩ := h.above (show v :: stack = (v :: before) ++ _ by rw [hstack]; rfl)
    refine ⟨fun u hu => hbelow u (List.mem_cons_of_mem v hu), fun m hm => ?_⟩
    rcases hrefers m hm with hm | ⟨u, hu, rfl⟩
    · exact .inl ((hdone m).mpr (.inr hm))
    · rcases List.mem_cons.mp hu with rfl | hu
      · exact .inl ((hdone _).mpr (.inl rfl))
      · exact .inr ⟨u, hu, rfl⟩

theorem mem_visitsOf {u : Visit} :
    u ∈ f.visitsOf n ↔ (∃ m, f.Refers n m ∧ u = .enter m) ∨ u = .leave n := by
  rw [visitsOf, Node.visits, List.mem_append, List.mem_map, List.mem_singleton]
  simp only [Refers, List.mem_reverse, eq_comm]

/-- The open nodes behind the visits that a node leads to: the node itself, and
those that were open before. -/
theorem leave_cases {before rest : List Visit} {m : Node}
    (h : f.visitsOf n ++ stack = before ++ .leave m :: rest) :
    (m = n ∧ before = (f.children n).reverse.map .enter ∧ rest = stack) ∨
      ∃ before', before = f.visitsOf n ++ before' ∧ stack = before' ++ .leave m :: rest := by
  rw [visitsOf, Node.visits, List.append_assoc, List.append_eq_append_iff] at h
  rcases h with ⟨as, rfl, has⟩ | ⟨bs, hbs, hrest⟩
  · rw [List.singleton_append, List.cons_eq_append_iff] at has
    rcases has with ⟨rfl, heq⟩ | ⟨as', rfl, heq⟩
    · obtain ⟨hleave, rfl⟩ := List.cons.inj heq
      exact .inl ⟨Visit.leave.inj hleave, List.append_nil _, rfl⟩
    · refine .inr ⟨as', ?_, heq⟩
      rw [visitsOf, Node.visits, List.append_assoc]
      rfl
  · -- a leave is none of the entries
    cases bs with
    | nil =>
      obtain ⟨hleave, rfl⟩ := List.cons.inj hrest
      rw [List.append_nil] at hbs
      exact .inl ⟨Visit.leave.inj hleave, hbs.symm, rfl⟩
    | cons b bs =>
      obtain ⟨rfl, -⟩ := List.cons.inj hrest
      have hmem : Visit.leave m ∈ (f.children n).reverse.map Visit.enter := by
        rw [hbs]
        exact List.mem_append_right _ List.mem_cons_self
      obtain ⟨k, -, hk⟩ := List.mem_map.mp hmem
      contradiction

/-- Entering a node for the first time opens it. -/
theorem Walking.enter (h : f.Walking tokens root (.enter n :: stack) marks w) (hn : n ∈ f.nodes)
    (hunvisited : marks.get n = .unvisited) :
    f.Walking tokens root (f.visitsOf n ++ stack) (marks.set n .visiting) w where
  toTracks := h.toTracks.visit hn hunvisited
  reachable u hu := by
    have hreach : ReflTransGen f.Refers root n := h.reachable _ List.mem_cons_self
    rcases List.mem_append.mp hu with hu | hu
    · rcases mem_visitsOf.mp hu with ⟨m, hm, rfl⟩ | rfl
      · exact hreach.tail hm
      · exact hreach
    · exact h.reachable u (List.mem_cons_of_mem _ hu)
  rooted := by
    refine h.rooted.imp_right ?_
    rintro ⟨u, hu, rfl⟩
    rcases List.mem_cons.mp hu with rfl | hu
    · exact ⟨.leave n, List.mem_append_left _ (mem_visitsOf.mpr (.inr rfl)), rfl⟩
    · exact ⟨u, List.mem_append_right _ hu, rfl⟩
  opened m hm := by
    rw [h.get_set hn] at hm
    split at hm
    · rename_i heq
      subst heq
      exact List.mem_append_left _ (mem_visitsOf.mpr (.inr rfl))
    · rcases List.mem_cons.mp (h.opened m hm) with heq | hmem
      · contradiction
      · exact List.mem_append_right _ hmem
  above {before rest m} hstack := by
    rcases leave_cases hstack with ⟨rfl, rfl, rfl⟩ | ⟨before', rfl, hold⟩
    · refine ⟨fun u hu => ?_, fun k hk =>
        .inr ⟨.enter k, List.mem_map_of_mem (List.mem_reverse.mpr hk), rfl⟩⟩
      obtain ⟨k, hk, rfl⟩ := List.mem_map.mp hu
      exact .single (List.mem_reverse.mp hk)
    · -- `n` is below the open node `m`, and so is what `n` refers to
      obtain ⟨hbelow, hrefers⟩ := h.above
        (show .enter n :: stack = (.enter n :: before') ++ _ by rw [hold]; rfl)
      have hmn : TransGen f.Refers m n := hbelow (.enter n) List.mem_cons_self
      constructor
      · intro u hu
        rcases List.mem_append.mp hu with hu | hu
        · rcases mem_visitsOf.mp hu with ⟨k, hk, rfl⟩ | rfl
          · exact hmn.tail hk
          · exact hmn
        · exact hbelow u (List.mem_cons_of_mem _ hu)
      · intro k hk
        refine (hrefers k hk).imp_right ?_
        rintro ⟨u, hu, rfl⟩
        rcases List.mem_cons.mp hu with rfl | hu
        · exact ⟨.leave n, List.mem_append_left _ (mem_visitsOf.mpr (.inr rfl)), rfl⟩
        · exact ⟨u, List.mem_append_right _ hu, rfl⟩

/-- When a node is left, everything it refers to is done. -/
theorem Walking.isDone_of_refers (h : f.Walking tokens root (.leave n :: stack) marks w) {m : Node}
    (hm : f.Refers n m) : w.isDone m = true := by
  rcases (h.above (List.nil_append _).symm).2 m hm with hm | ⟨u, hu, -⟩
  · exact hm
  · exact absurd hu List.not_mem_nil

/-- A node that is entered while it is open is below itself. -/
theorem Walking.cycle (h : f.Walking tokens root (.enter n :: stack) marks w)
    (hvisiting : marks.get n = .visiting) : TransGen f.Refers n n := by
  rcases List.mem_cons.mp (h.opened n hvisiting) with heq | hmem
  · contradiction
  · obtain ⟨before, rest, hstack⟩ := List.append_of_mem hmem
    exact (h.above (show .enter n :: stack = (.enter n :: before) ++ _ by rw [hstack]; rfl)).1
      (.enter n) List.mem_cons_self

/-! ### The run -/

/-- What a walk can still have to do behind nodes that it has not come to. -/
def work (f : Forest g α) (marks : Marks) : Nat :=
  ((f.nodes.filter fun n => marks.get n = .unvisited).map fun n =>
    (f.children n).length + 1).sum

theorem sum_filter_le {β : Type} {p q : β → Bool} (hqp : ∀ b, q b = true → p b = true)
    (size : β → Nat) (bs : List β) :
    ((bs.filter q).map size).sum ≤ ((bs.filter p).map size).sum := by
  induction bs with
  | nil => exact Nat.le_refl _
  | cons b bs ih =>
    by_cases hq : q b = true
    · rw [List.filter_cons_of_pos hq, List.filter_cons_of_pos (hqp b hq), List.map_cons,
        List.map_cons, List.sum_cons, List.sum_cons]
      omega
    · rw [List.filter_cons_of_neg hq]
      by_cases hp : p b = true
      · rw [List.filter_cons_of_pos hp, List.map_cons, List.sum_cons]
        omega
      · rw [List.filter_cons_of_neg hp]
        exact ih

theorem sum_filter_add_le {β : Type} {p q : β → Bool} (hqp : ∀ b, q b = true → p b = true)
    (size : β → Nat) {bs : List β} {a : β} (ha : a ∈ bs) (hp : p a = true) (hq : ¬ q a = true) :
    ((bs.filter q).map size).sum + size a ≤ ((bs.filter p).map size).sum := by
  obtain ⟨before, rest, rfl⟩ := List.append_of_mem ha
  have hbefore := sum_filter_le hqp size before
  have hrest := sum_filter_le hqp size rest
  rw [List.filter_append, List.filter_append, List.filter_cons_of_pos hp,
    List.filter_cons_of_neg hq, List.map_append, List.map_append, List.map_cons, List.sum_append,
    List.sum_append, List.sum_cons]
  omega

theorem Fits.unvisited_of_set (h : f.Fits marks w) (hn : n ∈ f.nodes) (mark : Mark)
    (hmark : mark ≠ .unvisited) (m : Node)
    (hm : decide ((marks.set n mark).get m = .unvisited) = true) :
    decide (marks.get m = .unvisited) = true := by
  rw [decide_eq_true_eq, h.get_set hn] at hm
  split at hm
  · exact absurd hm hmark
  · exact decide_eq_true hm

/-- Marking a node leaves no more to do. -/
theorem Fits.work_set_le (h : f.Fits marks w) (hn : n ∈ f.nodes) (mark : Mark)
    (hmark : mark ≠ .unvisited) : f.work (marks.set n mark) ≤ f.work marks :=
  sum_filter_le (h.unvisited_of_set hn mark hmark) _ f.nodes

/-- Opening a node takes its visits out of what is to be done. -/
theorem Fits.work_visit (h : f.Fits marks w) (hn : n ∈ f.nodes)
    (hunvisited : marks.get n = .unvisited) :
    f.work (marks.set n .visiting) + ((f.children n).length + 1) ≤ f.work marks := by
  refine sum_filter_add_le (h.unvisited_of_set hn .visiting (by simp))
    (fun n => (f.children n).length + 1) hn (decide_eq_true hunvisited) ?_
  rw [decide_eq_true_eq, h.get_set hn, if_pos rfl]
  simp

theorem Packed.mem_nodes_of_below (h : f.Packed tokens) (hroot : root ∈ f.nodes)
    (hbelow : ReflTransGen f.Refers root n) : n ∈ f.nodes := by
  cases hbelow with
  | refl => exact hroot
  | tail _ hlast => exact (h.refers_cases hlast).1

/-- `f.Visits stack marks w v stack' marks' w'`: a visit with the given stack behind it,
as both walks make it. -/
inductive Visits (f : Forest g α) (stack : List Visit) (marks : Marks) (w : Grown g α) :
    Visit → List Visit → Marks → Grown g α → Prop where
  /-- A node that is left is counted, and its trees are made. -/
  | leave {n : Node} {count : Nat} (counted : f.countNode marks n = some count) :
      Visits f stack marks w (.leave n) stack (marks.set n (.counted count)) (f.left w n)
  /-- A node that is done is passed by. -/
  | pass {n : Node} {count : Nat} (counted : marks.get n = .counted count)
      (done : w.isDone n = true) : Visits f stack marks w (.enter n) stack marks w
  /-- A node that is new is opened. -/
  | enter {n : Node} (unvisited : marks.get n = .unvisited) (todo : w.isDone n = false) :
      Visits f stack marks w (.enter n) (f.visitsOf n ++ stack) (marks.set n .visiting) w

/-- A visit at which counting is given up. -/
inductive GivesUp (f : Forest g α) (marks : Marks) : Visit → Prop where
  | overflow {n : Node} (large : f.countNode marks n = none) : GivesUp f marks (.leave n)
  | cycle {n : Node} (visiting : marks.get n = .visiting) : GivesUp f marks (.enter n)

section Visits

variable {stack' : List Visit} {marks' : Marks} {w' : Grown g α}

theorem Visits.countWalk (h : f.Visits stack marks w v stack' marks' w') (fuel : Nat) :
    f.countWalk (fuel + 1) (v :: stack) marks = f.countWalk fuel stack' marks' := by
  cases h with
  | leave counted => rw [Forest.countWalk, counted]
  | pass counted => rw [Forest.countWalk, counted]
  | enter unvisited => rw [Forest.countWalk, unvisited]

theorem GivesUp.countWalk (h : f.GivesUp marks v) (fuel : Nat) :
    f.countWalk (fuel + 1) (v :: stack) marks = none := by
  cases h with
  | overflow large => rw [Forest.countWalk, large]
  | cycle visiting => rw [Forest.countWalk, visiting]

end Visits

/-! ### Done nodes are not entered -/

/-- `Thins w wide thin`: the stack `thin` is `wide` without some visits to nodes that are
done. -/
inductive Thins (w : Grown g α) : List Visit → List Visit → Prop where
  | nil : Thins w [] []
  | keep {wide thin : List Visit} (v : Visit) (rest : Thins w wide thin) :
      Thins w (v :: wide) (v :: thin)
  | drop {wide thin : List Visit} {n : Node} (done : w.isDone n = true)
      (rest : Thins w wide thin) : Thins w (.enter n :: wide) thin

namespace Thins

variable {wide thin : List Visit} {w' : Grown g α}

theorem refl (w : Grown g α) (stack : List Visit) : Thins w stack stack := by
  induction stack with
  | nil => exact .nil
  | cons v stack ih => exact .keep v ih

theorem mono (h : Thins w wide thin) (hdone : ∀ m, w.isDone m = true → w'.isDone m = true) :
    Thins w' wide thin := by
  induction h with
  | nil => exact .nil
  | keep v _ ih => exact .keep v ih
  | drop done _ ih => exact .drop (hdone _ done) ih

/-- What a node still has to enter is a thinner stack than all it refers to. -/
theorem visits (h : Thins w wide thin) (n : Node) :
    Thins w (f.visitsOf n ++ wide) (n.visits (f.todo w n) ++ thin) := by
  rw [visitsOf, Node.visits, Node.visits, todo, ← List.filter_reverse, List.append_assoc,
    List.append_assoc]
  induction (f.children n).reverse with
  | nil => exact .keep (.leave n) h
  | cons m ms ih =>
    by_cases hdone : w.isDone m = true
    · rw [List.filter_cons_of_neg (by simp [hdone])]
      exact .drop hdone ih
    · rw [List.filter_cons_of_pos (by simp [hdone])]
      exact .keep (.enter m) ih

end Thins

/-- `f.Grows thin w v thin' w'`: a visit as the growing walk makes it. -/
inductive Grows (f : Forest g α) (thin : List Visit) (w : Grown g α) :
    Visit → List Visit → Grown g α → Prop where
  | leave (n : Node) : Grows f thin w (.leave n) thin (f.left w n)
  | pass {n : Node} (done : w.isDone n = true) : Grows f thin w (.enter n) thin w
  | enter {n : Node} (todo : w.isDone n = false) :
      Grows f thin w (.enter n) (n.visits (f.todo w n) ++ thin) w

theorem Grows.growWalk {thin thin' : List Visit} {w' : Grown g α} (h : f.Grows thin w v thin' w')
    (fuel : Nat) : f.growWalk (fuel + 1) (v :: thin) w = f.growWalk fuel thin' w' := by
  cases h with
  | leave =>
    rw [Forest.growWalk, left]
    split <;> rfl
  | pass done => rw [Forest.growWalk, if_pos done]
  | enter todo => rw [Forest.growWalk, todo, if_neg Bool.false_ne_true]

/-- **Done nodes need not be entered.**  On a thinner stack, growing makes the same visit,
or has nothing to do for it. -/
theorem Visits.thinned {stack' thin : List Visit} {marks' : Marks} {w' : Grown g α}
    (h : f.Visits stack marks w v stack' marks' w')
    (hdone : ∀ m, w.isDone m = true → w'.isDone m = true) (hthin : Thins w (v :: stack) thin) :
    Thins w' stack' thin ∧ w' = w ∨
      ∃ rest thin', thin = v :: rest ∧ f.Grows rest w v thin' w' ∧ Thins w' stack' thin' := by
  cases hthin with
  | keep _ hrest =>
    right
    cases h with
    | @leave n _ _ => exact ⟨_, _, rfl, .leave n, hrest.mono hdone⟩
    | pass _ done => exact ⟨_, _, rfl, .pass done, hrest⟩
    | enter _ todo => exact ⟨_, _, rfl, .enter todo, hrest.visits _⟩
  | drop done hrest =>
    left
    cases h with
    | pass => exact ⟨hrest, rfl⟩
    | enter _ todo =>
      rw [done] at todo
      contradiction

/-- With this much fuel or more, growing from a stack, or from a thinner one, gives the
result. -/
def GrowsTo (f : Forest g α) (fuel : Nat) (stack : List Visit) (w result : Grown g α) : Prop :=
  ∀ thin, Thins w stack thin → ∀ more, f.growWalk (fuel + more) thin w = result

theorem growsTo_nil {fuel : Nat} : f.GrowsTo (fuel + 1) [] w w := by
  intro thin hthin more
  cases hthin
  rw [Nat.add_right_comm, Forest.growWalk]

theorem Visits.growsTo {stack' : List Visit} {marks' : Marks} {w' result : Grown g α} {fuel : Nat}
    (h : f.Visits stack marks w v stack' marks' w')
    (hdone : ∀ m, w.isDone m = true → w'.isDone m = true)
    (hrest : f.GrowsTo fuel stack' w' result) : f.GrowsTo (fuel + 1) (v :: stack) w result := by
  intro thin hthin more
  rw [Nat.add_right_comm]
  rcases h.thinned hdone hthin with ⟨hthinned, rfl⟩ | ⟨rest, thin', rfl, hgrows, hthin'⟩
  · exact hrest thin hthinned (more + 1)
  · rw [hgrows.growWalk]
    exact hrest thin' hthin' more

theorem GrowsTo.eq {result : Grown g α} {fuel : Nat} (h : f.GrowsTo fuel stack w result) :
    f.growWalk fuel stack w = result := h stack (.refl w stack) 0

/-- What is done stays done. -/
theorem Walking.isDone_of_visits {stack' : List Visit} {marks' : Marks} {w' : Grown g α}
    (hwalk : f.Walking tokens root (v :: stack) marks w) (hv : v.node ∈ f.nodes)
    (h : f.Visits stack marks w v stack' marks' w') (m : Node) (hm : w.isDone m = true) :
    w'.isDone m = true := by
  cases h with
  | leave => exact (hwalk.isDone_left hv m).mpr (.inr hm)
  | pass => exact hm
  | enter => exact hm

/-! ### Both walks -/

/-- **One visit.**  It leaves less to do, or counting is given up because the root
stands for too much. -/
theorem Packed.visit (h : f.Packed tokens) (hroot : root ∈ f.nodes)
    (hwalk : f.Walking tokens root (v :: stack) marks w) :
    (∃ stack' marks' w', f.Visits stack marks w v stack' marks' w' ∧
      f.Walking tokens root stack' marks' w' ∧
      stack'.length + f.work marks' < (v :: stack).length + f.work marks) ∨
    (f.GivesUp marks v ∧ (countLimit : ℕ∞) < (f.meaning tokens root).encard) := by
  have hbelow := hwalk.reachable v List.mem_cons_self
  have hv := h.mem_nodes_of_below hroot hbelow
  rw [List.length_cons]
  cases v with
  | leave n =>
    replace hv : n ∈ f.nodes := hv
    -- everything below is done, so the node is grown and counted from it
    have hlists : f.Lists tokens n (f.growLists w n) :=
      h.lists_grow hv fun m hm => hwalk.lists m (hwalk.isDone_of_refers hm)
    have hcount : f.countNode marks n = bounded (f.growLists w n).length :=
      h.countNode_eq hv fun m hm => hwalk.counted m (hwalk.isDone_of_refers hm)
    by_cases hle : (f.growLists w n).length ≤ countLimit
    · rw [bounded, if_pos hle] at hcount
      have hwork := hwalk.work_set_le hv (.counted (f.growLists w n).length) (by simp)
      refine .inl ⟨_, _, _, .leave hcount, ?_, by omega⟩
      refine hwalk.drop (hwalk.leave hv hlists hle) (hwalk.isDone_left hv) ?_
      intro m hm
      rw [hwalk.get_set hv] at hm
      split at hm
      · contradiction
      · exact hm
    · -- too many for this node are too many for the root, which is above it
      rw [bounded, if_neg hle] at hcount
      refine .inr ⟨.overflow hcount, lt_of_lt_of_le ?_ (h.encard_le hbelow)⟩
      show (countLimit : ℕ∞) < (f.meaning tokens n).encard
      rw [hlists.encard_eq, Nat.cast_lt]
      omega
  | enter n =>
    replace hv : n ∈ f.nodes := hv
    cases hmark : marks.get n with
    | counted count =>
      -- both walks have been here before, and neither does anything
      have hdone := hwalk.done n count hmark
      refine .inl ⟨_, _, _, .pass hmark hdone, ?_, by omega⟩
      refine hwalk.drop hwalk.toTracks (fun m => ?_) fun _ => id
      constructor
      · exact .inr
      · rintro (rfl | hm)
        · exact hdone
        · exact hm
    | visiting =>
      -- an open node is below itself, and then there is no end of trees
      refine .inr ⟨.cycle hmark, lt_of_lt_of_le ?_ (h.encard_le hbelow)⟩
      have hinfinite := h.infinite_of_cycle (hwalk.cycle hmark)
      show (countLimit : ℕ∞) < (f.meaning tokens n).encard
      rw [hinfinite.encard_eq]
      exact ENat.natCast_lt_top countLimit
    | unvisited =>
      have hopen : w.isDone n = false := by
        refine hwalk.not_isDone fun count hcounted => ?_
        rw [hmark] at hcounted
        contradiction
      -- the visits that come onto the stack are taken from the work that was left
      have hwork := hwalk.work_visit hv hmark
      refine .inl ⟨_, _, _, .enter hmark hopen, hwalk.enter hv hmark, ?_⟩
      rw [visitsOf, Node.visits, List.length_append, List.length_append, List.length_map,
        List.length_reverse, List.length_singleton]
      omega

/-- **Induction over a walk.**  What holds when there is nothing left to do, when counting
is given up, and before a visit if it holds after it, holds throughout a walk that has
enough fuel. -/
theorem Packed.walk_induction (h : f.Packed tokens) (hroot : root ∈ f.nodes)
    {motive : Nat → List Visit → Marks → Grown g α → Prop}
    (finish : ∀ {fuel marks w}, f.Walking tokens root [] marks w → motive (fuel + 1) [] marks w)
    (visit : ∀ {fuel v stack marks w stack' marks' w'}, v.node ∈ f.nodes →
      f.Walking tokens root (v :: stack) marks w → f.Visits stack marks w v stack' marks' w' →
      motive fuel stack' marks' w' → motive (fuel + 1) (v :: stack) marks w)
    (giveUp : ∀ {fuel v stack marks w}, v.node ∈ f.nodes →
      f.Walking tokens root (v :: stack) marks w → f.GivesUp marks v →
      (countLimit : ℕ∞) < (f.meaning tokens root).encard → motive (fuel + 1) (v :: stack) marks w)
    {fuel : Nat} (hwalk : f.Walking tokens root stack marks w)
    (hfuel : stack.length + f.work marks < fuel) : motive fuel stack marks w := by
  induction fuel generalizing stack marks w with
  | zero => omega
  | succ fuel ih =>
    cases stack with
    | nil => exact finish hwalk
    | cons v stack =>
      have hv := h.mem_nodes_of_below hroot (hwalk.reachable v List.mem_cons_self)
      rcases h.visit hroot hwalk with ⟨stack', marks', w', hvisits, hwalk', hless⟩ | ⟨hup, hlarge⟩
      · exact visit hv hwalk hvisits (ih hwalk' (by omega))
      · exact giveUp hv hwalk hup hlarge

/-- **A walk is exact.**  With enough fuel it ends with its root counted and its
trees made, or it is given up because the root stands for too much. -/
theorem Packed.walk (h : f.Packed tokens) (hroot : root ∈ f.nodes) {fuel : Nat}
    (hwalk : f.Walking tokens root stack marks w) (hfuel : stack.length + f.work marks < fuel) :
    (∃ marks' result, f.countWalk fuel stack marks = some marks' ∧
      f.GrowsTo fuel stack w result ∧ f.Walking tokens root [] marks' result) ∨
    (f.countWalk fuel stack marks = none ∧
      (countLimit : ℕ∞) < (f.meaning tokens root).encard) := by
  refine h.walk_induction hroot (motive := fun fuel stack marks w =>
    (∃ marks' result, f.countWalk fuel stack marks = some marks' ∧
      f.GrowsTo fuel stack w result ∧ f.Walking tokens root [] marks' result) ∨
    (f.countWalk fuel stack marks = none ∧ _)) ?_ ?_ ?_ hwalk hfuel
  · intro fuel marks w hwalk
    exact .inl ⟨marks, w, rfl, growsTo_nil, hwalk⟩
  · intro fuel v stack marks w stack' marks' w' hv hwalk hvisits ih
    rw [hvisits.countWalk]
    refine ih.imp_left ?_
    rintro ⟨marks', result, hcount, hgrows, hwalk'⟩
    exact ⟨marks', result, hcount, hvisits.growsTo (hwalk.isDone_of_visits hv hvisits) hgrows,
      hwalk'⟩
  · intro fuel v stack marks w _ _ hup hlarge
    exact .inr ⟨hup.countWalk fuel, hlarge⟩

end Forest

end ChartParser
