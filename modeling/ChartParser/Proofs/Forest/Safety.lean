/-
Building and walking a forest never fails.

A node is asked for only if the chart holds what it stands for, so whatever is
looked up to fill it in is there.  A walk leaves a node only after everything that
the node refers to.

* **`Builder.Sound.symbolFault?_eq_none`** and **`Builder.Sound.itemFault?_eq_none`** —
  filling in a node runs into no fault;
* **`Builder.Progress.drainChecked_eq`** — no node is left pending when the bound on
  their number is reached;
* **`Packed.walkChecked`** — a walk that counts runs into no fault, and unless the
  count is given up neither does one that makes trees;
* **`forest_construction_safe`** — the forest of an accepted input is built, counted
  and, if it has a count, enumerated.
-/
import ChartParser.Proofs.Forest.Derivations
import ChartParser.Proofs.Links
import ChartParser.Proofs.Safety

namespace ChartParser

open Chart

variable {g : Grammar} {α : Type} {tokens : Tokens α}

/-! ### What a chart has -/

/-- A position where something stands can be looked at. -/
theorem Charted.positionFault?_eq_none {key : Key g} {k : Nat} (h : Charted tokens key k) :
    (recognize g tokens).positionFault? k = none := by
  obtain ⟨s, hs⟩ := exists_closed_of_le (lt_size_recognize h) (Nat.le_refl k)
  rw [positionFault?, hs, (regular_recognize g tokens).skippedChecked_eq]

/-- Everything that is charted is backed by the chart. -/
theorem Charted.backs {key : Key g} {k : Nat} (h : Charted tokens key k) :
    (recognize g tokens).backs key k = true := by
  have hregular := regular_recognize g tokens
  rw [Chart.backs, Bool.or_eq_true]
  rcases (hregular.holds_iff (lt_size_recognize h)).mpr h with ⟨s, hs, hkey⟩ | ⟨j, hkey⟩
  · left
    obtain ⟨st, hst, rfl⟩ := List.mem_map.mp hkey
    have hfind := (hregular.closed hs).consistent.find?_eq_some_iff.mpr
      ⟨Array.mem_toList_iff.mp hst, rfl⟩
    rw [hs, Option.bind_some, hfind]
    rfl
  · right
    rw [(hregular.isComplete_of_mem_skipped hkey).1, Bool.true_and, List.any_eq_true]
    exact ⟨_, hkey, decide_eq_true rfl⟩

/-! ### Filling nodes -/

namespace Builder

variable {b : Builder g}

/-- **Filling in a symbol node is safe.** -/
theorem Sound.symbolFault?_eq_none (hb : b.Sound tokens) {id : SymbolId}
    (hid : id < b.symbols.size) : symbolFault? (recognize g tokens) b id = none := by
  obtain ⟨node, hnode⟩ : ∃ node, b.symbols[id]? = some node := ⟨_, Array.getElem?_eq_getElem hid⟩
  obtain ⟨done, hdone, -⟩ := (hb.symbols _ (mem_symbolKeys hnode)).completed
  replace hdone : Charted tokens done node.stop := hdone
  obtain ⟨s, hs⟩ := exists_closed_of_le (lt_size_recognize hdone) (Nat.le_refl _)
  have hcompletions := ((regular_recognize g tokens).closed hs).consistent.completions
    node.name node.start
  rw [← StateSet.take_keys_size] at hcompletions
  rw [symbolFault?, hnode]
  dsimp only
  rw [hdone.positionFault?_eq_none, hs]
  exact StateSet.placeFault?_eq_none hcompletions

/-- **Filling in an item node is safe.** -/
theorem Sound.itemFault?_eq_none (hb : b.Sound tokens) {id : ItemId} (hid : id < b.items.size) :
    itemFault? (recognize g tokens) (recognize g tokens).leftOut b id = none := by
  obtain ⟨node, hnode⟩ : ∃ node, b.items[id]? = some node := ⟨_, Array.getElem?_eq_getElem hid⟩
  have hcharted : Charted tokens ⟨node.item, node.start⟩ node.stop :=
    (hb.items _ (mem_itemKeys hnode)).charted
  rw [itemFault?, hnode]
  dsimp only
  by_cases hzero : node.item.cursor = 0
  · rw [Item.retreat?, if_pos hzero]
  · obtain ⟨prev, term, hretreat, -, hadvance, hnext⟩ := Item.exists_advance?_eq hzero
    rw [hretreat, hcharted.positionFault?_eq_none, hcharted.backs]
    dsimp only
    rw [Bool.not_true, if_neg Bool.false_ne_true]
    split
    · -- before its first term, an item stands where it starts
      rename_i hcursor
      rw [Option.map_eq_none_iff, List.find?_eq_none]
      intro split hsplit
      have hlinked := (supplies_recognize g tokens).mem_splits.mp hsplit
      have hprev := ((linked_iff hadvance hnext).mp hlinked).1
      have horigin : node.start = split := hprev.origin_eq_of_cursor_eq_zero hcursor
      simp [horigin]
    · rfl

/-- Checked filling does what unchecked filling does, and nothing is pending at the
end. -/
theorem Progress.drainChecked_eq {done fuel : Nat} (h : b.Progress tokens done none)
    (hfuel : (g.rules.length + g.numDottedItems) * ((tokens.size + 1) * (tokens.size + 1)) ≤
      done + fuel) :
    b.drainChecked (recognize g tokens) (recognize g tokens).leftOut fuel =
      .ok (b.drain (recognize g tokens) (recognize g tokens).leftOut fuel) := by
  have hsupplies := supplies_recognize g tokens
  induction fuel generalizing b done with
  | zero =>
    obtain ⟨total, -, hsymbols, hitems, -⟩ := h.drain hsupplies hfuel
    rw [Builder.drain] at hsymbols hitems ⊢
    rw [drainChecked, hsymbols, hitems]
    rfl
  | succ fuel ih =>
    cases hsymbols : b.pendingSymbols with
    | cons id rest =>
      have hid := h.pendingSymbols id (by rw [hsymbols]; exact List.mem_cons_self)
      have hrest := ih ((h.popSymbol hsymbols).fillSymbol hsupplies).1 (by omega)
      simpa only [drainChecked, Builder.drain, hsymbols, h.symbolFault?_eq_none hid] using hrest
    | nil =>
      cases hitems : b.pendingItems with
      | cons id rest =>
        have hid := h.pendingItems id (by rw [hitems]; exact List.mem_cons_self)
        have hrest := ih ((h.popItem hitems).fillItem hsupplies).1 (by omega)
        simpa only [drainChecked, Builder.drain, hsymbols, hitems, h.itemFault?_eq_none hid]
          using hrest
      | nil => simp only [drainChecked, Builder.drain, hsymbols, hitems]

end Builder

/-- Checked building does what unchecked building does. -/
theorem forestChecked_recognize (haccepted : (recognize g tokens).isAccepted = true) :
    (recognize g tokens).forestChecked = .ok (recognize g tokens).forest? := by
  obtain ⟨s, hs, hcompleted⟩ := (isAccepted_recognize g tokens).mp haccepted
  have htokens := (regular_recognize g tokens).tokens_eq
  have hdrain := (Builder.progress_root hs hcompleted).1.drainChecked_eq
    (Nat.le_of_eq ((nodeBound_recognize g tokens).symm.trans (Nat.zero_add _).symm))
  rw [forestChecked, forest?, hs]
  simp only [haccepted, if_true, htokens]
  rw [hdrain]
  rfl

/-! ### Walking -/

namespace Forest

variable {f : Forest g α} {root n : Node} {v : Visit} {stack stack' : List Visit}
  {marks marks' : Marks} {w w' : Grown g α}

theorem nodeFault?_eq_none (hn : n ∈ f.nodes) : f.nodeFault? n = none := if_pos hn

/-- The tokens of a forest are those of the input. -/
theorem Packed.token_lt_size (h : f.Packed tokens) {id : ItemId} {node : ItemNode g}
    (hnode : f.items[id]? = some node) {family : Family} (hfamily : family ∈ node.families)
    {position : Nat} (hchild : family.child = .token position) : position < tokens.size := by
  rcases (h.item hnode).2 with ⟨-, hnil⟩ | ⟨prev, term, cuts, hadvance, hnext, hfamilies, -, hlinks,
    hcuts⟩
  · rw [hnil] at hfamily
    exact absurd hfamily List.not_mem_nil
  · rw [hfamilies] at hfamily
    obtain ⟨cut, hcut, rfl⟩ := List.mem_map.mp hfamily
    have hlinked := (hlinks cut.1).mp (List.mem_map_of_mem hcut)
    rcases (hcuts cut hcut).child with ⟨hkind, htoken⟩ | ⟨-, id, hsymbol, -⟩
    · obtain rfl := Child.token.inj (htoken.symm.trans hchild)
      obtain ⟨-, ⟨-, hname, -⟩ | ⟨hkind', -⟩⟩ := (linked_iff hadvance hnext).mp hlinked
      · obtain ⟨token, hget, -⟩ := Tokens.nameAt?_eq_some_iff.mp hname
        exact (Array.getElem?_eq_some_iff.mp hget).1
      · rw [hkind] at hkind'
        contradiction
    · rw [hsymbol] at hchild
      contradiction

theorem Packed.leaveFault?_eq_none (h : f.Packed tokens) (hn : n ∈ f.nodes)
    {settled : Node → Bool} (hsettled : ∀ m, f.Refers n m → settled m = true) :
    f.leaveFault? settled n = none := by
  rw [leaveFault?, nodeFault?_eq_none hn, Option.none_or, List.findSome?_eq_none_iff]
  intro m hm
  rw [nodeFault?_eq_none (h.refers_cases hm).1, Option.none_or, if_pos (hsettled m hm)]

theorem Packed.tokenFault?_eq_none (h : f.Packed tokens) (hn : n ∈ f.nodes) :
    f.tokenFault? n = none := by
  cases n with
  | symbol id => rfl
  | item id =>
    obtain ⟨node, hnode⟩ := mem_nodes_item.mp hn
    rw [tokenFault?, families_eq hnode, List.findSome?_eq_none_iff]
    intro family hfamily
    split
    · rename_i position hchild
      have hlt := h.token_lt_size hnode hfamily hchild
      rw [h.tokens_eq, if_pos hlt]
    · rfl

/-- **Leaving a node is safe**: what it refers to is counted and grown. -/
theorem Walking.leave_safe (h : f.Packed tokens) (hn : n ∈ f.nodes)
    (hwalk : f.Walking tokens root (.leave n :: stack) marks w) :
    f.countFault? marks n = none ∧ f.growFault? w n = none := by
  constructor
  · refine h.leaveFault?_eq_none hn fun m hm => ?_
    rw [hwalk.counted m (hwalk.isDone_of_refers hm)]
    rfl
  · rw [growFault?, h.leaveFault?_eq_none hn fun m hm => hwalk.isDone_of_refers hm,
      h.tokenFault?_eq_none hn]
    rfl

/-- A checked visit counts what a visit counts. -/
theorem Walking.countVisitChecked (h : f.Packed tokens) (hv : v.node ∈ f.nodes)
    (hwalk : f.Walking tokens root (v :: stack) marks w)
    (hvisits : f.Visits stack marks w v stack' marks' w') (fuel : Nat) :
    f.countWalkChecked (fuel + 1) (v :: stack) marks = f.countWalkChecked fuel stack' marks' := by
  cases hvisits with
  | @leave n _ counted =>
    replace hv : n ∈ f.nodes := hv
    rw [countWalkChecked, (hwalk.leave_safe h hv).1, counted]
  | @pass n _ counted done =>
    replace hv : n ∈ f.nodes := hv
    rw [countWalkChecked, nodeFault?_eq_none hv, counted]
  | @enter n unvisited todo =>
    replace hv : n ∈ f.nodes := hv
    rw [countWalkChecked, nodeFault?_eq_none hv, unvisited]

/-- A checked visit grows what a visit grows. -/
theorem Walking.growVisitChecked (h : f.Packed tokens) (hv : v.node ∈ f.nodes)
    (hwalk : f.Walking tokens root (v :: stack) marks w) {rest thin' : List Visit}
    (hgrows : f.Grows rest w v thin' w') (fuel : Nat) :
    f.growWalkChecked (fuel + 1) (v :: rest) w = f.growWalkChecked fuel thin' w' := by
  cases hgrows with
  | leave n =>
    replace hv : n ∈ f.nodes := hv
    rw [growWalkChecked, nodeFault?_eq_none hv, (hwalk.leave_safe h hv).2, left]
    dsimp only
    split <;> rfl
  | @pass n done =>
    replace hv : n ∈ f.nodes := hv
    rw [growWalkChecked, nodeFault?_eq_none hv]
    exact if_pos done
  | @enter n todo =>
    replace hv : n ∈ f.nodes := hv
    have hchildren : (f.children n).findSome? f.nodeFault? = none :=
      List.findSome?_eq_none_iff.mpr fun m hm => nodeFault?_eq_none (h.refers_cases hm).1
    rw [growWalkChecked, nodeFault?_eq_none hv, todo, hchildren]
    rfl

/-- Giving up a count is no fault. -/
theorem Walking.giveUpChecked (h : f.Packed tokens) (hv : v.node ∈ f.nodes)
    (hwalk : f.Walking tokens root (v :: stack) marks w) (hup : f.GivesUp marks v) (fuel : Nat) :
    f.countWalkChecked (fuel + 1) (v :: stack) marks = .ok none := by
  cases hup with
  | @overflow n large =>
    rw [countWalkChecked, (hwalk.leave_safe h (show n ∈ f.nodes from hv)).1, large]
  | @cycle n visiting =>
    rw [countWalkChecked, nodeFault?_eq_none (show n ∈ f.nodes from hv), visiting]

/-- **Walks are safe.**  Checked counting does what unchecked counting does, and as
long as the count is not given up, checked growing does what unchecked growing does, also
on a thinner stack. -/
theorem Packed.walkChecked (h : f.Packed tokens) (hroot : root ∈ f.nodes) {fuel : Nat}
    (hwalk : f.Walking tokens root stack marks w) (hfuel : stack.length + f.work marks < fuel) :
    f.countWalkChecked fuel stack marks = .ok (f.countWalk fuel stack marks) ∧
      (f.countWalk fuel stack marks ≠ none → ∀ thin, Thins w stack thin → ∀ more,
        f.growWalkChecked (fuel + more) thin w = .ok (f.growWalk (fuel + more) thin w)) := by
  refine h.walk_induction hroot (motive := fun fuel stack marks w =>
    f.countWalkChecked fuel stack marks = .ok (f.countWalk fuel stack marks) ∧
      (f.countWalk fuel stack marks ≠ none → ∀ thin, Thins w stack thin → ∀ more,
        f.growWalkChecked (fuel + more) thin w = .ok (f.growWalk (fuel + more) thin w)))
    ?_ ?_ ?_ hwalk hfuel
  · intro fuel marks w _
    refine ⟨rfl, fun _ thin hthin more => ?_⟩
    cases hthin
    rw [Nat.add_right_comm, growWalkChecked, growWalk]
  · intro fuel v stack marks w stack' marks' w' hv hwalk hvisits ih
    rw [hwalk.countVisitChecked h hv hvisits, hvisits.countWalk]
    refine ⟨ih.1, fun hsome thin hthin more => ?_⟩
    have hdone := hwalk.isDone_of_visits hv hvisits
    rw [Nat.add_right_comm]
    rcases hvisits.thinned hdone hthin with ⟨hthinned, rfl⟩ | ⟨rest, thin', rfl, hgrows, hthin'⟩
    · exact ih.2 hsome thin hthinned (more + 1)
    · rw [hwalk.growVisitChecked h hv hgrows, hgrows.growWalk]
      exact ih.2 hsome thin' hthin' more
  · intro fuel v stack marks w hv hwalk hup _
    rw [hwalk.giveUpChecked h hv hup, hup.countWalk]
    exact ⟨rfl, fun hsome => absurd rfl hsome⟩

/-- The two walks from the root of a forest are safe. -/
theorem Packed.countChecked_eq (h : f.Packed tokens) :
    f.countChecked = .ok f.count? ∧
      (f.count?.isSome = true → f.treesChecked = .ok f.allTrees) := by
  obtain ⟨hcount, hgrow⟩ :=
    h.walkChecked h.root_mem_nodes (walking_start tokens f _) (f.start_lt_walkBound _ _)
  rw [countChecked, hcount, count?]
  cases hmarks : f.countWalk (f.walkBound + 1) [.enter (.symbol f.root)] _ with
  | none => exact ⟨rfl, fun hsome => absurd hsome Bool.false_ne_true⟩
  | some marks =>
    refine ⟨rfl, fun _ => ?_⟩
    have hsafe := hgrow (by rw [hmarks]; exact Option.some_ne_none marks) _ (.refl _ _) 0
    rw [Nat.add_zero] at hsafe
    rw [treesChecked, hsafe]
    rfl

end Forest

/-- **Building a forest never fails.**  The checked construction from the chart of an
accepted input gives a forest, the same as the unchecked one, and its tokens lie in
the input; counting its derivations runs into no fault, and if there is a count,
neither does making its trees. -/
theorem forest_construction_safe (g : Grammar) (tokens : Tokens α)
    (haccepted : (recognize g tokens).isAccepted = true) :
    ∃ f, (recognize g tokens).forestChecked = .ok (some f) ∧
      (recognize g tokens).forest? = some f ∧
      (∀ node ∈ f.items, ∀ family ∈ node.families, ∀ position,
        family.child = .token position → position < tokens.size) ∧
      f.countChecked = .ok f.count? ∧
      (f.count?.isSome = true → f.treesChecked = .ok f.allTrees) := by
  have hsome : (recognize g tokens).forest?.isSome = true := by
    rw [isSome_forest?]
    exact haccepted
  obtain ⟨f, hf⟩ := Option.isSome_iff_exists.mp hsome
  have hpacked := packed_of_forest? hf
  refine ⟨f, ?_, hf, ?_, hpacked.countChecked_eq⟩
  · rw [forestChecked_recognize haccepted, hf]
  · intro node hnode family hfamily position hchild
    obtain ⟨id, hid⟩ := Array.mem_iff_getElem?.mp hnode
    exact hpacked.token_lt_size hid hfamily hchild

/-- The forest of `a a a`, part of which comes from a completion that the chart has left
out, is built, counted and enumerated. -/
theorem forest_construction_safe_threeLetters :
    (recognize Examples.rightRecursive Examples.threeLetters).isAccepted = true ∧
      ∃ f, (recognize Examples.rightRecursive Examples.threeLetters).forestChecked = .ok (some f) ∧
        (∀ node ∈ f.items, ∀ family ∈ node.families, ∀ position,
          family.child = .token position → position < 3) ∧
        f.countChecked = .ok (some 1) ∧ f.treesChecked = .ok f.allTrees := by
  have haccepted : (recognize Examples.rightRecursive Examples.threeLetters).isAccepted = true := by
    decide +kernel
  have hcount : (recognize Examples.rightRecursive Examples.threeLetters).forest?.bind
      (·.count?) = some 1 := by decide +kernel
  obtain ⟨f, hchecked, hf, htokens, hcountChecked, htrees⟩ :=
    forest_construction_safe Examples.rightRecursive Examples.threeLetters haccepted
  rw [hf, Option.bind_some] at hcount
  rw [hcount] at hcountChecked htrees
  exact ⟨haccepted, f, hchecked, htokens, hcountChecked, htrees rfl⟩

-- a forest whose root is not there is found out
example : ({ tokens := Examples.threeLetters, symbols := #[], items := #[], root := 0 } :
    Forest Examples.rightRecursive Unit).countChecked.isOk = false := by decide +kernel

end ChartParser
