import Kovanica.Dag.Reachable

/-!
# Labels in 64 bits

`add_block` once more, as a machine would run it: every sum and difference has to fit 64
bits, every key has to be there, and the two loops have to end.  On the oracle of a DAG
nothing of this ever fails, and the labels it leaves are an exact labelling of the
selected-parent tree.

## Main results

* `sliceChildrenChecked_eq`, `relayoutLoopChecked_eq`, `reindexAnchorChecked_eq`: where the
  labels are in order and there is room, the checked loops end without a failure.
* `Labelled.addBlockChecked_eq`: so `add_block` runs through, and computes what it computes on
  numbers without a bound.
-/

namespace Kovanica

open Lib Relation

/-! ## Checked arithmetic -/

/-- `a + b`, if it fits 64 bits. -/
def add64 (a b : Nat) : Option Nat := if a + b < 2 ^ 64 then some (a + b) else none

/-- `a - b`, if it is not negative. -/
def sub64 (a b : Nat) : Option Nat := if b ≤ a then some (a - b) else none

/-- `(a as u128 * b as u128 / c as u128) as u64`, if nothing is lost. -/
def share64 (a b c : Nat) : Option Nat :=
  if a * b < 2 ^ 128 ∧ c ≠ 0 ∧ a * b / c < 2 ^ 64 then some (a * b / c) else none

theorem add64_of_lt {a b : Nat} (h : a + b < 2 ^ 64) : add64 a b = some (a + b) := if_pos h

theorem sub64_of_le {a b : Nat} (h : b ≤ a) : sub64 a b = some (a - b) := if_pos h

theorem share64_of_lt {a b c : Nat} (ha : a < 2 ^ 64) (hb : b < 2 ^ 64) (hc : c ≠ 0)
    (h : a * b / c < 2 ^ 64) : share64 a b c = some (a * b / c) := by
  have hmul : a * b < 2 ^ 64 * 2 ^ 64 := Nat.mul_lt_mul'' ha hb
  exact if_pos ⟨by omega, hc, h⟩

namespace Reachability

/-! ## The checked oracle -/

/-- The children loop of `relayout_subtree`, checked. -/
def sliceChildrenChecked (size : Finmap fun _ : BlockId => Nat) (slack total : Nat) :
    List BlockId → (cursor : Nat) → List (BlockId × Nat × Nat) →
      Option (List (BlockId × Nat × Nat) × Nat)
  | [], cursor, stack => some (stack, cursor)
  | child :: rest, cursor, stack => do
      let sz ← size.lookup child
      let extra ← share64 slack sz total
      let span ← add64 sz extra
      let cHi ← add64 cursor (← sub64 span 1)
      sliceChildrenChecked size slack total rest (← add64 cHi 1) ((child, cursor, cHi) :: stack)

/-- The loop of `relayout_subtree`, checked; `none` also if it has not ended yet. -/
def relayoutLoopChecked (children : Finmap fun _ : BlockId => List BlockId)
    (size : Finmap fun _ : BlockId => Nat) :
    (fuel : Nat) → List (BlockId × Nat × Nat) →
      (intervals : Finmap fun _ : BlockId => Nat × Nat) →
      (nextFree : Finmap fun _ : BlockId => Nat) →
      Option ((Finmap fun _ : BlockId => Nat × Nat) × (Finmap fun _ : BlockId => Nat))
  | _, [], intervals, nextFree => some (intervals, nextFree)
  | 0, _ :: _, _, _ => none
  | fuel + 1, (node, lo, hi) :: stack, intervals, nextFree => do
      let total ← sub64 (← size.lookup node) 1
      let first ← add64 lo 1
      if total = 0 then
        relayoutLoopChecked children size fuel stack (intervals.insert node (lo, hi))
          (nextFree.insert node first)
      else
        let region ← sub64 hi lo
        let slack ← sub64 region total
        let (stack, cursor) ←
          sliceChildrenChecked size slack total (← children.lookup node) first stack
        relayoutLoopChecked children size fuel stack (intervals.insert node (lo, hi))
          (nextFree.insert node cursor)

/-- The loop of `reindex`, checked: the anchor with its interval. -/
def reindexAnchorChecked (r : Reachability) : (fuel : Nat) → BlockId → Option (BlockId × Nat × Nat)
  | 0, _ => none
  | fuel + 1, anchor => do
      let (lo, hi) ← r.intervals.lookup anchor
      let capacity ← add64 (← sub64 hi lo) 1
      let need ← r.subtreeSize.lookup anchor
      if min (need * 2) (2 ^ 64 - 1) ≤ capacity then some (anchor, lo, hi)
      else
        match r.treeParent.lookup anchor with
        | none => some (anchor, lo, hi)
        | some parent => reindexAnchorChecked r fuel parent

/-- `reindex(node)`, checked. -/
def reindexChecked (r : Reachability) (node : BlockId) : Option Reachability := do
  let (anchor, lo, hi) ← r.reindexAnchorChecked r.size node
  let laid ← relayoutLoopChecked r.treeChildren r.subtreeSize r.size [(anchor, lo, hi)]
    r.intervals r.nextFree
  some { r with intervals := laid.1, nextFree := laid.2 }

/-- The loop of `add_block` that counts the new leaf into the sizes above it, checked. -/
def bumpAbove (treeParent : BlockId → Option BlockId) : (fuel : Nat) → Option BlockId →
    (sizes : Finmap fun _ : BlockId => Nat) → Option (Finmap fun _ : BlockId => Nat)
  | _, none, sizes => some sizes
  | 0, some _, _ => none
  | fuel + 1, some x, sizes => do
      let bumped ← add64 (← sizes.lookup x) 1
      bumpAbove treeParent fuel (treeParent x) (sizes.insert x bumped)

/-- Step 1 of `add_block`, checked. -/
def registerLeafChecked (r : Reachability) (id selectedParent : BlockId) :
    Option Reachability := do
  let leaf := r.registerLeaf id selectedParent
  let sizes ← bumpAbove leaf.treeParent.lookup (r.size + 1) (some selectedParent)
    (r.subtreeSize.insert id 1)
  some { leaf with subtreeSize := sizes }

/-- Step 2 of `add_block`, checked. -/
def allocateChecked (r : Reachability) (id selectedParent : BlockId) : Option Reachability := do
  let (_, pEnd) ← r.intervals.lookup selectedParent
  let remLo ← r.nextFree.lookup selectedParent
  if remLo ≤ pEnd then
    let mid ← add64 remLo ((← sub64 pEnd remLo) / 2)
    let idFree ← add64 remLo 1
    let parentFree ← add64 mid 1
    some { r with
      intervals := r.intervals.insert id (remLo, mid)
      nextFree := (r.nextFree.insert id idFree).insert selectedParent parentFree }
  else
    let temporary : Reachability :=
      { r with
        intervals := r.intervals.insert id (remLo, remLo)
        nextFree := r.nextFree.insert id remLo }
    temporary.reindexChecked selectedParent

/-- `add_block(id, selected_parent, mergeset)`, checked: `none` where a machine with 64-bit words
would overflow, miss a key or not end.  Step 3 has no arithmetic. -/
def addBlockChecked (r : Reachability) (id selectedParent : BlockId) (mergeset : List BlockId) :
    Option Reachability := do
  let leaf ← r.registerLeafChecked id selectedParent
  let labelled ← leaf.allocateChecked id selectedParent
  some (mergeset.foldl (fun r merged => r.insertToFutureCoveringSet merged id) labelled)

/-! ## The relayout never fails -/

section Relayout

variable {tp : BlockId → Option BlockId} {V : Finset BlockId} {root : BlockId}
  {children : Finmap fun _ : BlockId => List BlockId} {size : Finmap fun _ : BlockId => Nat}

/-- Where the default is not a value of the map, a value is stored. -/
theorem lookup_of_pos {m : Finmap fun _ : BlockId => Nat} {x : BlockId} (h : 0 < valueAt m x) :
    m.lookup x = some (valueAt m x) := by
  cases hx : m.lookup x with
  | none =>
      rw [valueAt, hx] at h
      cases h
  | some v => rw [valueAt_of_lookup hx]

/-- Children whose slices end below `2 ^ 64` are sliced without a failure. -/
theorem sliceChildrenChecked_eq {slack total : Nat} (hslack : slack < 2 ^ 64) (htotal : total ≠ 0)
    {kids : List BlockId} (hpos : ∀ c ∈ kids, 0 < valueAt size c) {cursor : Nat}
    (hend : slicesEnd (valueAt size) slack total kids cursor < 2 ^ 64)
    (stack : List (BlockId × Nat × Nat)) :
    sliceChildrenChecked size slack total kids cursor stack =
      some (sliceChildren (valueAt size) slack total kids cursor stack) := by
  induction kids generalizing cursor stack with
  | nil => rfl
  | cons child rest ih =>
      have hrest : ∀ c ∈ rest, 0 < valueAt size c := fun c hc => hpos c (List.mem_cons_of_mem _ hc)
      have hchild := hpos child (List.mem_cons_self ..)
      rw [slicesEnd, span] at hend
      have hle := le_slicesEnd (valueAt size) slack total hrest
        (cursor + (valueAt size child + slack * valueAt size child / total - 1) + 1)
      simp only [sliceChildrenChecked, sliceChildren, Option.bind_eq_bind, lookup_of_pos hchild,
        Option.bind_some]
      have hshare : valueAt size child < 2 ^ 64 → slack * valueAt size child / total < 2 ^ 64 →
          share64 slack (valueAt size child) total = some (slack * valueAt size child / total) :=
        fun hsz => share64_of_lt hslack hsz htotal
      generalize slack * valueAt size child / total = extra at hend hle hshare ⊢
      rw [hshare (by omega) (by omega), Option.bind_some, add64_of_lt (by omega), Option.bind_some,
        sub64_of_le (by omega), Option.bind_some, add64_of_lt (by omega), Option.bind_some,
        add64_of_lt (by omega), Option.bind_some, ih hrest hend]

/-- The loop ends, and nothing fails, when every node on the stack has room for its
subtree below `2 ^ 63`. -/
theorem relayoutLoopChecked_eq (hdata : TreeData tp V (valueAt children) (valueAt size))
    (htree : RootedTree tp V root) (hkeys : children.keys = V) (fuel : Nat)
    (stack : List (BlockId × Nat × Nat)) (intervals : Finmap fun _ : BlockId => Nat × Nat)
    (nextFree : Finmap fun _ : BlockId => Nat) (hmem : ∀ e ∈ stack, e.1 ∈ V)
    (hroom : ∀ e ∈ stack, e.2.1 + valueAt size e.1 ≤ e.2.2 + 1 ∧ e.2.2 ≤ rootCapacity)
    (hfuel : (stack.map fun e => valueAt size e.1).sum ≤ fuel) :
    relayoutLoopChecked children size fuel stack intervals nextFree =
      some (relayoutLoop (valueAt children) (valueAt size) fuel stack intervals nextFree) := by
  induction fuel generalizing stack intervals nextFree with
  | zero =>
      cases stack with
      | nil => rfl
      | cons e stack =>
          have hpos := hdata.size_pos htree (hmem e (List.mem_cons_self ..))
          simp only [List.map_cons, List.sum_cons] at hfuel
          omega
  | succ fuel ih =>
      cases stack with
      | nil => rfl
      | cons e stack =>
          obtain ⟨n, lo, hi⟩ := e
          have hn : n ∈ V := hmem (n, lo, hi) (List.mem_cons_self ..)
          have hpos := hdata.size_pos htree hn
          have hsize := hdata.size_children htree hn
          obtain ⟨hfits, hhi⟩ := hroom (n, lo, hi) (List.mem_cons_self ..)
          have hcap : rootCapacity = 2 ^ 63 - 1 := rfl
          simp only at hfits hhi
          have hmem' : ∀ e ∈ stack, e.1 ∈ V := fun e he => hmem e (List.mem_cons_of_mem _ he)
          have hroom' := fun e he => hroom e (List.mem_cons_of_mem _ he)
          simp only [List.map_cons, List.sum_cons] at hfuel
          simp only [relayoutLoopChecked, relayoutLoop, Option.bind_eq_bind, lookup_of_pos hpos,
            Option.bind_some]
          rw [sub64_of_le (by omega), Option.bind_some, add64_of_lt (by omega), Option.bind_some]
          split
          · exact ih _ _ _ hmem' hroom' (by omega)
          · rename_i htotal
            have hchildren : children.lookup n = some (valueAt children n) :=
              lookup_eq_some_valueAt (Finmap.mem_keys.1 (hkeys ▸ hn))
            have hend := hdata.freePoint_le htree hn hfits
            rw [freePoint] at hend
            have hkids := hdata.children_pos htree hn
            rw [sub64_of_le (by omega), Option.bind_some, sub64_of_le (by omega), Option.bind_some,
              hchildren, Option.bind_some,
              sliceChildrenChecked_eq (by omega) htotal hkids (by omega), Option.bind_some]
            have hslices := sliceChildren_eq (valueAt size) (hi - lo - (valueAt size n - 1))
              (valueAt size n - 1) (valueAt children n) (lo + 1) stack
            -- what is pushed has room in turn
            have hpushed : ∀ e ∈ slices (valueAt size) (hi - lo - (valueAt size n - 1))
                (valueAt size n - 1) (valueAt children n) (lo + 1),
                e.1 ∈ V ∧ e.2.1 + valueAt size e.1 ≤ e.2.2 + 1 ∧ e.2.2 ≤ rootCapacity := by
              intro e he
              have hbounds := slice_bounds _ _ _ hkids _ he
              exact ⟨(hdata.mem_slices htree hn he).1, hbounds.2.1, by omega⟩
            refine ih _ _ _ ?_ ?_ ?_
            · rw [hslices]
              intro e he
              rcases List.mem_append.1 he with he | he
              · exact (hpushed e (List.mem_reverse.1 he)).1
              · exact hmem' e he
            · rw [hslices]
              intro e he
              rcases List.mem_append.1 he with he | he
              · exact (hpushed e (List.mem_reverse.1 he)).2
              · exact hroom' e he
            · rw [hslices, List.map_append, List.sum_append, List.map_reverse, List.sum_reverse,
                sum_slices]
              omega

/-- The search for the anchor ends, and nothing fails, when the labels on the way up are
in order. -/
theorem reindexAnchorChecked_eq {r : Reachability} (htree : RootedTree tp V root)
    (hparent : ∀ x, r.treeParent.lookup x = tp x) (fuel : Nat) (node : BlockId)
    (hfuel : depth tp V node < fuel)
    (hlabels : ∀ x, ReflTransGen (TreeEdge tp) x node → x ∈ r.intervals ∧
      r.start x ≤ r.stop x ∧ r.stop x ≤ rootCapacity ∧ 0 < valueAt r.subtreeSize x) :
    r.reindexAnchorChecked fuel node = some (r.reindexAnchor fuel node,
      r.start (r.reindexAnchor fuel node), r.stop (r.reindexAnchor fuel node)) := by
  induction fuel generalizing node with
  | zero => omega
  | succ fuel ih =>
      obtain ⟨hmem, hle, hstop, hpos⟩ := hlabels node .refl
      have hcap : rootCapacity = 2 ^ 63 - 1 := rfl
      have hinterval : r.intervals.lookup node = some (r.start node, r.stop node) :=
        lookup_eq_some_valueAt hmem
      simp only [reindexAnchorChecked, reindexAnchor, Option.bind_eq_bind, hinterval,
        Option.bind_some, lookup_of_pos hpos]
      rw [sub64_of_le hle, Option.bind_some, add64_of_lt (by omega), Option.bind_some]
      split
      · rfl
      · cases hp : r.treeParent.lookup node with
        | none => rfl
        | some p =>
            have hedge : tp node = some p := (hparent node).symm.trans hp
            have hlt := htree.depth_lt hedge
            exact ih p (by omega) fun x hx => hlabels x (hx.tail hedge)

/-- The sizes above a vertex are bumped without a failure, once each. -/
theorem bumpAbove_eq (htree : RootedTree tp V root) (fuel : Nat) (x : BlockId)
    (sizes : Finmap fun _ : BlockId => Nat) (hfuel : depth tp V x < fuel)
    (hsizes : ∀ y, ReflTransGen (TreeEdge tp) y x → 0 < valueAt sizes y ∧
      valueAt sizes y + 1 < 2 ^ 64) :
    bumpAbove tp fuel (some x) sizes = some (updateEach (· + 1) sizes (pathUp tp fuel x)) := by
  induction fuel generalizing x sizes with
  | zero => omega
  | succ fuel ih =>
      obtain ⟨hpos, hlt⟩ := hsizes x .refl
      rw [bumpAbove, lookup_of_pos hpos, pathUp]
      simp only [Option.bind_eq_bind, Option.bind_some]
      rw [add64_of_lt hlt, Option.bind_some]
      cases hp : tp x with
      | none => cases fuel <;> rfl
      | some p =>
          have hdepth := htree.depth_lt hp
          refine ih p _ (by omega) fun y hy => ?_
          have hyx : y ≠ x := by
            rintro rfl
            exact htree.acyclic y (TransGen.tail' hy hp)
          rw [valueAt_insert_of_ne _ _ hyx]
          exact hsizes y (hy.tail hp)

end Relayout

/-! ## Nor does the whole step -/

section AddBlock

variable {tp tp' : BlockId → Option BlockId} {V : Finset BlockId} {root : BlockId}
  {r : Reachability} {t sp : BlockId}

theorem Labelled.registerLeafChecked_eq (h : Labelled tp V root r)
    (hleaf : LeafAdded tp tp' V t sp) (hcap : V.card + 1 ≤ rootCapacity) :
    r.registerLeafChecked t sp = some (r.registerLeaf t sp) := by
  have htree' := hleaf.rootedTree h.tree
  have hdepth := htree'.depth_lt_card (Finset.mem_insert_of_mem hleaf.parent_mem)
  rw [Finset.card_insert_of_notMem hleaf.fresh, ← h.size_eq] at hdepth
  have hparent : (r.registerLeaf t sp).treeParent.lookup = tp' := registerLeaf_parent h hleaf
  have hroot : rootCapacity = 2 ^ 63 - 1 := rfl
  have hbump := bumpAbove_eq htree' (r.size + 1) sp (r.subtreeSize.insert t 1) hdepth
    fun y hy => by
      obtain ⟨hyt, hyV⟩ := hleaf.mem_of_above h.tree hy
      have hpos := h.data.size_pos h.tree hyV
      have hle := RootedTree.card_subtree_le tp V y
      rw [← h.data.size_eq y hyV] at hle
      rw [valueAt_insert_of_ne _ _ hyt]
      exact ⟨hpos, by omega⟩
  rw [registerLeafChecked, hparent, Option.bind_eq_bind, hbump, Option.bind_some,
    ← registerLeaf_parent h hleaf]
  rfl

theorem Labelled.reindexChecked_eq (h : Labelled tp V root r) (hleaf : LeafAdded tp tp' V t sp)
    (hcap : V.card + 1 ≤ rootCapacity) :
    (r.temporary t sp).reindexChecked sp = some ((r.temporary t sp).reindex sp) := by
  have htree' := hleaf.rootedTree h.tree
  have hdata' := h.temporary_data hleaf
  have hdepth := htree'.depth_lt_card (Finset.mem_insert_of_mem hleaf.parent_mem)
  rw [← h.temporary_size hleaf] at hdepth
  have hkeys : (r.temporary t sp).treeChildren.keys = insert t V := (h.registerLeaf_data hleaf).1
  obtain ⟨hreach, hroom⟩ := h.anchor_spec hleaf hcap
  obtain ⟨hat, haV⟩ := hleaf.mem_of_above h.tree hreach
  have haV' : r.anchorOf t sp ∈ insert t V := Finset.mem_insert_of_mem haV
  have hsearch := reindexAnchorChecked_eq htree' (h.temporary_parent hleaf)
    (r.temporary t sp).size sp hdepth fun x hx => by
      obtain ⟨hxt, hxV⟩ := hleaf.mem_of_above h.tree hx
      have hlabel := h.labelledAt x hxV
      rw [start_temporary hxt, stop_temporary hxt, ← Finmap.lookup_isSome,
        r.lookup_temporary sp hxt, Finmap.lookup_isSome]
      exact ⟨hlabel.mem, hlabel.start_le, (h.stop_le hxV).2,
        hdata'.size_pos htree' (Finset.mem_insert_of_mem hxV)⟩
  rw [← anchorOf] at hsearch
  have hloop := relayoutLoopChecked_eq hdata' htree' hkeys (r.temporary t sp).size
    [(r.anchorOf t sp, (r.temporary t sp).start (r.anchorOf t sp),
      (r.temporary t sp).stop (r.anchorOf t sp))]
    (r.temporary t sp).intervals (r.temporary t sp).nextFree
    (by simpa using Finset.mem_insert.1 haV')
    (by
      rw [stop_temporary hat] at hroom ⊢
      simpa using ⟨hroom, (h.stop_le haV).2⟩)
    (by
      rw [List.map_singleton, List.sum_singleton, hdata'.size_eq _ haV',
        h.temporary_size hleaf]
      exact RootedTree.card_subtree_le tp' (insert t V) (r.anchorOf t sp))
  rw [reindexChecked, hsearch]
  simp only [Option.bind_eq_bind, Option.bind_some]
  rw [hloop, Option.bind_some]
  rfl

theorem Labelled.allocateChecked_eq (h : Labelled tp V root r) (hleaf : LeafAdded tp tp' V t sp)
    (hcap : V.card + 1 ≤ rootCapacity) :
    (r.registerLeaf t sp).allocateChecked t sp =
      some ((r.registerLeaf t sp).allocate t sp) := by
  have hlabel := h.labelledAt sp hleaf.parent_mem
  have hstop := (h.stop_le hleaf.parent_mem).2
  have hroot : rootCapacity = 2 ^ 63 - 1 := rfl
  have hpos : 0 < valueAt r.nextFree sp := Nat.zero_lt_of_lt hlabel.start_lt_free
  have hinterval : (r.registerLeaf t sp).intervals.lookup sp = some (r.start sp, r.stop sp) :=
    lookup_eq_some_valueAt hlabel.mem
  have hfree : (r.registerLeaf t sp).nextFree.lookup sp = some (valueAt r.nextFree sp) :=
    lookup_of_pos hpos
  rw [allocateChecked, hinterval]
  simp only [Option.bind_eq_bind, Option.bind_some, hfree]
  by_cases hroom : valueAt r.nextFree sp ≤ r.stop sp
  · have hhalf := Nat.div_le_self (r.stop sp - valueAt r.nextFree sp) 2
    rw [if_pos hroom, sub64_of_le hroom, Option.bind_some, add64_of_lt (by omega),
      Option.bind_some, add64_of_lt (by omega), Option.bind_some, add64_of_lt (by omega),
      Option.bind_some]
    exact congrArg some (if_pos hroom).symm
  · rw [if_neg hroom, r.allocate_of_full hroom]
    exact h.reindexChecked_eq hleaf hcap

/-- On a labelled oracle with room for one more block `add_block` runs through, and
computes what it computes on numbers without a bound. -/
theorem Labelled.addBlockChecked_eq (h : Labelled tp V root r) (hleaf : LeafAdded tp tp' V t sp)
    (hcap : V.card + 1 ≤ rootCapacity) (mergeset : List BlockId) :
    r.addBlockChecked t sp mergeset = some (r.addBlock t sp mergeset) := by
  rw [addBlockChecked, h.registerLeafChecked_eq hleaf hcap, Option.bind_eq_bind,
    Option.bind_some, h.allocateChecked_eq hleaf hcap]
  rfl

end AddBlock

end Reachability

/-! ## Labels after an insert -/

namespace DagView

/-- The labels are an exact labelling of the selected-parent tree: interval containment is tree
ancestry, intervals of unrelated blocks are disjoint, and all fit in the root's. -/
structure ExactLabels (d : DagView) : Prop where
  labelled : ∀ x ∈ d.nodes,
    x ∈ d.reach.intervals ∧ x ∈ d.reach.nextFree ∧ x ∈ d.reach.subtreeSize
  child : ∀ x c, d.selectedParentOf c = some x →
    d.reach.start x + 1 ≤ d.reach.start c ∧ d.reach.start c ≤ d.reach.stop c ∧
      d.reach.stop c ≤ valueAt d.reach.nextFree x - 1
  disjoint : ∀ x c c', d.selectedParentOf c = some x → d.selectedParentOf c' = some x → c ≠ c' →
    d.reach.stop c < d.reach.start c' ∨ d.reach.stop c' < d.reach.start c
  free_le : ∀ x ∈ d.nodes, valueAt d.reach.nextFree x ≤ d.reach.stop x + 1
  size_eq : ∀ x ∈ d.nodes,
    valueAt d.reach.subtreeSize x = (subtree d.selectedParentOf d.nodes.keys x).card
  contains_iff : ∀ x ∈ d.nodes, ∀ y ∈ d.nodes,
    (d.reach.start x ≤ d.reach.start y ∧ d.reach.start y ≤ d.reach.stop x) ↔
      x = y ∨ TransGen (TreeEdge d.selectedParentOf) x y

/-- The new block `id` on `sp` leaves every old interval where it is, unless `sp` is out of
capacity; then only what is strictly below the anchor of the reindex may move, and the
anchor is at or above `sp`. -/
structure KeepsIntervals (d d' : DagView) (id sp : BlockId) : Prop where
  room : valueAt d.reach.nextFree sp ≤ d.reach.stop sp →
    ∀ x ∈ d.nodes, d'.reach.intervals.lookup x = d.reach.intervals.lookup x
  full : ¬ valueAt d.reach.nextFree sp ≤ d.reach.stop sp →
    ReflTransGen (TreeEdge d.selectedParentOf) (d.reach.anchorOf id sp) sp ∧
      ∀ x ∈ d.nodes, x = d.reach.anchorOf id sp ∨
          ¬ ReflTransGen (TreeEdge d.selectedParentOf) (d.reach.anchorOf id sp) x →
        d'.reach.intervals.lookup x = d.reach.intervals.lookup x

variable [Crypto]

theorem WellFormed.exactLabels {d : DagView} (h : d.WellFormed) : d.ExactLabels := by
  have hl := h.tracks.labelled
  have hlabel : ∀ x ∈ d.nodes, Reachability.LabelledAt d.selectedParentOf d.reach x := fun x hx =>
    hl.labelledAt x (Finmap.mem_keys.2 hx)
  have hedge : ∀ x c, d.selectedParentOf c = some x → x ∈ d.nodes ∧ c ∈ d.nodes := by
    intro x c hc
    obtain ⟨hx, hc⟩ := hl.tree.edge_mem x c hc
    exact ⟨Finmap.mem_keys.1 hx, Finmap.mem_keys.1 hc⟩
  refine ⟨?_, ?_, ?_, fun x hx => (hlabel x hx).free_le, ?_, ?_⟩
  · intro x hx
    have hfree : 0 < valueAt d.reach.nextFree x := Nat.zero_lt_of_lt (hlabel x hx).start_lt_free
    have hsize := hl.data.size_pos hl.tree (Finmap.mem_keys.2 hx)
    exact ⟨(hlabel x hx).mem,
      Finmap.mem_of_lookup_eq_some (Reachability.lookup_of_pos hfree),
      Finmap.mem_of_lookup_eq_some (Reachability.lookup_of_pos hsize)⟩
  · intro x c hc
    obtain ⟨hx, hcmem⟩ := hedge x c hc
    have hchild := (hlabel x hx).child c hc
    exact ⟨hchild.1, (hlabel c hcmem).start_le, Nat.le_sub_one_of_lt hchild.2⟩
  · exact fun x c c' hc hc' => (hlabel x (hedge x c hc).1).disjoint c c' hc hc'
  · exact fun x hx => hl.data.size_eq x (Finmap.mem_keys.2 hx)
  · intro x hx y hy
    rw [hl.intervalLabels.contains_iff hl.tree (Finmap.mem_keys.2 hx) (Finmap.mem_keys.2 hy),
      reflTransGen_iff_eq_or_transGen, eq_comm]

end DagView

namespace Dag

variable [Crypto]

/-- The intervals an insert leaves where they are. -/
theorem keepsIntervals_wire {ord : HashOrder} {d : Dag} {block : Block} {sp : BlockId}
    {g : GhostdagData} (h : Admits ord d block sp g) (hd : d.WellFormed) :
    d.KeepsIntervals (d.wire block sp g).toDagView block.id sp := by
  have hl := hd.tracks.labelled
  have hleaf := leafAdded_wire h
  have hcap : d.nodes.keys.card + 1 ≤ rootCapacity := le_of_lt h.room
  have hne : ∀ x ∈ d.nodes, x ≠ block.id := fun x hx heq => h.fresh (heq ▸ hx)
  have hintervals : (d.wire block sp g).reach.intervals =
      ((d.reach.registerLeaf block.id sp).allocate block.id sp).intervals :=
    d.reach.addBlock_intervals block.id sp _
  constructor
  · intro hroom x hx
    rw [hintervals, d.reach.allocate_kept hroom (hne x hx)]
  · intro hfull
    have hreach := (hl.anchor_spec hleaf hcap).1
    have hkept := (hl.allocate_reindex hleaf hcap hfull).2
    have hat := (hleaf.mem_of_above hl.tree hreach).1
    have hsp := hne sp (Finmap.mem_keys.1 hleaf.parent_mem)
    have hiff : ∀ x ∈ d.nodes, ReflTransGen (TreeEdge (d.wire block sp g).selectedParentOf)
        (d.reach.anchorOf block.id sp) x ↔
          ReflTransGen (TreeEdge d.selectedParentOf) (d.reach.anchorOf block.id sp) x := by
      intro x hx
      rw [hleaf.reaches_iff hl.tree hat, if_neg (hne x hx)]
    refine ⟨(hiff sp (Finmap.mem_keys.1 hleaf.parent_mem)).1 hreach, fun x hx hor => ?_⟩
    rw [hintervals, hkept x (hne x hx) (hor.imp_right fun hnot hax => hnot ((hiff x hx).1 hax))]

/-- After every accepted insert the labels are exact, and a machine with 64-bit words
computes them: its loops end, no sum or difference leaves the range, and what is outside the
subtree it lays out again stays where it is. -/
theorem labels_exact {d d' : Dag} (h : Reachable d) {ord : HashOrder} {block : Block}
    {id : BlockId} (hinsert : d.insert ord block = .ok (id, d')) :
    d'.ExactLabels ∧ ∃ sp, d'.selectedParentOf id = some sp ∧
      d.KeepsIntervals d'.toDagView id sp ∧
      d.reach.addBlockChecked id sp ((d'.node id).ghostdag.mergesetBlues ++
        (d'.node id).ghostdag.mergesetReds) = some d'.reach := by
  have hd := h.wellFormed
  obtain ⟨sp, g, hadmits, heq⟩ := insert_eq_ok_iff.1 hinsert
  obtain ⟨rfl, rfl⟩ := Prod.mk.inj heq
  have hchecked := hd.tracks.labelled.addBlockChecked_eq (leafAdded_wire hadmits)
    (le_of_lt hadmits.room)
  refine ⟨(wellFormed_wire hadmits hd).exactLabels, sp, (leafAdded_wire hadmits).new,
    keepsIntervals_wire hadmits hd, ?_⟩
  rw [DagView.node_of_lookup lookup_wire_self]
  exact hchecked _

end Dag

namespace Dag

open scoped Reference

/-- The labels after a merge. -/
theorem labels_exact_merge : ∃ d d' : Dag, ∃ id, d.insert .sorted Reference.merge = .ok (id, d') ∧
    d'.ExactLabels := by
  have hplay : ((Dag.new .sorted 1 Reference.genesis).insertAll .sorted
      [Reference.left, Reference.right]).any (fun d =>
        (d.insert .sorted Reference.merge).toOption.isSome) = true := by
    decide +kernel
  obtain ⟨d, hd, hsome⟩ := Option.any_eq_true _ _ |>.1 hplay
  obtain ⟨⟨id, d'⟩, hinsert⟩ := Option.isSome_iff_exists.1 hsome
  have hreach : Reachable d := ⟨.sorted, 1, 1, 0, 0, Reference.noTxs.payload, _,
    Run.start.insertAll hd⟩
  have hok := ok_of_toOption hinsert
  exact ⟨d, d', id, hok, (labels_exact hreach hok).1⟩

end Dag

end Kovanica
