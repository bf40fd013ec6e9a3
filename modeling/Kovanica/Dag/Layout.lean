import Kovanica.Dag.Reachability
import Kovanica.Lib.IntervalTree

/-!
# Laying out a subtree

What `relayoutSubtree` does to the labels: inside the subtree every vertex gets
the slice its parent cuts for it, outside nothing moves.  `LabelledAt` is what is
asked at one vertex, and `labelledAt_relayout` says that a relayout in an
interval with room for the subtree establishes it inside and keeps it outside.

## Main results

* `slice_bounds`, `freePoint_le`: every slice has room for its subtree, and the last one ends
  inside the interval.
* `relayoutLoop_spec`: the loop lays out the subtrees on its stack and no others.
* `lookup_relayout`: the anchor and all that is outside of its subtree keep their intervals.
* `relayout_ordered`: siblings come out in the order of the list of children.
-/

namespace Kovanica

open Lib Relation

namespace Reachability

/-! ## Slices -/

/-- The points a child is given: its subtree size and a share of the slack. -/
def span (size : BlockId → Nat) (slack total : Nat) (child : BlockId) : Nat :=
  size child + slack * size child / total

/-- The slices of `sliceChildren`, in the order of the children. -/
def slices (size : BlockId → Nat) (slack total : Nat) :
    List BlockId → Nat → List (BlockId × Nat × Nat)
  | [], _ => []
  | child :: rest, cursor =>
      (child, cursor, cursor + (span size slack total child - 1)) ::
        slices size slack total rest (cursor + (span size slack total child - 1) + 1)

/-- The first point after the slices. -/
def slicesEnd (size : BlockId → Nat) (slack total : Nat) : List BlockId → Nat → Nat
  | [], cursor => cursor
  | child :: rest, cursor =>
      slicesEnd size slack total rest (cursor + (span size slack total child - 1) + 1)

theorem sliceChildren_eq (size : BlockId → Nat) (slack total : Nat) (children : List BlockId)
    (cursor : Nat) (stack : List (BlockId × Nat × Nat)) :
    sliceChildren size slack total children cursor stack =
      ((slices size slack total children cursor).reverse ++ stack,
        slicesEnd size slack total children cursor) := by
  induction children generalizing cursor stack with
  | nil => rfl
  | cons child rest ih =>
      simp only [sliceChildren, slices, slicesEnd, List.reverse_cons, List.append_assoc,
        List.singleton_append]
      exact ih _ _

section Slices

variable (size : BlockId → Nat) (slack total : Nat)

theorem slices_map_fst (children : List BlockId) (cursor : Nat) :
    (slices size slack total children cursor).map Prod.fst = children := by
  induction children generalizing cursor with
  | nil => rfl
  | cons child rest ih => simp only [slices, List.map_cons, ih]

/-- The slices are for subtrees of the same sizes as the children's. -/
theorem sum_slices (children : List BlockId) (cursor : Nat) :
    ((slices size slack total children cursor).map fun e => size e.1).sum =
      (children.map size).sum := by
  have hfst := congrArg (List.map size) (slices_map_fst size slack total children cursor)
  rw [List.map_map] at hfst
  exact congrArg List.sum hfst

theorem exists_slice {children : List BlockId} {c : BlockId} (hc : c ∈ children)
    (cursor : Nat) : ∃ e ∈ slices size slack total children cursor, e.1 = c := by
  rw [← slices_map_fst size slack total children cursor] at hc
  exact List.mem_map.1 hc

variable {children : List BlockId} (hpos : ∀ c ∈ children, 0 < size c)

include hpos

theorem le_slicesEnd (cursor : Nat) : cursor ≤ slicesEnd size slack total children cursor := by
  induction children generalizing cursor with
  | nil => exact le_refl _
  | cons child rest ih =>
      have h := ih (fun c hc => hpos c (List.mem_cons_of_mem _ hc))
        (cursor + (span size slack total child - 1) + 1)
      simp only [slicesEnd]
      omega

/-- A slice starts at or after the cursor, has room for its subtree and ends
before the end. -/
theorem slice_bounds (cursor : Nat) {e : BlockId × Nat × Nat}
    (he : e ∈ slices size slack total children cursor) :
    cursor ≤ e.2.1 ∧ e.2.1 + size e.1 ≤ e.2.2 + 1 ∧ e.2.1 ≤ e.2.2 ∧
      e.2.2 < slicesEnd size slack total children cursor := by
  induction children generalizing cursor with
  | nil => cases he
  | cons child rest ih =>
      have hrest : ∀ c ∈ rest, 0 < size c := fun c hc => hpos c (List.mem_cons_of_mem _ hc)
      simp only [slices, List.mem_cons] at he
      simp only [slicesEnd]
      rcases he with rfl | he
      · have hchild := hpos child (List.mem_cons_self ..)
        have hend := le_slicesEnd size slack total hrest
          (cursor + (span size slack total child - 1) + 1)
        have hspan : size child ≤ span size slack total child := Nat.le_add_right _ _
        dsimp only
        omega
      · have h := ih hrest _ he
        omega

theorem slices_pairwise (cursor : Nat) :
    (slices size slack total children cursor).Pairwise fun a b => a.2.2 < b.2.1 := by
  induction children generalizing cursor with
  | nil => exact .nil
  | cons child rest ih =>
      have hrest : ∀ c ∈ rest, 0 < size c := fun c hc => hpos c (List.mem_cons_of_mem _ hc)
      refine List.Pairwise.cons ?_ (ih hrest _)
      intro e he
      have h := slice_bounds size slack total hrest _ he
      dsimp only
      omega

/-- The shares of the slack add up to at most the slack. -/
theorem slicesEnd_le (cursor : Nat) :
    slicesEnd size slack total children cursor ≤
      cursor + (children.map size).sum + slack * (children.map size).sum / total := by
  induction children generalizing cursor with
  | nil => exact Nat.le_add_right _ _
  | cons child rest ih =>
      have hrest : ∀ c ∈ rest, 0 < size c := fun c hc => hpos c (List.mem_cons_of_mem _ hc)
      have hchild := hpos child (List.mem_cons_self ..)
      have h := ih hrest (cursor + (span size slack total child - 1) + 1)
      have hdiv : slack * size child / total + slack * (rest.map size).sum / total ≤
          (slack * size child + slack * (rest.map size).sum) / total :=
        Nat.div_add_div_le_add_div
      simp only [slicesEnd, List.map_cons, List.sum_cons, Nat.mul_add, span] at h ⊢
      generalize slack * size child / total = share at h hdiv ⊢
      generalize slack * (rest.map size).sum / total = shares at h hdiv ⊢
      omega

end Slices

/-! ## The loop -/

section Loop

variable {tp : BlockId → Option BlockId} {V : Finset BlockId} {root : BlockId}
  {children : BlockId → List BlockId} {size : BlockId → Nat}

/-- The slices a vertex with the interval `[lo, hi]` cuts for its children, one behind the other
and behind the point the vertex keeps for itself. -/
def childSlices (children : BlockId → List BlockId) (size : BlockId → Nat) (x : BlockId)
    (lo hi : Nat) : List (BlockId × Nat × Nat) :=
  slices size (hi - lo - (size x - 1)) (size x - 1) (children x) (lo + 1)

/-- The free point of a vertex laid out in `[lo, hi]`. -/
def freePoint (children : BlockId → List BlockId) (size : BlockId → Nat) (x : BlockId)
    (lo hi : Nat) : Nat :=
  slicesEnd size (hi - lo - (size x - 1)) (size x - 1) (children x) (lo + 1)

/-- `x` has been laid out in `[lo, hi]`, and its children in its slices, so that its labels are
those the layout gives and its children have their own intervals. -/
structure LaidOut (children : BlockId → List BlockId) (size : BlockId → Nat)
    (intervals : Finmap fun _ : BlockId => Nat × Nat) (nextFree : Finmap fun _ : BlockId => Nat)
    (x : BlockId) (lo hi : Nat) : Prop where
  interval : intervals.lookup x = some (lo, hi)
  free : nextFree.lookup x = some (freePoint children size x lo hi)
  child : ∀ e ∈ childSlices children size x lo hi, intervals.lookup e.1 = some e.2

/-- The children and sizes a layout works with are those of the tree.  Of the tree itself a layout
needs nothing else. -/
structure TreeData (tp : BlockId → Option BlockId) (V : Finset BlockId)
    (children : BlockId → List BlockId) (size : BlockId → Nat) : Prop where
  nodup : ∀ x ∈ V, (children x).Nodup
  mem_iff : ∀ x ∈ V, ∀ c, c ∈ children x ↔ tp c = some x
  size_eq : ∀ x ∈ V, size x = (subtree tp V x).card

namespace TreeData

theorem size_pos (h : TreeData tp V children size) (htree : RootedTree tp V root) {x : BlockId}
    (hx : x ∈ V) : 0 < size x := by
  rw [h.size_eq x hx]
  exact htree.card_subtree_pos hx

theorem child_mem (h : TreeData tp V children size) (htree : RootedTree tp V root) {x c : BlockId}
    (hx : x ∈ V) (hc : c ∈ children x) : c ∈ V :=
  (htree.edge_mem x c ((h.mem_iff x hx c).1 hc)).2

theorem size_children (h : TreeData tp V children size) (htree : RootedTree tp V root)
    {x : BlockId} (hx : x ∈ V) : size x = 1 + ((children x).map size).sum := by
  have hmap : (children x).map size = (children x).map fun c => (subtree tp V c).card :=
    List.map_congr_left fun c hc => h.size_eq c (h.child_mem htree hx hc)
  rw [h.size_eq x hx, hmap]
  exact htree.card_subtree hx (h.nodup x hx) (h.mem_iff x hx)

theorem children_pos (h : TreeData tp V children size) (htree : RootedTree tp V root)
    {x : BlockId} (hx : x ∈ V) : ∀ c ∈ children x, 0 < size c :=
  fun _ hc => h.size_pos htree (h.child_mem htree hx hc)

/-- The slices cut at a vertex are for its children. -/
theorem mem_slices (h : TreeData tp V children size) (htree : RootedTree tp V root) {x : BlockId}
    (hx : x ∈ V) {slack total cursor : Nat} {e : BlockId × Nat × Nat}
    (he : e ∈ slices size slack total (children x) cursor) : e.1 ∈ V ∧ tp e.1 = some x := by
  have hmem := List.mem_map_of_mem (f := Prod.fst) he
  rw [slices_map_fst] at hmem
  exact ⟨h.child_mem htree hx hmem, (h.mem_iff x hx e.1).1 hmem⟩

/-- With room for the subtree the slices end inside the interval. -/
theorem freePoint_le (h : TreeData tp V children size) (htree : RootedTree tp V root)
    {x : BlockId} (hx : x ∈ V) {lo hi : Nat} (hroom : lo + size x ≤ hi + 1) :
    freePoint children size x lo hi ≤ hi + 1 := by
  have hsize := h.size_children htree hx
  have hend := slicesEnd_le size (hi - lo - (size x - 1)) (size x - 1) (h.children_pos htree hx)
    (lo + 1)
  have htotal : ((children x).map size).sum = size x - 1 := by omega
  rw [htotal] at hend
  have hshare : (hi - lo - (size x - 1)) * (size x - 1) / (size x - 1) ≤
      hi - lo - (size x - 1) := Nat.div_le_of_le_mul (le_of_eq (Nat.mul_comm _ _))
  rw [freePoint]
  omega

end TreeData

/-- Replacing the top of the stack by its children keeps the pending subtrees
apart. -/
private theorem pairwise_push (hdata : TreeData tp V children size)
    (htree : RootedTree tp V root) {n : BlockId} (hn : n ∈ V) {lo hi : Nat}
    {stack : List (BlockId × Nat × Nat)}
    (happ : ((n, lo, hi) :: stack).Pairwise fun a b => Unrelated tp a.1 b.1) :
    ((childSlices children size n lo hi).reverse ++ stack).Pairwise
      fun a b => Unrelated tp a.1 b.1 := by
  obtain ⟨hhead, hstack⟩ := List.pairwise_cons.1 happ
  have hchild : ∀ e ∈ childSlices children size n lo hi, tp e.1 = some n :=
    fun e he => (hdata.mem_slices htree hn he).2
  rw [List.pairwise_append]
  refine ⟨?_, hstack, ?_⟩
  · have hnodup : (childSlices children size n lo hi).Pairwise fun a b => a.1 ≠ b.1 := by
      rw [← List.pairwise_map, childSlices, slices_map_fst]
      exact hdata.nodup n hn
    rw [List.pairwise_reverse]
    refine hnodup.imp_of_mem ?_
    intro a b ha hb hab
    constructor
    · exact fun hba => hab (child_subtrees_disjoint htree.acyclic (hchild a ha) (hchild b hb)
        .refl hba)
    · exact fun hab' => hab (child_subtrees_disjoint htree.acyclic (hchild a ha) (hchild b hb)
        hab' .refl)
  · intro a ha b hb
    have hna := hchild a (List.mem_reverse.1 ha)
    have hnb := hhead b hb
    constructor
    · exact fun hab => hnb.1 (.head hna hab)
    · intro hba
      rcases tree_ancestors_total hba (ReflTransGen.single hna) with h | h
      · exact hnb.2 h
      · exact hnb.1 h

/-- One round of the loop.  A leaf has no slices, so both branches of the loop push the slices of
the vertex. -/
theorem relayoutLoop_cons (hdata : TreeData tp V children size) (htree : RootedTree tp V root)
    (fuel : Nat) {n : BlockId} (hn : n ∈ V) (lo hi : Nat) (stack : List (BlockId × Nat × Nat))
    (intervals : Finmap fun _ : BlockId => Nat × Nat)
    (nextFree : Finmap fun _ : BlockId => Nat) :
    relayoutLoop children size (fuel + 1) ((n, lo, hi) :: stack) intervals nextFree =
      relayoutLoop children size fuel ((childSlices children size n lo hi).reverse ++ stack)
        (intervals.insert n (lo, hi)) (nextFree.insert n (freePoint children size n lo hi)) := by
  simp only [relayoutLoop]
  split
  · have hnil : children n = [] := by
      cases hch : children n with
      | nil => rfl
      | cons c rest =>
          have hsize := hdata.size_children htree hn
          have hc := hdata.children_pos htree hn c (by rw [hch]; exact .head _)
          rw [hch, List.map_cons, List.sum_cons] at hsize
          omega
    simp only [childSlices, freePoint, hnil, slices, slicesEnd, List.reverse_nil, List.nil_append]
  · rw [sliceChildren_eq]
    rfl

/-- The loop lays out exactly the subtrees on its stack. -/
theorem relayoutLoop_spec (hdata : TreeData tp V children size) (htree : RootedTree tp V root)
    (fuel : Nat) (stack : List (BlockId × Nat × Nat))
    (intervals : Finmap fun _ : BlockId => Nat × Nat) (nextFree : Finmap fun _ : BlockId => Nat)
    (hmem : ∀ e ∈ stack, e.1 ∈ V)
    (happ : stack.Pairwise fun a b => Unrelated tp a.1 b.1)
    (hfuel : (stack.map fun e => size e.1).sum ≤ fuel) :
    (∀ x, (∀ e ∈ stack, ¬ ReflTransGen (TreeEdge tp) e.1 x) →
      (relayoutLoop children size fuel stack intervals nextFree).1.lookup x = intervals.lookup x ∧
      (relayoutLoop children size fuel stack intervals nextFree).2.lookup x =
        nextFree.lookup x) ∧
    (∀ e ∈ stack,
      (relayoutLoop children size fuel stack intervals nextFree).1.lookup e.1 = some e.2) ∧
    ∀ e ∈ stack, ∀ x, ReflTransGen (TreeEdge tp) e.1 x →
      ∃ lo hi, LaidOut children size
        (relayoutLoop children size fuel stack intervals nextFree).1
        (relayoutLoop children size fuel stack intervals nextFree).2 x lo hi := by
  induction fuel generalizing stack intervals nextFree with
  | zero =>
      cases stack with
      | nil => simp [relayoutLoop]
      | cons e stack =>
          have hpos := hdata.size_pos htree (hmem e (List.mem_cons_self ..))
          simp only [List.map_cons, List.sum_cons] at hfuel
          omega
  | succ fuel ih =>
      cases stack with
      | nil => simp [relayoutLoop]
      | cons e stack =>
          obtain ⟨n, lo, hi⟩ := e
          have hn : n ∈ V := hmem (n, lo, hi) (List.mem_cons_self ..)
          have hsize := hdata.size_children htree hn
          have hstep := relayoutLoop_cons hdata htree fuel hn lo hi stack intervals nextFree
          have hchildV : ∀ c ∈ childSlices children size n lo hi, c.1 ∈ V ∧ tp c.1 = some n :=
            fun c hc => hdata.mem_slices htree hn hc
          obtain ⟨hframe, htop, hlaid⟩ := ih
            ((childSlices children size n lo hi).reverse ++ stack)
            (intervals.insert n (lo, hi)) (nextFree.insert n (freePoint children size n lo hi))
            (by
              intro c hc
              rcases List.mem_append.1 hc with hc | hc
              · exact (hchildV c (List.mem_reverse.1 hc)).1
              · exact hmem c (List.mem_cons_of_mem _ hc))
            (pairwise_push hdata htree hn happ)
            (by
              rw [List.map_append, List.sum_append, List.map_reverse, List.sum_reverse, childSlices,
                sum_slices]
              simp only [List.map_cons, List.sum_cons] at hfuel
              omega)
          rw [← hstep] at hframe htop hlaid
          have happ' := List.pairwise_cons.1 happ
          -- nothing pending after the step is above `n`
          have hnframe := hframe n (by
            intro c hc
            rcases List.mem_append.1 hc with hc | hc
            · have hcn := (hchildV c (List.mem_reverse.1 hc)).2
              exact fun h => htree.acyclic n (TransGen.head' hcn h)
            · exact (happ'.1 c hc).2)
          rw [Finmap.lookup_insert, Finmap.lookup_insert] at hnframe
          refine ⟨?_, ?_, ?_⟩
          · intro x hx
            have hxn : x ≠ n := by
              rintro rfl
              exact hx _ (List.mem_cons_self ..) .refl
            have h := hframe x (by
              intro c hc
              rcases List.mem_append.1 hc with hc | hc
              · intro hcx
                exact hx _ (List.mem_cons_self ..) (.head (hchildV c (List.mem_reverse.1 hc)).2 hcx)
              · exact hx c (List.mem_cons_of_mem _ hc))
            rwa [Finmap.lookup_insert_of_ne _ hxn, Finmap.lookup_insert_of_ne _ hxn] at h
          · intro e he
            rcases List.mem_cons.1 he with rfl | he
            · exact hnframe.1
            · exact htop e (List.mem_append_right _ he)
          · intro e he x hx
            rcases List.mem_cons.1 he with rfl | he
            · rcases reflTransGen_iff_eq_or_transGen.1 hx with heq | hlt
              · rw [heq]
                exact ⟨lo, hi, hnframe.1, hnframe.2, fun c hc =>
                  htop c (List.mem_append_left _ (List.mem_reverse.2 hc))⟩
              · obtain ⟨c, hc, hcx⟩ := exists_child_of_transGen hlt
                obtain ⟨s, hs, rfl⟩ := exists_slice size (hi - lo - (size n - 1)) (size n - 1)
                  ((hdata.mem_iff n hn c).2 hc) (lo + 1)
                exact hlaid s (List.mem_append_left _ (List.mem_reverse.2 hs)) x hcx
            · exact hlaid e (List.mem_append_right _ he) x hx

end Loop

/-! ## Local label conditions -/

/-- What holds of the labels at one vertex: its own interval and free point, and
its children's intervals, apart from each other, between its point and its free
point. -/
structure LabelledAt (tp : BlockId → Option BlockId) (r : Reachability) (x : BlockId) : Prop where
  mem : x ∈ r.intervals
  start_le : r.start x ≤ r.stop x
  start_lt_free : r.start x < valueAt r.nextFree x
  free_le : valueAt r.nextFree x ≤ r.stop x + 1
  child : ∀ c, tp c = some x → r.start x < r.start c ∧ r.stop c < valueAt r.nextFree x
  disjoint : ∀ c d, tp c = some x → tp d = some x → c ≠ d →
    r.stop c < r.start d ∨ r.stop d < r.start c

/-- The conditions at a vertex only read its own labels and its children's. -/
theorem LabelledAt.congr {tp tp' : BlockId → Option BlockId} {r r' : Reachability} {x : BlockId}
    (h : LabelledAt tp r x) (hx : r'.intervals.lookup x = r.intervals.lookup x)
    (hfree : valueAt r'.nextFree x = valueAt r.nextFree x)
    (hchild : ∀ c, tp' c = some x →
      tp c = some x ∧ r'.start c = r.start c ∧ r'.stop c = r.stop c) : LabelledAt tp' r' x := by
  have hstart : r'.start x = r.start x := by rw [start, start, valueAt, valueAt, hx]
  have hstop : r'.stop x = r.stop x := by rw [stop, stop, valueAt, valueAt, hx]
  refine ⟨?_, ?_, ?_, ?_, ?_, ?_⟩
  · rw [← Finmap.lookup_isSome, hx, Finmap.lookup_isSome]
    exact h.mem
  · rw [hstart, hstop]
    exact h.start_le
  · rw [hstart, hfree]
    exact h.start_lt_free
  · rw [hstop, hfree]
    exact h.free_le
  · intro c hc
    obtain ⟨hc', hcstart, hcstop⟩ := hchild c hc
    rw [hstart, hfree, hcstart, hcstop]
    exact h.child c hc'
  · intro c d hc hd hcd
    obtain ⟨hc', hcstart, hcstop⟩ := hchild c hc
    obtain ⟨hd', hdstart, hdstop⟩ := hchild d hd
    rw [hcstart, hcstop, hdstart, hdstop]
    exact h.disjoint c d hc' hd' hcd

/-- The local conditions at every vertex are those of an interval labelling. -/
theorem intervalLabels_of_labelledAt {tp : BlockId → Option BlockId} {V : Finset BlockId}
    {root : BlockId} {r : Reachability} (htree : RootedTree tp V root)
    (h : ∀ x ∈ V, LabelledAt tp r x) : IntervalLabels tp r.start r.stop V where
  nonempty := fun x hx => (h x hx).start_le
  inside := by
    intro x c hc
    have hx := h x (htree.edge_mem x c hc).1
    have hchild := hx.child c hc
    have hfree := hx.free_le
    omega
  disjoint := fun x c d hc hd hcd => (h x (htree.edge_mem x c hc).1).disjoint c d hc hd hcd

section Relayout

variable {tp : BlockId → Option BlockId} {V : Finset BlockId} {root : BlockId}
  {r : Reachability}

theorem start_of_lookup {r : Reachability} {x : BlockId} {lo hi : Nat}
    (h : r.intervals.lookup x = some (lo, hi)) : r.start x = lo := by
  rw [start, valueAt_of_lookup h]

theorem stop_of_lookup {r : Reachability} {x : BlockId} {lo hi : Nat}
    (h : r.intervals.lookup x = some (lo, hi)) : r.stop x = hi := by
  rw [stop, valueAt_of_lookup h]

theorem start_congr {r r' : Reachability} {x : BlockId}
    (h : r'.intervals.lookup x = r.intervals.lookup x) : r'.start x = r.start x := by
  rw [start, start, valueAt, valueAt, h]

theorem stop_congr {r r' : Reachability} {x : BlockId}
    (h : r'.intervals.lookup x = r.intervals.lookup x) : r'.stop x = r.stop x := by
  rw [stop, stop, valueAt, valueAt, h]

/-- A laid-out vertex with room for its subtree meets the local conditions, and
so have its children room for theirs. -/
private theorem LaidOut.labelledAt {children : BlockId → List BlockId} {size : BlockId → Nat}
    (hdata : TreeData tp V children size) (htree : RootedTree tp V root) {x : BlockId}
    (hx : x ∈ V) {lo hi : Nat} (h : LaidOut children size r.intervals r.nextFree x lo hi)
    (hroom : lo + size x ≤ hi + 1) :
    LabelledAt tp r x ∧ ∀ c, tp c = some x → r.start c + size c ≤ r.stop c + 1 := by
  have hpos := hdata.children_pos htree hx
  have hsize := hdata.size_children htree hx
  have hstart := start_of_lookup h.interval
  have hstop := stop_of_lookup h.interval
  have hfree : valueAt r.nextFree x = freePoint children size x lo hi := valueAt_of_lookup h.free
  have hslice : ∀ c, tp c = some x → ∃ e ∈ childSlices children size x lo hi, e.1 = c ∧
      r.start c = e.2.1 ∧ r.stop c = e.2.2 := by
    intro c hc
    obtain ⟨e, he, rfl⟩ := exists_slice size (hi - lo - (size x - 1)) (size x - 1)
      ((hdata.mem_iff x hx c).2 hc) (lo + 1)
    exact ⟨e, he, rfl, start_of_lookup (h.child e he), stop_of_lookup (h.child e he)⟩
  have hfreeLo : lo + 1 ≤ freePoint children size x lo hi := le_slicesEnd _ _ _ hpos _
  have hfreeHi := hdata.freePoint_le htree hx hroom
  refine ⟨⟨?_, ?_, ?_, ?_, ?_, ?_⟩, ?_⟩
  · exact Finmap.mem_of_lookup_eq_some h.interval
  · omega
  · omega
  · omega
  · intro c hc
    obtain ⟨e, he, _, hlo, hhi⟩ := hslice c hc
    have hb := slice_bounds _ _ _ hpos _ he
    rw [hstart, hlo, hhi, hfree, freePoint]
    omega
  · intro c d hc hd hcd
    obtain ⟨e, he, rfl, hlo, hhi⟩ := hslice c hc
    obtain ⟨e', he', rfl, hlo', hhi'⟩ := hslice d hd
    rw [hlo, hhi, hlo', hhi']
    have hpw : (childSlices children size x lo hi).Pairwise
        fun a b => a.2.2 < b.2.1 ∨ b.2.2 < a.2.1 :=
      (slices_pairwise _ _ _ hpos _).imp fun hab => .inl hab
    have hsymm : Std.Symm fun a b : BlockId × Nat × Nat => a.2.2 < b.2.1 ∨ b.2.2 < a.2.1 :=
      ⟨fun _ _ hab => hab.symm⟩
    exact hpw.forall he he' fun heq => hcd (congrArg Prod.fst heq)
  · intro c hc
    obtain ⟨e, he, rfl, hlo, hhi⟩ := hslice c hc
    have hb := slice_bounds _ _ _ hpos _ he
    rw [hlo, hhi]
    omega

/-- The loop's specification for a relayout of one subtree. -/
private theorem relayout_spec (htree : RootedTree tp V root)
    (hdata : TreeData tp V (valueAt r.treeChildren) (valueAt r.subtreeSize))
    (hsize : V.card ≤ r.size) {anchor : BlockId} (hanchor : anchor ∈ V) (lo hi : Nat) :
    (∀ x, ¬ ReflTransGen (TreeEdge tp) anchor x →
      (r.relayoutSubtree anchor lo hi).intervals.lookup x = r.intervals.lookup x ∧
      (r.relayoutSubtree anchor lo hi).nextFree.lookup x = r.nextFree.lookup x) ∧
    (r.relayoutSubtree anchor lo hi).intervals.lookup anchor = some (lo, hi) ∧
    ∀ x, ReflTransGen (TreeEdge tp) anchor x →
      ∃ l h, LaidOut (valueAt r.treeChildren) (valueAt r.subtreeSize)
        (r.relayoutSubtree anchor lo hi).intervals (r.relayoutSubtree anchor lo hi).nextFree
        x l h := by
  obtain ⟨hframe, htop, hlaid⟩ := relayoutLoop_spec hdata htree r.size [(anchor, lo, hi)]
    r.intervals r.nextFree (by simpa using hanchor) (List.pairwise_singleton _ _)
    (by
      rw [List.map_singleton, List.sum_singleton, hdata.size_eq anchor hanchor]
      exact le_trans (RootedTree.card_subtree_le tp V anchor) hsize)
  simp only [List.mem_singleton, forall_eq] at hframe htop hlaid
  exact ⟨hframe, htop, hlaid⟩

/-- The anchor and everything outside its subtree keep their intervals. -/
theorem lookup_relayout (htree : RootedTree tp V root)
    (hdata : TreeData tp V (valueAt r.treeChildren) (valueAt r.subtreeSize))
    (hsize : V.card ≤ r.size) {anchor x : BlockId} (hanchor : anchor ∈ V)
    (hmem : anchor ∈ r.intervals)
    (hx : x = anchor ∨ ¬ ReflTransGen (TreeEdge tp) anchor x) :
    (r.relayoutSubtree anchor (r.start anchor) (r.stop anchor)).intervals.lookup x =
      r.intervals.lookup x := by
  obtain ⟨hframe, htop, _⟩ := relayout_spec htree hdata hsize hanchor (r.start anchor)
    (r.stop anchor)
  rcases hx with rfl | hx
  · rw [htop, lookup_eq_some_valueAt hmem]
    rfl
  · exact (hframe x hx).1

/-- A relayout in an interval with room for the subtree establishes the local
conditions inside: the room is handed down from the anchor. -/
theorem labelledAt_relayout_inside (htree : RootedTree tp V root)
    (hdata : TreeData tp V (valueAt r.treeChildren) (valueAt r.subtreeSize))
    (hsize : V.card ≤ r.size) {anchor : BlockId} (hanchor : anchor ∈ V) {lo hi : Nat}
    (hroom : lo + valueAt r.subtreeSize anchor ≤ hi + 1) {x : BlockId} (hx : x ∈ V)
    (hax : ReflTransGen (TreeEdge tp) anchor x) :
    LabelledAt tp (r.relayoutSubtree anchor lo hi) x ∧ ∀ c, tp c = some x →
      (r.relayoutSubtree anchor lo hi).start c + valueAt r.subtreeSize c ≤
        (r.relayoutSubtree anchor lo hi).stop c + 1 := by
  obtain ⟨_, htop, hlaid⟩ := relayout_spec htree hdata hsize hanchor lo hi
  induction hax with
  | refl =>
      obtain ⟨l, h, hself⟩ := hlaid anchor .refl
      have heq := Prod.mk.inj (Option.some.inj (hself.interval.symm.trans htop))
      refine LaidOut.labelledAt hdata htree hx hself ?_
      rw [heq.1, heq.2]
      exact hroom
  | @tail p y hap hpy ih =>
      obtain ⟨l, h, hself⟩ := hlaid y (hap.tail hpy)
      have hroomy := (ih (htree.edge_mem p y hpy).1).2 y hpy
      refine LaidOut.labelledAt hdata htree hx hself ?_
      rw [start_of_lookup hself.interval, stop_of_lookup hself.interval] at hroomy
      exact hroomy

/-- Inside, siblings are laid out in the order of the list of children. -/
theorem relayout_ordered (htree : RootedTree tp V root)
    (hdata : TreeData tp V (valueAt r.treeChildren) (valueAt r.subtreeSize))
    (hsize : V.card ≤ r.size) {anchor : BlockId} (hanchor : anchor ∈ V) (lo hi : Nat)
    {x : BlockId} (hx : x ∈ V) (hax : ReflTransGen (TreeEdge tp) anchor x) :
    (valueAt r.treeChildren x).Pairwise fun c c' =>
      (r.relayoutSubtree anchor lo hi).stop c < (r.relayoutSubtree anchor lo hi).start c' := by
  obtain ⟨_, _, hlaid⟩ := relayout_spec htree hdata hsize hanchor lo hi
  obtain ⟨l, h, hself⟩ := hlaid x hax
  have hpairwise := slices_pairwise (valueAt r.subtreeSize) (h - l - (valueAt r.subtreeSize x - 1))
    (valueAt r.subtreeSize x - 1) (hdata.children_pos htree hx) (l + 1)
  rw [← slices_map_fst (valueAt r.subtreeSize) (h - l - (valueAt r.subtreeSize x - 1))
    (valueAt r.subtreeSize x - 1) (valueAt r.treeChildren x) (l + 1), List.pairwise_map]
  refine hpairwise.imp_of_mem fun {e e'} he he' hlt => ?_
  rw [stop_of_lookup (hself.child e he), start_of_lookup (hself.child e' he')]
  exact hlt

/-- A relayout gives the anchor the whole interval. -/
theorem lookup_relayout_anchor (htree : RootedTree tp V root)
    (hdata : TreeData tp V (valueAt r.treeChildren) (valueAt r.subtreeSize))
    (hsize : V.card ≤ r.size) {anchor : BlockId} (hanchor : anchor ∈ V) (lo hi : Nat) :
    (r.relayoutSubtree anchor lo hi).intervals.lookup anchor = some (lo, hi) :=
  (relayout_spec htree hdata hsize hanchor lo hi).2.1

/-- A relayout of the subtree of `anchor` in its own interval, which has room for
it, establishes the local conditions inside and keeps them outside. -/
theorem labelledAt_relayout (htree : RootedTree tp V root)
    (hdata : TreeData tp V (valueAt r.treeChildren) (valueAt r.subtreeSize))
    (hsize : V.card ≤ r.size) {anchor : BlockId} (hanchor : anchor ∈ V)
    (hmem : anchor ∈ r.intervals)
    (hroom : r.start anchor + valueAt r.subtreeSize anchor ≤ r.stop anchor + 1)
    (hout : ∀ x ∈ V, ¬ ReflTransGen (TreeEdge tp) anchor x → LabelledAt tp r x) :
    ∀ x ∈ V, LabelledAt tp
      (r.relayoutSubtree anchor (r.start anchor) (r.stop anchor)) x := by
  obtain ⟨hframe, _, _⟩ := relayout_spec htree hdata hsize hanchor (r.start anchor)
    (r.stop anchor)
  intro x hx
  by_cases hax : ReflTransGen (TreeEdge tp) anchor x
  · exact (labelledAt_relayout_inside htree hdata hsize hanchor hroom hx hax).1
  · refine (hout x hx hax).congr (hframe x hax).1 ?_ ?_
    · exact congrArg (fun o => Option.getD o default) (hframe x hax).2
    · intro c hc
      have hkeep := lookup_relayout htree hdata hsize hanchor hmem (x := c) (by
        by_cases hac : ReflTransGen (TreeEdge tp) anchor c
        · rcases reflTransGen_iff_eq_or_transGen.1 hac with heq | hlt
          · exact .inl heq
          · exact absurd ((transGen_treeEdge_iff hc).1 hlt) hax
        · exact .inr hac)
      refine ⟨hc, ?_, ?_⟩
      · exact start_congr hkeep
      · exact stop_congr hkeep

end Relayout

end Reachability

end Kovanica
