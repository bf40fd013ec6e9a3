import Kovanica.Dag.Layout

/-!
# The oracle tracks ancestry

`Tracks` is the invariant of the incrementally maintained oracle: its tree is
the selected-parent tree, the labels meet the local conditions, and covering
sets are sound and complete for an ancestry relation `anc`.  `Tracks.addBlock`
keeps it when a block is folded in, although only the covering sets of the
block's mergeset are touched.

## Main results

* `treeReaches_iff`, `Tracks.isAncestor_iff`: the two queries of an oracle that tracks
  ancestry answer it.
* `allocate_of_room`, `allocate_of_full`, `Labelled.anchor_spec`: where a leaf gets its
  interval, and what is laid out again where there is none left.
* `Tracks.addBlock`: the preservation step.
-/

namespace Kovanica

open Lib Relation

namespace Reachability

variable {tp tp' : BlockId → Option BlockId} {V : Finset BlockId} {root : BlockId}
  {r : Reachability} {anc anc' : BlockId → BlockId → Prop}

/-- The tree bookkeeping and the labels of an oracle over the blocks `V`.  Nothing in it mentions
covering sets, and a reindex is about this part alone. -/
structure Labelled (tp : BlockId → Option BlockId) (V : Finset BlockId) (root : BlockId)
    (r : Reachability) : Prop where
  tree : RootedTree tp V root
  parent : ∀ x, r.treeParent.lookup x = tp x
  children_keys : r.treeChildren.keys = V
  data : TreeData tp V (valueAt r.treeChildren) (valueAt r.subtreeSize)
  labelledAt : ∀ x ∈ V, LabelledAt tp r x
  root_start : r.start root = 1
  root_stop : r.stop root = rootCapacity

/-- The covering sets describe the ancestry `anc` outside the tree: their members are descendants,
and every descendant outside the subtree is below one of them. -/
structure Covers (tp : BlockId → Option BlockId) (V : Finset BlockId)
    (anc : BlockId → BlockId → Prop) (r : Reachability) : Prop where
  sound : ∀ a, ∀ c ∈ r.covers a, anc a c ∧ c ∈ V
  complete : ∀ a, ∀ b ∈ V, anc a b → ReflTransGen (TreeEdge tp) a b ∨
    ∃ c ∈ r.covers a, ReflTransGen (TreeEdge tp) c b
  tree : ∀ a b, TransGen (TreeEdge tp) a b → anc a b

/-- The oracle over the blocks `V` answers for the ancestry `anc`.  The relation is a parameter:
when a block is folded in, it grows together with the oracle. -/
structure Tracks (tp : BlockId → Option BlockId) (V : Finset BlockId) (root : BlockId)
    (anc : BlockId → BlockId → Prop) (r : Reachability) : Prop where
  labelled : Labelled tp V root r
  covers : Covers tp V anc r

/-! ## What the queries answer -/

namespace Labelled

theorem size_eq (h : Labelled tp V root r) : r.size = V.card := by
  rw [Reachability.size, h.children_keys]

theorem intervalLabels (h : Labelled tp V root r) : IntervalLabels tp r.start r.stop V :=
  intervalLabels_of_labelledAt h.tree h.labelledAt

/-- The interval test is the tree ancestry. -/
theorem treeReaches_iff (h : Labelled tp V root r) {x y : BlockId} (hx : x ∈ V) (hy : y ∈ V) :
    r.treeReaches x y = true ↔ ReflTransGen (TreeEdge tp) x y := by
  rw [← h.intervalLabels.contains_iff h.tree hx hy]
  have hlx := lookup_eq_some_valueAt (h.labelledAt x hx).mem
  have hly := lookup_eq_some_valueAt (h.labelledAt y hy).mem
  simp only [treeReaches, contains, hlx, hly, Bool.and_eq_true, decide_eq_true_eq]
  rfl

/-- An interval inside another belongs to a descendant. -/
theorem reaches_of_inside (h : Labelled tp V root r) {x y : BlockId} (hx : x ∈ V) (hy : y ∈ V)
    (hlo : r.start x ≤ r.start y) (hhi : r.stop y ≤ r.stop x) :
    ReflTransGen (TreeEdge tp) x y :=
  (h.intervalLabels.contains_iff h.tree hx hy).1
    ⟨hlo, le_trans (h.labelledAt y hy).start_le hhi⟩

/-- All labels lie in the root's interval. -/
theorem stop_le (h : Labelled tp V root r) {x : BlockId} (hx : x ∈ V) :
    1 ≤ r.start x ∧ r.stop x ≤ rootCapacity := by
  have hnest := h.intervalLabels.nested (h.tree.rooted x hx)
  rw [h.root_start, h.root_stop] at hnest
  exact hnest

end Labelled

/-- The oracle's answer is the ancestry. -/
theorem Tracks.isAncestor_iff (h : Tracks tp V root anc r) (hirrefl : ∀ x, ¬ anc x x)
    (htrans : ∀ x y z, anc x y → anc y z → anc x z) {a b : BlockId} (ha : a ∈ V) (hb : b ∈ V) :
    r.isAncestor a b = true ↔ anc a b := by
  unfold isAncestor
  by_cases hab : a = b
  · subst hab
    simpa using hirrefl a
  · rw [if_neg hab]
    by_cases htree : ReflTransGen (TreeEdge tp) a b
    · rw [if_pos ((h.labelled.treeReaches_iff ha hb).2 htree)]
      have hlt : TransGen (TreeEdge tp) a b :=
        (reflTransGen_iff_eq_or_transGen.1 htree).resolve_left (Ne.symm hab)
      simpa using h.covers.tree a b hlt
    · rw [if_neg (fun hreach => htree ((h.labelled.treeReaches_iff ha hb).1 hreach))]
      have hcovers : ((r.fcs.lookup a).any fun covers =>
          covers.any fun c => r.treeReaches c b) = true ↔
          ∃ c ∈ r.covers a, r.treeReaches c b = true := by
        rw [Reachability.covers]
        cases r.fcs.lookup a <;> simp
      rw [hcovers]
      constructor
      · rintro ⟨c, hc, hcb⟩
        obtain ⟨hac, hcV⟩ := h.covers.sound a c hc
        rcases reflTransGen_iff_eq_or_transGen.1 ((h.labelled.treeReaches_iff hcV hb).1 hcb) with
          heq | hlt
        · rw [heq]
          exact hac
        · exact htrans a c b hac (h.covers.tree c b hlt)
      · intro hanc
        obtain ⟨c, hc, hcb⟩ := (h.covers.complete a b hb hanc).resolve_left htree
        exact ⟨c, hc, (h.labelled.treeReaches_iff (h.covers.sound a c hc).2 hb).2 hcb⟩

/-! ## Registering a leaf -/

theorem registerLeaf_parent (h : Labelled tp V root r) {t sp : BlockId}
    (hleaf : LeafAdded tp tp' V t sp) : (r.treeParent.insert t sp).lookup = tp' := by
  funext x
  rw [lookup_insert_eq]
  by_cases hx : x = t
  · rw [if_pos hx, hx, hleaf.new]
  · rw [if_neg hx, h.parent, hleaf.old x hx]

/-- The children after step 1 of `add_block`. -/
theorem children_registerLeaf (r : Reachability) {t sp : BlockId} (ht : t ∉ r.treeChildren)
    (hsp : sp ≠ t) (x : BlockId) :
    valueAt (r.registerLeaf t sp).treeChildren x =
      if x = t then [] else if x = sp then
        (valueAt r.treeChildren sp).insertIdx
          (partitionPoint (fun c => c < t) (valueAt r.treeChildren sp)) t
      else valueAt r.treeChildren x := by
  simp only [registerLeaf, valueAt_insert, Finmap.lookup_insert_of_ne _ (Ne.symm hsp),
    Finmap.lookup_eq_none.2 ht, Option.getD_none]
  rfl

/-- The sizes that step 1 leaves: one for the leaf, and one more on the path above it. -/
theorem Labelled.registerLeaf_sizes (h : Labelled tp V root r) {t sp : BlockId}
    (hleaf : LeafAdded tp tp' V t sp) [∀ x, Decidable (ReflTransGen (TreeEdge tp) x sp)] :
    ∀ x ∈ insert t V, valueAt (r.registerLeaf t sp).subtreeSize x =
      if x = t then 1
      else valueAt r.subtreeSize x + if ReflTransGen (TreeEdge tp) x sp then 1 else 0 := by
  classical
  have hsp : sp ≠ t := fun heq => hleaf.fresh (heq ▸ hleaf.parent_mem)
  have hparent := registerLeaf_parent h hleaf
  have htree' := hleaf.rootedTree h.tree
  have hrank : ∀ x p, tp' x = some p → depth tp' (insert t V) p < depth tp' (insert t V) x :=
    fun x p hp => htree'.depth_lt hp
  have hfuel : depth tp' (insert t V) sp < r.size + 1 := by
    have hlt := htree'.depth_lt_card (Finset.mem_insert_of_mem hleaf.parent_mem)
    rwa [Finset.card_insert_of_notMem hleaf.fresh, ← h.size_eq] at hlt
  intro x hx
  have hpath : x ∈ pathUp tp' (r.size + 1) sp ↔ ReflTransGen (TreeEdge tp') x sp :=
    mem_pathUp hrank hfuel
  simp only [registerLeaf, hparent, valueAt, lookup_updateEach _ (nodup_pathUp hrank hfuel),
    hpath]
  by_cases hxt : x = t
  · subst hxt
    have hnot : ¬ ReflTransGen (TreeEdge tp') x sp :=
      fun hreach => hsp (hleaf.leaf_reaches h.tree hreach)
    rw [if_neg hnot, Finmap.lookup_insert, if_pos rfl]
    rfl
  · rw [hleaf.reaches_iff h.tree hxt, if_neg hsp, if_neg hxt,
      Finmap.lookup_insert_of_ne _ hxt]
    by_cases hreach : ReflTransGen (TreeEdge tp) x sp
    · rw [if_pos hreach, if_pos hreach]
      rfl
    · rw [if_neg hreach, if_neg hreach]
      rfl

/-- The children that step 1 leaves are those of the tree with the leaf, each once. -/
theorem Labelled.registerLeaf_children (h : Labelled tp V root r) {t sp : BlockId}
    (hleaf : LeafAdded tp tp' V t sp) {x : BlockId} (hx : x ∈ insert t V) :
    (valueAt (r.registerLeaf t sp).treeChildren x).Nodup ∧
      ∀ c, c ∈ valueAt (r.registerLeaf t sp).treeChildren x ↔ tp' c = some x := by
  have hsp : sp ≠ t := fun heq => hleaf.fresh (heq ▸ hleaf.parent_mem)
  have htmem : t ∉ r.treeChildren := by
    rw [← Finmap.mem_keys, h.children_keys]
    exact hleaf.fresh
  have hpos := partitionPoint_le_length (fun c => decide (c < t)) (valueAt r.treeChildren sp)
  have hperm := List.perm_insertIdx t (valueAt r.treeChildren sp) hpos
  have hedge := fun c => (hleaf.addsTop h.tree).edge_iff x c
  rw [r.children_registerLeaf htmem hsp]
  split
  · rename_i hxt
    rw [hxt]
    refine ⟨List.nodup_nil, fun c => ⟨fun hmem => absurd hmem List.not_mem_nil, fun hc => ?_⟩⟩
    have hedge' : TreeEdge tp' t c := hc
    exact absurd (.single hedge') ((hleaf.addsTop h.tree).not_ancestor c)
  · rename_i hxt
    have hxV := Finset.mem_of_mem_insert_of_ne hx hxt
    split
    · rename_i hxsp
      constructor
      · rw [hperm.nodup_iff, List.nodup_cons]
        refine ⟨fun hmem => ?_, h.data.nodup sp hleaf.parent_mem⟩
        exact hleaf.fresh (h.data.child_mem h.tree hleaf.parent_mem hmem)
      · intro c
        have hc := hedge c
        rw [hperm.mem_iff, List.mem_cons, h.data.mem_iff sp hleaf.parent_mem]
        rw [hxsp] at hc ⊢
        exact ⟨fun hor => hc.2 (hor.elim (fun heq => .inr ⟨heq, rfl⟩) .inl),
          fun hnew => (hc.1 hnew).elim .inr fun hand => .inl hand.1⟩
    · rename_i hxsp
      refine ⟨h.data.nodup x hxV, fun c => ?_⟩
      rw [h.data.mem_iff x hxV]
      exact ⟨fun hc => (hedge c).2 (.inl hc),
        fun hc => ((hedge c).1 hc).elim id fun hand => absurd hand.2 hxsp⟩

/-- The tree data after step 1 of `add_block`. -/
theorem Labelled.registerLeaf_data (h : Labelled tp V root r) {t sp : BlockId}
    (hleaf : LeafAdded tp tp' V t sp) :
    (r.registerLeaf t sp).treeChildren.keys = insert t V ∧
      TreeData tp' (insert t V) (valueAt (r.registerLeaf t sp).treeChildren)
        (valueAt (r.registerLeaf t sp).subtreeSize) := by
  classical
  refine ⟨?_, fun x hx => (h.registerLeaf_children hleaf hx).1,
    fun x hx => (h.registerLeaf_children hleaf hx).2, fun x hx => ?_⟩
  · simp only [registerLeaf, keys_insert, h.children_keys]
    rw [Finset.insert_eq_of_mem hleaf.parent_mem]
  · rw [h.registerLeaf_sizes hleaf x hx]
    split
    · rename_i hxt
      rw [hxt, hleaf.card_subtree_leaf h.tree]
    · rename_i hxt
      have hxV := Finset.mem_of_mem_insert_of_ne hx hxt
      rw [hleaf.card_subtree h.tree hxV, h.data.size_eq x hxV]

/-! ## Allocating its interval -/

/-- The anchor of a reindex is at or above the node, and has twice the room it
needs or is the root. -/
private theorem reindexAnchor_spec (htree : RootedTree tp V root)
    (hparent : ∀ x, r.treeParent.lookup x = tp x) (fuel : Nat) (node : BlockId)
    (hfuel : depth tp V node < fuel) :
    ReflTransGen (TreeEdge tp) (r.reindexAnchor fuel node) node ∧
      (min (valueAt r.subtreeSize (r.reindexAnchor fuel node) * 2) (2 ^ 64 - 1) ≤
          r.stop (r.reindexAnchor fuel node) - r.start (r.reindexAnchor fuel node) + 1 ∨
        tp (r.reindexAnchor fuel node) = none) := by
  induction fuel generalizing node with
  | zero => omega
  | succ fuel ih =>
      simp only [reindexAnchor]
      split
      · rename_i hcap
        exact ⟨.refl, .inl hcap⟩
      · rw [hparent]
        cases hp : tp node with
        | none => exact ⟨.refl, .inr hp⟩
        | some p =>
            have hlt := htree.depth_lt hp
            obtain ⟨hreach, hroom⟩ := ih p (by omega)
            exact ⟨hreach.tail hp, hroom⟩

/-- Whatever has room from the node upwards is at or above the anchor. -/
private theorem reaches_reindexAnchor (hparent : ∀ x, r.treeParent.lookup x = tp x) (fuel : Nat)
    (node : BlockId) {x : BlockId} (hx : ReflTransGen (TreeEdge tp) x node)
    (hroom : min (valueAt r.subtreeSize x * 2) (2 ^ 64 - 1) ≤ r.stop x - r.start x + 1 ∨
      tp x = none) :
    ReflTransGen (TreeEdge tp) x (r.reindexAnchor fuel node) := by
  induction fuel generalizing node with
  | zero => exact hx
  | succ fuel ih =>
      simp only [reindexAnchor]
      split
      · exact hx
      · rename_i hsmall
        rw [hparent]
        cases hp : tp node with
        | none => exact hx
        | some p =>
            rcases reflTransGen_iff_eq_or_transGen.1 hx with heq | hlt
            · rw [← heq, hp] at hroom
              exact absurd hroom (by simpa using hsmall)
            · exact ih p ((transGen_treeEdge_iff hp).1 hlt)

/-- The root is the only vertex without a parent. -/
private theorem eq_root_of_none (htree : RootedTree tp V root) {x : BlockId} (hx : x ∈ V)
    (hnone : tp x = none) : x = root := by
  rcases reflTransGen_iff_eq_or_transGen.1 (htree.rooted x hx) with heq | hlt
  · exact heq
  · obtain ⟨p, _, hp⟩ := TransGen.tail'_iff.1 hlt
    have hsome : tp x = some p := hp
    rw [hnone] at hsome
    cases hsome

/-- With capacity at the parent step 2 hands half of it to the leaf. -/
theorem allocate_of_room (r : Reachability) {t sp : BlockId}
    (hroom : valueAt r.nextFree sp ≤ r.stop sp) : (r.registerLeaf t sp).allocate t sp =
      { r.registerLeaf t sp with
        intervals := r.intervals.insert t (valueAt r.nextFree sp,
          valueAt r.nextFree sp + (r.stop sp - valueAt r.nextFree sp) / 2)
        nextFree := (r.nextFree.insert t (valueAt r.nextFree sp + 1)).insert sp
          (valueAt r.nextFree sp + (r.stop sp - valueAt r.nextFree sp) / 2 + 1) } :=
  if_pos hroom

/-- Step 2 of `add_block` when the parent has capacity left. -/
private theorem Labelled.allocate_room (h : Labelled tp V root r) {t sp : BlockId}
    (hleaf : LeafAdded tp tp' V t sp) (hroom : valueAt r.nextFree sp ≤ r.stop sp) :
    ∀ x ∈ insert t V, LabelledAt tp' ((r.registerLeaf t sp).allocate t sp) x := by
  have hsp : sp ≠ t := fun heq => hleaf.fresh (heq ▸ hleaf.parent_mem)
  have hedge := fun x c => (hleaf.addsTop h.tree).edge_iff x c
  have hlabel := h.labelledAt sp hleaf.parent_mem
  have heq := r.allocate_of_room (t := t) hroom
  have hkeep : ∀ x, x ≠ t → ((r.registerLeaf t sp).allocate t sp).intervals.lookup x =
      r.intervals.lookup x := by
    intro x hx
    rw [heq]
    exact Finmap.lookup_insert_of_ne _ hx
  have hstart : ∀ x, x ≠ t → ((r.registerLeaf t sp).allocate t sp).start x = r.start x :=
    fun x hx => start_congr (hkeep x hx)
  have hstop : ∀ x, x ≠ t → ((r.registerLeaf t sp).allocate t sp).stop x = r.stop x :=
    fun x hx => stop_congr (hkeep x hx)
  have ht : ((r.registerLeaf t sp).allocate t sp).intervals.lookup t =
      some (valueAt r.nextFree sp,
        valueAt r.nextFree sp + (r.stop sp - valueAt r.nextFree sp) / 2) := by
    rw [heq]
    exact Finmap.lookup_insert _
  have hfreeT : valueAt ((r.registerLeaf t sp).allocate t sp).nextFree t =
      valueAt r.nextFree sp + 1 := by
    rw [heq]
    exact (valueAt_insert_of_ne _ _ (Ne.symm hsp)).trans (valueAt_insert_self _ _ _)
  have hfreeSp : valueAt ((r.registerLeaf t sp).allocate t sp).nextFree sp =
      valueAt r.nextFree sp + (r.stop sp - valueAt r.nextFree sp) / 2 + 1 := by
    rw [heq]
    exact valueAt_insert_self _ _ _
  have hstartT := start_of_lookup ht
  have hstopT := stop_of_lookup ht
  intro x hx
  by_cases hxt : x = t
  · subst hxt
    have hnone : ∀ c, tp' c ≠ some x := by
      intro c hc
      have hc' : TreeEdge tp' x c := hc
      exact (hleaf.addsTop h.tree).not_ancestor c (.single hc')
    refine ⟨Finmap.mem_of_lookup_eq_some ht, ?_, ?_, ?_, ?_, ?_⟩
    · omega
    · omega
    · omega
    · exact fun c hc => absurd hc (hnone c)
    · exact fun c _ hc => absurd hc (hnone c)
  · have hxV := Finset.mem_of_mem_insert_of_ne hx hxt
    by_cases hxsp : x = sp
    · subst hxsp
      have hold : ∀ c, c ≠ t → tp' c = some x → tp c = some x :=
        fun c hc hpc => (hleaf.old c hc) ▸ hpc
      have hbefore := hlabel.start_lt_free
      refine ⟨?_, ?_, ?_, ?_, ?_, ?_⟩
      · rw [← Finmap.lookup_isSome, hkeep x hxt, Finmap.lookup_isSome]
        exact hlabel.mem
      · rw [hstart x hxt, hstop x hxt]
        exact hlabel.start_le
      · rw [hstart x hxt]
        omega
      · rw [hstop x hxt]
        omega
      · intro c hc
        rw [hstart x hxt]
        by_cases hct : c = t
        · subst hct
          omega
        · have hchild := hlabel.child c (hold c hct hc)
          rw [hstart c hct, hstop c hct]
          omega
      · intro c d hc hd hcd
        -- the new child lies right of the old ones, which end before the free point
        by_cases hct : c = t
        · subst hct
          have hdt : d ≠ c := Ne.symm hcd
          have hchild := hlabel.child d (hold d hdt hd)
          rw [hstart d hdt, hstop d hdt]
          omega
        · by_cases hdt : d = t
          · subst hdt
            have hchild := hlabel.child c (hold c hct hc)
            rw [hstart c hct, hstop c hct]
            omega
          · rw [hstart c hct, hstop c hct, hstart d hdt, hstop d hdt]
            exact hlabel.disjoint c d (hold c hct hc) (hold d hdt hd) hcd
    · refine (h.labelledAt x hxV).congr (hkeep x hxt) ?_ ?_
      · rw [heq]
        exact (valueAt_insert_of_ne _ _ hxsp).trans (valueAt_insert_of_ne _ _ hxt)
      · intro c hc
        have hct : c ≠ t := by
          rintro rfl
          exact hxsp (Option.some.inj (hc.symm.trans hleaf.new))
        exact ⟨(hleaf.old c hct) ▸ hc, hstart c hct, hstop c hct⟩

/-- The oracle with the leaf registered and a temporary interval for it. -/
def temporary (r : Reachability) (t sp : BlockId) : Reachability :=
  { r.registerLeaf t sp with
    intervals := r.intervals.insert t (valueAt r.nextFree sp, valueAt r.nextFree sp)
    nextFree := r.nextFree.insert t (valueAt r.nextFree sp) }

theorem lookup_temporary (r : Reachability) {t x : BlockId} (sp : BlockId) (hx : x ≠ t) :
    (r.temporary t sp).intervals.lookup x = r.intervals.lookup x :=
  Finmap.lookup_insert_of_ne _ hx

/-- The anchor of the reindex for a new leaf `t` on `sp`. -/
def anchorOf (r : Reachability) (t sp : BlockId) : BlockId :=
  (r.temporary t sp).reindexAnchor (r.temporary t sp).size sp

/-- Without capacity at the parent step 2 lays the anchor's subtree out again. -/
theorem allocate_of_full (r : Reachability) {t sp : BlockId}
    (hfull : ¬ valueAt r.nextFree sp ≤ r.stop sp) :
    (r.registerLeaf t sp).allocate t sp = (r.temporary t sp).relayoutSubtree (r.anchorOf t sp)
      ((r.temporary t sp).start (r.anchorOf t sp)) ((r.temporary t sp).stop (r.anchorOf t sp)) :=
  if_neg hfull

section Temporary

variable {t sp : BlockId}

theorem start_temporary {x : BlockId} (hx : x ≠ t) : (r.temporary t sp).start x = r.start x :=
  start_congr (r.lookup_temporary sp hx)

theorem stop_temporary {x : BlockId} (hx : x ≠ t) : (r.temporary t sp).stop x = r.stop x :=
  stop_congr (r.lookup_temporary sp hx)

theorem Labelled.temporary_parent (h : Labelled tp V root r) (hleaf : LeafAdded tp tp' V t sp)
    (x : BlockId) : (r.temporary t sp).treeParent.lookup x = tp' x :=
  congrFun (registerLeaf_parent h hleaf) x

theorem Labelled.temporary_size (h : Labelled tp V root r) (hleaf : LeafAdded tp tp' V t sp) :
    (r.temporary t sp).size = (insert t V).card :=
  congrArg Finset.card (h.registerLeaf_data hleaf).1

theorem Labelled.temporary_data (h : Labelled tp V root r) (hleaf : LeafAdded tp tp' V t sp) :
    TreeData tp' (insert t V) (valueAt (r.temporary t sp).treeChildren)
      (valueAt (r.temporary t sp).subtreeSize) :=
  (h.registerLeaf_data hleaf).2

/-- The anchor is at or above the parent, and its interval has room for its subtree. -/
theorem Labelled.anchor_spec (h : Labelled tp V root r) (hleaf : LeafAdded tp tp' V t sp)
    (hcap : V.card + 1 ≤ rootCapacity) :
    ReflTransGen (TreeEdge tp') (r.anchorOf t sp) sp ∧
      (r.temporary t sp).start (r.anchorOf t sp) +
          valueAt (r.temporary t sp).subtreeSize (r.anchorOf t sp) ≤
        (r.temporary t sp).stop (r.anchorOf t sp) + 1 := by
  have htree' := hleaf.rootedTree h.tree
  have hdata' := h.temporary_data hleaf
  have hdepth := htree'.depth_lt_card (Finset.mem_insert_of_mem hleaf.parent_mem)
  obtain ⟨hreach, hstop⟩ := reindexAnchor_spec htree' (h.temporary_parent hleaf)
    (r.temporary t sp).size sp (h.temporary_size hleaf ▸ hdepth)
  rw [← anchorOf] at hreach hstop
  refine ⟨hreach, ?_⟩
  generalize r.anchorOf t sp = anchor at hreach hstop ⊢
  obtain ⟨hat, haV⟩ := hleaf.mem_of_above h.tree hreach
  have haV' : anchor ∈ insert t V := Finset.mem_insert_of_mem haV
  have hbounds := h.stop_le haV
  have hne := (h.labelledAt anchor haV).start_le
  rw [start_temporary hat, stop_temporary hat] at hstop ⊢
  rcases hstop with htwice | hnone
  · have hroot : rootCapacity = 2 ^ 63 - 1 := rfl
    omega
  · have hroot := eq_root_of_none htree' haV' hnone
    have hcard := RootedTree.card_subtree_le tp' (insert t V) anchor
    rw [← hdata'.size_eq anchor haV', Finset.card_insert_of_notMem hleaf.fresh] at hcard
    rw [hroot, h.root_start, h.root_stop, ← hroot]
    omega

/-- `x` would have twice the points it needs with one more block below it, or is the root. -/
def HasRoom (r : Reachability) (x : BlockId) : Prop :=
  min ((valueAt r.subtreeSize x + 1) * 2) (2 ^ 64 - 1) ≤ r.stop x - r.start x + 1 ∨
    r.treeParent.lookup x = none

/-- What is at or below the anchor, read off before the step. -/
theorem Labelled.anchorOf_reaches_iff (h : Labelled tp V root r) (hleaf : LeafAdded tp tp' V t sp)
    (w : BlockId) : ReflTransGen (TreeEdge tp) (r.anchorOf t sp) w ↔
      ∀ x, ReflTransGen (TreeEdge tp) x sp → r.HasRoom x → ReflTransGen (TreeEdge tp) x w := by
  classical
  have htree' := hleaf.rootedTree h.tree
  have hdepth := htree'.depth_lt_card (Finset.mem_insert_of_mem hleaf.parent_mem)
  rw [← h.temporary_size hleaf] at hdepth
  have hspt : sp ≠ t := fun heq => hleaf.fresh (heq ▸ hleaf.parent_mem)
  -- above the parent the two trees and the two tests are the same
  have hreaches : ∀ x, x ≠ t →
      (ReflTransGen (TreeEdge tp') x sp ↔ ReflTransGen (TreeEdge tp) x sp) := by
    intro x hx
    rw [hleaf.reaches_iff h.tree hx, if_neg hspt]
  have hroom : ∀ x, x ≠ t → x ∈ V → ReflTransGen (TreeEdge tp) x sp →
      (r.HasRoom x ↔ min (valueAt (r.temporary t sp).subtreeSize x * 2) (2 ^ 64 - 1) ≤
        (r.temporary t sp).stop x - (r.temporary t sp).start x + 1 ∨ tp' x = none) := by
    intro x hx hxV hxsp
    rw [HasRoom, (h.temporary_data hleaf).size_eq x (Finset.mem_insert_of_mem hxV),
      hleaf.card_subtree h.tree hxV, if_pos hxsp, ← h.data.size_eq x hxV, start_temporary hx,
      stop_temporary hx, h.parent, hleaf.old x hx]
  obtain ⟨habove, hanchor⟩ := reindexAnchor_spec htree' (h.temporary_parent hleaf)
    (r.temporary t sp).size sp hdepth
  rw [← anchorOf] at habove hanchor
  obtain ⟨hat, haV⟩ := hleaf.mem_of_above h.tree habove
  constructor
  · intro hw x hx hxroom
    have hxV := h.tree.mem_of_reflTransGen_left hleaf.parent_mem hx
    have hxt : x ≠ t := fun heq => hleaf.fresh (heq ▸ hxV)
    have hlow := reaches_reindexAnchor (h.temporary_parent hleaf) (r.temporary t sp).size sp
      ((hreaches x hxt).2 hx) ((hroom x hxt hxV hx).1 hxroom)
    rw [← anchorOf, hleaf.reaches_iff h.tree hxt, if_neg hat] at hlow
    exact hlow.trans hw
  · intro hall
    have hreach := (hreaches _ hat).1 habove
    exact hall _ hreach ((hroom _ hat haV hreach).2 hanchor)

/-- At and below the anchor siblings end up in the order of the list of children. -/
theorem Labelled.reindex_ordered (h : Labelled tp V root r) (hleaf : LeafAdded tp tp' V t sp)
    (hcap : V.card + 1 ≤ rootCapacity) (hfull : ¬ valueAt r.nextFree sp ≤ r.stop sp) {w : BlockId}
    (hw : w ∈ V) (hreach : ReflTransGen (TreeEdge tp') (r.anchorOf t sp) w) :
    (valueAt (r.registerLeaf t sp).treeChildren w).Pairwise fun c c' =>
      ((r.registerLeaf t sp).allocate t sp).stop c <
        ((r.registerLeaf t sp).allocate t sp).start c' := by
  have haV := (hleaf.mem_of_above h.tree (h.anchor_spec hleaf hcap).1).2
  rw [r.allocate_of_full hfull]
  exact relayout_ordered (hleaf.rootedTree h.tree) (h.temporary_data hleaf)
    (h.temporary_size hleaf).ge (Finset.mem_insert_of_mem haV) _ _ (Finset.mem_insert_of_mem hw)
    hreach

/-- Step 2 of `add_block` when the parent is out of capacity: the reindex, which moves
nothing but what is strictly below its anchor. -/
theorem Labelled.allocate_reindex (h : Labelled tp V root r) (hleaf : LeafAdded tp tp' V t sp)
    (hcap : V.card + 1 ≤ rootCapacity) (hfull : ¬ valueAt r.nextFree sp ≤ r.stop sp) :
    (∀ x ∈ insert t V, LabelledAt tp' ((r.registerLeaf t sp).allocate t sp) x) ∧
      ∀ x, x ≠ t → x = r.anchorOf t sp ∨ ¬ ReflTransGen (TreeEdge tp') (r.anchorOf t sp) x →
        ((r.registerLeaf t sp).allocate t sp).intervals.lookup x = r.intervals.lookup x := by
  have htree' := hleaf.rootedTree h.tree
  have hdata' := h.temporary_data hleaf
  have hsize := h.temporary_size hleaf
  rw [r.allocate_of_full hfull]
  obtain ⟨hreach, hroom⟩ := h.anchor_spec hleaf hcap
  generalize r.anchorOf t sp = anchor at hreach hroom ⊢
  obtain ⟨hat, haV⟩ := hleaf.mem_of_above h.tree hreach
  have haV' : anchor ∈ insert t V := Finset.mem_insert_of_mem haV
  have hmem : anchor ∈ (r.temporary t sp).intervals := by
    rw [← Finmap.lookup_isSome, r.lookup_temporary sp hat, Finmap.lookup_isSome]
    exact (h.labelledAt anchor haV).mem
  constructor
  · refine labelledAt_relayout htree' hdata' hsize.ge haV' hmem hroom ?_
    intro x hx hax
    have hxt : x ≠ t := by
      rintro rfl
      exact hax (hreach.tail hleaf.new)
    have hxsp : x ≠ sp := by
      rintro rfl
      exact hax hreach
    refine (h.labelledAt x (Finset.mem_of_mem_insert_of_ne hx hxt)).congr
      (r.lookup_temporary sp hxt) ?_ ?_
    · exact valueAt_insert_of_ne _ _ hxt
    · intro c hc
      have hct : c ≠ t := by
        rintro rfl
        exact hxsp (Option.some.inj (hc.symm.trans hleaf.new))
      exact ⟨(hleaf.old c hct) ▸ hc, start_temporary hct, stop_temporary hct⟩
  · intro x hxt hx
    rw [lookup_relayout htree' hdata' hsize.ge haV' hmem hx, r.lookup_temporary sp hxt]

end Temporary

/-- Step 2 of `add_block` when the parent has capacity left moves nothing. -/
theorem allocate_kept (r : Reachability) {t sp : BlockId}
    (hroom : valueAt r.nextFree sp ≤ r.stop sp) {x : BlockId} (hx : x ≠ t) :
    ((r.registerLeaf t sp).allocate t sp).intervals.lookup x = r.intervals.lookup x := by
  rw [r.allocate_of_room hroom]
  exact Finmap.lookup_insert_of_ne _ hx

theorem allocate_treeParent (r : Reachability) (t sp : BlockId) :
    (r.allocate t sp).treeParent = r.treeParent := by
  unfold allocate
  dsimp only
  split <;> rfl

theorem allocate_treeChildren (r : Reachability) (t sp : BlockId) :
    (r.allocate t sp).treeChildren = r.treeChildren := by
  unfold allocate
  dsimp only
  split <;> rfl

theorem allocate_subtreeSize (r : Reachability) (t sp : BlockId) :
    (r.allocate t sp).subtreeSize = r.subtreeSize := by
  unfold allocate
  dsimp only
  split <;> rfl

theorem allocate_fcs (r : Reachability) (t sp : BlockId) :
    (r.allocate t sp).fcs = r.fcs := by
  unfold allocate
  dsimp only
  split <;> rfl

/-- The covering sets are not touched before step 3 of `add_block`. -/
theorem covers_allocate (r : Reachability) (t sp a : BlockId) :
    ((r.registerLeaf t sp).allocate t sp).covers a = r.covers a := by
  rw [covers, covers, allocate_fcs]
  rfl

/-- Steps 1 and 2 of `add_block` keep the labelling, in either branch. -/
theorem Labelled.addLeaf (h : Labelled tp V root r) {t sp : BlockId}
    (hleaf : LeafAdded tp tp' V t sp) (hcap : V.card + 1 ≤ rootCapacity) :
    Labelled tp' (insert t V) root ((r.registerLeaf t sp).allocate t sp) := by
  obtain ⟨hkeys, hdata⟩ := h.registerLeaf_data hleaf
  have hroott : root ≠ t := fun heq => hleaf.fresh (heq ▸ h.tree.root_mem)
  have hlabels : (∀ x ∈ insert t V,
      LabelledAt tp' ((r.registerLeaf t sp).allocate t sp) x) ∧
      ((r.registerLeaf t sp).allocate t sp).intervals.lookup root =
        r.intervals.lookup root := by
    by_cases hroom : valueAt r.nextFree sp ≤ r.stop sp
    · exact ⟨h.allocate_room hleaf hroom, r.allocate_kept hroom hroott⟩
    · obtain ⟨hlabelled, hkept⟩ := h.allocate_reindex hleaf hcap hroom
      refine ⟨hlabelled, hkept root hroott ?_⟩
      by_cases haroot : ReflTransGen (TreeEdge tp') (r.anchorOf t sp) root
      · exact .inl ((hleaf.rootedTree h.tree).eq_root_of_reaches haroot).symm
      · exact .inr haroot
  refine ⟨hleaf.rootedTree h.tree, ?_, ?_, ?_, hlabels.1, ?_, ?_⟩
  · intro x
    rw [allocate_treeParent]
    exact congrFun (registerLeaf_parent h hleaf) x
  · rw [allocate_treeChildren, hkeys]
  · rw [allocate_treeChildren, allocate_subtreeSize]
    exact hdata
  · rw [← h.root_start]
    exact start_congr hlabels.2
  · rw [← h.root_stop]
    exact stop_congr hlabels.2

/-! ## Covering sets -/

/-- The labelling does not read the covering sets. -/
theorem Labelled.withFcs (h : Labelled tp V root r) (fcs : Finmap fun _ : BlockId => List BlockId) :
    Labelled tp V root { r with fcs := fcs } :=
  ⟨h.tree, h.parent, h.children_keys, h.data,
    fun x hx => (h.labelledAt x hx).congr rfl rfl fun _ hc => ⟨hc, rfl, rfl⟩,
    h.root_start, h.root_stop⟩

/-- Step 3 of `add_block` changes nothing but covering sets. -/
theorem insertToFutureCoveringSet_eq (r : Reachability) (a b : BlockId) :
    ∃ fcs, r.insertToFutureCoveringSet a b = { r with fcs := fcs } := by
  unfold insertToFutureCoveringSet
  dsimp only
  split
  · exact ⟨_, rfl⟩
  · exact ⟨_, rfl⟩

theorem insertToFutureCoveringSet_labelled (h : Labelled tp V root r) (a b : BlockId) :
    Labelled tp V root (r.insertToFutureCoveringSet a b) := by
  obtain ⟨fcs, heq⟩ := r.insertToFutureCoveringSet_eq a b
  rw [heq]
  exact h.withFcs fcs

theorem foldl_insertToFutureCoveringSet_eq (r : Reachability) (b : BlockId)
    (mergeset : List BlockId) : ∃ fcs,
      mergeset.foldl (fun r a => r.insertToFutureCoveringSet a b) r = { r with fcs := fcs } := by
  induction mergeset generalizing r with
  | nil => exact ⟨r.fcs, rfl⟩
  | cons a rest ih =>
      obtain ⟨fcs, heq⟩ := r.insertToFutureCoveringSet_eq a b
      rw [List.foldl_cons, heq]
      exact ih _

theorem addBlock_eq (r : Reachability) (t sp : BlockId) (mergeset : List BlockId) :
    ∃ fcs, r.addBlock t sp mergeset =
      { (r.registerLeaf t sp).allocate t sp with fcs := fcs } :=
  foldl_insertToFutureCoveringSet_eq _ t mergeset

theorem addBlock_intervals (r : Reachability) (t sp : BlockId) (mergeset : List BlockId) :
    (r.addBlock t sp mergeset).intervals = ((r.registerLeaf t sp).allocate t sp).intervals := by
  obtain ⟨fcs, heq⟩ := r.addBlock_eq t sp mergeset
  rw [heq]

theorem addBlock_treeChildren (r : Reachability) (t sp : BlockId) (mergeset : List BlockId) :
    (r.addBlock t sp mergeset).treeChildren = (r.registerLeaf t sp).treeChildren := by
  obtain ⟨fcs, heq⟩ := r.addBlock_eq t sp mergeset
  rw [heq]
  exact allocate_treeChildren _ t sp

theorem covers_insert (r : Reachability) (a x : BlockId) (set : List BlockId) :
    ({ r with fcs := r.fcs.insert a set } : Reachability).covers x =
      if x = a then set else r.covers x := by
  simp only [covers, lookup_insert_eq]
  split <;> rfl

section Insert

variable {t : BlockId}

/-- Where the search for the place of `b` ends in the covering set of `a`. -/
def coverPos (r : Reachability) (a b : BlockId) : Nat :=
  partitionPoint (fun c => r.start c ≤ r.start b) (r.covers a)

theorem perm_coverPos (r : Reachability) (a b : BlockId) :
    ((r.covers a).insertIdx (r.coverPos a b) b).Perm (b :: r.covers a) :=
  List.perm_insertIdx b _ (partitionPoint_le_length _ _)

/-- A block that neither covers nor is covered is inserted, and nothing is dropped. -/
theorem covers_of_unrelated (h : Labelled tp V root r) {a : BlockId} (ht : t ∈ V)
    (hcovers : ∀ c ∈ r.covers a, c ∈ V ∧ Unrelated tp c t) (x : BlockId) :
    (r.insertToFutureCoveringSet a t).covers x =
      if x = a then (r.covers a).insertIdx (r.coverPos a t) t else r.covers x := by
  have hcovered : ((r.covers a)[r.coverPos a t - 1]?).any (fun c =>
      r.start c ≤ r.start t && r.stop t ≤ r.stop c) = false := by
    rw [Option.any_eq_false]
    intro c hc
    obtain ⟨hcV, hnot, _⟩ := hcovers c (List.mem_of_getElem? hc)
    rw [← Bool.not_eq_true, Bool.and_eq_true, decide_eq_true_eq, decide_eq_true_eq]
    exact fun hle => hnot (h.reaches_of_inside hcV ht hle.1 hle.2)
  have hdropped : r.dropCovered t (r.coverPos a t) (r.covers a) = r.covers a := by
    have hkeep : ((r.covers a).drop (r.coverPos a t)).dropWhile (fun c =>
        r.start t ≤ r.start c && r.stop c ≤ r.stop t) = (r.covers a).drop (r.coverPos a t) := by
      cases hdrop : (r.covers a).drop (r.coverPos a t) with
      | nil => rfl
      | cons c rest =>
          have hc : c ∈ r.covers a := List.mem_of_mem_drop (hdrop ▸ List.mem_cons_self ..)
          obtain ⟨hcV, _, hnot⟩ := hcovers c hc
          rw [List.dropWhile_cons_of_neg]
          rw [Bool.and_eq_true, decide_eq_true_eq, decide_eq_true_eq]
          exact fun hle => hnot (h.reaches_of_inside ht hcV hle.1 hle.2)
    rw [dropCovered, hkeep, List.take_append_drop]
  unfold insertToFutureCoveringSet
  dsimp only
  rw [← coverPos, hcovered, Bool.and_false, if_neg Bool.false_ne_true, covers_insert, hdropped]

/-- The same over a mergeset, which names no block twice. -/
theorem covers_foldl (h : Labelled tp V root r) (ht : t ∈ V) {mergeset : List BlockId}
    (hnodup : mergeset.Nodup)
    (hcovers : ∀ a ∈ mergeset, ∀ c ∈ r.covers a, c ∈ V ∧ Unrelated tp c t) (x : BlockId) :
    (mergeset.foldl (fun r a => r.insertToFutureCoveringSet a t) r).covers x =
      if x ∈ mergeset then (r.covers x).insertIdx (r.coverPos x t) t else r.covers x := by
  induction mergeset generalizing r with
  | nil => rw [List.foldl_nil, if_neg List.not_mem_nil]
  | cons a rest ih =>
      obtain ⟨hnot, hnodup⟩ := List.nodup_cons.1 hnodup
      have hone := covers_of_unrelated h ht (hcovers a (List.mem_cons_self ..))
      have hkept : ∀ y ∈ rest, (r.insertToFutureCoveringSet a t).covers y = r.covers y := by
        intro y hy
        rw [hone, if_neg]
        exact fun heq => hnot (heq ▸ hy)
      obtain ⟨fcs, heq⟩ := r.insertToFutureCoveringSet_eq a t
      have hstart : ∀ y, (r.insertToFutureCoveringSet a t).start y = r.start y := by
        intro y
        rw [heq]
        rfl
      have hrest := ih (insertToFutureCoveringSet_labelled h a t) hnodup fun y hy c hc => by
        rw [hkept y hy] at hc
        exact hcovers y (List.mem_cons_of_mem _ hy) c hc
      rw [List.foldl_cons, hrest]
      by_cases hx : x ∈ rest
      · have hpos : (r.insertToFutureCoveringSet a t).coverPos x t = r.coverPos x t := by
          simp only [coverPos, hstart, hkept x hx]
        rw [if_pos hx, if_pos (List.mem_cons_of_mem _ hx), hkept x hx, hpos]
      · rw [if_neg hx, hone]
        by_cases hxa : x = a
        · rw [if_pos hxa, if_pos (hxa ▸ List.mem_cons_self ..), hxa]
        · rw [if_neg hxa, if_neg (List.not_mem_cons_of_ne_of_not_mem hxa hx)]

end Insert

/-! ## The whole step -/

/-- How the ancestry grows with a block `t` on top: it descends from its selected
parent, the selected parent's past, and its mergeset. -/
structure AncestryGrows (anc anc' : BlockId → BlockId → Prop) (V : Finset BlockId)
    (t sp : BlockId) (mergeset : List BlockId) : Prop where
  old : ∀ a b, b ≠ t → (anc' a b ↔ anc a b)
  top : ∀ a, anc' a t ↔ a = sp ∨ anc a sp ∨ a ∈ mergeset

section AddBlock

variable {t sp : BlockId} {mergeset : List BlockId}

/-- What a merged block has covered so far is beside the new leaf. -/
theorem Tracks.unrelated (h : Tracks tp V root anc r)
    (htrans : ∀ x y z, anc x y → anc y z → anc x z) (hleaf : LeafAdded tp tp' V t sp)
    {a c : BlockId} (ha : a ≠ sp ∧ ¬ anc a sp) (hc : c ∈ r.covers a) :
    c ∈ insert t V ∧ Unrelated tp' c t := by
  have htree := h.labelled.tree
  obtain ⟨hac, hcV⟩ := h.covers.sound a c hc
  have hct : c ≠ t := fun heq => hleaf.fresh (heq ▸ hcV)
  refine ⟨Finset.mem_insert_of_mem hcV, fun hreach => ?_, fun hreach => ?_⟩
  · rw [hleaf.reaches_iff htree hct, if_pos rfl] at hreach
    rcases reflTransGen_iff_eq_or_transGen.1 hreach with heq | hlt
    · exact ha.2 (heq ▸ hac)
    · exact ha.2 (htrans a c sp hac (h.covers.tree c sp hlt))
  · exact hct (hleaf.leaf_reaches htree hreach)

/-- Step 3 of `add_block` puts the new leaf into the covering set of each merged block. -/
theorem Tracks.covers_addBlock (h : Tracks tp V root anc r)
    (htrans : ∀ x y z, anc x y → anc y z → anc x z) (hleaf : LeafAdded tp tp' V t sp)
    (hcap : V.card + 1 ≤ rootCapacity)
    (hmerge : mergeset.Nodup ∧ ∀ a ∈ mergeset, a ≠ sp ∧ ¬ anc a sp) (a : BlockId) :
    (r.addBlock t sp mergeset).covers a =
      if a ∈ mergeset then
        (((r.registerLeaf t sp).allocate t sp).covers a).insertIdx
          (((r.registerLeaf t sp).allocate t sp).coverPos a t) t
      else r.covers a := by
  rw [← r.covers_allocate t sp a]
  exact covers_foldl (h.labelled.addLeaf hleaf hcap) (Finset.mem_insert_self ..) hmerge.1
    (fun a ha c hc => h.unrelated htrans hleaf (hmerge.2 a ha) (r.covers_allocate t sp a ▸ hc)) a

theorem Tracks.mem_covers_addBlock (h : Tracks tp V root anc r)
    (htrans : ∀ x y z, anc x y → anc y z → anc x z) (hleaf : LeafAdded tp tp' V t sp)
    (hcap : V.card + 1 ≤ rootCapacity)
    (hmerge : mergeset.Nodup ∧ ∀ a ∈ mergeset, a ≠ sp ∧ ¬ anc a sp) (a c : BlockId) :
    c ∈ (r.addBlock t sp mergeset).covers a ↔ c ∈ r.covers a ∨ (a ∈ mergeset ∧ c = t) := by
  rw [h.covers_addBlock htrans hleaf hcap hmerge]
  split
  · rename_i ha
    rw [(perm_coverPos _ a t).mem_iff, List.mem_cons, covers_allocate, or_comm, and_iff_right ha]
  · rename_i ha
    rw [or_iff_left fun hand => ha hand.1]

/-- `add_block` keeps the oracle exact. -/
theorem Tracks.addBlock (h : Tracks tp V root anc r)
    (htrans : ∀ x y z, anc x y → anc y z → anc x z) (hleaf : LeafAdded tp tp' V t sp)
    (hanc : AncestryGrows anc anc' V t sp mergeset) (hcap : V.card + 1 ≤ rootCapacity)
    (hmerge : mergeset.Nodup ∧ ∀ a ∈ mergeset, a ≠ sp ∧ ¬ anc a sp) :
    Tracks tp' (insert t V) root anc' (r.addBlock t sp mergeset) := by
  have hlabelled : Labelled tp' (insert t V) root (r.addBlock t sp mergeset) := by
    obtain ⟨fcs, heq⟩ := r.addBlock_eq t sp mergeset
    rw [heq]
    exact (h.labelled.addLeaf hleaf hcap).withFcs fcs
  have hmem := h.mem_covers_addBlock htrans hleaf hcap hmerge
  have hold : ∀ c ∈ V, c ≠ t := fun c hc heq => hleaf.fresh (heq ▸ hc)
  have hreach : ∀ a y, y ≠ t → ReflTransGen (TreeEdge tp) a y →
      ReflTransGen (TreeEdge tp') a y := by
    intro a y hy hay
    rcases reflTransGen_iff_eq_or_transGen.1 hay with rfl | hlt
    · exact .refl
    · exact (((hleaf.addsTop h.labelled.tree).old hy).2 hlt).to_reflTransGen
  refine ⟨hlabelled, ?_, ?_, ?_⟩
  · intro a c hc
    rcases (hmem a c).1 hc with hc | ⟨ha, rfl⟩
    · obtain ⟨hac, hcV⟩ := h.covers.sound a c hc
      exact ⟨(hanc.old a c (hold c hcV)).2 hac, Finset.mem_insert_of_mem hcV⟩
    · exact ⟨(hanc.top a).2 (.inr (.inr ha)), Finset.mem_insert_self ..⟩
  · intro a b hb hab
    -- a covering path to an old block, extended by `y`, is still covered
    have hlift : ∀ x ∈ V, anc a x → ∀ y, ReflTransGen (TreeEdge tp') x y →
        ReflTransGen (TreeEdge tp') a y ∨
          ∃ c ∈ (r.addBlock t sp mergeset).covers a, ReflTransGen (TreeEdge tp') c y := by
      intro x hx hax y hxy
      rcases h.covers.complete a x hx hax with hreachx | ⟨c, hc, hcx⟩
      · exact .inl ((hreach a x (hold x hx) hreachx).trans hxy)
      · exact .inr ⟨c, (hmem a c).2 (.inl hc), (hreach c x (hold x hx) hcx).trans hxy⟩
    by_cases hbt : b = t
    · subst hbt
      rcases (hanc.top a).1 hab with rfl | hsp | hmerged
      · exact .inl (.single hleaf.new)
      · exact hlift sp hleaf.parent_mem hsp b (.single hleaf.new)
      · exact .inr ⟨b, (hmem a b).2 (.inr ⟨hmerged, rfl⟩), .refl⟩
    · exact hlift b (Finset.mem_of_mem_insert_of_ne hb hbt) ((hanc.old a b hbt).1 hab) b .refl
  · intro a b hab
    by_cases hbt : b = t
    · subst hbt
      have hasp := (transGen_treeEdge_iff hleaf.new).1 hab
      have hspt := hold sp hleaf.parent_mem
      rcases reflTransGen_iff_eq_or_transGen.1 hasp with heq | hlt
      · exact (hanc.top a).2 (.inl heq.symm)
      · exact (hanc.top a).2 (.inr (.inl (h.covers.tree a sp
          (((hleaf.addsTop h.labelled.tree).old hspt).1 hlt))))
    · exact (hanc.old a b hbt).2
        (h.covers.tree a b (((hleaf.addsTop h.labelled.tree).old hbt).1 hab))

end AddBlock

end Reachability

end Kovanica
