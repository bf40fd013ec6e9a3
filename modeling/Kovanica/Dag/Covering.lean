import Kovanica.Dag.Reachable

/-!
# Covering sets

The future-covering set of a block holds the roots of the trees that its future leaves
outside of its subtree, and these never overlap.  A binary search puts a new root in the
order of the intervals, but a reindex lays siblings out again by their ids, so that one step
keeps the order of a set exactly if the branches it moves are in the order of their ids.

## Main results

* `rootsCovered_wire`: the sets stay exact and free of overlaps with every block.
* `Labelled.start_lt_iff`: when two blocks beside each other stay in their order.
* `relabelled_iff`, `sorted_wire_iff`: when a set does, and when it still does with the root that
  the search has put in.
-/

namespace Kovanica

open Lib Relation

namespace Reachability

/-! ## The children are sorted -/

/-- Every list of children is sorted by id. -/
def ChildrenSorted (r : Reachability) : Prop := ∀ x, (valueAt r.treeChildren x).Pairwise (· < ·)

/-- A new leaf is sorted in among the children of its parent. -/
theorem Labelled.childrenSorted_registerLeaf {tp tp' : BlockId → Option BlockId}
    {V : Finset BlockId} {root : BlockId} {r : Reachability} (h : Labelled tp V root r)
    {t sp : BlockId} (hleaf : LeafAdded tp tp' V t sp) (hsorted : r.ChildrenSorted) :
    (r.registerLeaf t sp).ChildrenSorted := by
  have hfresh : t ∉ r.treeChildren := by
    rw [← Finmap.mem_keys, h.children_keys]
    exact hleaf.fresh
  have hsp : sp ≠ t := fun heq => hleaf.fresh (heq ▸ hleaf.parent_mem)
  have hunlisted : t ∉ valueAt r.treeChildren sp := fun hmem =>
    hleaf.fresh (h.data.child_mem h.tree hleaf.parent_mem hmem)
  intro x
  rw [r.children_registerLeaf hfresh hsp]
  split
  · exact .nil
  split
  · refine pairwise_insertIdx (hsorted sp) (fun _ _ _ => lt_trans) ?_ ?_ ?_
    · exact fun a _ ha => of_decide_eq_true ha
    · intro a ha hge
      have hne : a ≠ t := fun heq => hunlisted (heq ▸ ha)
      exact lt_of_le_of_ne (not_lt.1 (of_decide_eq_false hge)) (Ne.symm hne)
    · exact fun a b hab hb => decide_eq_true (lt_trans hab (of_decide_eq_true hb))
  · exact hsorted x

/-! ## One covering set -/

section Insert

variable {tp : BlockId → Option BlockId} {V : Finset BlockId} {root : BlockId}
  {r : Reachability} {t : BlockId}

/-- Each search of step 3 of `add_block` runs on a list in the order of its intervals. -/
def SearchesSorted (r : Reachability) (id sp : BlockId) (mergeset : List BlockId) : Prop :=
  ∀ before a after, mergeset = before ++ a :: after →
    let r' := before.foldl (fun r merged => r.insertToFutureCoveringSet merged id)
      ((r.registerLeaf id sp).allocate id sp)
    (r'.covers a).Pairwise fun u v => r'.start u < r'.start v

/-- The insertions before it have not changed the list a search runs on. -/
theorem searchesSorted_of_pairwise {r : Reachability} {sp : BlockId} {mergeset : List BlockId}
    (h : Labelled tp V root ((r.registerLeaf t sp).allocate t sp)) (ht : t ∈ V)
    (hnodup : mergeset.Nodup)
    (hcovers : ∀ a ∈ mergeset, ∀ c ∈ r.covers a, c ∈ V ∧ Unrelated tp c t)
    (hsorted : ∀ a, (r.covers a).Pairwise fun u v =>
      ((r.registerLeaf t sp).allocate t sp).start u <
        ((r.registerLeaf t sp).allocate t sp).start v) :
    r.SearchesSorted t sp mergeset := by
  intro before a after hsplit
  rw [hsplit, List.nodup_append] at hnodup
  have hnot : a ∉ before := fun ha => hnodup.2.2 a ha a (List.mem_cons_self ..) rfl
  have hfold := covers_foldl h ht hnodup.1 (fun x hx c hc => by
    rw [r.covers_allocate] at hc
    exact hcovers x (hsplit ▸ List.mem_append_left _ hx) c hc) a
  rw [if_neg hnot, r.covers_allocate] at hfold
  obtain ⟨fcs, heq⟩ := foldl_insertToFutureCoveringSet_eq
    ((r.registerLeaf t sp).allocate t sp) t before
  dsimp only
  rw [hfold, heq]
  exact hsorted a

end Insert

/-! ## The order of two members -/

/-- A new leaf on `sp` leads to a reindex that lays out the children of `w`: there is no
capacity at `sp`, and `w` is below whatever has room from `sp` upwards. -/
def LaysOut (tp : BlockId → Option BlockId) (r : Reachability) (sp w : BlockId) : Prop :=
  ¬ valueAt r.nextFree sp ≤ r.stop sp ∧ ∀ x, ReflTransGen (TreeEdge tp) x sp → r.HasRoom x →
    ReflTransGen (TreeEdge tp) x w

/-- If a new leaf on `sp` has the children laid out where `u` and `v` part, the branch of
`u` has the smaller id. -/
def KeepsOrder (tp : BlockId → Option BlockId) (r : Reachability) (sp u v : BlockId) : Prop :=
  ∀ w cu cv, PartAt tp w cu cv u v → r.LaysOut tp sp w → cu < cv

section Order

variable {tp tp' : BlockId → Option BlockId} {V : Finset BlockId} {root : BlockId}
  {r : Reachability} {t sp u v : BlockId}

/-- At and below the anchor a reindex puts siblings into the order of their ids. -/
theorem Labelled.sibling_lt_iff (h : Labelled tp V root r) (hleaf : LeafAdded tp tp' V t sp)
    (hcap : V.card + 1 ≤ rootCapacity) (hsorted : r.ChildrenSorted)
    (hfull : ¬ valueAt r.nextFree sp ≤ r.stop sp) {w c c' : BlockId}
    (hc : tp c = some w) (hc' : tp c' = some w) (hne : c ≠ c')
    (hreach : ReflTransGen (TreeEdge tp) (r.anchorOf t sp) w) :
    ((r.registerLeaf t sp).allocate t sp).stop c <
      ((r.registerLeaf t sp).allocate t sp).start c' ↔ c < c' := by
  obtain ⟨hw, hcV⟩ := h.tree.edge_mem w c hc
  have hc'V := (h.tree.edge_mem w c' hc').2
  have hnew : ∀ x ∈ V, x ≠ t := fun x hx heq => hleaf.fresh (heq ▸ hx)
  have hat := (hleaf.mem_of_above h.tree (h.anchor_spec hleaf hcap).1).1
  have hreach' : ReflTransGen (TreeEdge tp') (r.anchorOf t sp) w := by
    rw [hleaf.reaches_iff h.tree hat, if_neg (hnew w hw)]
    exact hreach
  have hdata' := h.temporary_data hleaf
  have hlabels := h.addLeaf hleaf hcap
  have hsorted' := h.childrenSorted_registerLeaf hleaf hsorted w
  have hordered := h.reindex_ordered hleaf hcap hfull hw hreach'
  have hmem : ∀ x ∈ V, tp x = some w → x ∈ valueAt (r.registerLeaf t sp).treeChildren w := by
    intro x hx hxw
    refine (hdata'.mem_iff w (Finset.mem_insert_of_mem hw) x).2 ?_
    rw [hleaf.old x (hnew x hx)]
    exact hxw
  have hle := (hlabels.labelledAt c (Finset.mem_insert_of_mem hcV)).start_le
  have hle' := (hlabels.labelledAt c' (Finset.mem_insert_of_mem hc'V)).start_le
  generalize (r.registerLeaf t sp).allocate t sp = r' at hordered hle hle' ⊢
  -- one of the two comes first in the list, and both orders follow it
  have hboth : (valueAt (r.registerLeaf t sp).treeChildren w).Pairwise fun a b =>
      (a < b ∧ r'.stop a < r'.start b) ∨ (b < a ∧ r'.stop b < r'.start a) :=
    (hsorted'.and hordered).imp .inl
  have hsymm : Std.Symm fun a b : BlockId =>
      (a < b ∧ r'.stop a < r'.start b) ∨ (b < a ∧ r'.stop b < r'.start a) :=
    ⟨fun _ _ hab => hab.symm⟩
  rcases hboth.forall (hmem c hcV hc) (hmem c' hc'V hc') hne with ⟨hlt, hstop⟩ | ⟨hgt, hstop⟩
  · exact iff_of_true hstop hlt
  · refine iff_of_false ?_ (lt_asymm hgt)
    omega

/-- Steps 1 and 2 of `add_block` keep the children of `w` where they are, unless they lay
them out. -/
theorem Labelled.lookup_of_not_laysOut (h : Labelled tp V root r)
    (hleaf : LeafAdded tp tp' V t sp) (hcap : V.card + 1 ≤ rootCapacity) {w c : BlockId}
    (hc : tp c = some w) (hnot : ¬ r.LaysOut tp sp w) :
    ((r.registerLeaf t sp).allocate t sp).intervals.lookup c = r.intervals.lookup c := by
  have hct : c ≠ t := fun heq => hleaf.fresh (heq ▸ (h.tree.edge_mem w c hc).2)
  by_cases hroom : valueAt r.nextFree sp ≤ r.stop sp
  · exact r.allocate_kept hroom hct
  · have hat := (hleaf.mem_of_above h.tree (h.anchor_spec hleaf hcap).1).1
    refine (h.allocate_reindex hleaf hcap hroom).2 c hct ?_
    by_cases heq : c = r.anchorOf t sp
    · exact .inl heq
    · refine .inr fun hreach => hnot ⟨hroom, (h.anchorOf_reaches_iff hleaf w).1 ?_⟩
      rw [hleaf.reaches_iff h.tree hat, if_neg hct] at hreach
      have hlt := (reflTransGen_iff_eq_or_transGen.1 hreach).resolve_left heq
      exact (transGen_treeEdge_iff hc).1 hlt

/-- Two blocks beside each other stay in their order exactly when the step keeps it. -/
theorem Labelled.start_lt_iff (h : Labelled tp V root r) (hleaf : LeafAdded tp tp' V t sp)
    (hcap : V.card + 1 ≤ rootCapacity) (hsorted : r.ChildrenSorted) (hu : u ∈ V) (hv : v ∈ V)
    (huv : Unrelated tp u v) (hlt : r.start u < r.start v) :
    ((r.registerLeaf t sp).allocate t sp).start u < ((r.registerLeaf t sp).allocate t sp).start v ↔
      r.KeepsOrder tp sp u v := by
  have hlabels := (h.addLeaf hleaf hcap).intervalLabels
  have hbranch : ∀ w cu cv, PartAt tp w cu cv u v →
      (((r.registerLeaf t sp).allocate t sp).start u <
          ((r.registerLeaf t sp).allocate t sp).start v ↔
        ((r.registerLeaf t sp).allocate t sp).stop cu <
          ((r.registerLeaf t sp).allocate t sp).start cv) := fun w cu cv hpart =>
    (hlabels.partAt_lt_iff (Finset.mem_insert_of_mem hu) (Finset.mem_insert_of_mem hv)
      (hleaf.partAt h.tree hu hv hpart)).1
  have hids : ∀ w cu cv, PartAt tp w cu cv u v → r.LaysOut tp sp w →
      (((r.registerLeaf t sp).allocate t sp).stop cu <
        ((r.registerLeaf t sp).allocate t sp).start cv ↔ cu < cv) := fun w cu cv hpart hlays =>
    h.sibling_lt_iff hleaf hcap hsorted hlays.1 hpart.left hpart.right hpart.ne
      ((h.anchorOf_reaches_iff hleaf w).2 hlays.2)
  constructor
  · intro hafter w cu cv hpart hlays
    exact (hids w cu cv hpart hlays).1 ((hbranch w cu cv hpart).1 hafter)
  · intro hkeeps
    obtain ⟨w, cu, cv, hpart⟩ := h.tree.exists_partAt hu hv huv
    rw [hbranch w cu cv hpart]
    by_cases hlays : r.LaysOut tp sp w
    · exact (hids w cu cv hpart hlays).2 (hkeeps w cu cv hpart hlays)
    · rw [stop_congr (h.lookup_of_not_laysOut hleaf hcap hpart.left hlays),
        start_congr (h.lookup_of_not_laysOut hleaf hcap hpart.right hlays)]
      exact (h.intervalLabels.partAt_lt_iff hu hv hpart).1.1 hlt

end Order

end Reachability

/-! ## The covering sets of a DAG -/

namespace DagView

/-- `x` is in the future of `a`, outside of its subtree of the selected-parent tree.  For these
blocks the labels alone do not tell ancestry. -/
def Outside (d : DagView) (a x : BlockId) : Prop :=
  d.Anc a x ∧ ¬ ReflTransGen (TreeEdge d.selectedParentOf) a x

/-- The covering sets as they are documented: sorted by interval start, without nested intervals,
and together the part of the future that the tree misses. -/
structure CoveringSets (d : DagView) : Prop where
  exact : ∀ a c, c ∈ d.reach.covers a ↔ IsRootOf d.selectedParentOf (d.Outside a) c
  disjoint : ∀ a, (d.reach.covers a).Pairwise fun u v =>
    d.reach.stop u < d.reach.start v ∨ d.reach.stop v < d.reach.start u
  sorted : ∀ a, (d.reach.covers a).Pairwise fun u v => d.reach.start u < d.reach.start v

/-- What holds of the lists of an oracle whatever a reindex does to the labels: a covering set
lists the roots of its future, each once, and children are kept in the order of their ids. -/
structure RootsCovered (d : DagView) : Prop where
  mem_iff : ∀ a c, c ∈ d.reach.covers a ↔ IsRootOf d.selectedParentOf (d.Outside a) c
  nodup : ∀ a, (d.reach.covers a).Nodup
  children : d.reach.ChildrenSorted

variable [Crypto] {d : DagView}

theorem WellFormed.outside_child (h : d.WellFormed) (a : BlockId) :
    ∀ p c, d.selectedParentOf c = some p → d.Outside a p → d.Outside a c := by
  intro p c hc hp
  have hpc : d.Anc p c := h.tracks.covers.tree p c (.single hc)
  refine ⟨hp.1.trans hpc, fun hreach => ?_⟩
  rcases reflTransGen_iff_eq_or_transGen.1 hreach with heq | hlt
  · rw [heq] at hpc
    exact h.acyclic p (hpc.trans hp.1)
  · exact hp.2 ((transGen_treeEdge_iff hc).1 hlt)

/-- Two members of one covering set are in different branches. -/
theorem RootsCovered.pairwise_unrelated (h : d.RootsCovered) (hd : d.WellFormed) (a : BlockId) :
    (d.reach.covers a).Pairwise fun u v =>
      (u ∈ d.nodes.keys ∧ v ∈ d.nodes.keys) ∧ Unrelated d.selectedParentOf u v := by
  refine (h.nodup a).imp_of_mem fun {u v} hu hv hne => ⟨⟨?_, ?_⟩, ?_⟩
  · exact (hd.tracks.covers.sound a u hu).2
  · exact (hd.tracks.covers.sound a v hv).2
  · exact ((h.mem_iff a u).1 hu).unrelated (hd.outside_child a) ((h.mem_iff a v).1 hv) hne

/-- The sets are exact and their intervals apart in any case; the order is all there is to
show. -/
theorem RootsCovered.coveringSets_iff (h : d.RootsCovered) (hd : d.WellFormed) :
    d.CoveringSets ↔
      ∀ a, (d.reach.covers a).Pairwise fun u v => d.reach.start u < d.reach.start v := by
  refine ⟨CoveringSets.sorted, fun hsorted => ⟨h.mem_iff, fun a => ?_, hsorted⟩⟩
  refine (h.pairwise_unrelated hd a).imp fun {u v} huv => ?_
  exact hd.tracks.labelled.intervalLabels.disjoint_of_unrelated hd.tracks.labelled.tree huv.1.1
    huv.1.2 huv.2

end DagView

namespace Dag

variable [Crypto] {d : Dag} {block : Block} {sp : BlockId} {g : GhostdagData} {ord : HashOrder}

/-- What a merged block has covered so far is beside the new block. -/
theorem unrelated_wire (h : Admits ord d block sp g) (hd : d.WellFormed) :
    ∀ a ∈ g.mergesetBlues ++ g.mergesetReds, ∀ c ∈ d.reach.covers a,
      c ∈ Insert.insert block.id d.nodes.keys ∧
        Unrelated (d.wire block sp g).selectedParentOf c block.id := fun a ha _ hc =>
  hd.tracks.unrelated (fun _ _ _ => TransGen.trans) (leafAdded_wire h)
    ((h.mergeset_spec hd.exact).2 a ha) hc

theorem covers_wire (h : Admits ord d block sp g) (hd : d.WellFormed) (a : BlockId) :
    (d.wire block sp g).reach.covers a =
      if a ∈ g.mergesetBlues ++ g.mergesetReds then
        (((d.reach.registerLeaf block.id sp).allocate block.id sp).covers a).insertIdx
          (((d.reach.registerLeaf block.id sp).allocate block.id sp).coverPos a block.id) block.id
      else d.reach.covers a :=
  hd.tracks.covers_addBlock (fun _ _ _ => TransGen.trans) (leafAdded_wire h) (le_of_lt h.room)
    (h.mergeset_spec hd.exact) a

theorem mem_covers_wire (h : Admits ord d block sp g) (hd : d.WellFormed) (a c : BlockId) :
    c ∈ (d.wire block sp g).reach.covers a ↔
      c ∈ d.reach.covers a ∨ (a ∈ g.mergesetBlues ++ g.mergesetReds ∧ c = block.id) :=
  hd.tracks.mem_covers_addBlock (fun _ _ _ => TransGen.trans) (leafAdded_wire h)
    (le_of_lt h.room) (h.mergeset_spec hd.exact) a c

/-- A block on one parent merges nothing, and nothing is covered by it. -/
theorem covers_wire_child (h : Admits ord d block sp g) (hd : d.WellFormed) {p : BlockId}
    (hparents : block.parents = [p]) :
    sp = p ∧ ∀ a, (d.wire block sp g).reach.covers a = d.reach.covers a := by
  have hsp := h.selectedParent_mem
  rw [hparents] at hsp
  obtain rfl := List.mem_singleton.1 hsp
  refine ⟨rfl, fun a => ?_⟩
  rw [covers_wire h hd, if_neg]
  intro ha
  obtain ⟨hne, hnot⟩ := (h.mergeset_spec hd.exact).2 a ha
  obtain ⟨p, hp, hor⟩ := ((addsTop_wire h hd.parents_mem).top).1
    ((anc_wire_iff h hd.exact a).2 (.inr (.inr ha)))
  rw [hparents] at hp
  obtain rfl := List.mem_singleton.1 hp
  exact hor.elim hne hnot

/-- The new block is a root for the merged blocks, and no other root comes or goes. -/
theorem isRootOf_wire_iff (h : Admits ord d block sp g) (hd : d.WellFormed) (a c : BlockId) :
    IsRootOf (d.wire block sp g).selectedParentOf ((d.wire block sp g).Outside a) c ↔
      IsRootOf d.selectedParentOf (d.Outside a) c ∨
        (a ∈ g.mergesetBlues ++ g.mergesetReds ∧ c = block.id) := by
  have hleaf := leafAdded_wire h
  have htree := hd.tracks.labelled.tree
  have htop := addsTop_wire h hd.parents_mem
  have hanc := anc_wire_iff h hd.exact
  have hfresh : ∀ x, ¬ d.Anc block.id x ∧ ¬ d.Anc x block.id := fun x =>
    ⟨fun hx => h.fresh (hd.exact.mem_of_anc hx), fun hx => by
      obtain ⟨p, _, hp⟩ := TransGen.tail'_iff.1 hx
      exact h.fresh hp.mem⟩
  have hsame : ∀ x, a ≠ block.id → x ≠ block.id →
      ((d.wire block sp g).Outside a x ↔ d.Outside a x) := by
    intro x ha hx
    rw [DagView.Outside, DagView.Outside, hleaf.reaches_iff htree ha, if_neg hx]
    exact and_congr_left fun _ => htop.old hx
  by_cases ha : a = block.id
  · subst ha
    constructor
    · exact fun hroot => absurd hroot.1.1 (htop.not_ancestor c)
    · rintro (hroot | ⟨hmerged, _⟩)
      · exact absurd hroot.1.1 (hfresh c).1
      · exact absurd ((hanc _).2 (.inr (.inr hmerged))) (htop.not_ancestor _)
  · by_cases hc : c = block.id
    · subst hc
      have hsp : sp ≠ block.id := fun heq => hleaf.fresh (heq ▸ hleaf.parent_mem)
      have hreach := hleaf.reaches_iff htree ha (y := block.id)
      rw [if_pos rfl] at hreach
      constructor
      · intro hroot
        have hnot := hroot.2 sp hleaf.new
        rw [hsame sp ha hsp] at hnot
        have hbeside := hroot.1.2
        rw [hreach] at hbeside
        rcases (hanc a).1 hroot.1.1 with rfl | hsp' | hmerged
        · exact absurd .refl hbeside
        · exact absurd ⟨hsp', hbeside⟩ hnot
        · exact .inr ⟨hmerged, rfl⟩
      · rintro (hroot | ⟨hmerged, _⟩)
        · exact absurd hroot.1.1 (hfresh a).2
        · obtain ⟨hne, hnot⟩ := (h.mergeset_spec hd.exact).2 a hmerged
          refine ⟨⟨(hanc a).2 (.inr (.inr hmerged)), fun hbelow => ?_⟩, fun p hp hout => ?_⟩
          · rcases reflTransGen_iff_eq_or_transGen.1 (hreach.1 hbelow) with heq | hlt
            · exact hne heq.symm
            · exact hnot (hd.tracks.covers.tree a sp hlt)
          · obtain rfl := Option.some.inj (hleaf.new.symm.trans hp)
            exact hnot ((hsame sp ha hsp).1 hout).1
    · rw [or_iff_left fun hand => hc hand.2, IsRootOf, IsRootOf, hsame c ha hc, hleaf.old c hc]
      refine and_congr_right fun _ => forall_congr' fun p => imp_congr_right fun hp => ?_
      have hpt : p ≠ block.id := fun heq => hleaf.fresh (heq ▸ (htree.edge_mem p c hp).1)
      rw [hsame p ha hpt]

/-- The children stay sorted. -/
theorem childrenSorted_wire (h : Admits ord d block sp g) (hd : d.WellFormed)
    (hchildren : d.reach.ChildrenSorted) : (d.wire block sp g).reach.ChildrenSorted := by
  have heq : (d.wire block sp g).reach.treeChildren =
      (d.reach.registerLeaf block.id sp).treeChildren :=
    d.reach.addBlock_treeChildren block.id sp _
  rw [Reachability.ChildrenSorted, heq]
  exact hd.tracks.labelled.childrenSorted_registerLeaf (leafAdded_wire h) hchildren

/-- The lists stay exact. -/
theorem rootsCovered_wire (h : Admits ord d block sp g) (hd : d.WellFormed)
    (hroots : d.RootsCovered) : (d.wire block sp g).RootsCovered := by
  refine ⟨fun a c => ?_, fun a => ?_, childrenSorted_wire h hd hroots.children⟩
  · rw [mem_covers_wire h hd, isRootOf_wire_iff h hd, hroots.mem_iff]
  · rw [covers_wire h hd]
    split
    · rw [(Reachability.perm_coverPos _ a block.id).nodup_iff, List.nodup_cons,
        Reachability.covers_allocate]
      refine ⟨fun hmem => ?_, hroots.nodup a⟩
      exact h.fresh (Finmap.mem_keys.1 (hd.tracks.covers.sound a _ hmem).2)
    · exact hroots.nodup a

/-- The labels of a step keep a covering set in order exactly if they keep any two of its
members in order. -/
theorem relabelled_iff (h : Admits ord d block sp g) (hd : d.WellFormed) (hroots : d.RootsCovered)
    {a : BlockId}
    (hsorted : (d.reach.covers a).Pairwise fun u v => d.reach.start u < d.reach.start v) :
    ((d.reach.covers a).Pairwise fun u v =>
      ((d.reach.registerLeaf block.id sp).allocate block.id sp).start u <
        ((d.reach.registerLeaf block.id sp).allocate block.id sp).start v) ↔
    (d.reach.covers a).Pairwise (d.reach.KeepsOrder d.selectedParentOf sp) := by
  have hstep := fun u v => hd.tracks.labelled.start_lt_iff (u := u) (v := v) (leafAdded_wire h)
    (le_of_lt h.room) hroots.children
  have hbefore := (hroots.pairwise_unrelated hd a).and hsorted
  constructor
  · intro hafter
    refine (hbefore.and hafter).imp ?_
    rintro u v ⟨⟨⟨⟨hu, hv⟩, huv⟩, hlt⟩, hlt'⟩
    exact (hstep u v hu hv huv hlt).1 hlt'
  · intro hkeeps
    refine (hbefore.and hkeeps).imp ?_
    rintro u v ⟨⟨⟨⟨hu, hv⟩, huv⟩, hlt⟩, hkeep⟩
    exact (hstep u v hu hv huv hlt).2 hkeep

theorem start_wire (d : Dag) (block : Block) (sp : BlockId) (g : GhostdagData) (x : BlockId) :
    (d.wire block sp g).reach.start x =
      ((d.reach.registerLeaf block.id sp).allocate block.id sp).start x :=
  Reachability.start_congr (congrArg (Finmap.lookup x) (d.reach.addBlock_intervals block.id sp _))

/-- A step leaves a covering set in order exactly if its labels keep the old members in order:
the search finds the place of the new one. -/
theorem sorted_wire_iff (h : Admits ord d block sp g) (hd : d.WellFormed) (a : BlockId) :
    (((d.wire block sp g).reach.covers a).Pairwise fun u v =>
      (d.wire block sp g).reach.start u < (d.wire block sp g).reach.start v) ↔
    (d.reach.covers a).Pairwise fun u v =>
      ((d.reach.registerLeaf block.id sp).allocate block.id sp).start u <
        ((d.reach.registerLeaf block.id sp).allocate block.id sp).start v := by
  have hlabelled := hd.tracks.labelled.addLeaf (leafAdded_wire h) (le_of_lt h.room)
  simp only [start_wire]
  rw [covers_wire h hd, ← d.reach.covers_allocate block.id sp a]
  split
  · rename_i ha
    constructor
    · exact fun hpw => hpw.sublist (List.sublist_insertIdx ..)
    · intro hpw
      refine pairwise_insertIdx hpw (fun _ _ _ => lt_trans) ?_ ?_ ?_
      · intro c hc hle
        rw [d.reach.covers_allocate] at hc
        obtain ⟨hcV, hbeside⟩ := unrelated_wire h hd a ha c hc
        have hapart := hlabelled.intervalLabels.disjoint_of_unrelated hlabelled.tree hcV
          (Finset.mem_insert_self ..) hbeside
        have hself := (hlabelled.labelledAt c hcV).start_le
        have hnew := (hlabelled.labelledAt block.id (Finset.mem_insert_self ..)).start_le
        have hle' := of_decide_eq_true hle
        omega
      · exact fun c _ hgt => not_le.1 (of_decide_eq_false hgt)
      · exact fun c c' hlt hle => decide_eq_true (hlt.le.trans (of_decide_eq_true hle))
  · exact Iff.rfl

end Dag

end Kovanica
