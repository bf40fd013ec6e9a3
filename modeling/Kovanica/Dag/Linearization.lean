import Kovanica.Dag.Order

/-!
# What the linearization says

It lists the blocks of the DAG, each after its parents: the order of the
selected tip and then the tip's anticone by `(past_size, id)`.  The mergesets on
the spine are disjoint, and the part up to a block of the selected chain is never
written again.

## Main results

* `linearize_eq_append`, `linearize_at_tip`: the order of the selected tip and then the rest.
* `disjoint_mergesetOrder`: no block is in two mergesets of the spine.
* `parents_before`: every block stands behind its parents.
* `upTo_linearize`: the part up to a chain block is the order of that block.
-/

namespace Kovanica

open Lib Relation

namespace DagView

/-- The blocks of a set by `(past_size, id)`.  The key is injective, so there is one such list,
and ancestors come first in it. -/
def topoSorted (d : DagView) (s : Finset BlockId) : List BlockId :=
  sortByKey d.topoKey (ascending s)

/-- Sorting by the topological key forgets the order it starts from. -/
theorem sortByKey_topoKey_eq {d : DagView} {l : List BlockId} {s : Finset BlockId}
    (hnodup : l.Nodup) (hmem : ∀ x, x ∈ l ↔ x ∈ s) : sortByKey d.topoKey l = d.topoSorted s := by
  apply sortByKey_eq_of_mem_iff hnodup (nodup_ascending s)
  · intro x
    rw [hmem, mem_ascending]
  · intro x _ y _ hxy
    exact d.topoKey_injective hxy

theorem chainTo_sublist (d : DagView) (x : BlockId) :
    (d.chainTo x).Sublist (d.order x) := by
  show (d.chainTo x).Sublist ((d.chainTo x).flatMap fun b => d.mergesetOrder b ++ [b])
  generalize d.chainTo x = chain
  induction chain with
  | nil => exact .slnil
  | cons b chain ih =>
      rw [List.flatMap_cons, List.append_assoc]
      exact (ih.cons_cons b).trans (List.sublist_append_right _ _)

variable [Crypto] {d : DagView}

namespace WellFormed

/-- The mergeset of a block: its past less the selected parent and that one's past. -/
theorem mergesetOrder_eq_topoSorted (h : d.WellFormed) {x sp : BlockId}
    (hx : d.selectedParentOf x = some sp) :
    d.mergesetOrder x = d.topoSorted (d.past x \ insert sp (d.past sp)) := by
  have hnodup := h.nodup_mergesetOrder x
  have hmem : ∀ a, a ∈ d.mergesetOrder x ↔ a ∈ d.past x \ insert sp (d.past sp) := by
    intro a
    rw [Finset.mem_sdiff, Finset.mem_insert, h.exact.mem_past, h.exact.mem_past, h.anc_iff hx]
    constructor
    · intro ha
      exact ⟨.inr (.inr ha), not_or.2 (h.not_anc_of_mem_mergesetOrder hx ha)⟩
    · rintro ⟨rfl | hsp | ha, hnot⟩
      · exact absurd (.inl rfl) hnot
      · exact absurd (.inr hsp) hnot
      · exact ha
  rw [mergesetOrder_eq hx (h.selectedParent_mem hx).2, mergesetOrdered] at hnodup hmem ⊢
  apply sortByKey_topoKey_eq
  · exact (sortByKey_perm d.topoKey _).nodup_iff.1 hnodup
  · intro a
    rw [← hmem a, mem_sortByKey]

/-- Behind the order of the selected tip come the blocks of its anticone. -/
theorem linearize_eq_append (h : d.WellFormed) (ord : HashOrder) :
    d.linearize ord = d.order d.selectedTip ++ d.topoSorted (d.anticone d.selectedTip) := by
  have htip := h.selectedTip_mem
  -- a tip is nobody's ancestor
  have hnone : ∀ x, ¬ d.Anc d.selectedTip x := by
    intro x hanc
    obtain ⟨y, hedge, _⟩ := TransGen.head'_iff.1 hanc
    exact ((h.tips_iff _).1 h.selectedTip_spec.1).2 y hedge
  rw [linearize_eq, tail]
  congr 1
  apply sortByKey_topoKey_eq
  · exact (ord.nodup_iter _).filter _
  · intro x
    rw [List.mem_filter, HashOrder.mem_iter, Finmap.mem_keys, decide_eq_true_eq,
      List.mem_toFinset, h.mem_order htip, mem_anticone, not_or]
    have := hnone x
    tauto

/-- The heaviest of all tips is the selected one. -/
theorem selectParent_tips (h : d.WellFormed) {parents : List BlockId}
    (hparents : ∀ p, p ∈ parents ↔ p ∈ d.tips) : d.selectParent parents = some d.selectedTip := by
  obtain ⟨htip, hmax⟩ := h.selectedTip_spec
  apply maxByKey_eq_some ((hparents _).2 htip)
  · intro p hp
    exact hmax p ((hparents p).1 hp)
  · intro p q _ _ hpq
    exact d.chainKey_injective hpq

/-- What all tips add to the heaviest of them is the tail of the linearization. -/
theorem mergesetOrdered_tips (h : d.WellFormed) (ord : HashOrder) {parents : List BlockId}
    (hparents : ∀ p, p ∈ parents ↔ p ∈ d.tips) :
    d.mergesetOrdered d.selectedTip parents =
      d.tail ord (d.order d.selectedTip).toFinset := by
  have htip := h.selectedTip_mem
  have hstored : ∀ p ∈ parents, p ∈ d.nodes := fun p hp =>
    ((h.tips_iff p).1 ((hparents p).1 hp)).1
  have hnodup : (d.mergesetOrdered d.selectedTip parents).Nodup :=
    h.exact.nodup_mergesetOrdered hstored
  have hmem : ∀ x, x ∈ d.mergesetOrdered d.selectedTip parents ↔
      x ∈ d.nodes ∧ x ∉ (d.order d.selectedTip).toFinset := by
    intro x
    rw [h.exact.mem_mergesetOrdered htip hstored, List.mem_toFinset, h.mem_order htip, not_or]
    refine and_congr_left fun _ => ⟨fun ⟨p, hp, hx⟩ => ?_, fun hx => ?_⟩
    · rcases hx with rfl | hanc
      · exact hstored _ hp
      · exact h.exact.mem_of_anc hanc
    · obtain ⟨t, ht, hbelow⟩ := h.exists_tip hx
      exact ⟨t, (hparents t).2 ht, hbelow⟩
  rw [mergesetOrdered, (sortByKey_perm d.topoKey _).nodup_iff] at hnodup
  simp only [mergesetOrdered, mem_sortByKey] at hmem
  rw [mergesetOrdered, tail]
  apply sortByKey_eq_of_mem_iff hnodup
  · exact (ord.nodup_iter _).filter _
  · intro x
    rw [hmem, List.mem_filter, HashOrder.mem_iter, Finmap.mem_keys,
      decide_eq_true_eq]
  · intro x _ y _ hxy
    exact d.topoKey_injective hxy

/-- A block is not among those before it. -/
theorem notMem_orderBefore (h : d.WellFormed) {x : BlockId} (hx : x ∈ d.nodes) :
    x ∉ d.orderBefore x := by
  intro hin
  have hnodup := h.nodup_order hx
  rw [h.order_eq hx, List.nodup_append] at hnodup
  exact hnodup.2.2 x hin x (List.mem_singleton.2 rfl) rfl

/-- The selected tip parts the linearization: before it its own order, after it the tail. -/
theorem linearize_at_tip (h : d.WellFormed) (ord : HashOrder) :
    d.linearize ord = d.orderBefore d.selectedTip ++
      d.selectedTip :: d.tail ord (d.order d.selectedTip).toFinset := by
  rw [linearize_eq, h.order_eq h.selectedTip_mem, List.append_assoc, List.singleton_append]

/-- A block comes after its parents. -/
theorem parents_before (h : d.WellFormed) {ord : HashOrder} {x : BlockId}
    {before after : List BlockId} (hsplit : d.linearize ord = before ++ x :: after) :
    ∀ p ∈ d.parentsOf x, p ∈ before := by
  intro p hp
  have hedge := mem_parentsOf.1 hp
  have hin : p ∈ before ++ x :: after := by
    rw [← hsplit, h.mem_linearize]
    exact h.parents_mem p x hedge
  have hpairs := h.pairwise_linearize ord
  rw [hsplit, List.pairwise_append, List.pairwise_cons] at hpairs
  rcases List.mem_append.1 hin with hbefore | hrest
  · exact hbefore
  · rcases List.mem_cons.1 hrest with rfl | hafter
    · exact absurd (.single hedge) (h.acyclic p)
    · exact absurd (.single hedge) (hpairs.2.1.1 p hafter)

/-- The mergesets on a chain are disjoint. -/
theorem disjoint_mergesetOrder (h : d.WellFormed) {x a b : BlockId} (hx : x ∈ d.nodes)
    (ha : a ∈ d.chainTo x) (hb : b ∈ d.chainTo x) (hab : a ≠ b) :
    (d.mergesetOrder a).Disjoint (d.mergesetOrder b) := by
  have hnodup := h.nodup_order hx
  rw [order, spine, List.nodup_flatMap] at hnodup
  have hsymm : Std.Symm (Function.onFun List.Disjoint fun b => d.mergesetOrder b ++ [b]) :=
    ⟨fun _ _ hdisj => hdisj.symm⟩
  intro c hca hcb
  exact hnodup.2.forall ha hb hab (List.mem_append_left _ hca) (List.mem_append_left _ hcb)

/-- The order of a chain block is the linearization up to that block. -/
theorem upTo_linearize (h : d.WellFormed) (ord : HashOrder) {x : BlockId}
    (hx : x ∈ d.selectedChain) : upTo (d.linearize ord) x = d.order x := by
  have htip := h.selectedTip_mem
  have hmem := h.mem_of_mem_chainTo htip hx
  obtain ⟨rest, hrest⟩ := h.order_prefix ((h.mem_chainTo htip).1 hx)
  rw [linearize_eq, ← hrest, h.order_eq hmem, List.append_assoc, List.append_assoc,
    List.singleton_append, upTo_append_cons (h.notMem_orderBefore hmem)]

end WellFormed

end DagView

namespace Dag

variable [Crypto] {d d' : Dag}

/-- The linearization is a permutation of the blocks in which every block follows its
parents: the order of the selected tip, then the tip's anticone sorted by
`(past_size, id)`; the order of a block is its selected parent's, then its mergeset,
then the block; and the chain is a subsequence whose mergesets are disjoint. -/
theorem linearize_spec (h : Reachable d) (ord : HashOrder) :
    (d.linearize ord).Perm (ascending d.nodes.keys) ∧
      (∀ before x after, d.linearize ord = before ++ x :: after →
        ∀ p ∈ d.parentsOf x, p ∈ before) ∧
      d.linearize ord = d.order d.selectedTip ++ d.topoSorted (d.anticone d.selectedTip) ∧
      d.order d.genesis = [d.genesis] ∧
      (∀ x ∈ d.nodes, x ≠ d.genesis → ∃ sp, d.selectedParentOf x = some sp ∧
        d.order x = d.order sp ++ d.mergesetOrder x ++ [x] ∧
        d.mergesetOrder x = d.topoSorted (d.past x \ Insert.insert sp (d.past sp))) ∧
      d.selectedChain.Sublist (d.linearize ord) ∧
      ∀ a ∈ d.selectedChain, ∀ b ∈ d.selectedChain, a ≠ b →
        (d.mergesetOrder a).Disjoint (d.mergesetOrder b) := by
  have hd := h.wellFormed
  refine ⟨?_, fun _ _ _ hsplit => hd.parents_before hsplit, hd.linearize_eq_append ord,
    hd.order_genesis, fun x hx hne => ?_, ?_, fun a ha b hb hab =>
    hd.disjoint_mergesetOrder hd.selectedTip_mem ha hb hab⟩
  · rw [List.perm_ext_iff_of_nodup (hd.nodup_linearize ord) (nodup_ascending _)]
    intro x
    rw [hd.mem_linearize, mem_ascending, Finmap.mem_keys]
  · obtain ⟨sp, hsp, _⟩ := hd.exists_selectedParent hx hne
    exact ⟨sp, hsp, hd.order_step hsp, hd.mergesetOrder_eq_topoSorted hsp⟩
  · rw [DagView.WellFormed.linearize_eq]
    exact (DagView.chainTo_sublist _ _).trans (List.sublist_append_left _ _)

end Dag

namespace Dag

open scoped Reference

/-- Two blocks and one that merges them. -/
theorem linearize_spec_merge : ∃ d : Dag, d.len = 4 ∧
    d.linearize .sorted = d.order d.selectedTip ++ d.topoSorted (d.anticone d.selectedTip) := by
  have hplay : ((Dag.new .sorted 1 Reference.genesis).insertAll .sorted
      [Reference.left, Reference.right, Reference.merge]).map (fun d => d.len) = some 4 := by
    decide +kernel
  obtain ⟨d, hd, hlen⟩ := Option.map_eq_some_iff.1 hplay
  have hreach : Reachable d := ⟨.sorted, 1, 1, 0, 0, Reference.noTxs.payload, _,
    Run.start.insertAll hd⟩
  exact ⟨d, hlen, (linearize_spec hreach .sorted).2.2.1⟩

end Dag

namespace Dag

variable [Crypto] {d d' : Dag}

/-- What comes up to a block that is on the selected chain before and after further
inserts is the same list, and no stored block changes its consensus data. -/
theorem confirmed_prefix_stable (h : Reachable d) {blocks : List Block}
    (hrun : Run d blocks d') {c : BlockId} (hc : c ∈ d.selectedChain)
    (hc' : c ∈ d'.selectedChain) (ord ord' : HashOrder) :
    upTo (d.linearize ord) c = upTo (d'.linearize ord') c ∧
      ∀ x ∈ d.nodes, d'.ghostdag x = d.ghostdag x ∧
        (d'.node x).pastSize = (d.node x).pastSize := by
  have hd := h.wellFormed
  have hd' := hrun.wellFormed hd
  have hagree := hrun.agreeOn hd
  constructor
  · rw [hd.upTo_linearize ord hc, hd'.upTo_linearize ord' hc']
    exact hagree.order_eq hd hd' (hd.mem_of_mem_chainTo hd.selectedTip_mem hc)
  · intro x hx
    obtain ⟨n, n', hn, hn', hcore⟩ := hagree.core x hx
    rw [DagView.ghostdag, DagView.ghostdag, DagView.node_of_lookup hn, DagView.node_of_lookup hn',
      hn, hn', Option.map_some, Option.map_some, hcore.ghostdag, hcore.pastSize]
    exact ⟨rfl, rfl⟩

end Dag

namespace Dag

open scoped Reference

/-- The selected one of two blocks, before and after the merge. -/
theorem confirmed_prefix_stable_merge : ∃ d d' : Dag, d.len = 3 ∧ d'.len = 4 ∧
    upTo (d.linearize .sorted) d.selectedTip = upTo (d'.linearize .sorted) d.selectedTip := by
  have hplay : ((Dag.new .sorted 1 Reference.genesis).insertAll .sorted
      [Reference.left, Reference.right]).bind (fun d =>
        (d.insertAll .sorted [Reference.merge]).map fun d' => (d.len, d'.len,
          decide (d.selectedTip ∈ d.selectedChain ∧ d.selectedTip ∈ d'.selectedChain))) =
            some (3, 4, true) := by
    decide +kernel
  obtain ⟨d, hd, hplay⟩ := Option.bind_eq_some_iff.1 hplay
  obtain ⟨d', hd', heq⟩ := Option.map_eq_some_iff.1 hplay
  obtain ⟨hlen, heq⟩ := Prod.mk.inj heq
  obtain ⟨hlen', hdec⟩ := Prod.mk.inj heq
  obtain ⟨hc, hc'⟩ := of_decide_eq_true hdec
  have hreach : Reachable d := ⟨.sorted, 1, 1, 0, 0, Reference.noTxs.payload, _,
    Run.start.insertAll hd⟩
  exact ⟨d, d', hlen, hlen',
    (confirmed_prefix_stable hreach (Run.start.insertAll hd') hc hc' .sorted .sorted).1⟩

end Dag

end Kovanica
