import Kovanica.Dag.Agreement
import Mathlib.Data.Finset.Max

/-!
# The recursive order

`order B` is the order of `B`'s selected parent, then `B`'s mergeset, then `B`.
It lists `B` and its past exactly once, it is the same in every DAG that holds
`B`, and the linearization is the order of the selected tip followed by the
rest.

## Main results

* `order_eq`: the order of a block ends with the block, behind what it merges.
* `mem_order`, `order_prefix`: it lists the block and its past, and for a chain block it is how
  the orders above begin.
* `pairwise_linearize`: no block comes before its ancestor.
* `linearize_ord`: the order of a hash map does not reach the linearization.
-/

namespace Kovanica

open Lib Relation

namespace DagView

/-- `order(B)`: the spine along the selected chain of `B`.  It depends on the past of `B` only, so
it is settled when `B` is stored. -/
def order (d : DagView) (id : BlockId) : List BlockId := d.spine (d.chainTo id)

/-- Everything `order(B)` lists before `B` itself: the blocks whose effects `B` is checked after,
in the order of these effects. -/
def orderBefore (d : DagView) (id : BlockId) : List BlockId :=
  match d.selectedParentOf id with
  | none => []
  | some sp => d.order sp ++ d.mergesetOrder id

variable [Crypto] {d d' : DagView}

namespace WellFormed

theorem tree (h : d.WellFormed) : RootedTree d.selectedParentOf d.nodes.keys d.genesis :=
  h.tracks.labelled.tree

theorem selectedParent_mem (h : d.WellFormed) {x sp : BlockId} (hx : d.selectedParentOf x = some sp) :
    sp ∈ d.nodes ∧ x ∈ d.nodes :=
  ⟨Finmap.mem_keys.1 (h.tree.edge_mem sp x hx).1, Finmap.mem_keys.1 (h.tree.edge_mem sp x hx).2⟩

/-- Every stored block but genesis has a selected parent: the parent with the
greatest chain key. -/
theorem exists_selectedParent (h : d.WellFormed) {x : BlockId} (hx : x ∈ d.nodes)
    (hgenesis : x ≠ d.genesis) : ∃ sp, d.selectedParentOf x = some sp ∧ sp ∈ d.parentsOf x ∧
      ∀ p ∈ d.parentsOf x, d.chainKey p ≤ d.chainKey sp := by
  have hdata := h.ghostdag_eq .sorted x _ (lookup_node hx) hgenesis
  have hsel := computeGhostdag_selectedParent hdata
  obtain ⟨sp, hsp⟩ := exists_maxByKey d.chainKey (h.parents_ne x _ (lookup_node hx) hgenesis)
  refine ⟨sp, ?_, maxByKey_mem hsp, le_of_maxByKey hsp⟩
  rw [selectedParentOf_eq (lookup_node hx), hsel]
  exact hsp

omit [Crypto] in
theorem mergesetOrder_eq {x sp : BlockId} (hx : d.selectedParentOf x = some sp)
    (hmem : x ∈ d.nodes) : d.mergesetOrder x = d.mergesetOrdered sp (d.parentsOf x) := by
  rw [selectedParentOf_eq (lookup_node hmem)] at hx
  rw [mergesetOrder, hx]

/-- The past of a block: its selected parent, that one's past, and its mergeset. -/
theorem anc_iff (h : d.WellFormed) {x sp : BlockId} (hx : d.selectedParentOf x = some sp)
    (a : BlockId) : d.Anc a x ↔ a = sp ∨ d.Anc a sp ∨ a ∈ d.mergesetOrder x := by
  obtain ⟨hsp, hmem⟩ := h.selectedParent_mem hx
  have hxg : x ≠ d.genesis := by
    rintro rfl
    rw [h.tree.root_none] at hx
    cases hx
  obtain ⟨sp', hsp', hparent, _⟩ := h.exists_selectedParent hmem hxg
  rw [Option.some.inj (hsp'.symm.trans hx)] at hparent
  have hparents : ∀ p ∈ d.parentsOf x, p ∈ d.nodes := fun p hp =>
    h.parents_mem p x (mem_parentsOf.1 hp)
  have hreach : d.Anc a x ↔ ∃ p ∈ d.parentsOf x, a = p ∨ d.Anc a p := by
    constructor
    · intro hax
      obtain ⟨p, hap, hp⟩ := TransGen.tail'_iff.1 hax
      exact ⟨p, mem_parentsOf.2 hp, (reflTransGen_iff_eq_or_transGen.1 hap).imp Eq.symm id⟩
    · rintro ⟨p, hp, rfl | hap⟩
      · exact .single (mem_parentsOf.1 hp)
      · exact .tail hap (mem_parentsOf.1 hp)
  rw [mergesetOrder_eq hx hmem, h.exact.mem_mergesetOrdered hsp hparents, hreach]
  constructor
  · intro hex
    by_cases hasp : a = sp
    · exact .inl hasp
    · by_cases hanc : d.Anc a sp
      · exact .inr (.inl hanc)
      · exact .inr (.inr ⟨hex, hasp, hanc⟩)
  · rintro (rfl | hanc | ⟨hex, _⟩)
    · exact ⟨a, hparent, .inl rfl⟩
    · exact ⟨sp, hparent, .inr hanc⟩
    · exact hex

/-- A merged block is neither the selected parent nor in its past. -/
theorem not_anc_of_mem_mergesetOrder (h : d.WellFormed) {x sp a : BlockId}
    (hx : d.selectedParentOf x = some sp) (ha : a ∈ d.mergesetOrder x) :
    a ≠ sp ∧ ¬ d.Anc a sp := by
  obtain ⟨hsp, hmem⟩ := h.selectedParent_mem hx
  rw [mergesetOrder_eq hx hmem, h.exact.mem_mergesetOrdered hsp fun p hp =>
    h.parents_mem p x (mem_parentsOf.1 hp)] at ha
  exact ha.2

theorem nodup_mergesetOrder (h : d.WellFormed) (x : BlockId) : (d.mergesetOrder x).Nodup := by
  by_cases hx : x ∈ d.nodes
  · cases hsp : d.selectedParentOf x with
    | none =>
        rw [selectedParentOf_eq (lookup_node hx)] at hsp
        rw [mergesetOrder, hsp]
        exact List.nodup_nil
    | some sp =>
        rw [mergesetOrder_eq hsp hx]
        exact h.exact.nodup_mergesetOrdered fun p hp => h.parents_mem p x (mem_parentsOf.1 hp)
  · rw [mergesetOrder, node, valueAt, Finmap.lookup_eq_none.2 hx]
    exact List.nodup_nil

theorem not_anc_genesis (h : d.WellFormed) (a : BlockId) : ¬ d.Anc a d.genesis := by
  intro hanc
  obtain ⟨p, _, hp⟩ := TransGen.tail'_iff.1 hanc
  obtain ⟨n, hn, hnil, _⟩ := h.genesis_node
  obtain ⟨m, hm, hpm⟩ := hp
  rw [← Option.some.inj (hn.symm.trans hm), hnil] at hpm
  cases hpm

/-! ## The recursion -/

private theorem depth_lt_len (h : d.WellFormed) {x : BlockId} (hx : x ∈ d.nodes) :
    depth d.selectedParentOf d.nodes.keys x < d.len :=
  h.tree.depth_lt_card (Finmap.mem_keys.2 hx)

theorem chainTo_genesis (h : d.WellFormed) : d.chainTo d.genesis = [d.genesis] := by
  rw [chainTo, pathUp_root (h.depth_lt_len h.genesis_mem) h.tree.root_none]
  rfl

theorem chainTo_step (h : d.WellFormed) {x sp : BlockId} (hx : d.selectedParentOf x = some sp) :
    d.chainTo x = d.chainTo sp ++ [x] := by
  have hmem := h.selectedParent_mem hx
  rw [chainTo, chainTo, pathUp_step (fun _ _ hp => h.tree.depth_lt hp) (h.depth_lt_len hmem.2) hx,
    List.reverse_cons]

theorem mem_chainTo (h : d.WellFormed) {x y : BlockId} (hx : x ∈ d.nodes) :
    y ∈ d.chainTo x ↔ ReflTransGen (TreeEdge d.selectedParentOf) y x := by
  rw [chainTo, List.mem_reverse]
  exact mem_pathUp (fun _ _ hp => h.tree.depth_lt hp) (h.depth_lt_len hx)

theorem mem_of_mem_chainTo (h : d.WellFormed) {x y : BlockId} (hx : x ∈ d.nodes)
    (hy : y ∈ d.chainTo x) : y ∈ d.nodes := by
  rcases ReflTransGen.cases_head ((h.mem_chainTo hx).1 hy) with rfl | ⟨z, hyz, _⟩
  · exact hx
  · exact (h.selectedParent_mem hyz).1

theorem order_genesis (h : d.WellFormed) : d.order d.genesis = [d.genesis] := by
  obtain ⟨n, hn, _, _, hgd⟩ := h.genesis_node
  have hnone : d.mergesetOrder d.genesis = [] := by
    rw [mergesetOrder, node_of_lookup hn, hgd]
    rfl
  rw [order, h.chainTo_genesis, spine, List.flatMap_singleton, hnone, List.nil_append]

theorem order_step (h : d.WellFormed) {x sp : BlockId} (hx : d.selectedParentOf x = some sp) :
    d.order x = d.order sp ++ d.mergesetOrder x ++ [x] := by
  rw [order, order, spine, spine, h.chainTo_step hx, List.flatMap_append, List.flatMap_singleton,
    List.append_assoc]

theorem order_eq (h : d.WellFormed) {x : BlockId} (hx : x ∈ d.nodes) :
    d.order x = d.orderBefore x ++ [x] := by
  rw [orderBefore]
  by_cases hxg : x = d.genesis
  · rw [hxg, h.tree.root_none, h.order_genesis]
    rfl
  · obtain ⟨sp, hsp, _⟩ := h.exists_selectedParent hx hxg
    rw [hsp, h.order_step hsp]

/-- Selected-parent induction: from genesis up. -/
theorem chain_induction (h : d.WellFormed) {P : BlockId → Prop} (hgenesis : P d.genesis)
    (hstep : ∀ x sp, d.selectedParentOf x = some sp → P sp → P x) {x : BlockId}
    (hx : x ∈ d.nodes) : P x := by
  induction h.tree.rooted x (Finmap.mem_keys.2 hx) with
  | refl => exact hgenesis
  | tail _ hpx ih => exact hstep _ _ hpx (ih (h.selectedParent_mem hpx).1)

/-- `order(B)` lists `B` and its past. -/
theorem mem_order (h : d.WellFormed) {x : BlockId} (hx : x ∈ d.nodes) (a : BlockId) :
    a ∈ d.order x ↔ a = x ∨ d.Anc a x := by
  refine h.chain_induction (P := fun x => a ∈ d.order x ↔ a = x ∨ d.Anc a x) ?_ ?_ hx
  · rw [h.order_genesis, List.mem_singleton, or_iff_left (h.not_anc_genesis a)]
  · intro x sp hsp ih
    rw [h.order_step hsp, List.mem_append, List.mem_append, ih, List.mem_singleton, h.anc_iff hsp]
    tauto

theorem nodup_order (h : d.WellFormed) {x : BlockId} (hx : x ∈ d.nodes) : (d.order x).Nodup := by
  refine h.chain_induction (P := fun x => (d.order x).Nodup) ?_ ?_ hx
  · rw [h.order_genesis]
    exact List.nodup_singleton _
  · intro x sp hsp ih
    have hmem := h.selectedParent_mem hsp
    have hanc := h.anc_iff hsp
    rw [h.order_step hsp, List.nodup_append, List.nodup_append]
    refine ⟨⟨ih, h.nodup_mergesetOrder x, ?_⟩, List.nodup_singleton x, ?_⟩
    · rintro a ha b hb rfl
      obtain ⟨hne, hnot⟩ := h.not_anc_of_mem_mergesetOrder hsp hb
      exact ((h.mem_order hmem.1 a).1 ha).elim hne hnot
    · rintro a ha b hb rfl
      rw [List.mem_singleton.1 hb] at ha
      rcases List.mem_append.1 ha with ha | ha
      · exact h.acyclic x ((hanc x).2 (((h.mem_order hmem.1 x).1 ha).imp id .inl))
      · exact h.acyclic x ((hanc x).2 (.inr (.inr ha)))

/-- A chain block's order is a prefix of its chain descendants' orders. -/
theorem order_prefix (h : d.WellFormed) {x y : BlockId}
    (hxy : ReflTransGen (TreeEdge d.selectedParentOf) x y) : d.order x <+: d.order y := by
  induction hxy with
  | refl => exact List.prefix_rfl
  | tail _ hpy ih =>
      rw [h.order_step hpy, List.append_assoc]
      exact ih.trans (List.prefix_append _ _)

/-! ## The selected tip -/

/-- Every block is a tip or below one. -/
theorem exists_tip (h : d.WellFormed) {x : BlockId} (hx : x ∈ d.nodes) :
    ∃ t ∈ d.tips, x = t ∨ d.Anc x t := by
  -- of the blocks from `x` up, one with the largest past has no child
  obtain ⟨t, ht, hmax⟩ := Finset.exists_max_image
    (d.nodes.keys.filter fun y => x = y ∨ x ∈ d.past y) (fun y => (d.past y).card)
    ⟨x, Finset.mem_filter.2 ⟨Finmap.mem_keys.2 hx, .inl rfl⟩⟩
  obtain ⟨htMem, habove⟩ := Finset.mem_filter.1 ht
  rw [h.exact.mem_past] at habove
  refine ⟨t, (h.tips_iff t).2 ⟨Finmap.mem_keys.1 htMem, fun y hedge => ?_⟩, habove⟩
  have hanc : d.Anc x y := by
    rcases habove with rfl | hxt
    · exact .single hedge
    · exact hxt.tail hedge
  have hle := hmax y (Finset.mem_filter.2 ⟨Finmap.mem_keys.2 hedge.mem,
    .inr (h.exact.mem_past.2 hanc)⟩)
  have hlt := h.card_past_lt (.single hedge)
  omega

theorem tips_ne_nil (h : d.WellFormed) : d.tipList ≠ [] := by
  obtain ⟨t, ht, _⟩ := h.exists_tip h.genesis_mem
  exact List.ne_nil_of_mem (mem_ascending.2 ht)

theorem selectedTip_spec (h : d.WellFormed) : d.selectedTip ∈ d.tips ∧
    ∀ t ∈ d.tips, d.chainKey t ≤ d.chainKey d.selectedTip := by
  obtain ⟨t, ht⟩ := exists_maxByKey d.chainKey h.tips_ne_nil
  have heq : d.selectedTip = t := by rw [selectedTip, ht, Option.getD_some]
  rw [heq]
  exact ⟨mem_ascending.1 (maxByKey_mem ht), fun s hs => le_of_maxByKey ht s (mem_ascending.2 hs)⟩

theorem selectedTip_mem (h : d.WellFormed) : d.selectedTip ∈ d.nodes :=
  ((h.tips_iff _).1 h.selectedTip_spec.1).1

/-! ## The linearization -/

omit [Crypto] in
theorem linearize_eq (ord : HashOrder) :
    d.linearize ord = d.order d.selectedTip ++ d.tail ord (d.order d.selectedTip).toFinset := rfl

omit [Crypto] in
theorem mem_tail (ord : HashOrder) {emitted : Finset BlockId} {x : BlockId} :
    x ∈ d.tail ord emitted ↔ x ∈ d.nodes ∧ x ∉ emitted := by
  rw [tail, mem_sortByKey, List.mem_filter, HashOrder.mem_iter, Finmap.mem_keys,
    decide_eq_true_eq]

/-- The linearization lists every block exactly once. -/
theorem mem_linearize (h : d.WellFormed) (ord : HashOrder) (x : BlockId) :
    x ∈ d.linearize ord ↔ x ∈ d.nodes := by
  rw [linearize_eq, List.mem_append, mem_tail, List.mem_toFinset]
  constructor
  · rintro (hx | hx)
    · rcases (h.mem_order h.selectedTip_mem x).1 hx with rfl | hanc
      · exact h.selectedTip_mem
      · exact h.exact.mem_of_anc hanc
    · exact hx.1
  · intro hx
    by_cases hin : x ∈ d.order d.selectedTip
    · exact .inl hin
    · exact .inr ⟨hx, hin⟩

theorem nodup_linearize (h : d.WellFormed) (ord : HashOrder) : (d.linearize ord).Nodup := by
  rw [linearize_eq, List.nodup_append]
  refine ⟨h.nodup_order h.selectedTip_mem, ?_, ?_⟩
  · rw [tail, (sortByKey_perm _ _).nodup_iff]
    exact (ord.nodup_iter _).filter _
  · rintro a ha b hb rfl
    exact ((mem_tail ord).1 hb).2 (List.mem_toFinset.2 ha)

/-! ## Ancestors come first -/

/-- Sorting by the topological key puts no block before its ancestor. -/
theorem pairwise_sortByKey_topoKey (h : d.WellFormed) (l : List BlockId) :
    (sortByKey d.topoKey l).Pairwise fun a b => ¬ d.Anc b a := by
  refine (sortByKey_pairwise d.topoKey l).imp fun {a b} hle hanc => ?_
  have hlt := h.pastSize_lt hanc
  rcases Prod.Lex.le_iff.1 hle with hsize | ⟨hsize, _⟩
  · exact absurd hsize (not_lt.2 (le_of_lt hlt))
  · exact absurd hsize (ne_of_gt hlt)

theorem pairwise_mergesetOrder (h : d.WellFormed) {x sp : BlockId}
    (hx : d.selectedParentOf x = some sp) :
    (d.mergesetOrder x).Pairwise fun a b => ¬ d.Anc b a := by
  rw [mergesetOrder_eq hx (h.selectedParent_mem hx).2]
  exact h.pairwise_sortByKey_topoKey _

theorem pairwise_order (h : d.WellFormed) {x : BlockId} (hx : x ∈ d.nodes) :
    (d.order x).Pairwise fun a b => ¬ d.Anc b a := by
  refine h.chain_induction (P := fun x => (d.order x).Pairwise fun a b => ¬ d.Anc b a) ?_ ?_ hx
  · rw [h.order_genesis]
    exact List.pairwise_singleton _ _
  · intro x sp hsp ih
    have hmem := (h.selectedParent_mem hsp).1
    have hbelow : ∀ a ∈ d.order sp, ∀ b, d.Anc b a → d.Anc b sp := by
      intro a ha b hanc
      rcases (h.mem_order hmem a).1 ha with rfl | hasp
      · exact hanc
      · exact hanc.trans hasp
    rw [h.order_step hsp, List.pairwise_append, List.pairwise_append]
    refine ⟨⟨ih, h.pairwise_mergesetOrder hsp, ?_⟩, List.pairwise_singleton _ _, ?_⟩
    · intro a ha b hb hanc
      exact (h.not_anc_of_mem_mergesetOrder hsp hb).2 (hbelow a ha b hanc)
    · intro a ha b hb hanc
      rw [List.mem_singleton.1 hb] at hanc
      have hax : d.Anc a x := by
        refine (h.anc_iff hsp a).2 ?_
        rcases List.mem_append.1 ha with ha | ha
        · exact ((h.mem_order hmem a).1 ha).imp id .inl
        · exact .inr (.inr ha)
      exact h.acyclic x (hanc.trans hax)

/-- No block comes before its ancestor in the linearization. -/
theorem pairwise_linearize (h : d.WellFormed) (ord : HashOrder) :
    (d.linearize ord).Pairwise fun a b => ¬ d.Anc b a := by
  rw [linearize_eq, List.pairwise_append]
  refine ⟨h.pairwise_order h.selectedTip_mem, h.pairwise_sortByKey_topoKey _, ?_⟩
  intro a ha b hb hanc
  refine ((mem_tail ord).1 hb).2 (List.mem_toFinset.2 ((h.mem_order h.selectedTip_mem b).2 ?_))
  rcases (h.mem_order h.selectedTip_mem a).1 ha with rfl | hatip
  · exact .inr hanc
  · exact .inr (hanc.trans hatip)

/-- The order of a hash map does not reach the linearization. -/
theorem linearize_ord (h : d.WellFormed) (ord ord' : HashOrder) :
    d.linearize ord = d.linearize ord' :=
  (sameConsensus_of_agreeOn h h rfl (fun _ => Iff.rfl)
    (Dag.agreeOn_refl h.parents_mem)).linearize ord ord'

end WellFormed

/-! ## Stability -/

namespace AgreeOn

variable {S : Set BlockId}

omit [Crypto] in
theorem selectedParentOf_eq (h : AgreeOn S d d') {x : BlockId} (hx : x ∈ S) :
    d.selectedParentOf x = d'.selectedParentOf x := by
  rw [DagView.selectedParentOf_eq (lookup_node (h.mem hx)),
    DagView.selectedParentOf_eq (lookup_node (h.symm.mem hx)), (h.sameCore hx).ghostdag]

theorem selectedParent_mem (h : AgreeOn S d d') (hd : d.WellFormed) {x sp : BlockId}
    (hx : x ∈ S) (hsp : d.selectedParentOf x = some sp) : sp ∈ S :=
  h.anc_mem ((hd.anc_iff hsp sp).2 (.inl rfl)) hx

theorem genesis_eq (h : AgreeOn S d d') (hd : d.WellFormed) (hd' : d'.WellFormed)
    (hg : d.genesis ∈ S) : d.genesis = d'.genesis := by
  by_contra hne
  obtain ⟨sp, hsp, _⟩ := hd'.exists_selectedParent (h.symm.mem hg) hne
  rw [← h.selectedParentOf_eq hg, hd.tree.root_none] at hsp
  cases hsp

theorem mergesetOrder_eq (h : AgreeOn S d d') (hd : d.WellFormed) (hd' : d'.WellFormed)
    {x : BlockId} (hx : x ∈ S) : d.mergesetOrder x = d'.mergesetOrder x := by
  have hsel := h.selectedParentOf_eq hx
  cases hsp : d.selectedParentOf x with
  | none =>
      have hnone := (DagView.selectedParentOf_eq (lookup_node (h.mem hx))).symm.trans hsp
      have hnone' := (DagView.selectedParentOf_eq (lookup_node (h.symm.mem hx))).symm.trans
        (hsel.symm.trans hsp)
      rw [mergesetOrder, mergesetOrder, hnone, hnone']
  | some sp =>
      rw [WellFormed.mergesetOrder_eq hsp (h.mem hx),
        WellFormed.mergesetOrder_eq (hsel.symm.trans hsp) (h.symm.mem hx)]
      refine h.mergesetOrdered_eq hd.exact hd'.exact (h.selectedParent_mem hd hx hsp)
        (fun p hp => h.closed x hx p (mem_parentsOf.1 hp)) fun p => ?_
      rw [mem_parentsOf, mem_parentsOf, h.edge_iff hx]

/-- The chain of a block is the same wherever its past is the same. -/
theorem chainTo_eq (h : AgreeOn S d d') (hd : d.WellFormed) (hd' : d'.WellFormed) {x : BlockId}
    (hx : x ∈ S) : d.chainTo x = d'.chainTo x := by
  refine hd.chain_induction (P := fun x => x ∈ S → d.chainTo x = d'.chainTo x) ?_ ?_
    (h.mem hx) hx
  · intro hg
    have heq := h.genesis_eq hd hd' hg
    rw [hd.chainTo_genesis, heq, hd'.chainTo_genesis]
  · intro y sp hsp ih hy
    rw [hd.chainTo_step hsp, hd'.chainTo_step ((h.selectedParentOf_eq hy).symm.trans hsp),
      ih (h.selectedParent_mem hd hy hsp)]

/-- The order of a block is the same wherever its past is the same. -/
theorem order_eq (h : AgreeOn S d d') (hd : d.WellFormed) (hd' : d'.WellFormed) {x : BlockId}
    (hx : x ∈ S) : d.order x = d'.order x := by
  refine hd.chain_induction (P := fun x => x ∈ S → d.order x = d'.order x) ?_ ?_ (h.mem hx) hx
  · intro hg
    have heq := h.genesis_eq hd hd' hg
    rw [hd.order_genesis, heq, hd'.order_genesis]
  · intro y sp hsp ih hy
    rw [hd.order_step hsp, hd'.order_step ((h.selectedParentOf_eq hy).symm.trans hsp),
      h.mergesetOrder_eq hd hd' hy, ih (h.selectedParent_mem hd hy hsp)]

theorem orderBefore_eq (h : AgreeOn S d d') (hd : d.WellFormed) (hd' : d'.WellFormed)
    {x : BlockId} (hx : x ∈ S) : d.orderBefore x = d'.orderBefore x := by
  have heq := h.order_eq hd hd' hx
  rw [hd.order_eq (h.mem hx), hd'.order_eq (h.symm.mem hx)] at heq
  exact List.append_inj_left' heq rfl

end AgreeOn

end DagView

end Kovanica
