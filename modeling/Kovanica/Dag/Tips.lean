import Kovanica.Dag.Order

/-!
# How the selected tip moves

Along a selected chain the blue score rises with every block, and so does the
chain key as long as the works under a block fit 128 bits.  `tipAfter` says,
before a block is inserted, which tip will be selected once it is in.

## Main results

* `blueScore_lt`, `chainKey_lt`: what rises from a selected parent to its child.
* `chainKey_le_selectedTip`: the heaviest tip is the heaviest block.
* `selectedTip_wire`: `tipAfter` foresees the selected tip.
* `rival_cases`: a tip heavier than the new block is the selected one, but for an overflow.
-/

namespace Kovanica

open Lib Relation

namespace DagView

/-- The blue score stored for a block. -/
def blueScore (d : DagView) (id : BlockId) : Nat := (d.node id).ghostdag.blueScore

/-- The work of all blocks together, counted without wrapping.  While it fits 128 bits, so does
every sum of works the code forms. -/
def totalWork (d : DagView) : Nat := ∑ x ∈ d.nodes.keys, (d.node x).block.work.val

/-- The work of all strict ancestors of a block together. -/
noncomputable def pastWork (d : DagView) (id : BlockId) : Nat :=
  ∑ a ∈ d.past id, (d.node a).block.work.val

/-- The blue work of a block with this selected parent and these blues, counted
without overflow. -/
def fullWork (d : DagView) (sp : BlockId) (blues : List BlockId) : Nat :=
  (d.node sp).ghostdag.blueWork.val + (d.node sp).block.work.val +
    (blues.map fun b => (d.node b).block.work.val).sum

/-- The chain key a block with the data `g` has.  The data are those derived before the block is
stored, so two blocks can be compared before either is. -/
def keyOf (g : GhostdagData) (id : BlockId) : ChainKey :=
  toLex (g.blueWork, toLex (g.blueScore, id))

/-- The tip that will be selected once a block with the data `g` has replaced its
parents among the tips. -/
def tipAfter [Crypto] (d : DagView) (block : Block) (g : GhostdagData) : BlockId :=
  match maxByKey d.chainKey (d.tipList.filter fun t => t ∉ block.parents) with
  | some rival => if keyOf g block.id < d.chainKey rival then rival else block.id
  | none => block.id

variable [Crypto] {d d' : DagView}

/-! ## Scores and works along the chain -/

omit [Crypto] in
/-- The score and the work of a block, from its selected parent's and its blues. -/
theorem computeGhostdag_scores {ord : HashOrder} {parents : List BlockId} {g : GhostdagData}
    {sp : BlockId} (h : d.computeGhostdag ord parents = some g) (hsp : g.selectedParent = some sp) :
    g.blueScore = d.blueScore sp + 1 + g.mergesetBlues.length ∧
      g.blueWork = g.mergesetBlues.foldl (fun acc b => acc + (d.node b).block.work)
        ((d.node sp).ghostdag.blueWork + (d.node sp).block.work) := by
  have hsel := computeGhostdag_selectedParent h
  rw [hsp] at hsel
  rw [computeGhostdag, ← hsel, Option.map_some, Option.some.injEq] at h
  rw [← h]
  exact ⟨rfl, rfl⟩

omit [Crypto] in
/-- A block whose blue work does not overflow is heavier than its selected parent. -/
theorem chainKey_lt_keyOf {d : DagView} {ord : HashOrder} {parents : List BlockId}
    {g : GhostdagData} {sp : BlockId} (h : d.computeGhostdag ord parents = some g)
    (hsp : g.selectedParent = some sp) (hwork : d.fullWork sp g.mergesetBlues < 2 ^ 128)
    (id : BlockId) : d.chainKey sp < keyOf g id := by
  obtain ⟨hscore, hblue⟩ := computeGhostdag_scores h hsp
  unfold fullWork at hwork
  have hfirst : ((d.node sp).ghostdag.blueWork + (d.node sp).block.work).val =
      (d.node sp).ghostdag.blueWork.val + (d.node sp).block.work.val :=
    Word.val_add_of_lt (by omega)
  have hle : (d.node sp).ghostdag.blueWork ≤ g.blueWork := by
    rw [Fin.le_def, hblue, Word.val_foldl_add _ _ _ (by rw [hfirst]; omega), hfirst]
    omega
  have hlt : (d.node sp).ghostdag.blueScore < g.blueScore := by
    have hsame : d.blueScore sp = (d.node sp).ghostdag.blueScore := rfl
    omega
  rw [chainKey, keyOf, Prod.Lex.toLex_lt_toLex]
  rcases lt_or_eq_of_le hle with hless | heq
  · exact .inl hless
  · exact .inr ⟨heq, Prod.Lex.toLex_lt_toLex.2 (.inl hlt)⟩

namespace WellFormed

theorem ne_genesis (h : d.WellFormed) {x sp : BlockId} (hx : d.selectedParentOf x = some sp) :
    x ≠ d.genesis := by
  rintro rfl
  rw [h.tree.root_none] at hx
  cases hx

theorem scores (h : d.WellFormed) {x sp : BlockId} (hx : d.selectedParentOf x = some sp) :
    let g := (d.node x).ghostdag
    g.blueScore = d.blueScore sp + 1 + g.mergesetBlues.length ∧
      g.blueWork = g.mergesetBlues.foldl (fun acc b => acc + (d.node b).block.work)
        ((d.node sp).ghostdag.blueWork + (d.node sp).block.work) := by
  have hmem := (h.selectedParent_mem hx).2
  refine computeGhostdag_scores (h.ghostdag_eq .sorted x _ (lookup_node hmem) (h.ne_genesis hx)) ?_
  rw [← selectedParentOf_eq (lookup_node hmem), hx]

/-- The blue score rises along the selected chain. -/
theorem blueScore_lt (h : d.WellFormed) {x sp : BlockId} (hx : d.selectedParentOf x = some sp) :
    d.blueScore sp < d.blueScore x := by
  have hscore : d.blueScore x = _ := (h.scores hx).1
  omega

theorem blueScore_genesis (h : d.WellFormed) : d.blueScore d.genesis = 0 := by
  obtain ⟨n, hn, _, _, hgd⟩ := h.genesis_node
  rw [blueScore, node_of_lookup hn, hgd]
  rfl

/-- Of two blocks of a chain the lower one has the smaller blue score. -/
theorem blueScore_le_of_mem_chainTo (h : d.WellFormed) {x y : BlockId} (hx : x ∈ d.nodes)
    (hy : y ∈ d.chainTo x) : d.blueScore y ≤ d.blueScore x := by
  induction (h.mem_chainTo hx).1 hy with
  | refl => exact le_refl _
  | tail hyp hpx ih =>
      have hmem := h.selectedParent_mem hpx
      exact (ih hmem.1 ((h.mem_chainTo hmem.1).2 hyp)).trans (h.blueScore_lt hpx).le

/-- The work below a block, counted without overflow. -/
private theorem pastWork_step (h : d.WellFormed) {x sp : BlockId}
    (hx : d.selectedParentOf x = some sp) :
    d.pastWork sp + (d.node sp).block.work.val +
        ((d.node x).ghostdag.mergesetBlues.map fun b => (d.node b).block.work.val).sum ≤
      d.pastWork x := by
  classical
  have hmem := h.selectedParent_mem hx
  have hperm := computeGhostdag_mergeset
    (h.ghostdag_eq .sorted x _ (lookup_node hmem.2) (h.ne_genesis hx))
    ((selectedParentOf_eq (lookup_node hmem.2)).symm.trans hx)
  have hmerge : ∀ b ∈ (d.node x).ghostdag.mergesetBlues, b ∈ d.mergesetOrder x := by
    intro b hb
    rw [mergesetOrder_eq hx hmem.2]
    exact hperm.mem_iff.1 (List.mem_append_left _ hb)
  have hnodup : (d.node x).ghostdag.mergesetBlues.Nodup := by
    have hall := h.nodup_mergesetOrder x
    rw [mergesetOrder_eq hx hmem.2] at hall
    exact (hperm.nodup_iff.2 hall).of_append_left
  have hblues : ((d.node x).ghostdag.mergesetBlues.map fun b => (d.node b).block.work.val).sum =
      ∑ b ∈ (d.node x).ghostdag.mergesetBlues.toFinset, (d.node b).block.work.val :=
    (List.sum_toFinset _ hnodup).symm
  have hnot : sp ∉ d.past sp := by
    rw [h.exact.mem_past]
    exact h.acyclic sp
  have hdisj : Disjoint (Insert.insert sp (d.past sp))
      (d.node x).ghostdag.mergesetBlues.toFinset := by
    rw [Finset.disjoint_left]
    intro a ha hb
    obtain ⟨hne, hanc⟩ := h.not_anc_of_mem_mergesetOrder hx (hmerge a (List.mem_toFinset.1 hb))
    rw [Finset.mem_insert, h.exact.mem_past] at ha
    exact ha.elim hne hanc
  have hinsert := Finset.sum_insert (f := fun a => (d.node a).block.work.val) hnot
  rw [pastWork, pastWork, hblues, Nat.add_comm (∑ a ∈ d.past sp, _), ← hinsert,
    ← Finset.sum_union hdisj]
  refine Finset.sum_le_sum_of_subset fun a ha => ?_
  rw [h.exact.mem_past, h.anc_iff hx]
  rcases Finset.mem_union.1 ha with ha | ha
  · exact (Finset.mem_insert.1 ha).imp_right fun ha => .inl (h.exact.mem_past.1 ha)
  · exact .inr (.inr (hmerge a (List.mem_toFinset.1 ha)))

theorem pastWork_le_totalWork (h : d.WellFormed) (x : BlockId) : d.pastWork x ≤ d.totalWork := by
  refine Finset.sum_le_sum_of_subset fun a ha => ?_
  exact Finmap.mem_keys.2 (h.exact.mem_of_anc (h.exact.mem_past.1 ha))

/-- Blue work is at most the work of the past, unless that overflows. -/
theorem blueWork_le (h : d.WellFormed) {x : BlockId} (hx : x ∈ d.nodes)
    (hwork : d.pastWork x < 2 ^ 128) : (d.node x).ghostdag.blueWork.val ≤ d.pastWork x := by
  refine h.chain_induction (P := fun x => d.pastWork x < 2 ^ 128 →
    (d.node x).ghostdag.blueWork.val ≤ d.pastWork x) ?_ ?_ hx hwork
  · intro _
    obtain ⟨n, hn, _, _, hgd⟩ := h.genesis_node
    rw [node_of_lookup hn, hgd]
    exact Nat.zero_le _
  · intro y sp hsp ih hy
    have hstep := h.pastWork_step hsp
    have hbelow := ih (by omega)
    have hfirst : ((d.node sp).ghostdag.blueWork + (d.node sp).block.work).val =
        (d.node sp).ghostdag.blueWork.val + (d.node sp).block.work.val :=
      Word.val_add_of_lt (by omega)
    rw [(h.scores hsp).2, Word.val_foldl_add _ _ _ (by rw [hfirst]; omega), hfirst]
    omega

/-- The chain key rises along the selected chain, unless the works overflow. -/
theorem chainKey_lt (h : d.WellFormed) {x sp : BlockId} (hx : d.selectedParentOf x = some sp)
    (hwork : d.pastWork x < 2 ^ 128) : d.chainKey sp < d.chainKey x := by
  have hstep := h.pastWork_step hx
  have hbound := h.blueWork_le (h.selectedParent_mem hx).1 (by omega)
  have hfirst : ((d.node sp).ghostdag.blueWork + (d.node sp).block.work).val =
      (d.node sp).ghostdag.blueWork.val + (d.node sp).block.work.val :=
    Word.val_add_of_lt (by omega)
  have hle : (d.node sp).ghostdag.blueWork ≤ (d.node x).ghostdag.blueWork := by
    rw [Fin.le_def, (h.scores hx).2, Word.val_foldl_add _ _ _ (by rw [hfirst]; omega), hfirst]
    omega
  have hscore : (d.node sp).ghostdag.blueScore < (d.node x).ghostdag.blueScore := h.blueScore_lt hx
  rw [chainKey, chainKey, Prod.Lex.toLex_lt_toLex]
  rcases lt_or_eq_of_le hle with hlt | heq
  · exact .inl hlt
  · exact .inr ⟨heq, Prod.Lex.toLex_lt_toLex.2 (.inl hscore)⟩

/-- A block is heavier than each of its parents, unless the works overflow. -/
theorem chainKey_parent_lt (h : d.WellFormed) {x p : BlockId} (hp : p ∈ d.parentsOf x)
    (hwork : d.pastWork x < 2 ^ 128) : d.chainKey p < d.chainKey x := by
  have hx : x ∈ d.nodes := Edge.mem (mem_parentsOf.1 hp)
  have hxg : x ≠ d.genesis := by
    rintro rfl
    exact h.not_anc_genesis p (.single (mem_parentsOf.1 hp))
  obtain ⟨sp, hsp, _, hmax⟩ := h.exists_selectedParent hx hxg
  exact lt_of_le_of_lt (hmax p hp) (h.chainKey_lt hsp hwork)

/-- A block is heavier than every block of its past. -/
theorem chainKey_anc_lt (h : d.WellFormed) (hwork : d.totalWork < 2 ^ 128) {a x : BlockId}
    (hax : d.Anc a x) : d.chainKey a < d.chainKey x := by
  refine lt_of_transGen (fun p y hp => ?_) hax
  exact h.chainKey_parent_lt (mem_parentsOf.2 hp) ((h.pastWork_le_totalWork y).trans_lt hwork)

/-- The heaviest tip is the heaviest block. -/
theorem chainKey_le_selectedTip (h : d.WellFormed) (hwork : d.totalWork < 2 ^ 128) {x : BlockId}
    (hx : x ∈ d.nodes) : d.chainKey x ≤ d.chainKey d.selectedTip := by
  obtain ⟨t, ht, hbelow⟩ := h.exists_tip hx
  refine le_trans ?_ (h.selectedTip_spec.2 t ht)
  rcases hbelow with rfl | hanc
  · exact le_refl _
  · exact (h.chainKey_anc_lt hwork hanc).le

end WellFormed

end DagView

/-! ## The tip after an insert -/

namespace Dag

variable [Crypto] {d : Dag} {block : Block} {sp : BlockId} {g : GhostdagData} {ord : HashOrder}
  (h : Admits ord d block sp g) (hd : d.WellFormed)

theorem chainKey_wire_self :
    (d.wire block sp g).chainKey block.id = DagView.keyOf g block.id := by
  rw [DagView.chainKey, DagView.node_of_lookup lookup_wire_self]
  rfl

include h hd

theorem chainKey_wire {x : BlockId} (hx : x ∈ d.nodes) :
    (d.wire block sp g).chainKey x = d.chainKey x :=
  ((agreeOn_wire h hd.parents_mem).chainKey_eq hx).symm

theorem blueScore_wire {x : BlockId} (hx : x ∈ d.nodes) :
    (d.wire block sp g).blueScore x = d.blueScore x := by
  rw [DagView.blueScore, DagView.blueScore,
    ((agreeOn_wire h hd.parents_mem).sameCore hx).ghostdag]

theorem chainTo_wire {x : BlockId} (hx : x ∈ d.nodes) :
    (d.wire block sp g).chainTo x = d.chainTo x :=
  ((agreeOn_wire h hd.parents_mem).chainTo_eq hd (wellFormed_wire h hd) hx).symm

omit hd in
theorem selectedParentOf_wire_self :
    (d.wire block sp g).selectedParentOf block.id = some sp := by
  rw [DagView.selectedParentOf_eq lookup_wire_self]
  exact h.selected

/-- The new block's chain is its selected parent's with the block on top. -/
theorem chainTo_wire_self :
    (d.wire block sp g).chainTo block.id = d.chainTo sp ++ [block.id] := by
  rw [(wellFormed_wire h hd).chainTo_step (selectedParentOf_wire_self h),
    chainTo_wire h hd (h.parents_mem sp h.selectedParent_mem)]

/-- The new block's mergeset, as the insert derived it. -/
theorem mergesetOrder_wire_self :
    (d.wire block sp g).mergesetOrder block.id = d.mergesetOrdered sp block.parents := by
  have hd' := wellFormed_wire h hd
  have hmem : block.id ∈ (d.wire block sp g).nodes := (mem_wire h).2 (.inl rfl)
  have hparents : (d.wire block sp g).parentsOf block.id = block.parents := by
    rw [DagView.parentsOf, DagView.node_of_lookup lookup_wire_self]
  rw [DagView.WellFormed.mergesetOrder_eq (selectedParentOf_wire_self h) hmem, hparents]
  exact ((agreeOn_wire h hd.parents_mem).mergesetOrdered_eq hd.exact hd'.exact
    (h.parents_mem sp h.selectedParent_mem) h.parents_mem fun _ => Iff.rfl).symm

/-- What comes before the new block in its own order. -/
theorem orderBefore_wire_self :
    (d.wire block sp g).orderBefore block.id =
      d.order sp ++ d.mergesetOrdered sp block.parents := by
  have hsp := h.parents_mem sp h.selectedParent_mem
  rw [DagView.orderBefore, selectedParentOf_wire_self h, mergesetOrder_wire_self h hd]
  simp only
  rw [(agreeOn_wire h hd.parents_mem).order_eq hd (wellFormed_wire h hd) hsp]

theorem totalWork_wire :
    (d.wire block sp g).totalWork = d.totalWork + block.work.val := by
  rw [DagView.totalWork, keys_wire h, Finset.sum_insert (by
    rw [Finmap.mem_keys]
    exact h.fresh), DagView.node_of_lookup lookup_wire_self, Nat.add_comm, DagView.totalWork]
  congr 1
  refine Finset.sum_congr rfl fun x hx => ?_
  rw [((agreeOn_wire h hd.parents_mem).sameCore (Finmap.mem_keys.1 hx)).block]

/-- `tipAfter` foresees the selected tip. -/
theorem selectedTip_wire : (d.wire block sp g).selectedTip = d.tipAfter block g := by
  have htips : ∀ t, t ∈ (d.wire block sp g).tipList ↔
      t = block.id ∨ t ∈ d.tipList.filter fun t => t ∉ block.parents := by
    intro t
    rw [DagView.tipList, mem_ascending, mem_wire_tips h, List.mem_filter, DagView.tipList,
      mem_ascending, decide_eq_true_eq]
  have hold : ∀ t ∈ d.tipList.filter (fun t => t ∉ block.parents), t ∈ d.nodes := fun t ht =>
    ((hd.tips_iff t).1 (mem_ascending.1 (List.mem_of_mem_filter ht))).1
  have hinj := (d.wire block sp g).chainKey_injective
  have hmax : ∀ t, t ∈ (d.wire block sp g).tipList → (∀ s ∈ (d.wire block sp g).tipList,
      (d.wire block sp g).chainKey s ≤ (d.wire block sp g).chainKey t) →
      (d.wire block sp g).selectedTip = t := by
    intro t ht hle
    rw [DagView.selectedTip, maxByKey_eq_some ht hle fun _ _ _ _ hxy => hinj hxy,
      Option.getD_some]
  rw [DagView.tipAfter]
  cases hrival : maxByKey d.chainKey (d.tipList.filter fun t => t ∉ block.parents) with
  | none =>
      refine hmax _ ((htips _).2 (.inl rfl)) fun s hs => ?_
      rcases (htips s).1 hs with rfl | hs
      · exact le_refl _
      · rw [maxByKey_eq_none.1 hrival] at hs
        cases hs
  | some rival =>
      have hmem := maxByKey_mem hrival
      by_cases hlt : DagView.keyOf g block.id < d.chainKey rival
      · simp only [if_pos hlt]
        refine hmax _ ((htips _).2 (.inr hmem)) fun s hs => ?_
        rw [chainKey_wire h hd (hold rival hmem)]
        rcases (htips s).1 hs with rfl | hs
        · rw [chainKey_wire_self]
          exact hlt.le
        · rw [chainKey_wire h hd (hold s hs)]
          exact le_of_maxByKey hrival s hs
      · simp only [if_neg hlt]
        refine hmax _ ((htips _).2 (.inl rfl)) fun s hs => ?_
        rw [chainKey_wire_self]
        rcases (htips s).1 hs with rfl | hs
        · rw [chainKey_wire_self]
        · rw [chainKey_wire h hd (hold s hs)]
          exact (le_of_maxByKey hrival s hs).trans (not_lt.1 hlt)

/-- A tip heavier than the new block is the selected one, unless the block builds on that
one and its blue work overflows. -/
theorem rival_cases {rival : BlockId}
    (hrival : maxByKey d.chainKey (d.tipList.filter fun t => t ∉ block.parents) = some rival)
    (hlt : DagView.keyOf g block.id < d.chainKey rival) : rival = d.selectedTip ∨
      (d.selectedTip ∈ block.parents ∧ 2 ^ 128 ≤ d.fullWork sp g.mergesetBlues) := by
  have hmem := List.mem_filter.1 (maxByKey_mem hrival)
  obtain ⟨holdTip, hmax⟩ := hd.selectedTip_spec
  have hbelow := hmax rival (mem_ascending.1 hmem.1)
  by_cases hbuilt : d.selectedTip ∈ block.parents
  · refine .inr ⟨hbuilt, ?_⟩
    by_contra hfits
    have hheavier := DagView.chainKey_lt_keyOf h.data h.selected (not_le.1 hfits) block.id
    have hparent := le_of_maxByKey h.selectParent_eq _ hbuilt
    exact absurd (hheavier.trans hlt) (not_lt.2 (hbelow.trans hparent))
  · have hle := le_of_maxByKey hrival d.selectedTip
      (List.mem_filter.2 ⟨mem_ascending.2 holdTip, decide_eq_true hbuilt⟩)
    exact .inl (d.chainKey_injective (le_antisymm hbelow hle))

/-- What is under the new block was stored before. -/
theorem pastWork_wire_self_le : (d.wire block sp g).pastWork block.id ≤ d.totalWork := by
  have hd' := wellFormed_wire h hd
  have hold : ∀ a ∈ (d.wire block sp g).past block.id, a ∈ d.nodes := by
    intro a ha
    have hanc := hd'.exact.mem_past.1 ha
    have hne : a ≠ block.id := by
      rintro rfl
      exact hd'.acyclic _ hanc
    exact ((mem_wire h).1 (hd'.exact.mem_of_anc hanc)).resolve_left hne
  rw [DagView.pastWork, DagView.totalWork]
  refine (Finset.sum_congr rfl fun a ha => ?_).trans_le
    (Finset.sum_le_sum_of_subset fun a ha => Finmap.mem_keys.2 (hold a ha))
  rw [((agreeOn_wire h hd.parents_mem).sameCore (hold a ha)).block]

/-- The selected tip stays or becomes the new block, unless the works overflow. -/
theorem selectedTip_wire_eq_or (hwork : (d.wire block sp g).pastWork block.id < 2 ^ 128) :
    (d.wire block sp g).selectedTip = block.id ∨
      (d.wire block sp g).selectedTip = d.selectedTip := by
  have hd' := wellFormed_wire h hd
  obtain ⟨htip, hmax⟩ := hd'.selectedTip_spec
  obtain ⟨holdTip, holdMax⟩ := hd.selectedTip_spec
  by_cases hself : (d.wire block sp g).selectedTip = block.id
  · exact .inl hself
  right
  have hrival := ((mem_wire_tips h).1 htip).resolve_left hself
  have hmem : ∀ t ∈ d.tips, t ∈ d.nodes := fun t ht => ((hd.tips_iff t).1 ht).1
  -- the old tip is no parent of the new block, or the new block would be heavier
  have hnot : d.selectedTip ∉ block.parents := by
    intro hparent
    have hlt := hd'.chainKey_parent_lt (x := block.id) (p := d.selectedTip) (by
      rw [DagView.parentsOf, DagView.node_of_lookup lookup_wire_self]
      exact hparent) hwork
    have hle := hmax block.id ((mem_wire_tips h).2 (.inl rfl))
    have hold := holdMax _ hrival.1
    rw [← chainKey_wire h hd (hmem _ holdTip), ← chainKey_wire h hd (hmem _ hrival.1)] at hold
    exact absurd (hlt.trans_le (hle.trans hold)) (lt_irrefl _)
  have hle := hmax d.selectedTip ((mem_wire_tips h).2 (.inr ⟨holdTip, hnot⟩))
  rw [chainKey_wire h hd (hmem _ holdTip), chainKey_wire h hd (hmem _ hrival.1)] at hle
  exact d.chainKey_injective (le_antisymm (holdMax _ hrival.1) hle)

/-! ## The heaviest block -/

omit h hd in
/-- The chain key rises from every block to each of its descendants, so the
selected tip is the heaviest of all blocks, and an accepted block takes its place
or leaves it. -/
theorem selectedTip_heaviest {d : Dag} (h : Reachable d) (hwork : d.totalWork < 2 ^ 128) :
    (∀ a b, d.Anc a b → d.chainKey a < d.chainKey b) ∧
      (d.selectedTip ∈ d.nodes ∧ ∀ x ∈ d.nodes, d.chainKey x ≤ d.chainKey d.selectedTip) ∧
      ∀ ord block id d', d.insert ord block = .ok (id, d') →
        d'.selectedTip = id ∨ d'.selectedTip = d.selectedTip := by
  have hd := h.wellFormed
  refine ⟨fun a b hab => hd.chainKey_anc_lt hwork hab,
    ⟨hd.selectedTip_mem, fun x hx => hd.chainKey_le_selectedTip hwork hx⟩, ?_⟩
  intro ord block id d' hinsert
  obtain ⟨sp, g, hadmits, heq⟩ := insert_eq_ok_iff.1 hinsert
  rw [(Prod.mk.inj heq).1, (Prod.mk.inj heq).2]
  exact selectedTip_wire_eq_or hadmits hd ((pastWork_wire_self_le hadmits hd).trans_lt hwork)

end Dag

namespace Dag

open scoped Reference

/-- The two blocks under a merge, and then the merge. -/
theorem selectedTip_heaviest_merge : ∃ d d' : Dag, d.len = 3 ∧ d'.selectedTip ≠ d.selectedTip ∧
    d.insert .sorted Reference.merge = .ok (Reference.merge.id, d') ∧
    (d'.selectedTip = Reference.merge.id ∨ d'.selectedTip = d.selectedTip) := by
  have hplay : ((Dag.new .sorted 1 Reference.genesis).insertAll .sorted
      [Reference.left, Reference.right]).map (fun d => (d.len, decide (d.totalWork < 2 ^ 128),
        (d.insert .sorted Reference.merge).toOption.map fun r =>
          (r.1 == Reference.merge.id, r.2.selectedTip != d.selectedTip))) =
      some (3, true, some (true, true)) := by
    decide +kernel
  obtain ⟨d, hd, heq⟩ := Option.map_eq_some_iff.1 hplay
  obtain ⟨hlen, hrest⟩ := Prod.mk.inj heq
  obtain ⟨hwork, hsome⟩ := Prod.mk.inj hrest
  obtain ⟨⟨id, d'⟩, hinsert, hr⟩ := Option.map_eq_some_iff.1 hsome
  obtain ⟨hid, hne⟩ := Prod.mk.inj hr
  have hreach : Reachable d := ⟨.sorted, 1, 1, 0, 0, Reference.noTxs.payload, _,
    Run.start.insertAll hd⟩
  have hsame : id = Reference.merge.id := eq_of_beq hid
  have hok := ok_of_toOption hinsert
  rw [hsame] at hok
  exact ⟨d, d', hlen, bne_iff_ne.1 hne, hok,
    (selectedTip_heaviest hreach (of_decide_eq_true hwork)).2.2 _ _ _ _ hok⟩

end Dag

end Kovanica
