import Kovanica.State.Refinement

/-!
# A block accepted by one ledger, offered to another

Whether a block is valid depends on its past alone.  A ledger that holds the
parents of a block another ledger has stored computes the same view for it, so
it can only refuse the block for finality or for its own policies.

## Main results

* `view_eq`: two ledgers with the parents of a block have the same view for it.
* `offer_cases`: what is left for the second ledger to object to.
-/

namespace Kovanica

open Lib Relation

namespace Ledger

variable [Crypto]

/-- Two ledgers over the same genesis that store the same block under each common
id. -/
structure Compatible (l m : Ledger) : Prop where
  k_eq : l.dag.k = m.dag.k
  genesis_eq : l.dag.genesis = m.dag.genesis
  subsidy_eq : l.subsidy = m.subsidy
  block_eq : ∀ x, x ∈ l.dag.nodes → x ∈ m.dag.nodes →
    (l.dag.node x).block = (m.dag.node x).block

namespace Compatible

variable {l m : Ledger}

theorem agreeOn (h : Compatible l m) (hl : l.WellFormed) (hm : m.WellFormed) :
    DagView.AgreeOn (DagView.common l.dag.toDagView m.dag.toDagView) l.dag.toDagView
      m.dag.toDagView := by
  refine DagView.agreeOn_common hl.dag hm.dag h.k_eq h.genesis_eq fun x n n' hn hn' => ?_
  have heq := h.block_eq x (Finmap.mem_of_lookup_eq_some hn) (Finmap.mem_of_lookup_eq_some hn')
  rwa [DagView.node_of_lookup hn, DagView.node_of_lookup hn'] at heq

/-- What one ledger computes in front of a block it stores is what the other
computes for the block it is offered. -/
theorem view_eq (h : Compatible l m) (hl : l.WellFormed) (hm : m.WellFormed) {block : Block}
    {sp : BlockId} (hmem : block.id ∈ l.dag.nodes)
    (hstored : (l.dag.node block.id).block = block)
    (hstruct : m.dag.checkStructure block = .ok ())
    (hsp : m.dag.selectParent block.parents = some sp) :
    l.dag.replay l.subsidy (l.dag.orderBefore block.id) =
      (m.dag.mergesetOrdered sp block.parents).foldl (applyStored m.dag.toDagView m.subsidy)
        (m.dag.replay m.subsidy (m.dag.order sp)) := by
  have hagree := h.agreeOn hl hm
  obtain ⟨hfresh, hne, hmemM⟩ := Dag.checkStructure_ok_iff.1 hstruct
  have hparentsOf : l.dag.parentsOf block.id = block.parents := by
    rw [DagView.parentsOf, hstored]
  have hcommon : ∀ p ∈ block.parents, p ∈ DagView.common l.dag.toDagView m.dag.toDagView := by
    intro p hp
    rw [← hparentsOf] at hp
    exact ⟨hl.dag.parents_mem p _ (DagView.mem_parentsOf.1 hp), hmemM p (hparentsOf ▸ hp)⟩
  have hgenesis : block.id ≠ l.dag.genesis := by
    intro heq
    exact hfresh (heq ▸ h.genesis_eq ▸ hm.dag.genesis_mem)
  -- the selected parent is the same
  have hsel : l.dag.selectedParentOf block.id = some sp := by
    have hdata := hl.dag.ghostdag_eq .sorted _ _ (DagView.lookup_node hmem) hgenesis
    rw [DagView.selectedParentOf_eq (DagView.lookup_node hmem),
      DagView.computeGhostdag_selectedParent hdata, hstored,
      hagree.selectParent_eq hcommon fun _ => Iff.rfl]
    exact hsp
  have hspCommon := hcommon sp (maxByKey_mem hsp)
  have hbefore : l.dag.orderBefore block.id =
      m.dag.order sp ++ m.dag.mergesetOrdered sp block.parents := by
    rw [DagView.orderBefore, hsel]
    simp only
    rw [DagView.WellFormed.mergesetOrder_eq hsel hmem, hparentsOf,
      hagree.mergesetOrdered_eq hl.dag.exact hm.dag.exact hspCommon hcommon fun _ => Iff.rfl,
      hagree.order_eq hl.dag hm.dag hspCommon]
  rw [← DagView.replay_append, ← hbefore, h.subsidy_eq]
  refine DagView.replay_congr fun y hy => ?_
  have hyL : y ∈ l.dag.nodes := by
    have hin : y ∈ l.dag.order block.id := by
      rw [hl.dag.order_eq hmem]
      exact List.mem_append_left _ hy
    rcases (hl.dag.mem_order hmem y).1 hin with rfl | hanc
    · exact hmem
    · exact hl.dag.exact.mem_of_anc hanc
  have hyM : y ∈ m.dag.nodes := by
    rw [hbefore] at hy
    rcases List.mem_append.1 hy with hy | hy
    · rcases (hm.dag.mem_order hspCommon.2 y).1 hy with rfl | hanc
      · exact hspCommon.2
      · exact hm.dag.exact.mem_of_anc hanc
    · obtain ⟨⟨p, hp, hyp⟩, _⟩ := (hm.dag.exact.mem_mergesetOrdered hspCommon.2 hmemM y).1 hy
      rcases hyp with rfl | hanc
      · exact hmemM _ hp
      · exact hm.dag.exact.mem_of_anc hanc
  exact h.block_eq y hyL hyM

/-- A stored block offered to a compatible ledger that holds its parents is
accepted, unless it is final there, or the call panics. -/
theorem offer_cases (h : Compatible l m) (hl : l.WellFormed) (hm : m.WellFormed) {o : Offer}
    (hmem : o.block.id ∈ l.dag.nodes) (hstored : (l.dag.node o.block.id).block = o.block)
    (hstruct : m.dag.checkStructure o.block = .ok ())
    (hpolicy : ∀ sp, m.dag.checkPolicy o.block sp = .ok ()) {sp : BlockId}
    (hsp : m.dag.selectParent o.block.parents = some sp) :
    if m.dag.blueScore sp < m.finalityScore then
      m.offer o = .error (.error (.finality (m.dag.blueScore sp) m.finalityScore))
    else if sp ∈ m.states ∧ m.dag.len + 1 < mapCapacity then m.Accepted o
    else ∃ site, m.offer o = .error (.panic site) := by
  have hview := h.view_eq hl hm hmem hstored hstruct hsp
  obtain ⟨hfresh, hne, _⟩ := Dag.checkStructure_ok_iff.1 hstruct
  have hgenesis : o.block.id ≠ l.dag.genesis := fun heq =>
    hfresh (heq ▸ h.genesis_eq ▸ hm.dag.genesis_mem)
  -- the block's own transactions apply in the common view
  obtain ⟨next, txs, summary, hdecode, happly⟩ := hl.applies _ hmem
  rw [hstored] at hdecode
  have htxs : o.txs.val = txs := Except.ok.inj ((decode_encode o.txs).symm.trans hdecode)
  rw [hview, ← htxs, h.subsidy_eq] at happly
  have hvalid : m.dag.runValidator o.block = .ok () := by
    have hpayload := hl.valid _ hmem hgenesis
    rw [hstored] at hpayload
    rw [Dag.runValidator, hm.validator]
    simp only [txStructureValidator, hpayload]
  rw [offer_eq hstruct hsp]
  by_cases hfinal : m.dag.blueScore sp < m.finalityScore
  · rw [if_pos hfinal, if_pos hfinal]
  · rw [if_neg hfinal, if_neg hfinal]
    cases hstate : m.states.lookup sp with
    | none =>
        rw [if_neg fun hand => Finmap.lookup_eq_none.1 hstate hand.1]
        exact ⟨_, rfl⟩
    | some state =>
        have hin : sp ∈ m.states := Finmap.mem_of_lookup_eq_some hstate
        rw [← (hm.state_eq sp state hstate).2] at happly
        obtain ⟨sp', g, hdata, hsel, hsp'⟩ := Dag.exists_data (d := m.dag) o.ord hne
        rw [Option.some.inj (hsp'.symm.trans hsp)] at hsel
        simp only [happly, Dag.insert_eq hstruct hdata hsel, hvalid, hpolicy]
        by_cases hroom : mapCapacity ≤ m.dag.len + 1
        · rw [if_neg fun hand => absurd hand.2 (not_lt.2 hroom)]
          simp only [if_pos hroom]
          exact ⟨_, rfl⟩
        · rw [if_pos ⟨hin, not_le.1 hroom⟩, Accepted, offer_eq hstruct hsp, if_neg hfinal]
          simp only [hstate, happly, Dag.insert_eq hstruct hdata hsel, hvalid, hpolicy,
            if_neg hroom]
          exact ⟨_, _, rfl⟩

/-- Compatible ledgers that hold the same blocks have the same consensus and the
same replays. -/
theorem same_of_mem_iff (h : Compatible l m) (hl : l.WellFormed) (hm : m.WellFormed)
    (hmem : ∀ x, x ∈ l.dag.nodes ↔ x ∈ m.dag.nodes) :
    DagView.SameConsensus l.dag.toDagView m.dag.toDagView ∧
      l.dag.totalWork = m.dag.totalWork ∧
      (∀ x ∈ l.dag.nodes, l.dag.replay l.subsidy (l.dag.order x) =
        m.dag.replay m.subsidy (m.dag.order x)) ∧
      ∀ ord ord', l.dag.replay l.subsidy (l.dag.linearize ord) =
        m.dag.replay m.subsidy (m.dag.linearize ord') := by
  have hcommon := h.agreeOn hl hm
  have hagree : DagView.AgreeOn {x | x ∈ l.dag.nodes} l.dag.toDagView m.dag.toDagView :=
    ⟨hcommon.k_eq, fun x hx => hcommon.core x ⟨hx, (hmem x).1 hx⟩,
      fun y _ x hedge => hl.dag.parents_mem x y hedge⟩
  have hsame := DagView.sameConsensus_of_agreeOn hl.dag hm.dag h.genesis_eq hmem hagree
  have hblock : ∀ x, (l.dag.node x).block = (m.dag.node x).block := by
    intro x
    by_cases hx : x ∈ l.dag.nodes
    · exact (hagree.sameCore hx).block
    · rw [DagView.node, DagView.node, valueAt, valueAt, Finmap.lookup_eq_none.2 hx,
        Finmap.lookup_eq_none.2 (mt (hmem x).2 hx)]
  refine ⟨hsame, ?_, fun x hx => ?_, fun ord ord' => ?_⟩
  · have hkeys : l.dag.nodes.keys = m.dag.nodes.keys := by
      ext x
      rw [Finmap.mem_keys, Finmap.mem_keys, hmem]
    rw [DagView.totalWork, DagView.totalWork, hkeys]
    exact Finset.sum_congr rfl fun x _ => by rw [hblock]
  · rw [hagree.order_eq hl.dag hm.dag hx, h.subsidy_eq]
    exact DagView.replay_congr fun y _ => hblock y
  · rw [hsame.linearize ord ord', h.subsidy_eq]
    exact DagView.replay_congr fun y _ => hblock y

end Compatible

end Ledger

end Kovanica
