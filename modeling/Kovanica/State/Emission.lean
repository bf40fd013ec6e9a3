import Kovanica.State.Assembly
import Kovanica.State.History

/-!
# What a block mints

The bound a ledger checks is the same for every block: the subsidy, and the fees of the
block's own transactions in its view.  What a stored block mints in its view is settled
when it is stored, and so is the size of its past, which for a block on all tips is the
number of blocks there were.

## Main results

* `WellFormed.mintsWithin_subsidy`: the bound, for every stored block.
* `Step.keeps`: a later call changes neither what a block mints nor its past.
* `pastSize_wire_tips`, `Unbounded.view_tips`: for a block on all tips.
-/

namespace Kovanica

open Lib

namespace Ledger

variable [Crypto] {l l' : Ledger} {x : BlockId}

/-- The state a stored block is checked against: what the blocks of its past leave, in the order
the block itself lists them. -/
def view (l : Ledger) (x : BlockId) : UtxoSet := l.dag.replay l.subsidy (l.dag.orderBefore x)

/-- In its view the block applies, and mints at most `issued` and its fees.  The claim of a coinbase
is summed without wrapping. -/
def MintsWithin (l : Ledger) (x : BlockId) (issued : Nat) : Prop :=
  ∃ next summary, applyBlock (l.view x) (l.dag.blockTxs x) l.subsidy = .ok (next, summary) ∧
    coinbaseValue (l.dag.blockTxs x) ≤ issued + summary.fees.val

omit [Crypto] in
theorem blockTxs_of_payload {d : DagView} {txs : TxList}
    (h : (d.node x).block.payload = txs.payload) : d.blockTxs x = txs.val := by
  have hdecode : decodeBlockPayload (d.node x).block.payload.val = .ok txs.val := by
    rw [h]
    exact decode_encode txs
  rw [DagView.blockTxs, hdecode]

/-- Every stored block mints at most the subsidy and its fees. -/
theorem WellFormed.mintsWithin_subsidy (hl : l.WellFormed) (hx : x ∈ l.dag.nodes) :
    l.MintsWithin x l.subsidy.val := by
  obtain ⟨next, txs, summary, hdecode, happly⟩ := hl.applies x hx
  have htxs : l.dag.blockTxs x = txs := by
    rw [DagView.blockTxs, hdecode]
  refine ⟨next, summary, ?_, ?_⟩
  · rw [htxs]
    exact happly
  · have heffect := applyBlock_spec happly
    rw [htxs, ← heffect.minted_eq]
    exact heffect.minted_le

/-- No call changes what a stored block mints or the size of its past. -/
theorem Step.keeps {a : Action} (hl : l.WellFormed) (h : Step l a l') (hx : x ∈ l.dag.nodes) :
    l'.view x = l.view x ∧ l'.dag.blockTxs x = l.dag.blockTxs x ∧
      (l'.dag.node x).pastSize = (l.dag.node x).pastSize ∧ x ∈ l'.dag.nodes := by
  have hagree := (h.agreeOn hl).1
  have hcore := hagree.sameCore hx
  have hsubsidy := h.sameParameters.subsidy_eq
  refine ⟨?_, ?_, hcore.pastSize.symm, hagree.symm.mem hx⟩
  · rw [view, view, ← hsubsidy]
    exact (replay_orders_eq hagree hl.dag (h.wellFormed hl).dag l.subsidy hx).2.symm
  · rw [DagView.blockTxs, DagView.blockTxs, hcore.block]

theorem Step.mintsWithin {a : Action} (hl : l.WellFormed) (h : Step l a l') (hx : x ∈ l.dag.nodes)
    {issued : Nat} (hmints : l.MintsWithin x issued) : l'.MintsWithin x issued := by
  obtain ⟨hview, htxs, _, _⟩ := h.keeps hl hx
  rw [MintsWithin, hview, htxs, ← h.sameParameters.subsidy_eq]
  exact hmints

/-! ## On all tips -/

/-- The past of a block on all tips is everything there was. -/
theorem pastSize_wire_tips {ord : HashOrder} {block : Block} {sp : BlockId} {g : GhostdagData}
    (h : Dag.Admits ord l.dag block sp g) (hl : l.dag.WellFormed)
    (htips : ∀ p, p ∈ block.parents ↔ p ∈ l.dag.tips) :
    ((l.dag.wire block sp g).node block.id).pastSize = l.dag.len := by
  have hd := Dag.wellFormed_wire h hl
  have hpast : (l.dag.wire block sp g).past block.id = l.dag.nodes.keys := by
    ext y
    rw [hd.exact.mem_past, Finmap.mem_keys]
    refine (Dag.addsTop_wire h hl.parents_mem).top.trans ?_
    constructor
    · rintro ⟨p, hp, rfl | hanc⟩
      · exact h.parents_mem _ hp
      · exact hl.exact.mem_of_anc hanc
    · intro hy
      obtain ⟨t, ht, hbelow⟩ := hl.exists_tip hy
      exact ⟨t, (htips t).2 ht, hbelow⟩
  rw [DagView.node_of_lookup Dag.lookup_wire_self, hd.past_size _ _ Dag.lookup_wire_self, hpast]
  rfl

/-- A block on all tips is the only tip. -/
theorem tips_offer {o : Offer} {id : BlockId} (h : l.offer o = .ok (id, l'))
    (htips : l.OnTips o.parents) (p : BlockId) : p ∈ l'.dag.tips ↔ p = id := by
  have hparents := htips.block o.work o.timestampMs o.nonce o.txs
  obtain ⟨sp, g, before, applied, haccepts, rfl, rfl⟩ := offer_eq_ok_iff.1 h
  rw [prune_dag]
  refine (Dag.mem_wire_tips haccepts.admits).trans (or_iff_left ?_)
  rintro ⟨hp, hnot⟩
  exact hnot ((hparents p).2 hp)

/-- What a block on all tips is checked against is the ledger's state, before and after
it is stored. -/
theorem Unbounded.view_tips (hl : l.Unbounded) {o : Offer} {id : BlockId}
    (h : l.offer o = .ok (id, l')) (htips : l.OnTips o.parents) {state : UtxoSet}
    (hstate : l.ledgerState o.ord = some state) :
    id ∈ l'.dag.nodes ∧ l'.view id = state ∧ l'.dag.blockTxs id = o.txs.val ∧
      (l'.dag.node id).pastSize = l.dag.len := by
  have hwf := hl.reachable.wellFormed
  have hstep : Step l (.offer o) l' := .accepted h
  have hparents := htips.block o.work o.timestampMs o.nonce o.txs
  obtain ⟨sp, g, before, applied, haccepts, rfl, rfl⟩ := offer_eq_ok_iff.1 h
  have hsp : sp = l.dag.selectedTip := Option.some.inj
    (haccepts.admits.selectParent_eq.symm.trans (hwf.dag.selectParent_tips hparents))
  refine ⟨((offer_nodes h).1 _).2 (.inl rfl), ?_, ?_, ?_⟩
  · have hreplay := Option.some.inj ((hl.ledgerState o.ord).symm.trans hstate)
    have horder : (l.dag.wire o.block sp g).orderBefore o.block.id = l.dag.linearize o.ord := by
      rw [Dag.orderBefore_wire_self haccepts.admits hwf.dag, hsp, DagView.WellFormed.linearize_eq]
      exact congrArg (l.dag.order l.dag.selectedTip ++ ·)
        (hwf.dag.mergesetOrdered_tips o.ord hparents)
    rw [view, prune_dag, prune_subsidy, ← hreplay]
    show (l.dag.wire o.block sp g).replay l.subsidy
      ((l.dag.wire o.block sp g).orderBefore o.block.id) = _
    rw [horder]
    refine DagView.replay_congr fun y hy => ?_
    have hmem := (hwf.dag.mem_linearize o.ord y).1 hy
    exact ((Dag.agreeOn_wire haccepts.admits hwf.dag.parents_mem).sameCore hmem).block.symm
  · apply blockTxs_of_payload
    rw [(offer_nodes h).2]
    rfl
  · rw [prune_dag]
    exact pastSize_wire_tips haccepts.admits hwf.dag hparents

end Ledger

end Kovanica
