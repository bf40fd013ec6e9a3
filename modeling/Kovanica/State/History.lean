import Kovanica.State.Accounting

/-!
# The history of a ledger

The transactions a replay lets take effect form one run of events from the empty
set.  An outpoint is refused only while it is unspent, so what keeps it from
being created twice is that no transaction takes effect twice; for a regular
transaction that follows from the outpoints it spends, for a coinbase it does
not.

## Main results

* `run_appliedFrom`: the run of events behind a replay.
* `noReplay_of_coinbases`: with coinbases that are distinct no transaction takes effect twice.
-/

namespace Kovanica

open Lib

namespace DagView

/-- The transactions of a stored block. -/
def blockTxs (d : DagView) (id : BlockId) : List Transaction :=
  match decodeBlockPayload (d.node id).block.payload.val with
  | .ok txs => txs
  | .error _ => []

/-- No two blocks of the DAG carry coinbases with the same id.  The tag of a coinbase is up to its
miner, so nothing in the code sees to this. -/
def CoinbasesDistinct [Crypto] (d : DagView) : Prop :=
  ∀ x ∈ d.nodes, ∀ y ∈ d.nodes, x ≠ y →
    ∀ cb ∈ d.blockTxs x, ∀ cb' ∈ d.blockTxs y, cb.isCoinbase → cb'.isCoinbase → cb.id ≠ cb'.id

/-- The transaction ids of the DAG are collision-free: stored transactions of one id are the same
transaction.  That is what is asked of BLAKE3 here, and no more. -/
def IdsCollisionFree [Crypto] (d : DagView) : Prop :=
  ∀ x ∈ d.nodes, ∀ y ∈ d.nodes, ∀ tx ∈ d.blockTxs x, ∀ tx' ∈ d.blockTxs y,
    tx.id = tx'.id → tx = tx'

instance [Crypto] (d : DagView) : Decidable d.CoinbasesDistinct :=
  decidable_of_iff (∀ x ∈ d.nodes.keys, ∀ y ∈ d.nodes.keys, x ≠ y →
    ∀ cb ∈ d.blockTxs x, ∀ cb' ∈ d.blockTxs y, cb.isCoinbase → cb'.isCoinbase → cb.id ≠ cb'.id)
    (by simp only [CoinbasesDistinct, Finmap.mem_keys])

instance [Crypto] (d : DagView) : Decidable d.IdsCollisionFree :=
  decidable_of_iff (∀ x ∈ d.nodes.keys, ∀ y ∈ d.nodes.keys, ∀ tx ∈ d.blockTxs x,
    ∀ tx' ∈ d.blockTxs y, tx.id = tx'.id → tx = tx')
    (by simp only [IdsCollisionFree, Finmap.mem_keys])

end DagView

/-- In a list of transactions that took effect none did twice, and no outpoint was
created or consumed twice. -/
structure NoReplay [Crypto] (txs : List Transaction) : Prop where
  ids_nodup : (txs.map Transaction.id).Nodup
  created_nodup : (txs.flatMap fun tx => tx.event.createdKeys).Nodup
  spent_nodup : (txs.flatMap fun tx => tx.inputs.map TxInput.outpoint).Nodup

instance [Crypto] (txs : List Transaction) : Decidable (NoReplay txs) :=
  decidable_of_iff ((txs.map Transaction.id).Nodup ∧
    (txs.flatMap fun tx => tx.event.createdKeys).Nodup ∧
      (txs.flatMap fun tx => tx.inputs.map TxInput.outpoint).Nodup)
    ⟨fun ⟨h, h', h''⟩ => ⟨h, h', h''⟩, fun h => ⟨h.1, h.2, h.3⟩⟩

section History

variable [Crypto] {d : DagView} {subsidy : U64}

theorem Applies.effect {state next : UtxoSet} {id : BlockId}
    (h : Applies d subsidy state id next) :
    ∃ s, BlockEffect state (d.blockTxs id) subsidy next s := by
  obtain ⟨txs, s, hdecode, happly⟩ := h
  rw [DagView.blockTxs, hdecode]
  exact ⟨s, applyBlock_spec happly⟩

/-- The effects of a list of blocks, each block's in the order they happen. -/
def effects (d : DagView) (ids : List BlockId) : List Transaction :=
  ids.flatMap fun id => effectOrder (d.blockTxs id)

/-- The blocks that apply in a replay run their transactions as events, and each
has at most one coinbase. -/
theorem run_appliedFrom (state : UtxoSet) (ids : List BlockId) :
    Tokens.Run state ((effects d (d.appliedFrom subsidy state ids)).map Transaction.event)
        (ids.foldl (applyStored d subsidy) state) ∧
      ∀ id ∈ d.appliedFrom subsidy state ids,
        ((d.blockTxs id).filter fun tx => tx.isCoinbase).length ≤ 1 := by
  induction ids generalizing state with
  | nil => exact ⟨.start, fun id hid => absurd hid List.not_mem_nil⟩
  | cons id rest ih =>
      rw [List.foldl_cons]
      by_cases happlies : ∃ next, Applies d subsidy state id next
      · obtain ⟨next, happlies⟩ := happlies
        obtain ⟨s, heffect⟩ := happlies.effect
        obtain ⟨hrun, hcoinbase⟩ := ih next
        rw [applyStored_of_applies happlies, DagView.appliedFrom_cons_of_applies happlies]
        constructor
        · rw [effects, List.flatMap_cons, List.map_append]
          exact heffect.run.trans hrun
        · intro x hx
          rcases List.mem_cons.1 hx with rfl | hx
          · exact heffect.coinbase_le
          · exact hcoinbase x hx
      · have hnot := not_exists.1 happlies
        rw [applyStored_of_not_applies hnot, DagView.appliedFrom_cons_of_not_applies hnot]
        exact ih state

omit [Crypto] in
theorem effects_perm (ids : List BlockId) : (effects d ids).Perm (ids.flatMap d.blockTxs) :=
  List.Perm.flatMap_left ids fun id _ => effectOrder_perm (d.blockTxs id)

/-- Without a repeated coinbase nothing is repeated. -/
theorem noReplay_of_coinbases {ids : List BlockId}
    (hident : ∀ tx ∈ (d.applied subsidy ids).flatMap d.blockTxs,
      ∀ tx' ∈ (d.applied subsidy ids).flatMap d.blockTxs, tx.id = tx'.id → tx = tx')
    (hcoinbase : ((((d.applied subsidy ids).flatMap d.blockTxs).filter fun tx =>
      tx.isCoinbase).map Transaction.id).Nodup) :
    NoReplay ((d.applied subsidy ids).flatMap d.blockTxs) := by
  have hperm := effects_perm (d := d) (d.applied subsidy ids)
  have hrun : Tokens.Run ∅ ((effects d (d.applied subsidy ids)).map Transaction.event)
      (d.replay subsidy ids) := (run_appliedFrom ∅ ids).1
  have hfree : ((effects d (d.applied subsidy ids)).filter fun tx =>
      tx.event.spends.isEmpty).Nodup := by
    simp only [Transaction.isEmpty_spends]
    exact (hperm.filter _).nodup_iff.2 (List.Nodup.of_map _ hcoinbase)
  obtain ⟨hnodup, hcreated, hspent⟩ := Tokens.Run.nodup Transaction.id OutPoint.tx hrun
    Transaction.tx_of_mem_createdKeys
    (fun tx htx tx' htx' => hident tx (hperm.mem_iff.1 htx) tx' (hperm.mem_iff.1 htx')) hfree
  refine ⟨?_, ?_, ?_⟩
  · exact List.Nodup.map_on hident (hperm.nodup_iff.1 hnodup)
  · rw [Tokens.created, List.flatMap_map] at hcreated
    exact (hperm.flatMap_right _).nodup_iff.1 hcreated
  · rw [Tokens.spent, List.flatMap_map] at hspent
    exact (hperm.flatMap_right _).nodup_iff.1 hspent

end History

/-- No replay, as far as the coinbases go: in a reachable ledger whose transaction
ids are collision-free and whose blocks carry pairwise different coinbases, nothing
the batch run accepts takes effect twice.  And it is the coinbases alone that
decide: nothing is repeated iff no accepted block repeats a coinbase. -/
theorem Ledger.noReplay_of_coinbasesDistinct [Crypto] {l : Ledger} (h : l.Reachable)
    (hids : l.dag.IdsCollisionFree) (ord : HashOrder) :
    (l.dag.CoinbasesDistinct → NoReplay
      ((applyDag ord l.dag.toDagView l.subsidy).accepted.flatMap l.dag.blockTxs)) ∧
    (NoReplay ((applyDag ord l.dag.toDagView l.subsidy).accepted.flatMap l.dag.blockTxs) ↔
      ((((applyDag ord l.dag.toDagView l.subsidy).accepted.flatMap l.dag.blockTxs).filter
        fun tx => tx.isCoinbase).map Transaction.id).Nodup) := by
  have hl := h.wellFormed
  rw [applyDag_accepted]
  have hsub : (l.dag.applied l.subsidy (l.dag.linearize ord)).Sublist (l.dag.linearize ord) :=
    DagView.appliedFrom_sublist _ _
  have hmem : ∀ x ∈ l.dag.applied l.subsidy (l.dag.linearize ord), x ∈ l.dag.nodes := fun x hx =>
    (hl.dag.mem_linearize ord x).1 (hsub.subset hx)
  have hident : ∀ tx ∈ (l.dag.applied l.subsidy (l.dag.linearize ord)).flatMap l.dag.blockTxs,
      ∀ tx' ∈ (l.dag.applied l.subsidy (l.dag.linearize ord)).flatMap l.dag.blockTxs,
        tx.id = tx'.id → tx = tx' := by
    intro tx htx tx' htx'
    obtain ⟨x, hx, htx⟩ := List.mem_flatMap.1 htx
    obtain ⟨y, hy, htx'⟩ := List.mem_flatMap.1 htx'
    exact hids x (hmem x hx) y (hmem y hy) tx htx tx' htx'
  refine ⟨fun hdistinct => noReplay_of_coinbases hident ?_, fun hnone => ?_,
    noReplay_of_coinbases hident⟩
  · have hone : ∀ x ∈ l.dag.applied l.subsidy (l.dag.linearize ord),
        ((l.dag.blockTxs x).filter fun tx => tx.isCoinbase).length ≤ 1 := (run_appliedFrom _ _).2
    rw [List.filter_flatMap, List.map_flatMap, List.nodup_flatMap]
    constructor
    · intro x hx
      have hle := hone x hx
      rw [← List.length_map (f := Transaction.id)] at hle
      exact nodup_of_length_le_one hle
    · have hnodup := (hl.dag.nodup_linearize ord).sublist hsub
      refine hnodup.imp_of_mem fun {x y} hx hy hne => ?_
      intro id hid hid'
      obtain ⟨cb, hcb, rfl⟩ := List.mem_map.1 hid
      obtain ⟨cb', hcb', heq⟩ := List.mem_map.1 hid'
      rw [List.mem_filter] at hcb hcb'
      exact hdistinct x (hmem x hx) y (hmem y hy) hne cb hcb.1 cb' hcb'.1 hcb.2 hcb'.2 heq.symm
  · exact hnone.ids_nodup.sublist (List.filter_sublist.map _)

namespace Ledger

open scoped Reference
open Reference (premineTxs spendOffer)

/-- The premine spent in a block. -/
theorem noReplay_of_coinbasesDistinct_spend : ∃ l : Ledger, l.dag.len = 2 ∧
    NoReplay ((applyDag .sorted l.dag.toDagView l.subsidy).accepted.flatMap l.dag.blockTxs) := by
  have hplay : (playNew .sorted 3 1 premineTxs (Word.maxValue 64) [.offer spendOffer]).map
      (fun played => (played.2.dag.len,
        decide (played.2.dag.IdsCollisionFree ∧ played.2.dag.CoinbasesDistinct)))
          = some (2, true) := by
    decide +kernel
  obtain ⟨played, hplayed, heq⟩ := Option.map_eq_some_iff.1 hplay
  obtain ⟨hlen, hdec⟩ := Prod.mk.inj heq
  obtain ⟨hids, hdistinct⟩ := of_decide_eq_true hdec
  exact ⟨played.2, hlen, (noReplay_of_coinbasesDistinct (reachable_of_playNew hplayed) hids
    .sorted).1 hdistinct⟩

/-- A block that repeats the premine once it is spent: the premine takes effect
twice. -/
theorem replayed_premine : ∃ l : Ledger, l.Reachable ∧ l.dag.IdsCollisionFree ∧
    ¬ NoReplay ((applyDag .sorted l.dag.toDagView l.subsidy).accepted.flatMap l.dag.blockTxs) := by
  have hplay : (playNew .sorted 3 1 premineTxs (Word.maxValue 64) [.offer spendOffer,
      .offer (.on [spendOffer.block.id] 1 2 premineTxs)]).map
      (fun played => decide (played.2.dag.IdsCollisionFree ∧ ¬ NoReplay
        ((applyDag .sorted played.2.dag.toDagView played.2.subsidy).accepted.flatMap
          played.2.dag.blockTxs))) = some true := by
    decide +kernel
  obtain ⟨played, hplayed, hdec⟩ := Option.map_eq_some_iff.1 hplay
  exact ⟨played.2, reachable_of_playNew hplayed, of_decide_eq_true hdec⟩

end Ledger
end Kovanica
