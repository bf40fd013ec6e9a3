import Kovanica.State.Frame
import Kovanica.State.History
import Kovanica.State.Restore
import Kovanica.State.Structure

/-!
# Where an unspent output comes from

Whatever a replay leaves unspent was created by a transaction of one of its blocks, and
that transaction is well structured.  As long as transaction ids do not collide, a
transaction that would create an outpoint of the ledger state again is the one that
created it, and the output is the same.

## Main results

* `origin_of_replay`: the origin, for a replay of any list.
* `IdsApart.origin`: the same read backwards, from a second creation to the first.
-/

namespace Kovanica

open Lib

/-! ## Outputs of an applied block -/

theorem validateOutputs_ne_zero {index j : Nat} {outputs : List TxOutput} {sum : U64}
    (h : validateOutputs index j outputs sum = .ok ()) : ∀ o ∈ outputs, o.value ≠ 0 := by
  induction outputs generalizing j sum with
  | nil => simp
  | cons output rest ih =>
      rw [validateOutputs] at h
      split at h
      · cases h
      rename_i hzero
      split at h
      · cases h
      · exact List.forall_mem_cons.2 ⟨hzero, ih h⟩

theorem validateTxStructure_ne_zero {index : Nat} {tx : Transaction}
    (h : validateTxStructure index tx = .ok ()) : ∀ o ∈ tx.outputs, o.value ≠ 0 := by
  unfold validateTxStructure at h
  split at h
  · cases h
  split at h
  · cases h
  split at h
  · cases h
  · exact validateOutputs_ne_zero h

theorem validateTxs_ne_zero {i : Nat} {txs : List Transaction} (h : validateTxs i txs = .ok ()) :
    ∀ tx ∈ txs, ∀ o ∈ tx.outputs, o.value ≠ 0 := by
  induction txs generalizing i with
  | nil => simp
  | cons tx rest ih =>
      rw [validateTxs] at h
      split at h
      · cases h
      · rename_i hfirst
        exact List.forall_mem_cons.2 ⟨validateTxStructure_ne_zero hfirst, ih h⟩

variable [Crypto]

/-! ## Origins -/

/-- A transaction that creates this output under this outpoint, and under no other
outpoint twice, all of its outputs worth something. -/
structure Origin (tx : Transaction) (op : OutPoint) (output : TxOutput) : Prop where
  creates : (op, output) ∈ tx.event.creates
  nodup : tx.event.createdKeys.Nodup
  outputs_ne_zero : ∀ o ∈ tx.outputs, o.value ≠ 0

namespace Origin

variable {tx : Transaction} {op : OutPoint} {output : TxOutput}

theorem tx_eq (h : Origin tx op output) : op.tx = tx.id :=
  tx.tx_of_mem_createdKeys op (List.mem_map_of_mem h.creates)

theorem value_ne_zero (h : Origin tx op output) : output.value ≠ 0 := by
  obtain ⟨i, hi, _⟩ := Transaction.mem_creates.1 h.creates
  exact h.outputs_ne_zero output (List.mem_of_getElem? hi)

end Origin

/-- What an applied block leaves was there before, or one of its transactions is the
origin. -/
theorem old_or_origin {utxo next : UtxoSet} {txs : List Transaction} {subsidy : U64}
    {s : BlockSummary} (h : applyBlock utxo txs subsidy = .ok (next, s)) {op : OutPoint}
    {output : TxOutput} (houtput : next.lookup op = some output) :
    utxo.lookup op = some output ∨ ∃ tx ∈ txs, Origin tx op output := by
  refine (old_or_created h houtput).imp_right ?_
  intro ⟨tx, htx, hcreates⟩
  refine ⟨tx, htx, Transaction.mem_creates.2 hcreates, ?_, ?_⟩
  · apply (applyBlock_spec h).run.creates_nodup
    exact List.mem_map_of_mem ((effectOrder_perm txs).mem_iff.2 htx)
  · exact validateTxs_ne_zero (validateTxs_of_applyBlock h) tx htx

/-- Everything in a replay has its origin in one of the blocks. -/
theorem origin_of_replay {d : DagView} {subsidy : U64} {ids : List BlockId} {op : OutPoint}
    {output : TxOutput} (h : (d.replay subsidy ids).lookup op = some output) :
    ∃ x ∈ ids, ∃ tx ∈ d.blockTxs x, Origin tx op output := by
  induction ids using List.reverseRecOn with
  | nil => cases h
  | append_singleton ids x ih =>
      have hold : (d.replay subsidy ids).lookup op = some output →
          ∃ y ∈ ids ++ [x], ∃ tx ∈ d.blockTxs y, Origin tx op output := by
        intro hold
        obtain ⟨y, hy, hrest⟩ := ih hold
        exact ⟨y, List.mem_append_left _ hy, hrest⟩
      rw [DagView.replay_concat] at h
      by_cases happlies : ∃ next, Applies d subsidy (d.replay subsidy ids) x next
      · obtain ⟨next, happlies⟩ := happlies
        rw [applyStored_of_applies happlies] at h
        obtain ⟨txs, summary, hdecode, happly⟩ := happlies
        rcases old_or_origin happly h with hkept | ⟨tx, htx, horigin⟩
        · exact hold hkept
        · refine ⟨x, List.mem_append_right _ (List.mem_singleton.2 rfl), tx, ?_, horigin⟩
          rw [DagView.blockTxs, hdecode]
          exact htx
      · rw [applyStored_of_not_applies (not_exists.1 happlies)] at h
        exact hold h

namespace Ledger

variable {l : Ledger}

/-- None of these transactions has the id of another transaction that is stored. -/
def IdsApart (l : Ledger) (txs : List Transaction) : Prop :=
  ∀ tx ∈ txs, ∀ x ∈ l.dag.nodes, ∀ stored ∈ l.dag.blockTxs x, tx.id = stored.id → tx = stored

instance (txs : List Transaction) : Decidable (l.IdsApart txs) :=
  decidable_of_iff (∀ tx ∈ txs, ∀ x ∈ l.dag.nodes.keys, ∀ stored ∈ l.dag.blockTxs x,
    tx.id = stored.id → tx = stored) (by simp only [IdsApart, Finmap.mem_keys])

/-- An outpoint of the ledger state that such a transaction would create, it has created. -/
theorem IdsApart.origin {txs : List Transaction} (h : l.IdsApart txs) (hl : l.Unbounded)
    {ord : HashOrder} {state : UtxoSet} (hstate : l.ledgerState ord = some state)
    {op : OutPoint} {output : TxOutput} (houtput : state.lookup op = some output) :
    output.value ≠ 0 ∧ ∀ tx ∈ txs, op ∈ tx.event.createdKeys → (op, output) ∈ tx.event.creates := by
  have hreplay := Option.some.inj ((hl.ledgerState ord).symm.trans hstate)
  rw [← hreplay] at houtput
  obtain ⟨x, hx, stored, hstored, horigin⟩ := origin_of_replay houtput
  refine ⟨horigin.value_ne_zero, fun tx htx hop => ?_⟩
  have hmem : x ∈ l.dag.nodes := (hl.reachable.wellFormed.dag.mem_linearize ord x).1 hx
  have hid : tx.id = stored.id := by
    rw [← tx.tx_of_mem_createdKeys op hop, horigin.tx_eq]
  rw [h tx htx x hmem stored hstored hid]
  exact horigin.creates

end Ledger

end Kovanica
