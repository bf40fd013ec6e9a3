import Kovanica.State.Payment
import Kovanica.State.History

/-!
# The balance of an address

What the blocks that take effect pay an address is what they spend of it and what it has
left.  An outpoint stands for one output, the one its transaction lists under the index,
as long as transaction ids do not collide.

## Main results

* `outputNamed_of_creates`: an outpoint names what it holds.
* `balance_replay`: what a replay leaves an address and what the address spends, against what
  it is paid.
-/

namespace Kovanica

open Lib

/-- What an output is worth to an address. -/
def TxOutput.worth (addr : Address) (output : TxOutput) : Nat :=
  if output.owner = addr then output.value.val else 0

/-- What a transaction pays an address. -/
def Transaction.paidTo (addr : Address) (tx : Transaction) : Nat :=
  (tx.outputs.map (TxOutput.worth addr)).sum

/-- What the inputs of a transaction take, at the worth of each outpoint. -/
def Transaction.taken (worthOf : OutPoint → Nat) (tx : Transaction) : Nat :=
  (tx.inputs.map fun input => worthOf input.outpoint).sum

namespace DagView

variable [Crypto] {d : DagView} {subsidy : U64}

/-- The output an outpoint stands for, among the transactions of some blocks. -/
def outputNamed (d : DagView) (ids : List BlockId) (op : OutPoint) : Option TxOutput :=
  ((ids.flatMap d.blockTxs).find? fun tx => tx.id = op.tx).bind fun tx =>
    tx.outputs[op.index.val]?

/-- What an outpoint is worth to an address, nothing if it stands for no output. -/
def worthNamed (d : DagView) (ids : List BlockId) (addr : Address) (op : OutPoint) : Nat :=
  ((d.outputNamed ids op).map (TxOutput.worth addr)).getD 0

/-- Transactions of one id are the same transaction. -/
def IdsApartIn (d : DagView) (ids : List BlockId) : Prop :=
  ∀ tx ∈ ids.flatMap d.blockTxs, ∀ tx' ∈ ids.flatMap d.blockTxs, tx.id = tx'.id → tx = tx'

theorem IdsCollisionFree.apartIn (h : d.IdsCollisionFree) {ids : List BlockId}
    (hids : ∀ x ∈ ids, x ∈ d.nodes) : d.IdsApartIn ids := by
  intro tx htx tx' htx'
  obtain ⟨x, hx, htx⟩ := List.mem_flatMap.1 htx
  obtain ⟨y, hy, htx'⟩ := List.mem_flatMap.1 htx'
  exact h x (hids x hx) y (hids y hy) tx htx tx' htx'

/-- The output a transaction creates is the one its outpoint stands for. -/
theorem outputNamed_of_creates {ids : List BlockId} (hids : d.IdsApartIn ids) {tx : Transaction}
    (htx : tx ∈ ids.flatMap d.blockTxs) (hnodup : tx.event.createdKeys.Nodup) {op : OutPoint}
    {output : TxOutput} (h : (op, output) ∈ tx.event.creates) :
    d.outputNamed ids op = some output := by
  have hid : op.tx = tx.id := tx.tx_of_mem_createdKeys op (List.mem_map_of_mem h)
  have hfind : ((ids.flatMap d.blockTxs).find? fun tx' => tx'.id = op.tx) = some tx := by
    cases hfind : (ids.flatMap d.blockTxs).find? fun tx' => tx'.id = op.tx with
    | none =>
        have hnone := List.find?_eq_none.1 hfind tx htx
        rw [hid] at hnone
        simp at hnone
    | some tx' =>
        have hid' : tx'.id = op.tx := by simpa using List.find?_some hfind
        rw [hids tx' (List.mem_of_find?_eq_some hfind) tx htx (hid'.trans hid)]
  rw [outputNamed, hfind, Option.bind_some]
  exact Transaction.output_of_creates hnodup h

/-- What the blocks that apply pay an address, less what they take from it, is the balance
they leave. -/
theorem balance_replay {ids : List BlockId} (hids : d.IdsApartIn ids) (subsidy : U64)
    (addr : Address) :
    (d.replay subsidy ids).balance addr +
        (((d.applied subsidy ids).flatMap d.blockTxs).map
          (Transaction.taken (d.worthNamed ids addr))).sum =
      (((d.applied subsidy ids).flatMap d.blockTxs).map (Transaction.paidTo addr)).sum := by
  have hperm := effects_perm (d := d) (d.applied subsidy ids)
  have hrun : Tokens.Run ∅ ((effects d (d.applied subsidy ids)).map Transaction.event)
      (d.replay subsidy ids) := (run_appliedFrom ∅ ids).1
  have hstored : ∀ tx ∈ effects d (d.applied subsidy ids), tx ∈ ids.flatMap d.blockTxs := by
    intro tx htx
    obtain ⟨x, hx, htx⟩ := List.mem_flatMap.1 (hperm.mem_iff.1 htx)
    exact List.mem_flatMap.2 ⟨x, (appliedFrom_sublist _ _).subset hx, htx⟩
  have hold : ∀ op output, (∅ : UtxoSet).lookup op = some output →
      output.worth addr = d.worthNamed ids addr op := by
    intro op output h
    cases h
  -- a created output is worth what its outpoint stands for
  have hcreates : ∀ e ∈ (effects d (d.applied subsidy ids)).map Transaction.event,
      ∀ t ∈ e.creates, t.2.worth addr = d.worthNamed ids addr t.1 := by
    intro e he t ht
    obtain ⟨tx, htx, rfl⟩ := List.mem_map.1 he
    rw [worthNamed, outputNamed_of_creates hids (hstored tx htx)
      (hrun.creates_nodup _ (List.mem_map_of_mem htx)) ht]
    rfl
  have hpriced := (hrun.priced (f := TxOutput.worth addr) hold hcreates).2
  have htaken : ((Tokens.spent ((effects d (d.applied subsidy ids)).map
      Transaction.event)).map (d.worthNamed ids addr)).sum =
      ((effects d (d.applied subsidy ids)).map
        (Transaction.taken (d.worthNamed ids addr))).sum := by
    rw [Tokens.spent, List.flatMap_map, List.map_flatMap, List.flatMap_def, List.sum_flatten,
      List.map_map]
    refine congrArg List.sum (List.map_congr_left fun tx _ => ?_)
    rw [Transaction.taken, Function.comp_apply, Transaction.event, List.map_map]
    rfl
  have hpaid : (((effects d (d.applied subsidy ids)).map Transaction.event).map fun e =>
      (e.creates.map fun t => (t.2.worth addr)).sum) =
      (effects d (d.applied subsidy ids)).map (Transaction.paidTo addr) := by
    rw [List.map_map]
    refine List.map_congr_left fun tx _ => ?_
    rw [Transaction.paidTo, ← tx.map_creates]
    rfl
  rw [htaken, hpaid] at hpriced
  rw [UtxoSet.balance_eq, ← (hperm.map _).sum_eq, ← (hperm.map _).sum_eq]
  have hnone : Tokens.tally (TxOutput.worth addr) (∅ : UtxoSet) = 0 := rfl
  rw [hnone, Nat.zero_add] at hpriced
  exact hpriced

end DagView

end Kovanica
