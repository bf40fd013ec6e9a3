import Kovanica.State.Accounting

/-!
# What an applied block touches

Two sets of outputs, before and after a block.  What is gone was signed for by its
owner, what is new is an output of the block, and an outpoint of both sets keeps its
output unless it was spent and created again.  Where no id of the block is in use
already, nothing is created again, and what a block creates and spends itself is in
neither set.

## Main results

* `kept_or_signed`, `old_or_created`: the two directions, for any block that applies.
* `mem_next_iff`: the set after the block in closed form, for a block with fresh ids.
-/

namespace Kovanica

open Lib

namespace Transaction

/-- `op` is the outpoint of an output of the transaction, and this one.  The index is narrowed to
32 bits, as it is in the source. -/
def Creates [Crypto] (tx : Transaction) (op : OutPoint) (output : TxOutput) : Prop :=
  ∃ i, tx.outputs[i]? = some output ∧ op = ⟨tx.id, Word.cast 32 i⟩

theorem mem_outputsFrom {id : TxId} {i : Nat} {outputs : List TxOutput} {op : OutPoint}
    {output : TxOutput} :
    (op, output) ∈ outputsFrom id i outputs ↔
      ∃ j, outputs[j]? = some output ∧ op = ⟨id, Word.cast 32 (i + j)⟩ := by
  induction outputs generalizing i with
  | nil => simp [outputsFrom]
  | cons o rest ih =>
      rw [outputsFrom, List.mem_cons, ih]
      constructor
      · rintro (heq | ⟨j, hj, rfl⟩)
        · obtain ⟨rfl, rfl⟩ := Prod.mk.inj heq
          exact ⟨0, rfl, rfl⟩
        · refine ⟨j + 1, hj, ?_⟩
          rw [Nat.add_right_comm, Nat.add_assoc]
      · rintro ⟨j, hj, rfl⟩
        cases j with
        | zero =>
            obtain rfl := Option.some.inj hj
            exact .inl rfl
        | succ j =>
            refine .inr ⟨j, hj, ?_⟩
            rw [Nat.add_right_comm, Nat.add_assoc]

theorem mem_creates [Crypto] {tx : Transaction} {op : OutPoint} {output : TxOutput} :
    (op, output) ∈ tx.event.creates ↔ tx.Creates op output := by
  rw [event, mem_outputsFrom, Creates]
  simp only [Nat.zero_add]

/-- Where no outpoint is created twice, it names the output that was created under it. -/
theorem output_of_creates [Crypto] {tx : Transaction} {op : OutPoint} {output : TxOutput}
    (hnodup : tx.event.createdKeys.Nodup) (h : (op, output) ∈ tx.event.creates) :
    tx.outputs[op.index.val]? = some output := by
  obtain ⟨i, hi, hop⟩ := mem_outputsFrom.1 h
  have hindex : op.index.val = i % 2 ^ 32 := by
    rw [hop, Nat.zero_add, Word.cast_val]
  have hlt : i < tx.outputs.length := (List.getElem?_eq_some_iff.1 hi).1
  have hlt' : op.index.val < tx.outputs.length := by omega
  have hget : tx.outputs[op.index.val]? = some tx.outputs[op.index.val] :=
    List.getElem?_eq_getElem hlt'
  -- the output at the wrapped index has the same outpoint
  have hsame : (op, tx.outputs[op.index.val]) ∈ tx.event.creates := by
    refine mem_outputsFrom.2 ⟨op.index.val, hget, ?_⟩
    have htx : op.tx = tx.id := by rw [hop]
    rw [Nat.zero_add, ← htx]
    exact congrArg (OutPoint.mk op.tx) (Fin.ext (Word.cast_of_lt op.index.isLt).symm)
  rw [hget, (Prod.mk.inj (List.inj_on_of_nodup_map hnodup hsame h rfl)).2]

end Transaction

/-- The ids of the list occur once: in no two of its transactions, and in no
outpoint that is unspent before. -/
structure NewIds [Crypto] (utxo : UtxoSet) (txs : List Transaction) : Prop where
  distinct : (txs.map Transaction.id).Nodup
  unused : ∀ tx ∈ txs, ∀ op ∈ utxo, op.tx ≠ tx.id

section Frame

variable [Crypto] {utxo next : UtxoSet} {txs : List Transaction} {subsidy : U64} {s : BlockSummary}

/-- An old output stays, unless a transaction of the block signs for it. -/
theorem kept_or_signed (h : applyBlock utxo txs subsidy = .ok (next, s)) {op : OutPoint}
    {prev : TxOutput} (hprev : utxo.lookup op = some prev) :
    next.lookup op = some prev ∨ ∃ tx ∈ txs, tx.SignedFor op prev := by
  refine ((applyBlock_licensed h).kept_or_spent hprev).imp_right ?_
  intro ⟨tx, htx, _, hsigned⟩
  exact ⟨tx, (effectOrder_perm txs).mem_iff.1 htx, hsigned⟩

/-- What is unspent afterwards is old, or an output of the block. -/
theorem old_or_created (h : applyBlock utxo txs subsidy = .ok (next, s)) {op : OutPoint}
    {output : TxOutput} (houtput : next.lookup op = some output) :
    utxo.lookup op = some output ∨ ∃ tx ∈ txs, tx.Creates op output := by
  refine ((applyBlock_licensed h).created_or_old houtput).symm.imp_right ?_
  intro ⟨tx, htx, hcreates⟩
  exact ⟨tx, (effectOrder_perm txs).mem_iff.1 htx, Transaction.mem_creates.1 hcreates⟩

/-- With new ids the outputs afterwards are the old ones and those of the block that
the block does not spend. -/
theorem mem_next_iff (h : applyBlock utxo txs subsidy = .ok (next, s)) (hnew : NewIds utxo txs)
    (op : OutPoint) :
    op ∈ next ↔ (op ∈ utxo ∨ ∃ tx ∈ txs, ∃ output, tx.Creates op output) ∧
      ∀ tx ∈ txs, op ∉ tx.inputs.map TxInput.outpoint := by
  have hperm := effectOrder_perm txs
  have hrun := (applyBlock_licensed h).run
  have hcreated := hrun.created_nodup Transaction.id OutPoint.tx Transaction.tx_of_mem_createdKeys
    ((hperm.map _).nodup_iff.2 hnew.distinct)
  have hmem : ∀ k, k ∈ Tokens.created ((effectOrder txs).map Transaction.event) ↔
      ∃ tx ∈ txs, ∃ output, tx.Creates k output := by
    intro k
    simp only [Tokens.created, List.flatMap_map, List.mem_flatMap, hperm.mem_iff,
      Tokens.Event.createdKeys, List.mem_map, Prod.exists, Transaction.mem_creates,
      exists_and_right, exists_eq_right]
  have hspent : op ∉ Tokens.spent ((effectOrder txs).map Transaction.event) ↔
      ∀ tx ∈ txs, op ∉ tx.inputs.map TxInput.outpoint := by
    simp only [Tokens.spent, List.flatMap_map, List.mem_flatMap, hperm.mem_iff, not_exists,
      not_and, Transaction.event]
  have hlive := (hrun.live_iff hcreated fun k hk hold => by
    obtain ⟨tx, htx, output, i, _, rfl⟩ := (hmem k).1 hk
    exact hnew.unused tx htx _ hold rfl).2.2 op
  rw [hlive, hmem, hspent]

/-- An applied block removes only what is signed for, adds only its own outputs, and
leaves every other entry as it is.  An entry of both sets that differs was spent with
its owner's signature and created again; with new ids there is none, and what the
block both creates and spends is in neither set. -/
theorem applyBlock_frame (h : applyBlock utxo txs subsidy = .ok (next, s)) :
    (∀ op prev, utxo.lookup op = some prev → op ∉ next →
      ∃ tx ∈ txs, ∃ input ∈ tx.inputs, input.outpoint = op ∧
        verify prev.owner tx.sighash input.signature = true) ∧
    (∀ op output, next.lookup op = some output → op ∉ utxo →
      ∃ tx ∈ txs, ∃ i, tx.outputs[i]? = some output ∧ op = ⟨tx.id, Word.cast 32 i⟩) ∧
    (∀ op prev output, utxo.lookup op = some prev → next.lookup op = some output →
      prev ≠ output → (∃ tx ∈ txs, tx.SignedFor op prev) ∧ ∃ tx ∈ txs, tx.Creates op output) ∧
    (NewIds utxo txs →
      (∀ op, op ∈ utxo → op ∈ next → next.lookup op = utxo.lookup op) ∧
      ∀ op, (∃ tx ∈ txs, ∃ output, tx.Creates op output) →
        (∃ tx ∈ txs, op ∈ tx.inputs.map TxInput.outpoint) → op ∉ utxo ∧ op ∉ next) := by
  refine ⟨fun op prev hprev hgone => ?_, fun op output houtput hnot => ?_,
    fun op prev output hprev houtput hne => ⟨?_, ?_⟩, fun hnew => ⟨fun op hold hin => ?_,
    fun op hcreated hspent => ⟨fun hold => ?_, fun hin => ?_⟩⟩⟩
  · rcases kept_or_signed h hprev with hkept | hsigned
    · exact absurd (Finmap.mem_of_lookup_eq_some hkept) hgone
    · exact hsigned
  · rcases old_or_created h houtput with hold | hcreated
    · exact absurd (Finmap.mem_of_lookup_eq_some hold) hnot
    · exact hcreated
  · rcases kept_or_signed h hprev with hkept | hsigned
    · exact absurd (Option.some.inj (hkept.symm.trans houtput)) hne
    · exact hsigned
  · rcases old_or_created h houtput with hold | hcreated
    · exact absurd (Option.some.inj (hprev.symm.trans hold)) hne
    · exact hcreated
  · obtain ⟨output, houtput⟩ := Finmap.mem_iff.1 hin
    rcases old_or_created h houtput with hkept | ⟨tx, htx, i, _, rfl⟩
    · rw [houtput, hkept]
    · exact absurd rfl (hnew.unused tx htx _ hold)
  · obtain ⟨tx, htx, output, i, _, rfl⟩ := hcreated
    exact hnew.unused tx htx _ hold rfl
  · obtain ⟨tx, htx, hmem⟩ := hspent
    exact ((mem_next_iff h hnew op).1 hin).2 tx htx hmem

end Frame

open scoped Passing
open Reference (founder premine)
open Passing (grant nine seven)

/-- A block that spends a grant and what this leaves, next to an output it has nothing to do
with.  The grant is gone with its owner's signature, the last output is new, the other output
is as it was, and the one that is created and spent is in neither set. -/
theorem applyBlock_frame_chain : ∃ utxo next s,
    applyBlock utxo [nine, seven] 0 = .ok (next, s) ∧
    (∃ tx ∈ [nine, seven], ∃ input ∈ tx.inputs, input.outpoint = ⟨grant.id, 0⟩ ∧
      verify founder tx.sighash input.signature = true) ∧
    (∃ tx ∈ [nine, seven], ∃ i, tx.outputs[i]? = some ⟨7, founder⟩ ∧
      (⟨seven.id, 0⟩ : OutPoint) = ⟨tx.id, Word.cast 32 i⟩) ∧
    next.lookup ⟨premine.id, 0⟩ = utxo.lookup ⟨premine.id, 0⟩ ∧
    (⟨nine.id, 0⟩ : OutPoint) ∉ utxo ∧ (⟨nine.id, 0⟩ : OutPoint) ∉ next := by
  let utxo : UtxoSet :=
    (Finmap.singleton ⟨grant.id, 0⟩ ⟨10, founder⟩).insert ⟨premine.id, 0⟩ ⟨1, founder⟩
  have hcheck : (applyBlock utxo [nine, seven] 0).toOption.any (fun (next, _) => decide (
      utxo.lookup ⟨grant.id, 0⟩ = some ⟨10, founder⟩ ∧ (⟨grant.id, 0⟩ : OutPoint) ∉ next ∧
      next.lookup ⟨seven.id, 0⟩ = some ⟨7, founder⟩ ∧ (⟨seven.id, 0⟩ : OutPoint) ∉ utxo ∧
      (⟨premine.id, 0⟩ : OutPoint) ∈ utxo ∧ (⟨premine.id, 0⟩ : OutPoint) ∈ next ∧
      ([nine, seven].map Transaction.id).Nodup ∧
      (∀ tx ∈ [nine, seven], ∀ op ∈ utxo.keys, op.tx ≠ tx.id) ∧
      (nine.outputs[0]? = some ⟨9, founder⟩ ∧
        (⟨nine.id, 0⟩ : OutPoint) ∈ seven.inputs.map TxInput.outpoint))) = true := by
    decide +kernel
  obtain ⟨⟨next, s⟩, happlied, hdec⟩ := Option.any_eq_true _ _ |>.1 hcheck
  obtain ⟨hgrant, hgone, hseven, hfresh, hold, hin, hdistinct, hunused, hcreated, hspent⟩ :=
    of_decide_eq_true hdec
  have happlied := ok_of_toOption happlied
  obtain ⟨hsigned, hnew, _, hids⟩ := applyBlock_frame happlied
  obtain ⟨hkept, hneither⟩ := hids
    ⟨hdistinct, fun tx htx op hop => hunused tx htx op (Finmap.mem_keys.2 hop)⟩
  exact ⟨utxo, next, s, happlied, hsigned _ _ hgrant hgone, hnew _ _ hseven hfresh,
    hkept _ hold hin, hneither ⟨nine.id, 0⟩
      ⟨nine, List.mem_cons_self, ⟨9, founder⟩, 0, hcreated, rfl⟩
      ⟨seven, List.mem_cons_of_mem _ List.mem_cons_self, hspent⟩⟩

end Kovanica
